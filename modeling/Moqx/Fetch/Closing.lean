/-
  Subject: The end of an upstream stream, and what it leaves of its writeback.

  Whoever started the stream waits for the completion baton, and whoever wants what the stream will bring
  waits on the entry among the fetches in progress until the cursor is invalid. A stream has to post the
  one and retire the other when it ends, on each of the ways it can end.

  * the batons are posted at the end and not before.
-/
import Moqx.Fetch.InFlight

namespace Moqx

open MoqxCache FetchRangeIterator FetchWriteback

/-! ## 1. The end of a stream -/

namespace FetchRangeIterator

variable {h : GroupRef → CacheGroup} {t : CacheTrack} {it : FetchRangeIterator}

variable {loc : AbsoluteLocation}

theorem next_invalid (hv : it.isValid = false) : (it.next h t).isValid = false := by
  unfold next
  rw [hv]
  exact hv

/-- The location lies behind the range, seen in the order of the fetch. -/
def Behind (it : FetchRangeIterator) (loc : AbsoluteLocation) : Prop :=
  if it.descending then loc < it.minLocation else it.maxLocation < loc

instance {loc : AbsoluteLocation} : Decidable (it.Behind loc) :=
  inferInstanceAs (Decidable (if it.descending then loc < it.minLocation else it.maxLocation < loc))

theorem advanceTo_eq : it.advanceTo h t loc =
    if it.Behind loc then { it with current := loc, isValid := false }
    else skipGaps h t { it with current := loc } := by
  have hcond : (if !it.descending then it.maxLocation < loc else loc < it.minLocation) ↔ it.Behind loc := by
    unfold Behind
    cases it.descending with
    | false => exact Iff.rfl
    | true => exact Iff.rfl
  by_cases hb : it.Behind loc
  · rw [if_pos hb]
    exact if_pos (hcond.mpr hb)
  · rw [if_neg hb]
    exact if_neg fun h => hb (hcond.mp h)

theorem advanceTo_invalid (hv : it.isValid = false) :
    (it.advanceTo h t loc).isValid = false := by
  rw [advanceTo_eq]
  split
  · rfl
  · rw [skipGaps_invalid]
    · exact hv
    · exact hv

theorem advanceTo_behind (hb : it.Behind loc) :
    (it.advanceTo h t loc).isValid = false := by
  rw [advanceTo_eq, if_pos hb]

end FetchRangeIterator

namespace FetchWriteback

variable {s s' s'' : State} {fin post : Bool}

variable {call : FetchCall} {now : TimePoint}

/-- The call ends the stream: it says so and is accepted, or makes the writeback reset itself. -/
def endsWith (s : State) (now : TimePoint) (call : FetchCall) : Bool :=
  call.endsStream && decide ((FetchWriteback.call s now call).1 = .forwarded) || overflows s call

/-- The call posts the completion baton. While the writeback caches, a payload within the object's length does
    not, even if it ends the stream. -/
def posts (s : State) (now : TimePoint) (call : FetchCall) : Bool :=
  match call with
  | .objectPayload payload finFetch => overflows s call || finFetch && s.2.skipCaching s.1 &&
      decide ((FetchWriteback.call s now (.objectPayload payload finFetch)).1 = .forwarded)
  | call => endsWith s now call

/-- Nobody waits on the writeback: its cursor is invalid, it has no entry, and the waiters are woken. -/
structure Closed (w : FetchWriteback) : Prop where
  cursor : w.fetchRangeIt.isValid = false
  entry : w.fetchInProgressIt = none
  woken : w.inProgress = true

/-- A call that ends the stream or not, and posts the completion baton or not. -/
structure Ends (fin post : Bool) (s s' : State) : Prop where
  complete : s'.2.complete = (s.2.complete || post)
  closes : fin = true → s'.2.Closed
  stays : s.2.Closed → s'.2.Closed

theorem Ends.trans (h : Ends false false s s') (h' : Ends fin post s' s'') : Ends fin post s s'' where
  complete := by rw [h'.complete, h.complete, Bool.or_false]
  closes := h'.closes
  stays hc := h'.stays (h.stays hc)

theorem Ends.of_moved (hc : s'.2.complete = s.2.complete)
    (hv : s.2.fetchRangeIt.isValid = false → s'.2.fetchRangeIt.isValid = false)
    (hk : s'.2.fetchInProgressIt = s.2.fetchInProgressIt) (hi : s'.2.inProgress = s.2.inProgress) :
    Ends false false s s' where
  complete := by rw [hc, Bool.or_false]
  closes := nofun
  stays h := ⟨hv h.cursor, hk.trans h.entry, hi.trans h.woken⟩

theorem Ends.refl (s : State) : Ends false false s s := .of_moved rfl (fun h => h) rfl rfl

theorem updateInProgress_closed (hv : s.2.fetchRangeIt.isValid = false) : (updateInProgress s).2.Closed := by
  refine ⟨?_, ?_, ?_⟩
  · rw [updateInProgress_current]
    exact hv
  · rw [updateInProgress_key]
    unfold nextKey
    rw [hv]
    rfl
  · unfold updateInProgress
    rw [hv]
    rfl

theorem updateInProgress_complete : (updateInProgress s).2.complete = s.2.complete := by
  obtain ⟨pin, baton, h⟩ := @updateInProgress_writeback s
  rw [h]

theorem updateInProgress_ends : Ends false false s (updateInProgress s) where
  complete := by rw [updateInProgress_complete, Bool.or_false]
  closes := nofun
  stays h := updateInProgress_closed h.cursor

theorem endStream_ends (hv : s.2.fetchRangeIt.isValid = false) : Ends true true s (endStream s) := by
  have hclosed := updateInProgress_closed hv
  have hend : (endStream s).2.Closed := ⟨hclosed.cursor, hclosed.entry, hclosed.woken⟩
  exact ⟨by rw [Bool.or_true]; rfl, fun _ => hend, fun _ => hend⟩

theorem next_ends : Ends false false s (next s) :=
  .of_moved rfl (fun h => next_invalid h) rfl rfl

theorem markNonExistentTo_ends {target : AbsoluteLocation} (h : markNonExistentTo s target = some s') :
    Ends false false s s' := by
  obtain ⟨-, gaps, it, hw, hit⟩ := markNonExistentTo_gapped h
  refine .of_moved (by rw [hw]) (fun hv => ?_) (by rw [hw]) (by rw [hw])
  rw [hw]
  rcases hit with ⟨heq, -⟩ | ⟨-, c, heq⟩
  · simp only [heq]
    exact hv
  · simp only [heq]
    exact advanceTo_invalid hv

theorem finishRange_ends (h : finishRange s = some s') :
    Ends false false s s' ∧ s'.2.fetchRangeIt.isValid = false := by
  obtain ⟨-, gaps, it, hw, -⟩ := finishRange_gapped h
  have hv : s'.2.fetchRangeIt.isValid = false := by
    rw [hw]
    rfl
  exact ⟨.of_moved (by rw [hw]) (fun _ => hv) (by rw [hw]) (by rw [hw]), hv⟩

theorem onFetchStreamEnd_ends (h : onFetchStreamEnd s = some s') : Ends true true s s' := by
  rw [onFetchStreamEnd_eq] at h
  obtain ⟨d, hd, rfl⟩ := Option.map_eq_some_iff.mp h
  split at hd
  · cases hd
    have hinvalid : Ends false false s (invalidate s) := .of_moved rfl (fun _ => rfl) rfl rfl
    exact hinvalid.trans (endStream_ends rfl)
  · obtain ⟨hfinish, hv⟩ := finishRange_ends hd
    exact hfinish.trans (endStream_ends hv)

theorem afterObject_ends (h : afterObject s fin = some s') : Ends fin fin s s' := by
  have hnext := (@next_ends s).trans updateInProgress_ends
  rw [afterObject_eq] at h
  split at h
  · rename_i hfin
    obtain ⟨d, hd, rfl⟩ := Option.map_eq_some_iff.mp h
    obtain ⟨hfinish, hv⟩ := finishRange_ends hd
    rw [hfin]
    exact hnext.trans (hfinish.trans (endStream_ends hv))
  · rename_i hfin
    cases h
    rw [Bool.not_eq_true] at hfin
    rw [hfin]
    exact hnext

theorem cacheImpl_ends {write : ObjectWrite} {reply : Reply} (h : cacheImpl s write fin = some (reply, s')) :
    Ends (fin && write.complete && reply.isOk) (fin && write.complete && reply.isOk) s s' := by
  obtain ⟨d, hd, hafter⟩ := cacheImpl_caches h
  have hreceive : Ends false false s (stored s write, s.2.receive write.location) := by
    unfold receive
    split
    · exact .of_moved rfl (fun hv => hv) rfl rfl
    · exact .of_moved rfl (fun hv => hv) rfl rfl
  have hmoved := hreceive.trans (markNonExistentTo_ends hd)
  cases hafter with
  | refused e =>
    rw [show (Except.error e : Reply).isOk = false from rfl, Bool.and_false]
    exact hmoved.trans updateInProgress_ends
  | @whole tr _ hc _ h =>
    have hlargest : Ends false false s (d.1.setTrack d.2.track tr, d.2) :=
      hmoved.trans (.of_moved rfl (fun hv => hv) rfl rfl)
    rw [hc, Bool.and_true, show (Except.ok () : Reply).isOk = true from rfl, Bool.and_true]
    exact hlargest.trans (afterObject_ends h)
  | part hc =>
    rw [hc, Bool.and_false, Bool.false_and]
    exact hmoved.trans (.of_moved rfl (fun hv => hv) rfl rfl)

/-! ## 2. The calls -/

theorem Outcome.ofReply_forwarded {reply : Reply} :
    decide (Outcome.ofReply reply = .forwarded) = reply.isOk := by
  cases reply with
  | error e => rfl
  | ok _ => rfl

theorem reset_ends : Ends true true s (reset s) := by
  have hclosed := @updateInProgress_closed
    (invalidate (s.1, { s.2 with wasReset := true, complete := true })) rfl
  refine ⟨?_, fun _ => hclosed, fun _ => hclosed⟩
  unfold reset
  rw [updateInProgress_complete, Bool.or_true]
  rfl

theorem afterChunk_ends {objectComplete : Bool} (h : afterChunk s objectComplete fin = some s') :
    Ends fin false s s' := by
  rw [afterChunk_eq] at h
  cases fin with
  | true =>
    simp only [Bool.or_true, if_true] at h
    obtain ⟨d, hd, rfl⟩ := Option.map_eq_some_iff.mp h
    obtain ⟨hfinish, hv⟩ := finishRange_ends hd
    have hmoved := (next_ends.trans hfinish).trans updateInProgress_ends
    exact ⟨hmoved.complete, fun _ => updateInProgress_closed hv, hmoved.stays⟩
  | false =>
    simp only [Bool.or_false, Bool.false_eq_true, if_false, Option.map_some] at h
    split at h
    · cases h
      exact next_ends.trans updateInProgress_ends
    · cases h
      exact .refl s

theorem endOfUnknownRange_ends {groupId objectId : Nat}
    (hfin : fin = true → s.2.fetchRangeIt.isValid = false ∨ s.2.fetchRangeIt.Behind ⟨groupId, objectId⟩) :
    Ends fin fin s (endOfUnknownRange s groupId objectId fin) := by
  have hmoved : Ends false false s (advanceTo s ⟨groupId, objectId⟩) :=
    .of_moved rfl (fun hv => advanceTo_invalid hv) rfl rfl
  have hup := (hmoved.trans next_ends).trans updateInProgress_ends
  refine ⟨?_, fun hf => ?_, fun hc => ?_⟩
  · show ((updateInProgress _).2.complete || fin) = _
    rw [hup.complete, Bool.or_false]
  · have hv : (advanceTo s ⟨groupId, objectId⟩).2.fetchRangeIt.isValid = false := by
      rcases hfin hf with hv | hb
      · exact advanceTo_invalid hv
      · exact advanceTo_behind hb
    have hclosed := @updateInProgress_closed (next (advanceTo s ⟨groupId, objectId⟩))
      (next_invalid hv)
    exact ⟨hclosed.cursor, hclosed.entry, hclosed.woken⟩
  · have hclosed := hup.stays hc
    exact ⟨hclosed.cursor, hclosed.entry, hclosed.woken⟩

theorem endsStream_of_begins {loc : AbsoluteLocation} (h : call.begins = some loc) :
    call.endsStream = false := by
  cases call with
  | beginObject => rfl
  | _ => cases h

theorem endsWith_of {o : Outcome} (h : FetchWriteback.call s now call = (o, s'))
    (fits : overflows s call = false) :
    endsWith s now call = (call.endsStream && decide (o = .forwarded)) := by
  unfold endsWith
  rw [h, fits, Bool.or_false]

theorem posts_eq (h : ∀ payload fin, call = .objectPayload payload fin → fin = true →
      s.2.skipCaching s.1 = true ∨ overflows s call = true) : posts s now call = endsWith s now call := by
  cases call with
  | objectPayload payload fin =>
    unfold posts endsWith
    simp only [FetchCall.endsStream]
    cases fin with
    | false => rw [Bool.false_and, Bool.false_and, Bool.or_false, Bool.false_or]
    | true =>
      rcases h payload true rfl rfl with h | h
      · rw [h, Bool.and_true, Bool.or_comm]
      · rw [h, Bool.true_or, Bool.or_true]
  | _ => rfl

theorem posts_of_open (h : endsWith s now call = false) :
    posts s now call = false := by
  cases call with
  | objectPayload payload fin =>
    obtain ⟨hend, hover⟩ := Bool.or_eq_false_iff.mp h
    unfold posts
    simp only [hover, Bool.false_or]
    rw [Bool.and_right_comm]
    exact Bool.and_eq_false_imp.mpr fun htrue => absurd (htrue.symm.trans hend) (by decide)
  | _ => exact h

/-- The calls that retire the writeback's entry if they end the stream: an unknown range that does lies behind
    the range, or the cursor is invalid already. -/
def Retirable (s : State) : FetchCall → Prop
  | .endOfUnknownRange groupId objectId finFetch => finFetch = true →
      s.2.fetchRangeIt.isValid = false ∨ s.2.fetchRangeIt.Behind ⟨groupId, objectId⟩
  | _ => True

/-- The calls that close the writeback if they end the stream: a payload does not carry the end while the
    writeback caches, and an unknown range that does lies behind the range, or the cursor is invalid
    already. -/
def Closable (s : State) : FetchCall → Prop
  | .objectPayload _ finFetch => finFetch = true → s.2.skipCaching s.1 = true
  | call => Retirable s call

theorem Closable.retirable (h : Closable s call) : Retirable s call := by
  cases call with
  | objectPayload => trivial
  | _ => exact h

theorem Closable.posts_eq (h : Closable s call) :
    posts s now call = endsWith s now call := by
  refine FetchWriteback.posts_eq fun payload fin hcall hfin => Or.inl ?_
  subst hcall
  exact h hfin

/-- **A call closes the writeback exactly if it ends the stream.** -/
theorem call_ends (hc : Retirable s call) (h : (FetchWriteback.call s now call).1 ≠ .aborted) :
    Ends (endsWith s now call) (posts s now call) s (FetchWriteback.call s now call).2 := by
  have hdoes := call_does h
  generalize hres : FetchWriteback.call s now call = res at hdoes
  cases hdoes with
  | @idle o w ha hopen fits =>
    have hends : endsWith s now call = false := by
      rw [endsWith_of hres fits]
      cases hfin : call.endsStream with
      | false => rfl
      | true => exact decide_eq_false (hopen hfin)
    rw [posts_of_open hends, hends]
    obtain ⟨subgroup, length, offset, accepted, rfl⟩ := ha
    exact .of_moved rfl (fun hv => hv) rfl rfl
  | ended hfin hskip fits h =>
    have hposts : posts s now call = endsWith s now call := by
      refine posts_eq fun payload fin hcall _ => Or.inl (hskip.resolve_left ?_)
      rw [hcall]
      exact nofun
    rw [hposts, endsWith_of hres fits, hfin]
    exact onFetchStreamEnd_ends h
  | @cached w _ write reply d ha _ whole _ _ fits h part ha' =>
    rw [posts_eq fun payload fin hcall => absurd hcall (whole payload fin), endsWith_of hres fits,
      Outcome.ofReply_forwarded]
    have he := cacheImpl_ends h
    have hfin : (call.endsStream && write.complete) = call.endsStream := by
      cases hc : write.complete with
      | true => exact Bool.and_true _
      | false => rw [endsStream_of_begins (part hc), Bool.false_and]
    rw [hfin] at he
    obtain ⟨_, _, _, _, rfl⟩ := ha
    obtain ⟨_, _, _, _, rfl⟩ := ha'
    exact ⟨he.complete, fun hf => ⟨(he.closes hf).cursor, (he.closes hf).entry, (he.closes hf).woken⟩,
      fun hc => ⟨(he.stays ⟨hc.cursor, hc.entry, hc.woken⟩).cursor, (he.stays ⟨hc.cursor, hc.entry, hc.woken⟩).entry,
        (he.stays ⟨hc.cursor, hc.entry, hc.woken⟩).woken⟩⟩
  | refused hcall _ fits _ =>
    have hends : endsWith s now call = false := by
      rw [endsWith_of hres fits, decide_eq_false nofun, Bool.and_false]
    rw [posts_of_open hends, hends]
    exact .of_moved rfl (fun hv => hv) rfl rfl
  | @chunk payload fin c _ hcall caching fits _ after =>
    have hposts : posts s now call = false := by
      subst hcall
      unfold posts
      simp only [fits, caching, Bool.and_false, Bool.false_and, Bool.false_or]
    rw [hposts, endsWith_of hres fits, hcall, decide_eq_true rfl, Bool.and_true]
    have hcount : Ends false false s (c, { s.2 with currentOffset := s.2.currentOffset + payload.length }) :=
      .of_moved rfl (fun hv => hv) rfl rfl
    exact hcount.trans (afterChunk_ends after)
  | reset h =>
    have hends : endsWith s now call = true := by
      unfold endsWith
      rcases h with ⟨rfl, rfl⟩ | h
      · rw [hres]
        rfl
      · rw [h, Bool.or_true]
    have hposts : posts s now call = endsWith s now call := by
      refine posts_eq fun payload fin hcall _ => Or.inr (h.resolve_left fun h => ?_)
      rw [h.1] at hcall
      cases hcall
    rw [hposts, hends]
    exact reset_ends
  | unknown hcall =>
    subst hcall
    have hends := endsWith_of hres rfl
    rw [decide_eq_true rfl, Bool.and_true] at hends
    rw [show posts s now _ = endsWith s now _ from rfl, hends]
    exact endOfUnknownRange_ends hc

end FetchWriteback

/-! ## 3. Runs -/

namespace System

variable {s s' : System} {ended : Nat → Bool}

variable {ok : System → CacheOp → Prop} {start : System} {op : CacheOp} {id : Nat}

def endsStream (s : System) (op : CacheOp) (id : Nat) : Bool :=
  match op with
  | .writeback j call now =>
    decide (j = id) && (s.writebacks.lookup id).any fun w => FetchWriteback.endsWith (s.cache, w) now call
  | _ => false

def markEnded (s : System) (ended : Nat → Bool) (op : CacheOp) (id : Nat) : Bool :=
  ended id || s.endsStream op id

/-- Runs whose events all meet a condition, with the record of the streams that have ended. -/
inductive History (ok : System → CacheOp → Prop) (start : System) : (Nat → Bool) → System → Prop where
  | start : History ok start (fun _ => false) start
  | step {ended : Nat → Bool} {s s' : System} {op : CacheOp} : History ok start ended s → ok s op →
      s.step op = some s' → History ok start (s.markEnded ended op) s'

theorem History.next (h : History ok start ended s) (op : CacheOp) (hok : ok s op) (hs : s.step op = some s') :
    History ok start (s.markEnded ended op) s' := .step h hok hs

theorem History.goes (h : History ok start ended s) (op : CacheOp) (hok : ok s op)
    (hs : (s.step op).isSome = true) :
    History ok start (s.markEnded ended op) ((s.step op).get hs) := .step h hok (Option.some_get hs).symm

theorem History.reachable (h : History ok start ended s) :
    Reachable ok start s := by
  induction h with
  | start => exact .start
  | step _ hok hs ih => exact .step ih hok hs

/-- Every call of an upstream stream is one that closes its writeback if it ends the stream. -/
def Closable (s : System) : CacheOp → Prop
  | .writeback id call _ => ∀ w, s.writebacks.lookup id = some w → FetchWriteback.Closable (s.cache, w) call
  | _ => True

/-- The baton is posted for the streams that have ended, and their writebacks are closed. -/
def Settled (ended : Nat → Bool) (id : Nat) (w : FetchWriteback) (_ : AbsoluteLocation) : Prop :=
  w.complete = ended id ∧ (ended id = true → w.Closed)

theorem open_complete {c : MoqxCache} {w : FetchWriteback} : (FetchWriteback.open (c, w)).2.complete = w.complete := by
  cases h : w.cachingEnabled with
  | true =>
    obtain ⟨r, hw⟩ := @open_writeback w c h
    rw [hw]
  | false => rw [open_passThrough h]

theorem markEnded_fresh (hid : ended id = false) (hnew : s.writebacks.lookup id = none) :
    s.markEnded ended op id = false := by
  unfold markEnded endsStream
  rw [hid, Bool.false_or]
  split
  · rw [hnew, Option.any_none, Bool.and_false]
  · rfl

theorem markEnded_other (hne : ∀ call now, op ≠ .writeback id call now) :
    s.markEnded ended op id = ended id := by
  unfold markEnded endsStream
  split
  · rename_i j call now
    have hj : j ≠ id := by
      intro heq
      subst heq
      exact hne call now rfl
    rw [decide_eq_false hj, Bool.false_and, Bool.or_false]
  · exact Bool.or_false _

theorem markEnded_self {w : FetchWriteback} {call : FetchCall} {now : TimePoint}
    (hl : s.writebacks.lookup id = some w) : s.markEnded ended (.writeback id call now) id =
      (ended id || FetchWriteback.endsWith (s.cache, w) now call) := by
  unfold markEnded endsStream
  simp only [decide_true, Bool.true_and]
  rw [hl, Option.any_some]

theorem settled_carries (hok : Closable s op) (hnew : ended s.next = false) :
    Carries (Settled ended) (Settled (s.markEnded ended op)) s op where
  rest := @fun id w p hl hr hne => by
    unfold Settled
    rw [markEnded_other hne]
    exact hr
  fetched := @fun ftn start «end» order hop hf => by
    unfold Settled
    rw [markEnded_other (fun _ _ h => nomatch hop.symm.trans h), hnew]
    exact ⟨open_complete, nofun⟩
  upstream := @fun id f lastObject start «end» order hop hf => by
    unfold Settled
    rw [markEnded_other (fun _ _ h => nomatch hop.symm.trans h), hnew]
    exact ⟨open_complete, nofun⟩
  called := @fun id w p call now hop hl hr hp hf ha => by
    subst hop
    obtain ⟨p', henter⟩ := hf.enters
    have hends := call_ends (hok w hl).retirable ha
    rw [(hok w hl).posts_eq] at hends
    have hmark : s.markEnded ended (.writeback id call now) id =
        (ended id || endsWith (s.cache, w) now call) := markEnded_self hl
    refine ⟨p', henter.own hp, ?_, fun h => ?_⟩
    · rw [hends.complete, hmark, hr.1]
    · rw [hmark, Bool.or_eq_true] at h
      rcases h with h | h
      · exact hends.stays (hr.2 h)
      · exact hends.closes h
  ended := @fun id w p ok setExtensions loc gaps hop hl hr => by
    unfold Settled
    rw [markEnded_other fun _ _ h => nomatch hop.symm.trans h]
    exact ⟨hr.1, fun h => ⟨(hr.2 h).cursor, (hr.2 h).entry, (hr.2 h).woken⟩⟩

/-- **Whole runs**: what every event carries on holds of all open writebacks, with the record of the streams
    that have ended. -/
theorem History.inFlight {tracks groups bytes eviction : Nat}
    {R : (Nat → Bool) → Nat → FetchWriteback → AbsoluteLocation → Prop}
    (h : History ok (init tracks groups bytes eviction) ended s)
    (hR : ∀ {ended s op}, ok s op → ended s.next = false → Carries (R ended) (R (s.markEnded ended op)) s op) :
    InFlight (R ended) s := by
  suffices h : InFlight (R ended) s ∧ ∀ id, s.next ≤ id → ended id = false from h.1
  induction h with
  | start => exact ⟨init_inFlight, fun _ _ => rfl⟩
  | step hrun hok hs ih =>
    have hb := reachable_books hrun.reachable
    obtain ⟨hin, hnew⟩ := ih
    refine ⟨step_inFlight hb hin (hR hok (hnew _ (Nat.le_refl _))) hs, fun id hid => ?_⟩
    have hid' := Nat.le_trans (step_next hs) hid
    exact markEnded_fresh (hnew id hid') (hb.fresh id hid').2.2.2

/-- **The end of a stream closes its writeback.** In every run whose calls are closable the completion baton
    of an open writeback is posted exactly if its stream has ended, and then its cursor is invalid and no
    table of fetches in progress has an entry of it. -/
theorem stream_end_closes_writeback {tracks groups bytes eviction id : Nat} {w : FetchWriteback}
    (h : History Closable (init tracks groups bytes eviction) ended s) (hw : s.writebacks.lookup id = some w) :
    w.complete = ended id ∧
      (ended id = true → w.fetchRangeIt.isValid = false ∧ w.inProgress = true ∧
        ∀ t, ∀ e ∈ (s.cache.track t).fetchesInProgress, e.2.writeback ≠ id) := by
  obtain ⟨hid, p, hp, hcomplete, hclosed⟩ := (h.inFlight settled_carries).entered hw
  refine ⟨hcomplete, fun hend => ⟨(hclosed hend).cursor, (hclosed hend).woken, fun t e he heq => ?_⟩⟩
  have hmem : e ∈ (s.cache.track t).entriesOf w.id := CacheTrack.mem_entriesOf.mpr ⟨he, heq.trans hid.symm⟩
  rw [hp.gone (hclosed hend).entry t] at hmem
  cases hmem

/-- A stream of one object that carries the end. -/
theorem stream_end_closes_writeback_object :
    ∃ ended s w, History Closable (init 4 4 100 0) ended s ∧ s.writebacks.lookup 0 = some w ∧ ended 0 = true ∧
      (w.complete = ended 0 ∧
        (ended 0 = true → w.fetchRangeIt.isValid = false ∧ w.inProgress = true ∧
          ∀ t, ∀ e ∈ (s.cache.track t).fetchesInProgress, e.2.writeback ≠ 0)) := by
  have h0 : History Closable (init 4 4 100 0) (fun _ => false) (init 4 4 100 0) := .start
  have h1 := h0.next (.fetch ⟨[], []⟩ ⟨0, 0⟩ ⟨0, 5⟩ .oldestFirst) trivial rfl
  have h2 := h1.next (.writeback 0 (.object 0 0 0 (some [7]) noExtensions true false) 0)
    (fun _ _ => trivial) rfl
  exact ⟨_, _, _, h2, rfl, rfl, stream_end_closes_writeback h2 rfl⟩

/-- **Two ends that do not close.** A payload that ends the stream while the writeback caches leaves the
    completion baton unposted. An unknown range inside the range that ends the stream leaves the cursor valid
    and the entry in the table, so that a fetch of what lies behind it waits. -/
theorem stream_end_leaves_writeback_open :
    (∃ ended s w, History (fun _ _ => True) (init 4 4 100 0) ended s ∧ s.writebacks.lookup 0 = some w ∧
      ended 0 = true ∧ w.complete = false) ∧
    ∃ ended s w, History (fun _ _ => True) (init 4 4 100 0) ended s ∧ s.writebacks.lookup 0 = some w ∧
      ended 0 = true ∧ w.fetchRangeIt.isValid = true ∧
      (s.cache.track w.track).findFetchInProgress ⟨0, 4⟩ = some 0 := by
  have h0 : History (fun _ _ => True) (init 4 4 100 0) (fun _ => false) (init 4 4 100 0) := .start
  have h1 := h0.next (.fetch ⟨[], []⟩ ⟨0, 0⟩ ⟨0, 5⟩ .oldestFirst) trivial rfl
  have h2 := h1.next (.writeback 0 (.beginObject 0 0 0 2 (some [7]) noExtensions) 0) trivial rfl
  have h3 := h2.next (.writeback 0 (.objectPayload [8] true) 0) trivial rfl
  have h2' := h1.next (.writeback 0 (.endOfUnknownRange 0 1 true) 0) trivial rfl
  exact ⟨⟨_, _, _, h3, rfl, rfl, rfl⟩, ⟨_, _, _, h2', rfl, rfl, rfl, rfl⟩⟩

end System

end Moqx

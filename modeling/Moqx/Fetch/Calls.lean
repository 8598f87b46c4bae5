/-
  Subject: What a call of an upstream stream does, step by step.

  A call makes a group, writes an object, records gaps, moves its cursor, moves the largest location of
  the track and publishes the cursor, in an order of its own. What is true of all of these steps is proved
  of the calls by cases over what they do.

  * `SameRange` -- no move of the cursor changes its range;
  * `Gapped`, `markNonExistentTo_gapped`, `finishRange_gapped` -- recording;
  * `Does`, `call_does` -- every call, unless it stops the process;
  * `updateInProgress_rule` -- the cursor is published;
  * `Covers`, `call_covers` -- a relation between caches that each step satisfies.
-/
import Moqx.Cache.System

namespace Moqx

/-! ## 1. The cursor's range -/

namespace FetchRangeIterator

variable {h : GroupRef → CacheGroup} {t : CacheTrack} {it it' it'' : FetchRangeIterator}
variable {order : GroupOrder} {tr : TrackRef}

structure SameRange (it it' : FetchRangeIterator) : Prop where
  track : it'.track = it.track
  min : it'.minLocation = it.minLocation
  max : it'.maxLocation = it.maxLocation
  order : it'.order = it.order

theorem SameRange.refl (it : FetchRangeIterator) : SameRange it it := ⟨rfl, rfl, rfl, rfl⟩

theorem SameRange.trans (h : SameRange it it') (h' : SameRange it' it'') : SameRange it it'' :=
  ⟨h'.track.trans h.track, h'.min.trans h.min, h'.max.trans h.max, h'.order.trans h.order⟩

theorem SameRange.ite {p : Prop} [Decidable p] (h : SameRange it it') (h' : SameRange it it'') :
    SameRange it (if p then it' else it'') := by
  split
  · exact h
  · exact h'

theorem advanceOne_sameRange : SameRange it (it.advanceOne h t) := by
  unfold advanceOne
  split
  · exact .refl it
  · split
    · exact .refl it
    · simp only
      split
      · exact ⟨rfl, rfl, rfl, rfl⟩
      · split
        · split
          · exact ⟨rfl, rfl, rfl, rfl⟩
          · exact ⟨rfl, rfl, rfl, rfl⟩
        · split
          · exact ⟨rfl, rfl, rfl, rfl⟩
          · exact ⟨rfl, rfl, rfl, rfl⟩

theorem skipGapsLoop_sameRange (n : Nat) : SameRange it (skipGapsLoop h t n it) := by
  induction n generalizing it with
  | zero => exact .refl it
  | succ n ih =>
    unfold skipGapsLoop
    split
    · split
      · exact advanceOne_sameRange.trans ih
      · simp only
        split
        · exact ⟨rfl, rfl, rfl, rfl⟩
        · refine .ite (SameRange.trans ?_ ih) ?_
          · exact ⟨rfl, rfl, rfl, rfl⟩
          · exact ⟨rfl, rfl, rfl, rfl⟩
    · exact .refl it

theorem next_sameRange : SameRange it (it.next h t) := by
  unfold next
  split
  · exact .refl it
  · exact advanceOne_sameRange.trans (skipGapsLoop_sameRange _)

theorem advanceTo_sameRange {loc : AbsoluteLocation} : SameRange it (it.advanceTo h t loc) := by
  refine .ite ?_ (SameRange.trans ?_ (skipGapsLoop_sameRange _))
  · exact ⟨rfl, rfl, rfl, rfl⟩
  · exact ⟨rfl, rfl, rfl, rfl⟩

theorem end_sameRange : SameRange it (it.end h t).2 := by
  unfold «end»
  split
  · exact ⟨rfl, rfl, rfl, rfl⟩
  · split
    · exact .refl it
    · split
      · exact ⟨rfl, rfl, rfl, rfl⟩
      · exact ⟨rfl, rfl, rfl, rfl⟩

theorem construct_min {start stop : AbsoluteLocation} :
    (construct h t start stop order tr).minLocation = start := by
  refine (skipGapsLoop_sameRange _).min.trans ?_
  unfold ofRange
  split <;> rfl

theorem construct_track {start stop : AbsoluteLocation} :
    (construct h t start stop order tr).track = tr := by
  refine (skipGapsLoop_sameRange _).track.trans ?_
  unfold ofRange
  split <;> rfl

end FetchRangeIterator

/-! ## 2. Calls -/

def FetchCall.endsStream : FetchCall → Bool
  | .object _ _ _ _ _ fin _ => fin
  | .beginObject _ _ _ _ _ _ => false
  | .objectPayload _ finFetch => finFetch
  | .endOfGroup _ _ _ fin => fin
  | .endOfTrackAndGroup _ _ _ => true
  | .endOfFetch => true
  | .reset => true
  | .endOfUnknownRange _ _ finFetch => finFetch

/-- Where an object begins of which the rest is still to come. -/
def FetchCall.begins : FetchCall → Option AbsoluteLocation
  | .beginObject gID _ objID len initPayload _ => if initPayload.length < len then some ⟨gID, objID⟩ else none
  | _ => none

namespace FetchWriteback

variable {s s' d : State} {loc start «end» stop : AbsoluteLocation} {fin : Bool} {write : ObjectWrite} {reply : Reply}
  {now : TimePoint} {call : FetchCall}
variable {c c' : MoqxCache} {target : AbsoluteLocation} {objectComplete : Bool}

/-- Payload past the object's length, on which the writeback resets itself. -/
def overflows (s : State) : FetchCall → Bool
  | .objectPayload payload _ => s.2.beginObjectAccepted && !s.2.skipCaching s.1 &&
      decide (s.2.currentLength < s.2.currentOffset + payload.length)
  | _ => false

/-- The write of `beginObject`. -/
def firstChunk (gID sgID objID len : Nat) (initPayload : Payload) (ext : Extensions) (now : TimePoint) :
    ObjectWrite :=
  { groupID := gID, subgroup := sgID, objectID := objID, status := .normal, extensions := ext,
    payload := initPayload, complete := initPayload.length == len, forwardingPreferenceIsDatagram := false,
    now := now }

def writeOf (w : FetchWriteback) (now : TimePoint) : FetchCall → Option ObjectWrite
  | .object gID sgID objID payload ext _ datagram => some
      { groupID := gID, subgroup := sgID, objectID := objID, status := .normal, extensions := ext,
        payload := payload, complete := true, forwardingPreferenceIsDatagram := datagram, now := now }
  | .beginObject gID sgID objID len payload ext => some (firstChunk gID sgID objID len payload ext now)
  | .objectPayload payload _ => some (w.chunk payload now)
  | .endOfGroup gID sgID objID _ => some
      { groupID := gID, subgroup := sgID, objectID := objID, status := .endOfGroup,
        extensions := noExtensions, payload := none, complete := true,
        forwardingPreferenceIsDatagram := false, now := now }
  | .endOfTrackAndGroup gID sgID objID => some
      { groupID := gID, subgroup := sgID, objectID := objID, status := .endOfTrack,
        extensions := noExtensions, payload := none, complete := true,
        forwardingPreferenceIsDatagram := false, now := now }
  | .endOfFetch => none
  | .reset => none
  | .endOfUnknownRange _ _ _ => none

theorem evicted_of_caching (h : ¬s.2.skipCaching s.1 = true) : (s.1.track s.2.track).evicted = false := by
  unfold skipCaching at h
  rw [Bool.or_eq_true, not_or] at h
  simpa using h.2

theorem answer_of_ne_aborted {res : Option (Reply × State)} (h : (answer s res).1 ≠ .aborted) :
    ∃ reply d, res = some (reply, d) ∧ answer s res = (.ofReply reply, d) := by
  cases res with
  | none => exact absurd rfl h
  | some p => exact ⟨p.1, p.2, rfl, rfl⟩

/-! ## 3. Recording -/

/-- Gaps are recorded in a track. -/
inductive Gapped (t : TrackRef) (c : MoqxCache) : MoqxCache → Prop where
  | refl : Gapped t c c
  | gap {d : MoqxCache} (start «end» : AbsoluteLocation) (h : Gapped t c d) :
      Gapped t c (d.setTrack t ((d.track t).insertGap start «end»))

theorem Gapped.trans {t : TrackRef} {c'' : MoqxCache} (h : Gapped t c c') (h' : Gapped t c' c'') :
    Gapped t c c'' := by
  induction h' with
  | refl => exact h
  | gap start stop _ ih => exact ih.gap start stop

theorem insertGap_gapped (h : insertGap s start stop = some s') :
    Gapped s.2.track s.1 s'.1 ∧ ∃ gaps, s'.2 = { s.2 with pendingGaps := gaps } := by
  have hrecord : ∀ a b, Gapped s.2.track s.1 (recordGap s a b).1 := fun a b => Gapped.refl.gap a b
  unfold insertGap at h
  split at h
  · split at h
    · cases h
      exact ⟨.refl, _, rfl⟩
    · obtain ⟨q, -, h⟩ := Option.bind_eq_some_iff.mp h
      simp only at h
      split at h
      · cases h
        exact ⟨hrecord _ _, _, rfl⟩
      · obtain ⟨q', -, h⟩ := Option.bind_eq_some_iff.mp h
        cases h
        exact ⟨hrecord _ _, _, rfl⟩
  · split at h
    · cases h
      exact ⟨.refl, _, rfl⟩
    · obtain ⟨q, -, h⟩ := Option.bind_eq_some_iff.mp h
      cases h
      exact ⟨hrecord _ _, _, rfl⟩

theorem insertGaps_gapped {ranges : List (AbsoluteLocation × AbsoluteLocation)} (h : insertGaps s ranges = some s') :
    Gapped s.2.track s.1 s'.1 ∧ ∃ gaps, s'.2 = { s.2 with pendingGaps := gaps } := by
  induction ranges generalizing s with
  | nil =>
    cases h
    exact ⟨.refl, _, rfl⟩
  | cons range ranges ih =>
    obtain ⟨d, hd, h⟩ := Option.bind_eq_some_iff.mp h
    obtain ⟨hu, gaps, hw⟩ := insertGap_gapped hd
    obtain ⟨hu', gaps', hw'⟩ := ih h
    rw [hw] at hu' hw'
    exact ⟨hu.trans hu', gaps', hw'⟩

theorem markNonExistentTo_gapped (h : markNonExistentTo s target = some s') :
    Gapped s.2.track s.1 s'.1 ∧ ∃ gaps it, s'.2 = { s.2 with pendingGaps := gaps, fetchRangeIt := it } ∧
      (it = s.2.fetchRangeIt ∧ it.current = target ∨
        s.2.fetchRangeIt.current ≠ target ∧
          ∃ c : MoqxCache, it = s.2.fetchRangeIt.advanceTo c.group (c.track s.2.track) target) := by
  unfold markNonExistentTo at h
  simp only at h
  split at h
  · rename_i hat
    cases h
    exact ⟨.refl, s.2.pendingGaps, s.2.fetchRangeIt, rfl, Or.inl ⟨rfl, hat⟩⟩
  · rename_i hat
    obtain ⟨ranges, -, h⟩ := Option.bind_eq_some_iff.mp h
    obtain ⟨d, hd, h⟩ := Option.bind_eq_some_iff.mp h
    cases h
    obtain ⟨hu, gaps, hw⟩ := insertGaps_gapped hd
    refine ⟨hu, gaps, s.2.fetchRangeIt.advanceTo d.1.group (d.1.track s.2.track) target, ?_,
      Or.inr ⟨hat, d.1, rfl⟩⟩
    unfold advanceTo setCursor
    rw [hw]

theorem markNonExistentTo_range (h : markNonExistentTo s target = some s') :
    s.2.fetchRangeIt.SameRange s'.2.fetchRangeIt := by
  obtain ⟨-, gaps, it, hw, hit⟩ := markNonExistentTo_gapped h
  rw [hw]
  rcases hit with ⟨rfl, -⟩ | ⟨-, c, rfl⟩
  · exact .refl _
  · exact FetchRangeIterator.advanceTo_sameRange

theorem finishRange_gapped (h : finishRange s = some s') : Gapped s.2.track s.1 s'.1 ∧
    ∃ gaps it, s'.2 = { s.2 with pendingGaps := gaps, fetchRangeIt := FetchRangeIterator.invalidate it } ∧
      s.2.fetchRangeIt.SameRange it := by
  have hend := @FetchRangeIterator.end_sameRange s.1.group (s.1.track s.2.track) s.2.fetchRangeIt
  unfold finishRange at h
  simp only at h
  obtain ⟨d, hd, h⟩ := Option.bind_eq_some_iff.mp h
  cases h
  have hrange := hend.trans (markNonExistentTo_range hd)
  obtain ⟨hu, gaps, it, hw, -⟩ := markNonExistentTo_gapped hd
  replace hu : Gapped (s.2.fetchRangeIt.end s.1.group (s.1.track s.2.track)).2.track s.1 d.1 := hu
  rw [hend.track] at hu
  rw [hw] at hrange
  refine ⟨hu, gaps, it, ?_, hrange⟩
  unfold FetchWriteback.invalidate setCursor
  rw [hw]
  rfl

/-! ## 4. The end of a call -/

/-- The end of a stream: the waiting fetches are told, and the batons posted. -/
def endStream (s : State) : State := ((updateInProgress s).1, { (updateInProgress s).2 with complete := true })

theorem onFetchStreamEnd_eq : onFetchStreamEnd s =
    (if s.2.skipCaching s.1 then some (FetchWriteback.invalidate s) else finishRange s).map endStream := by
  unfold onFetchStreamEnd
  split
  · rfl
  · simp only
    cases finishRange s with
    | none => rfl
    | some d => rfl

theorem afterObject_eq {fin : Bool} : afterObject s fin =
    if fin then (finishRange (updateInProgress (next s))).map endStream
    else some (updateInProgress (next s)) := by
  unfold afterObject
  simp only
  split
  · cases finishRange (updateInProgress (next s)) with
    | none => rfl
    | some d => rfl
  · rfl

theorem afterChunk_eq {fin : Bool} : afterChunk s objectComplete fin =
    if objectComplete || fin then
      (if fin then finishRange (next s) else some (next s)).map updateInProgress
    else some s := by
  unfold afterChunk
  split
  · simp only
    split
    · cases finishRange (next s) with
      | none => rfl
      | some d => rfl
    · rfl
  · rfl

def Alters (w w' : FetchWriteback) : Prop :=
  ∃ subgroup length offset accepted, w' =
    { w with
      currentSubgroup := subgroup
      currentLength := length
      currentOffset := offset
      beginObjectAccepted := accepted }

/-- The steps a call ends with: none of them writes an object, and none moves the cursor to a given place. -/
inductive Tail (s : State) : State → Prop where
  | refl : Tail s s
  | alter {d : State} {w : FetchWriteback} (h : Tail s d) (ha : d.2.Alters w) : Tail s (d.1, w)
  | flags {d : State} (wasReset complete : Bool) (h : Tail s d) :
      Tail s (d.1, { d.2 with wasReset := wasReset, complete := complete })
  | largest {d : State} {loc : AbsoluteLocation} {eot : Bool} {tr : CacheTrack} (h : Tail s d)
      (hl : (d.1.track d.2.track).updateLargest loc eot = .ok tr) : Tail s (d.1.setTrack d.2.track tr, d.2)
  | next {d : State} (h : Tail s d) : Tail s (next d)
  | invalidate {d : State} (h : Tail s d) : Tail s (FetchWriteback.invalidate d)
  | finish {d e : State} (h : Tail s d) (hf : finishRange d = some e) : Tail s e
  | publish {d : State} (h : Tail s d) : Tail s (updateInProgress d)

theorem Tail.endStream (h : Tail s d) : Tail s (endStream d) := h.publish.flags _ true

theorem onFetchStreamEnd_tail (h : onFetchStreamEnd s = some s') : Tail s s' := by
  rw [onFetchStreamEnd_eq] at h
  obtain ⟨d, hd, rfl⟩ := Option.map_eq_some_iff.mp h
  split at hd
  · cases hd
    exact Tail.refl.invalidate.endStream
  · exact (Tail.refl.finish hd).endStream

theorem afterObject_tail (hs : Tail s d) (h : afterObject d fin = some s') : Tail s s' := by
  rw [afterObject_eq] at h
  split at h
  · obtain ⟨e, he, rfl⟩ := Option.map_eq_some_iff.mp h
    exact (hs.next.publish.finish he).endStream
  · cases h
    exact hs.next.publish

theorem afterChunk_tail {w : FetchWriteback} {offset : Nat}
    (h : afterChunk (c, { w with currentOffset := offset }) objectComplete fin = some s') : Tail (c, w) s' := by
  have hcount : Tail (c, w) (c, { w with currentOffset := offset }) := Tail.refl.alter ⟨_, _, _, _, rfl⟩
  rw [afterChunk_eq] at h
  split at h
  · obtain ⟨d, hd, rfl⟩ := Option.map_eq_some_iff.mp h
    split at hd
    · exact (hcount.next.finish hd).publish
    · cases hd
      exact hcount.next.publish
  · cases h
    exact hcount

theorem reset_tail : Tail s (reset s) := (Tail.refl.flags true true).invalidate.publish

def stored (s : State) (write : ObjectWrite) : MoqxCache :=
  let q := s.1.getOrCreateGroupWithEviction s.2.track write.groupID s.2.ftn
  (q.2.cacheObjectAndUpdateBytes q.1 s.2.track write).2

/-- What follows once an object is written and the cursor has come to it. -/
inductive Caches (write : ObjectWrite) (fin : Bool) (d : State) : Reply → State → Prop where
  | refused (e : MoQPublishError) : Caches write fin d (.error e) (updateInProgress d)
  | whole {tr : CacheTrack} {s' : State} (complete : write.complete = true)
      (hl : (d.1.track d.2.track).updateLargest write.location (isEndOfTrack write.status) = .ok tr)
      (h : afterObject (d.1.setTrack d.2.track tr, d.2) fin = some s') : Caches write fin d (.ok ()) s'
  | part {tr : CacheTrack} (complete : write.complete = false)
      (hl : (d.1.track d.2.track).updateLargest write.location (isEndOfTrack write.status) = .ok tr) :
      Caches write fin d (.ok ()) (d.1.setTrack d.2.track tr, d.2)

theorem cacheImpl_caches (h : cacheImpl s write fin = some (reply, s')) : ∃ d,
    markNonExistentTo (stored s write, s.2.receive write.location) write.location = some d ∧
      Caches write fin d reply s' := by
  unfold cacheImpl at h
  simp only at h
  obtain ⟨d, hd, h⟩ := Option.bind_eq_some_iff.mp h
  refine ⟨d, hd, ?_⟩
  split at h
  · cases h
    exact .refused _
  · split at h
    · cases h
      exact .refused _
    · rename_i tr hl
      split at h
      · rename_i hc
        obtain ⟨e, he, h⟩ := Option.bind_eq_some_iff.mp h
        cases h
        exact .whole hc hl he
      · rename_i hc
        cases h
        exact .part (by simpa using hc) hl

theorem Caches.tail (h : Caches write fin d reply s') : Tail d s' := by
  cases h with
  | refused e => exact Tail.refl.publish
  | whole _ hl h => exact afterObject_tail (Tail.refl.largest hl) h
  | part _ hl => exact Tail.refl.largest hl

/-! ## 5. What a call does -/

/-- **What a call does**, unless it stops the process. -/
inductive Does (s : State) (now : TimePoint) (call : FetchCall) : Outcome × State → Prop where
  /-- It is refused, or passed on without being cached. -/
  | idle {o : Outcome} {w : FetchWriteback} (ha : s.2.Alters w) (open_ : call.endsStream = true → o ≠ .forwarded)
      (fits : overflows s call = false) : Does s now call (o, (s.1, w))
  /-- It ends the stream and writes nothing. -/
  | ended {d : State} (fin : call.endsStream = true) (skips : call = .endOfFetch ∨ s.2.skipCaching s.1 = true)
      (fits : overflows s call = false) (h : onFetchStreamEnd s = some d) : Does s now call (.forwarded, d)
  /-- It brings an object, or the beginning of one. -/
  | cached {w w' : FetchWriteback} {write : ObjectWrite} {reply : Reply} {d : State} (ha : s.2.Alters w)
      (hw : s.2.writeOf now call = some write) (whole : ∀ payload fin, call ≠ .objectPayload payload fin)
      (range : s.2.inRange write.location = true) (caching : s.2.skipCaching s.1 = false)
      (fits : overflows s call = false) (h : cacheImpl (s.1, w) write call.endsStream = some (reply, d))
      (part : write.complete = false → call.begins = some write.location) (ha' : d.2.Alters w') :
      Does s now call (.ofReply reply, (d.1, w'))
  /-- It brings a part of the object in progress, which is not accepted. -/
  | refused {payload : Bytes} {fin : Bool} {e : MoQPublishError} {c : MoqxCache}
      (hcall : call = .objectPayload payload fin) (caching : s.2.skipCaching s.1 = false)
      (fits : overflows s call = false) (h : cacheChunk s (s.2.chunk payload now) = (.error e, (c, s.2))) :
      Does s now call (.rejected e, (c, s.2))
  /-- It brings a part of the object in progress. -/
  | chunk {payload : Bytes} {fin : Bool} {c : MoqxCache} {d : State} (hcall : call = .objectPayload payload fin)
      (caching : s.2.skipCaching s.1 = false) (fits : overflows s call = false)
      (h : cacheChunk s (s.2.chunk payload now) = (.ok (), (c, s.2)))
      (after : afterChunk (c, { s.2 with currentOffset := s.2.currentOffset + payload.length })
        (s.2.chunk payload now).complete fin = some d) : Does s now call (.forwarded, d)
  /-- The writeback is reset. -/
  | reset {o : Outcome} (h : call = .reset ∧ o = .forwarded ∨ overflows s call = true) :
      Does s now call (o, reset s)
  /-- The stream jumps ahead. -/
  | unknown {groupId objectId : Nat} {fin : Bool} (hcall : call = .endOfUnknownRange groupId objectId fin) :
      Does s now call (.forwarded, endOfUnknownRange s groupId objectId fin)

theorem Alters.refl (w : FetchWriteback) : w.Alters w := ⟨_, _, _, _, rfl⟩

theorem passThrough_does (hfin : call.endsStream = fin) (hskip : call = .endOfFetch ∨ s.2.skipCaching s.1 = true)
    (hfits : overflows s call = false) (h : (passThrough s fin).1 ≠ .aborted) : Does s now call (passThrough s fin) := by
  unfold passThrough at h ⊢
  obtain ⟨reply, d, hd, ha⟩ := answer_of_ne_aborted h
  rw [ha]
  split at hd
  · rename_i htrue
    obtain ⟨d', hd', heq⟩ := Option.map_eq_some_iff.mp hd
    cases heq
    exact .ended (hfin.trans htrue) hskip hfits hd'
  · rename_i hfalse
    cases hd
    refine .idle (.refl _) (fun htrue => ?_) hfits
    exact absurd (hfin.symm.trans htrue) hfalse

theorem cacheWhole_does (hw : s.2.writeOf now call = some write) (hc : write.complete = true)
    (hwhole : ∀ payload fin, call ≠ .objectPayload payload fin)
    (hfin : call.endsStream = fin) (hfits : overflows s call = false) (h : (cacheWhole s write fin).1 ≠ .aborted) :
    Does s now call (cacheWhole s write fin) := by
  unfold cacheWhole at h ⊢
  split
  · exact .idle (.refl _) (fun _ => nofun) hfits
  · rename_i hin
    rw [if_neg hin] at h
    split
    · rename_i hskip
      rw [if_pos hskip] at h
      exact passThrough_does hfin (Or.inr hskip) hfits h
    · rename_i hskip
      rw [if_neg hskip] at h
      obtain ⟨reply, d, hd, ha⟩ := answer_of_ne_aborted h
      rw [ha]
      rw [← hfin] at hd
      refine .cached (.refl _) hw hwhole (by simpa using hin) (by simpa using hskip) hfits hd (fun hpart => ?_) (.refl _)
      rw [hc] at hpart
      cases hpart

theorem beginObject_does {gID sgID objID len : Nat} {payload : Payload} {ext : Extensions}
    (h : (beginObject s gID sgID objID len payload ext now).1 ≠ .aborted) :
    Does s now (.beginObject gID sgID objID len payload ext) (beginObject s gID sgID objID len payload ext now) := by
  have hflag : s.2.Alters { s.2 with beginObjectAccepted := s.2.inRange ⟨gID, objID⟩ } := ⟨_, _, _, _, rfl⟩
  unfold beginObject at h ⊢
  simp only at h ⊢
  split
  · exact .idle hflag nofun rfl
  · rename_i hin
    rw [if_neg hin] at h
    split
    · exact .idle hflag nofun rfl
    · rename_i hskip
      rw [if_neg hskip] at h
      split
      · rename_i hlen
        rw [if_pos hlen] at h
        exact absurd rfl h
      · rename_i hlen
        rw [if_neg hlen] at h
        have hrange : s.2.inRange ⟨gID, objID⟩ = true := by simpa using hin
        have hcaching : s.2.skipCaching s.1 = false := Bool.not_eq_true _ ▸ hskip
        obtain ⟨reply, d, hd, ha⟩ := answer_of_ne_aborted h
        rw [ha]
        obtain ⟨⟨reply', d'⟩, hd', heq⟩ := Option.map_eq_some_iff.mp hd
        have hpart : (firstChunk gID sgID objID len payload ext now).complete = false →
            (FetchCall.beginObject gID sgID objID len payload ext).begins = some ⟨gID, objID⟩ := by
          intro hpart
          have hne : payload.length ≠ len := by simpa [firstChunk] using hpart
          exact if_pos (Nat.lt_of_le_of_ne (Nat.not_lt.mp hlen) hne)
        have hdoes : ∀ w', d'.2.Alters w' → Does s now (.beginObject gID sgID objID len payload ext)
            (.ofReply reply', (d'.1, w')) := fun w' hset =>
          .cached hflag rfl nofun hrange hcaching rfl hd' hpart hset
        cases reply' with
        | error e =>
          cases heq
          exact hdoes _ (.refl _)
        | ok _ =>
          cases heq
          exact hdoes _ ⟨_, _, _, _, rfl⟩

theorem objectPayload_does {payload : Bytes} (h : (objectPayload s payload fin now).1 ≠ .aborted) :
    Does s now (.objectPayload payload fin) (objectPayload s payload fin now) := by
  unfold objectPayload at h ⊢
  split
  · rename_i hacc
    exact .idle (.refl _) (fun _ => nofun) (by simp_all [overflows])
  · rename_i hacc
    rw [if_neg hacc] at h
    split
    · rename_i hskip
      rw [if_pos hskip] at h
      exact passThrough_does rfl (Or.inr hskip) (by simp [overflows, hskip]) h
    · rename_i hskip
      rw [if_neg hskip] at h
      split
      · rename_i hlen
        exact .reset (Or.inr (by simp_all [overflows]))
      · rename_i hlen
        rw [if_neg hlen] at h
        have hfits : overflows s (.objectPayload payload fin) = false := by simp [overflows, hlen]
        have hskip' : s.2.skipCaching s.1 = false := by simpa using hskip
        have hsame : (cacheChunk s (s.2.chunk payload now)).2.2 = s.2 := by
          unfold cacheChunk
          split <;> rfl
        simp only at h ⊢
        generalize hres : cacheChunk s (s.2.chunk payload now) = res at hsame h ⊢
        obtain ⟨reply, c, w⟩ := res
        simp only at hsame
        subst hsame
        cases reply with
        | error e => exact .refused rfl hskip' hfits hres
        | ok _ =>
          obtain ⟨reply, d, hd, ha⟩ := answer_of_ne_aborted h
          simp only at ha ⊢
          rw [ha]
          obtain ⟨d', hd', heq⟩ := Option.map_eq_some_iff.mp hd
          cases heq
          exact .chunk rfl hskip' hfits hres hd'

/-- **Every call** that does not stop the process. -/
theorem call_does (h : (FetchWriteback.call s now call).1 ≠ .aborted) :
    Does s now call (FetchWriteback.call s now call) := by
  cases call with
  | object => exact cacheWhole_does rfl rfl nofun rfl rfl h
  | beginObject => exact beginObject_does h
  | objectPayload => exact objectPayload_does h
  | endOfGroup => exact cacheWhole_does rfl rfl nofun rfl rfl h
  | endOfTrackAndGroup => exact cacheWhole_does rfl rfl nofun rfl rfl h
  | endOfFetch => exact passThrough_does rfl (Or.inl rfl) rfl h
  | reset => exact .reset (Or.inl ⟨rfl, rfl⟩)
  | endOfUnknownRange => exact .unknown rfl

/-! ## 6. Relations that every step satisfies -/

def progressed (s : State) : State :=
  (s.1.setTrack s.2.track (setProgress (s.1.track s.2.track) s.2.id s.2.fetchRangeIt.current), s.2)

theorem updateInProgress_rule {P : State → Prop} (idle : s.2.fetchInProgressIt = none → P s)
    (gone : P (eraseAndMakeGroupEvictable s)) (progress : P (progressed s))
    (erase : P (eraseAndMakeGroupEvictable (progressed s)))
    (move : P (emplaceAndPinGroup (eraseAndMakeGroupEvictable (progressed s)) s.2.fetchRangeIt.current
      ⟨s.2.fetchRangeIt.maxLocation, s.2.fetchRangeIt.current, s.2.id⟩))
    (baton : ∀ {s : State} {b}, P s → P (s.1, { s.2 with inProgress := b })) : P (updateInProgress s) := by
  unfold updateInProgress
  split
  · refine baton (s := followCursor s) ?_
    unfold followCursor
    simp only
    split
    · rename_i hkey
      exact idle hkey
    · split
      · split
        · exact move
        · exact erase
      · exact progress
  · exact baton gone

/-- The relation holds of every step a call is made of. -/
structure Covers (Rel : MoqxCache → MoqxCache → Prop) : Prop where
  refl : ∀ c, Rel c c
  trans : ∀ {c c' c''}, Rel c c' → Rel c' c'' → Rel c c''
  makeGroup : ∀ c t g ftn, Rel c (c.getOrCreateGroupWithEviction t g ftn).2
  write : ∀ c r t write, Rel c (c.cacheObjectAndUpdateBytes r t write).2
  gap : ∀ c t start «end», Rel c (c.setTrack t ((c.track t).insertGap start «end»))
  largest : ∀ {c t loc eot tr}, (c.track t).updateLargest loc eot = .ok tr → Rel c (c.setTrack t tr)
  publish : ∀ s : State, Rel s.1 (updateInProgress s).1

variable {Rel : MoqxCache → MoqxCache → Prop}

theorem Gapped.covers {t : TrackRef} (h : Gapped t c c') (hr : Covers Rel) : Rel c c' := by
  induction h with
  | refl => exact hr.refl _
  | gap start stop _ ih => exact hr.trans ih (hr.gap _ _ _ _)

theorem Tail.covers (h : Tail s d) (hr : Covers Rel) : Rel s.1 d.1 := by
  induction h with
  | refl => exact hr.refl _
  | alter _ _ ih => exact ih
  | flags _ _ _ ih => exact ih
  | largest _ hl ih => exact hr.trans ih (hr.largest hl)
  | next _ ih => exact ih
  | invalidate _ ih => exact ih
  | finish _ hf ih => exact hr.trans ih ((finishRange_gapped hf).1.covers hr)
  | publish _ ih => exact hr.trans ih (hr.publish _)

theorem setUpstreamEnd_covers (hr : Covers Rel) (h : setUpstreamEnd s loc = some s') : Rel s.1 s'.1 :=
  (insertGaps_gapped h).1.covers hr

theorem cacheChunk_covers (hr : Covers Rel) : Rel s.1 (cacheChunk s write).2.1 := by
  unfold cacheChunk
  split
  · exact hr.refl _
  · exact hr.write _ _ _ _

theorem stored_covers (hr : Covers Rel) : Rel s.1 (stored s write) :=
  hr.trans (hr.makeGroup _ _ _ _) (hr.write _ _ _ _)

/-- **Every call** is made of the covered steps. -/
theorem call_covers (hr : Covers Rel) (h : (FetchWriteback.call s now call).1 ≠ .aborted) :
    Rel s.1 (FetchWriteback.call s now call).2.1 := by
  have hdoes := call_does h
  generalize FetchWriteback.call s now call = res at hdoes
  cases hdoes with
  | idle => exact hr.refl _
  | ended _ _ _ h => exact (onFetchStreamEnd_tail h).covers hr
  | @cached w _ write _ _ _ _ _ _ _ _ h =>
    obtain ⟨d, hd, hafter⟩ := cacheImpl_caches h
    have hmark := (markNonExistentTo_gapped hd).1.covers hr
    exact hr.trans (@stored_covers (s.1, w) write _ hr) (hr.trans hmark (hafter.tail.covers hr))
  | @refused payload _ _ _ _ _ _ h =>
    have hchunk := @cacheChunk_covers s (s.2.chunk payload now) _ hr
    rw [h] at hchunk
    exact hchunk
  | @chunk payload _ _ _ _ _ _ h after =>
    have hchunk := @cacheChunk_covers s (s.2.chunk payload now) _ hr
    rw [h] at hchunk
    exact hr.trans hchunk ((afterChunk_tail after).covers hr)
  | reset => exact reset_tail.covers hr
  | unknown => exact hr.publish (FetchWriteback.next (FetchWriteback.advanceTo s ⟨_, _⟩))

end FetchWriteback

end Moqx

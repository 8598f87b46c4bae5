/-
  Subject: A fetch that needs a location finds the upstream fetch that will bring it.

  Before a fetch goes upstream for a location it asks the table of fetches in progress whether one is on its
  way there already. The table keeps a key and a progress per upstream fetch and compares them in ascending
  order.

  * `Tracked`, `history_tracked` -- key, progress and cursor of a writeback, in every such run;
  * the lookup finds a writeback exactly if one awaits the location.
-/
import Moqx.Cache.Content
import Moqx.Fetch.Closing

namespace Moqx

open MoqxCache Option

/-! ## 1. Cursors -/

namespace FetchRangeIterator

variable {h : GroupRef → CacheGroup} {t : CacheTrack} {it it' it'' : FetchRangeIterator} {loc : AbsoluteLocation}

/-- The range contains the location, and the cursor has not passed it in its own order. An invalid cursor
    has passed everything. -/
def Awaits (it : FetchRangeIterator) (loc : AbsoluteLocation) : Prop :=
  it.isValid = true ∧ it.minLocation ≤ loc ∧ loc < it.maxLocation ∧
    if it.descending then
      loc.group < it.current.group ∨ loc.group = it.current.group ∧ it.current.object ≤ loc.object
    else it.current ≤ loc

instance : Decidable (it.Awaits loc) := inferInstanceAs (Decidable (_ ∧ _ ∧ _ ∧ ite _ _ _))

/-- An ascending cursor inside its range. -/
structure Climbs (it : FetchRangeIterator) : Prop where
  order : it.descending = false
  inside : it.isValid = true →
    it.end_ = it.maxLocation ∧ it.minLocation ≤ it.current ∧ it.current ≤ it.maxLocation

structure Onward (it it' : FetchRangeIterator) : Prop where
  range : SameRange it it'
  rises : it'.isValid = true →
    it.isValid = true ∧ it'.end_ = it.end_ ∧ it.current ≤ it'.current ∧ it'.current ≤ it.maxLocation

theorem Onward.climbs (ho : Onward it it') (hc : Climbs it) : Climbs it' where
  order := by
    have hd := hc.order
    unfold descending at hd ⊢
    rw [ho.range.order]
    exact hd
  inside hv := by
    obtain ⟨hv0, hend, hle, hmax⟩ := ho.rises hv
    obtain ⟨hend0, hmin, -⟩ := hc.inside hv0
    rw [ho.range.min, ho.range.max]
    exact ⟨hend.trans hend0, hmin.trans hle, hmax⟩

theorem Onward.trans (ho : Onward it it') (ho' : Onward it' it'') : Onward it it'' where
  range := ho.range.trans ho'.range
  rises hv := by
    obtain ⟨hv1, hend1, hle1, hmax1⟩ := ho'.rises hv
    obtain ⟨hv0, hend0, hle0, -⟩ := ho.rises hv1
    rw [ho.range.max] at hmax1
    exact ⟨hv0, hend1.trans hend0, hle0.trans hle1, hmax1⟩

theorem Onward.refl (hc : Climbs it) : Onward it it :=
  ⟨.refl it, fun hv => ⟨hv, rfl, le_refl _, (hc.inside hv).2.2⟩⟩

theorem Onward.of_invalid (hr : SameRange it it') (hv : it'.isValid = false) : Onward it it' :=
  ⟨hr, fun h => absurd (h.symm.trans hv) (by decide)⟩

theorem Onward.invalid (ho : Onward it it') (hv : it.isValid = false) : it'.isValid = false := by
  rw [← Bool.not_eq_true]
  intro hv'
  exact absurd ((ho.rises hv').1.symm.trans hv) (by decide)

theorem Onward.to_end (hc : Climbs it) : Onward it { it with current := it.end_ } where
  range := ⟨rfl, rfl, rfl, rfl⟩
  rises hv := by
    obtain ⟨hend, -, hmax⟩ := hc.inside hv
    refine ⟨hv, rfl, ?_, ?_⟩
    · rw [hend]
      exact hmax
    · exact le_of_eq hend

theorem advanceOne_onward (hc : Climbs it) : Onward it (it.advanceOne h t) := by
  have hd := hc.order
  unfold advanceOne
  split
  · exact .refl hc
  · rename_i hvalid
    have hv : it.isValid = true := by simpa using hvalid
    obtain ⟨hend, hmin, hmax⟩ := hc.inside hv
    split
    · exact .refl hc
    · have hlast : it.current.group = it.maxLocation.group →
          (it.findGroupEndMaybe h t it.current.group it.cachedGroup).1 = some it.maxLocation.object := by
        intro heq
        unfold findGroupEndMaybe
        simp only [heq, hd, beq_self_eq_true, if_true, Bool.false_and, Bool.false_eq_true, if_false]
      generalize it.findGroupEndMaybe h t it.current.group it.cachedGroup = q at hlast ⊢
      obtain ⟨groupEnd, memo⟩ := q
      simp only [show FetchRangeIterator.descending { it with cachedGroup := memo } = false from hd,
        Bool.false_eq_true, if_false]
      simp only at hlast
      split
      · rename_i hany
        refine ⟨⟨rfl, rfl, rfl, rfl⟩, fun _ => ⟨hv, rfl, Or.inr ⟨rfl, Nat.le_succ _⟩, ?_⟩⟩
        -- in the last group the walk goes up to the end of the range
        rcases hmax with hlt | ⟨heq, -⟩
        · exact Or.inl hlt
        · rw [hlast heq, any_some, decide_eq_true_eq] at hany
          exact Or.inr ⟨heq, hany⟩
      · split
        · refine ⟨⟨rfl, rfl, rfl, rfl⟩, fun _ => ⟨hv, rfl, ?_, le_of_eq hend⟩⟩
          show it.current ≤ it.end_
          rw [hend]
          exact hmax
        · rename_i hgroup
          refine ⟨⟨rfl, rfl, rfl, rfl⟩, fun _ => ⟨hv, rfl, Or.inl (Nat.lt_succ_self _), ?_⟩⟩
          rcases hmax with hlt | ⟨heq, -⟩
          · rcases Nat.lt_or_eq_of_le (Nat.succ_le_of_lt hlt) with hlt | heq
            · exact Or.inl hlt
            · exact Or.inr ⟨heq, Nat.zero_le _⟩
          · exact absurd heq hgroup

theorem skipGapsLoop_onward (n : Nat) (hc : Climbs it) : Onward it (skipGapsLoop h t n it) := by
  induction n generalizing it with
  | zero => exact .refl hc
  | succ n ih =>
    have hd := hc.order
    unfold skipGapsLoop
    split
    · rename_i hin
      rw [Bool.and_eq_true] at hin
      obtain ⟨hend, hmin, -⟩ := hc.inside hin.1
      cases hi : t.gaps.findInterval it.current with
      | none =>
        have hone := @advanceOne_onward h t it hc
        exact hone.trans (ih (hone.climbs hc))
      | some p =>
        obtain ⟨gapStart, gapEnd⟩ := p
        simp only [hd, Bool.not_false, if_true]
        cases hnext : gapEnd.next with
        | none => exact .to_end hc
        | some afterGap =>
          simp only
          split
          · rename_i hlt
            rw [hend] at hlt
            have hle : it.current ≤ afterGap :=
              (LocationIntervalSet.findInterval_end hi).trans (AbsoluteLocation.lt_next hnext).le
            have hjump : Onward it { it with current := afterGap } :=
              ⟨⟨rfl, rfl, rfl, rfl⟩, fun _ => ⟨hin.1, rfl, hle, hlt.le⟩⟩
            exact hjump.trans (ih (hjump.climbs hc))
          · exact .to_end hc
    · exact .refl hc

theorem next_onward (hc : Climbs it) : Onward it (it.next h t) := by
  unfold next
  split
  · exact .refl hc
  · have hone := @advanceOne_onward h t it hc
    exact hone.trans (skipGapsLoop_onward _ (hone.climbs hc))

theorem advanceTo_onward (hc : Climbs it) (hloc : it.isValid = true → it.current ≤ loc) :
    Onward it (it.advanceTo h t loc) := by
  rw [advanceTo_eq]
  split
  · exact .of_invalid ⟨rfl, rfl, rfl, rfl⟩ rfl
  · rename_i hb
    unfold Behind at hb
    rw [hc.order] at hb
    simp only [Bool.false_eq_true, if_false] at hb
    have hjump : Onward it { it with current := loc } :=
      ⟨⟨rfl, rfl, rfl, rfl⟩, fun hv => ⟨hv, rfl, hloc hv, not_lt.mp hb⟩⟩
    exact hjump.trans (skipGapsLoop_onward _ (hjump.climbs hc))

theorem skipGaps_outside (hg : t.gaps.contains it.current = false) : it.skipGaps h t = it := by
  unfold skipGaps skipGapsLoop
  rw [hg, Bool.and_false, if_neg (by decide)]

theorem construct_outside {start stop : AbsoluteLocation} {order : GroupOrder} {tr : TrackRef}
    (ho : order ≠ .newestFirst) (hg : t.gaps.contains start = false) :
    construct h t start stop order tr =
      { minLocation := start, maxLocation := stop, order := order, track := tr, current := start,
        end_ := stop } := by
  unfold construct ofRange
  simp only
  rw [if_neg fun h => ho h.1]
  exact skipGaps_outside hg

end FetchRangeIterator

/-! ## 2. The calls of a stream -/

namespace FetchWriteback

open FetchRangeIterator

variable {s s' : State} {fin : Bool}
variable {write : ObjectWrite} {now : TimePoint}

variable {call : FetchCall}

abbrev Moves (s s' : State) : Prop := Onward s.2.fetchRangeIt s'.2.fetchRangeIt

def Ahead (w : FetchWriteback) (loc : AbsoluteLocation) : Prop :=
  w.inRange loc = true → w.fetchRangeIt.isValid = true → w.fetchRangeIt.current ≤ loc

/-- The calls come in order. An object that does not come at once begins at the cursor, and an unknown range
    retires the writeback's entry if it ends the stream. -/
def Orderly (s : State) : FetchCall → Prop
  | .object gID _ objID _ _ _ _ => s.2.Ahead ⟨gID, objID⟩
  | .beginObject gID _ objID len initPayload _ => s.2.Ahead ⟨gID, objID⟩ ∧
      (initPayload.length < len → s.2.fetchRangeIt.isValid = true → s.2.inRange ⟨gID, objID⟩ = true →
        s.2.fetchRangeIt.current = ⟨gID, objID⟩)
  | .endOfGroup gID _ objID _ => s.2.Ahead ⟨gID, objID⟩
  | .endOfTrackAndGroup gID _ objID => s.2.Ahead ⟨gID, objID⟩
  | .endOfUnknownRange groupId objectId finFetch =>
      (s.2.fetchRangeIt.isValid = true → s.2.fetchRangeIt.current ≤ ⟨groupId, objectId⟩) ∧
        Retirable s (.endOfUnknownRange groupId objectId finFetch)
  | _ => True

theorem Orderly.retirable (h : Orderly s call) : Retirable s call := by
  cases call with
  | endOfUnknownRange => exact h.2
  | _ => trivial

theorem Orderly.begins {loc : AbsoluteLocation} (h : Orderly s call) (hb : call.begins = some loc)
    (hv : s.2.fetchRangeIt.isValid = true) (hin : s.2.inRange loc = true) :
    s.2.fetchRangeIt.current = loc := by
  unfold FetchCall.begins at hb
  split at hb
  · split at hb
    · rename_i hlen
      obtain rfl := some.inj hb
      exact h.2 hlen hv hin
    · cases hb
  · cases hb

theorem updateInProgress_moves (hc : s.2.fetchRangeIt.Climbs) : Moves s (updateInProgress s) := by
  unfold Moves
  rw [updateInProgress_current]
  exact .refl hc

theorem markNonExistentTo_moves {target : AbsoluteLocation} (hc : s.2.fetchRangeIt.Climbs)
    (ht : s.2.fetchRangeIt.isValid = true → s.2.fetchRangeIt.current ≤ target)
    (h : markNonExistentTo s target = some s') : Moves s s' := by
  obtain ⟨-, gaps, it, hw, hit⟩ := markNonExistentTo_gapped h
  unfold Moves
  rw [hw]
  rcases hit with ⟨heq, -⟩ | ⟨-, c, heq⟩
  · simp only [heq]
    exact .refl hc
  · simp only [heq]
    exact advanceTo_onward hc ht

theorem finishRange_moves (h : finishRange s = some s') : Moves s s' := by
  obtain ⟨-, gaps, it, hw, hrange⟩ := finishRange_gapped h
  unfold Moves
  rw [hw]
  exact .of_invalid (hrange.trans ⟨rfl, rfl, rfl, rfl⟩) rfl

theorem Tail.moves (h : Tail s s') (hc : s.2.fetchRangeIt.Climbs) : Moves s s' := by
  induction h with
  | refl => exact .refl hc
  | alter _ ha ih =>
    unfold Moves
    rw [ha.cursor]
    exact ih
  | flags _ _ _ ih => exact ih
  | largest _ _ ih => exact ih
  | next _ ih => exact Onward.trans ih (next_onward (ih.climbs hc))
  | invalidate _ ih => exact Onward.trans ih (.of_invalid ⟨rfl, rfl, rfl, rfl⟩ rfl)
  | finish _ hf ih => exact Onward.trans ih (finishRange_moves hf)
  | publish _ ih => exact Onward.trans ih (updateInProgress_moves (ih.climbs hc))

theorem cacheImpl_moves {reply : Reply} (hc : s.2.fetchRangeIt.Climbs)
    (ht : s.2.fetchRangeIt.isValid = true → s.2.fetchRangeIt.current ≤ write.location)
    (h : cacheImpl s write fin = some (reply, s')) : Moves s s' := by
  obtain ⟨d, hd, hafter⟩ := cacheImpl_caches h
  have hcursor : (s.2.receive write.location).fetchRangeIt = s.2.fetchRangeIt := receive_cursor
  have hmove : Moves (stored s write, s.2.receive write.location) d := by
    refine markNonExistentTo_moves ?_ ?_ hd
    · simp only [hcursor]
      exact hc
    · simp only [hcursor]
      exact ht
  unfold Moves at hmove
  simp only [hcursor] at hmove
  exact hmove.trans (hafter.tail.moves (hmove.climbs hc))

theorem Orderly.ahead (h : Orderly s call) (hw : s.2.writeOf now call = some write)
    (hwhole : ∀ payload fin, call ≠ .objectPayload payload fin) :
    s.2.Ahead write.location := by
  cases call with
  | object =>
    cases hw
    exact h
  | beginObject =>
    cases hw
    exact h.1
  | objectPayload payload fin => exact absurd rfl (hwhole payload fin)
  | endOfGroup =>
    cases hw
    exact h
  | endOfTrackAndGroup =>
    cases hw
    exact h
  | _ => cases hw

/-- **An ascending cursor does not go back** when the calls come in order. -/
theorem call_onward (hc : s.2.fetchRangeIt.Climbs) (ho : Orderly s call)
    (h : (FetchWriteback.call s now call).1 ≠ .aborted) : Moves s (FetchWriteback.call s now call).2 := by
  have hdoes := call_does h
  generalize FetchWriteback.call s now call = res at hdoes
  cases hdoes with
  | idle ha =>
    unfold Moves
    rw [ha.cursor]
    exact .refl hc
  | ended _ _ _ h => exact (onFetchStreamEnd_tail h).moves hc
  | @cached w w' write _ d ha hw whole range _ _ h _ ha' =>
    have hcursor : w.fetchRangeIt = s.2.fetchRangeIt := ha.cursor
    have hm : Moves (s.1, w) d := by
      refine cacheImpl_moves ?_ ?_ h
      · rw [hcursor]
        exact hc
      · rw [hcursor]
        exact ho.ahead hw whole range
    unfold Moves at hm ⊢
    rw [ha'.cursor, ← hcursor]
    exact hm
  | refused => exact .refl hc
  | chunk _ _ _ _ after => exact (afterChunk_tail after).moves hc
  | reset => exact reset_tail.moves hc
  | @unknown groupId objectId fin hcall =>
    subst hcall
    have hjump : Moves s (advanceTo s ⟨groupId, objectId⟩) := advanceTo_onward hc ho.1
    have hnext : Moves s (next (advanceTo s ⟨groupId, objectId⟩)) :=
      Onward.trans hjump (next_onward (hjump.climbs hc))
    unfold Moves
    rw [show (endOfUnknownRange s groupId objectId fin).2.fetchRangeIt =
      (next (advanceTo s ⟨groupId, objectId⟩)).2.fetchRangeIt from updateInProgress_current]
    exact hnext

end FetchWriteback

/-! ## 3. The lookup -/

namespace CacheTrack

variable {t : CacheTrack} {loc : AbsoluteLocation} {id : WritebackId}

/-- An entry answers for a location. -/
def Covers (e : AbsoluteLocation × FetchInProgressEntry) (loc : AbsoluteLocation) : Prop :=
  e.1 ≤ loc ∧ loc < e.2.end ∧ e.2.progress ≤ loc

theorem findFetchInProgress_some (h : t.findFetchInProgress loc = some id) :
    ∃ e ∈ t.fetchesInProgress, Covers e loc ∧ e.2.writeback = id := by
  obtain ⟨e, he, rfl⟩ := map_eq_some_iff.mp h
  have hmem := List.mem_filter.mp (List.mem_reverse.mp (List.mem_of_find?_eq_some he))
  have hcovers := List.find?_some he
  exact ⟨e, hmem.1, ⟨of_decide_eq_true hmem.2, of_decide_eq_true hcovers⟩, rfl⟩

theorem findFetchInProgress_isSome {e : AbsoluteLocation × FetchInProgressEntry}
    (he : e ∈ t.fetchesInProgress) (hc : Covers e loc) : (t.findFetchInProgress loc).isSome = true := by
  unfold findFetchInProgress
  rw [isSome_map, List.find?_isSome]
  refine ⟨e, List.mem_reverse.mpr (List.mem_filter.mpr ⟨he, decide_eq_true hc.1⟩), ?_⟩
  exact decide_eq_true hc.2

end CacheTrack

/-! ## 4. Runs -/

namespace System

variable {s : System} {ended : Nat → Bool}
variable {d' : FetchWriteback.State} {proxyFin : Bool} {start stop : AbsoluteLocation}
  {order : GroupOrder}

variable {loc p : AbsoluteLocation} {done : Bool} {d : FetchWriteback.State} {w : FetchWriteback}
  {c : MoqxCache} {ftn : FullTrackName}

/-- Upstream fetches that are cached ascend from a location that is no gap, and their calls are orderly. -/
def Orderly (s : System) : CacheOp → Prop
  | .fetch ftn start «end» order => s.cache.cache.lookup ftn = none →
      order ≠ .newestFirst ∧ start ≤ toExclusiveEnd «end»
  | .fetchUpstream id _ start «end» order => ∀ f, s.fetches.lookup id = some f →
      (s.cache.track f.track).shouldSkipCaching = false →
      order ≠ .newestFirst ∧ start ≤ «end» ∧ (s.cache.track f.track).gaps.contains start = false
  | .writeback id call _ => ∀ w, s.writebacks.lookup id = some w → w.cachingEnabled = true →
      FetchWriteback.Orderly (s.cache, w) call
  | _ => True

/-- A writeback that caches, of a stream that has not ended, has the location still ahead of it. -/
def Awaited (s : System) (ended : Nat → Bool) (t : TrackRef) (loc : AbsoluteLocation) (id : Nat) : Prop :=
  ∃ w, s.writebacks.lookup id = some w ∧ w.track = t ∧ w.cachingEnabled = true ∧ ended id = false ∧
    w.fetchRangeIt.Awaits loc

theorem not_awaited_of_all {t : TrackRef} {id : Nat}
    (h : (s.writebacks.lookup id).all (fun w => !decide (w.fetchRangeIt.Awaits loc)) = true) :
    ¬s.Awaited ended t loc id := by
  intro ha
  obtain ⟨w, hw, -, -, -, ha⟩ := ha
  rw [hw, all_some, decide_eq_true ha] at h
  cases h

/-- The published progress of a writeback is its cursor's place, above its key; it has no entry once the
    cursor is at the end of the range. -/
structure Keyed (ended : Bool) (w : FetchWriteback) (p : AbsoluteLocation) : Prop where
  climbs : w.fetchRangeIt.Climbs
  ended : ended = true → w.fetchRangeIt.isValid = false
  key : ∀ {k}, w.fetchInProgressIt = some k →
    w.fetchRangeIt.isValid = true ∧ k ≤ p ∧ p = w.fetchRangeIt.current
  noKey : w.fetchInProgressIt = none → w.fetchRangeIt.isValid = true →
    w.fetchRangeIt.maxLocation ≤ w.fetchRangeIt.current

def Tracked (ended : Nat → Bool) (id : Nat) (w : FetchWriteback) (p : AbsoluteLocation) : Prop :=
  if w.cachingEnabled then Keyed (ended id) w p else w.fetchInProgressIt = none

theorem Keyed.published (hk : Keyed done d.2 p) (hm : FetchWriteback.Moves d d')
    (hp : FetchWriteback.Published p d d') :
    Keyed done d'.2 d'.2.fetchRangeIt.current := by
  refine ⟨hm.climbs hk.climbs, fun hdone => ?_, @fun k hkey => ?_, fun hkey hv => ?_⟩
  · exact hm.invalid (hk.ended hdone)
  · rw [hp.key] at hkey
    unfold FetchWriteback.nextKey at hkey
    split at hkey
    · rename_i hv
      obtain ⟨k₀, hk₀, hkey⟩ := bind_eq_some_iff.mp hkey
      obtain ⟨-, hle, rfl⟩ := hk.key hk₀
      refine ⟨hv, ?_, rfl⟩
      split at hkey
      · split at hkey
        · cases hkey
          exact le_refl _
        · cases hkey
      · cases hkey
        exact hle.trans (hm.rises hv).2.2.1
    · cases hkey
  · rw [hp.key] at hkey
    unfold FetchWriteback.nextKey at hkey
    rw [if_pos hv] at hkey
    obtain ⟨hv₀, -, hle, -⟩ := hm.rises hv
    rcases eq_none_or_eq_some d.2.fetchInProgressIt with hk₀ | ⟨k₀, hk₀⟩
    · rw [hm.range.max]
      exact (hk.noKey hk₀ hv₀).trans hle
    · rw [hk₀, bind_some] at hkey
      split at hkey
      · split at hkey
        · cases hkey
        · rename_i hmax
          exact not_lt.mp hmax
      · cases hkey

theorem Keyed.unmoved {w' : FetchWriteback} (hk : Keyed done w p)
    (hkey : w'.fetchInProgressIt = w.fetchInProgressIt) (hit : w'.fetchRangeIt = w.fetchRangeIt) :
    Keyed done w' p := by
  obtain ⟨hc, he, hk, hn⟩ := hk
  rw [← hit] at hc he hk hn
  rw [← hkey] at hk hn
  exact ⟨hc, he, hk, hn⟩

theorem Keyed.called {call : FetchCall} {now : TimePoint} (hk : Keyed done d.2 p) (hr : d.2.Recorded p d.1)
    (ho : FetchWriteback.Orderly d call)
    (hf : FetchWriteback.Follows call p d (FetchWriteback.call d now call).2)
    (ha : (FetchWriteback.call d now call).1 ≠ .aborted) :
    ∃ p', (FetchWriteback.call d now call).2.2.Recorded p' (FetchWriteback.call d now call).2.1 ∧
      Keyed (done || FetchWriteback.endsWith d now call) (FetchWriteback.call d now call).2.2 p' := by
  have hm := FetchWriteback.call_onward hk.climbs ho ha
  have hends := FetchWriteback.call_ends ho.retirable ha
  suffices h : ∃ p', (FetchWriteback.call d now call).2.2.Recorded p' (FetchWriteback.call d now call).2.1 ∧
      Keyed done (FetchWriteback.call d now call).2.2 p' by
    obtain ⟨p', hr', hk'⟩ := h
    refine ⟨p', hr', hk'.climbs, fun hdone => ?_, hk'.key, hk'.noKey⟩
    rcases Bool.or_eq_true_iff.mp hdone with hdone | hdone
    · exact hk'.ended hdone
    · exact (hends.closes hdone).cursor
  cases hf with
  | published hp => exact ⟨_, hp.own hr, hk.published hm hp⟩
  | unmoved he hkey hit => exact ⟨p, he.own hr, hk.unmoved hkey hit⟩
  | begun he hkey loc hbegins hin hjump hcursor =>
    -- only an invalid cursor is moved by half an object, and it stays invalid
    have hv : d.2.fetchRangeIt.isValid = false := by
      rw [← Bool.not_eq_true]
      intro hv
      exact hjump (ho.begins hbegins hv hin)
    have hv' := hm.invalid hv
    refine ⟨p, he.own hr, hm.climbs hk.climbs, fun _ => hv', @fun k hk' => ?_, fun _ hvalid => ?_⟩
    · rw [hkey] at hk'
      exact absurd ((hk.key hk').1.symm.trans hv) (by decide)
    · exact absurd (hvalid.symm.trans hv') (by decide)

theorem open_keyed {id : Nat} {t : TrackRef} (ho : order ≠ .newestFirst) (hle : start ≤ stop)
    (hg : (c.track t).gaps.contains start = false)
    (hcache : (FetchWriteback.make c id proxyFin ftn t start stop order).cachingEnabled = true) :
    Keyed false (FetchWriteback.open (c, .make c id proxyFin ftn t start stop order)).2 start := by
  obtain ⟨r, hw⟩ := @FetchWriteback.open_writeback _ c hcache
  have hit : (FetchWriteback.make c id proxyFin ftn t start stop order).fetchRangeIt = _ :=
    @FetchRangeIterator.construct_outside c.group (c.track t) start stop order t ho hg
  rw [hw, hit]
  refine ⟨⟨beq_eq_false_iff_ne.mpr ho, fun _ => ⟨rfl, le_refl _, hle⟩⟩, nofun, @fun k hk => ?_, nofun⟩
  cases hk
  exact ⟨rfl, le_refl _, rfl⟩

theorem addFetchedTrack_gaps :
    ((c.addFetchedTrack ftn).2.track (c.addFetchedTrack ftn).1).gaps.contains loc = false := by
  have hroom : Evicting (c.addTrack ftn) (c.addFetchedTrack ftn).2 := by
    unfold addFetchedTrack
    simp only
    split
    · exact evictOldestTrackIfNeeded_purges.evicting.same addTrackToLRU_enlists.content
    · exact Evicting.refl.same addTrackToLRU_enlists.content
  rw [← Bool.not_eq_true]
  intro h
  have hnew := hroom.gaps h
  have hempty : (c.addTrack ftn).track (c.addFetchedTrack ftn).1 = {} := setTrack_self
  rw [hempty] at hnew
  cases hnew

theorem follows_noKey {call : FetchCall} (hf : FetchWriteback.Follows call p d d')
    (hn : d.2.fetchInProgressIt = none) :
    d'.2.fetchInProgressIt = none := by
  cases hf with
  | published hp =>
    rw [hp.key, hn]
    unfold FetchWriteback.nextKey
    rw [bind_none, ite_self]
  | unmoved _ hkey => exact hkey.trans hn
  | begun _ hkey => exact hkey.trans hn

theorem tracked_open {id : Nat} {t : TrackRef} (hnew : ended id = false)
    (ho : (c.track t).shouldSkipCaching = false →
      order ≠ .newestFirst ∧ start ≤ stop ∧ (c.track t).gaps.contains start = false) :
    Tracked ended id (FetchWriteback.open (c, .make c id proxyFin ftn t start stop order)).2 start := by
  have hcaching : (FetchWriteback.make c id proxyFin ftn t start stop order).cachingEnabled =
      !(c.track t).shouldSkipCaching := rfl
  unfold Tracked
  rw [FetchWriteback.open_cachingEnabled, hnew]
  split
  · rename_i hcache
    obtain ⟨horder, hle, hg⟩ := ho (by simpa using hcaching.symm.trans hcache)
    exact open_keyed horder hle hg hcache
  · rename_i hcache
    rw [FetchWriteback.open_passThrough (by simpa using hcache)]
    rfl

theorem tracked_carries {op : CacheOp} (hok : Orderly s op) (hnew : ended s.next = false) :
    Carries (Tracked ended) (Tracked (s.markEnded ended op)) s op where
  rest := @fun id w p hl hr hne => by
    unfold Tracked
    rw [markEnded_other hne]
    exact hr
  fetched := @fun ftn start stop order hop hf => by
    have hmark : s.markEnded ended op s.next = ended s.next :=
      markEnded_other fun _ _ h => nomatch hop.symm.trans h
    subst hop
    exact tracked_open (hmark.trans hnew) fun _ => ⟨(hok hf).1, (hok hf).2, addFetchedTrack_gaps⟩
  upstream := @fun id f lastObject start stop order hop hf => by
    have hmark : s.markEnded ended op s.next = ended s.next :=
      markEnded_other fun _ _ h => nomatch hop.symm.trans h
    subst hop
    exact tracked_open (hmark.trans hnew) (hok f hf)
  called := @fun id w p call now hop hl hr hp hf ha => by
    subst hop
    obtain ⟨p₀, he⟩ := hf.enters
    unfold Tracked at hr ⊢
    rw [he.same.cachingEnabled, markEnded_self hl]
    split at hr
    · rename_i hcache
      obtain ⟨p', hp', hk⟩ := hr.called hp (hok w hl hcache) hf ha
      refine ⟨p', hp', ?_⟩
      rw [if_pos hcache]
      exact hk
    · rename_i hcache
      refine ⟨p₀, he.own hp, ?_⟩
      rw [if_neg hcache]
      exact follows_noKey hf hr
  ended := @fun id w p ok setExtensions loc gaps hop hl hr => by
    unfold Tracked at hr ⊢
    rw [markEnded_other fun _ _ h => nomatch hop.symm.trans h]
    split at hr
    · rename_i hcache
      exact (if_pos hcache).mpr (hr.unmoved rfl rfl)
    · rename_i hcache
      exact (if_neg hcache).mpr hr

theorem history_tracked {tracks groups bytes eviction : Nat}
    (h : History Orderly (init tracks groups bytes eviction) ended s) : InFlight (Tracked ended) s :=
  h.inFlight tracked_carries

theorem Keyed.awaits (hk : Keyed done w p) {e : AbsoluteLocation × FetchInProgressEntry}
    (he : e ∈ w.entries p) (hc : CacheTrack.Covers e loc) :
    done = false ∧ w.fetchRangeIt.Awaits loc := by
  obtain ⟨k, hkey, rfl⟩ := List.mem_map.mp he
  obtain ⟨hv, hle, rfl⟩ := hk.key (mem_toList.mp hkey)
  obtain ⟨-, hend, hprogress⟩ := hc
  refine ⟨?_, hv, ((hk.climbs.inside hv).2.1).trans hprogress, hend, ?_⟩
  · rw [← Bool.not_eq_true]
    intro hdone
    exact absurd (hv.symm.trans (hk.ended hdone)) (by decide)
  · rw [if_neg (by rw [hk.climbs.order]; decide)]
    exact hprogress

theorem Keyed.covers (hk : Keyed done w p) (ha : w.fetchRangeIt.Awaits loc) :
    ∃ e ∈ w.entries p, CacheTrack.Covers e loc := by
  obtain ⟨hv, -, hend, hcursor⟩ := ha
  rw [if_neg (by rw [hk.climbs.order]; decide)] at hcursor
  rcases eq_none_or_eq_some w.fetchInProgressIt with hn | ⟨k, hkey⟩
  · exact absurd (hcursor.trans_lt hend) (not_lt.mpr (hk.noKey hn hv))
  · obtain ⟨-, hle, rfl⟩ := hk.key hkey
    exact ⟨_, List.mem_map.mpr ⟨k, mem_toList.mpr hkey, rfl⟩, hle.trans hcursor, hend, hcursor⟩

theorem InFlight.found {t : TrackRef} {id : Nat} (h : InFlight (Tracked ended) s)
    (hf : (s.cache.track t).findFetchInProgress loc = some id) : s.Awaited ended t loc id := by
  obtain ⟨e, he, hc, rfl⟩ := CacheTrack.findFetchInProgress_some hf
  obtain ⟨w, p, hw, ht, hmem, hr⟩ := h.owner he
  unfold Tracked at hr
  split at hr
  · rename_i hcache
    obtain ⟨hdone, hawaits⟩ := hr.awaits hmem hc
    exact ⟨w, hw, ht, hcache, hdone, hawaits⟩
  · unfold FetchWriteback.entries at hmem
    rw [hr] at hmem
    cases hmem

theorem InFlight.finds {t : TrackRef} {id : Nat} (h : InFlight (Tracked ended) s)
    (ha : s.Awaited ended t loc id) : ((s.cache.track t).findFetchInProgress loc).isSome = true := by
  obtain ⟨w, hw, rfl, hcache, -, hawaits⟩ := ha
  obtain ⟨-, p, hp, hr⟩ := h.entered hw
  obtain ⟨e, he, hc⟩ := ((if_pos hcache).mp hr).covers hawaits
  have hmem : e ∈ (s.cache.track w.track).entriesOf w.id := by
    rw [hp w.track, if_pos rfl]
    exact he
  exact CacheTrack.findFetchInProgress_isSome (CacheTrack.mem_entriesOf.mp hmem).1 hc

/-- **Fetches in flight are found exactly.** In every run of orderly upstream fetches the lookup of a location
    answers if and only if a writeback on the track awaits it, and then with such a writeback. -/
theorem finds_awaited_exactly {tracks groups bytes eviction : Nat} {t : TrackRef} {loc : AbsoluteLocation}
    (h : History Orderly (init tracks groups bytes eviction) ended s) :
    (((s.cache.track t).findFetchInProgress loc).isSome = true ↔ ∃ id, s.Awaited ended t loc id) ∧
      ∀ id, (s.cache.track t).findFetchInProgress loc = some id → s.Awaited ended t loc id := by
  have hin := history_tracked h
  refine ⟨⟨fun hs => ?_, fun ha => ?_⟩, fun id hf => hin.found hf⟩
  · obtain ⟨id, hf⟩ := isSome_iff_exists.mp hs
    exact ⟨id, hin.found hf⟩
  · obtain ⟨id, ha⟩ := ha
    exact hin.finds ha

/-- After the first object of a fetch the next one is awaited, and found. -/
theorem finds_awaited_exactly_next :
    ∃ ended s, History Orderly (init 4 4 100 0) ended s ∧ s.Awaited ended 0 ⟨0, 1⟩ 0 ∧
      ((((s.cache.track 0).findFetchInProgress ⟨0, 1⟩).isSome = true ↔ ∃ id, s.Awaited ended 0 ⟨0, 1⟩ id) ∧
        ∀ id, (s.cache.track 0).findFetchInProgress ⟨0, 1⟩ = some id → s.Awaited ended 0 ⟨0, 1⟩ id) := by
  have h0 : History Orderly (init 4 4 100 0) (fun _ => false) (init 4 4 100 0) := .start
  have h1 := h0.next (.fetch ⟨[], []⟩ ⟨0, 0⟩ ⟨0, 5⟩ .oldestFirst) (fun _ => ⟨nofun, by decide⟩) rfl
  have h2 := h1.next (.writeback 0 (.object 0 0 0 (some [7]) noExtensions false false) 0)
    (fun w hw _ => by cases hw; exact fun _ _ => by decide) rfl
  exact ⟨_, _, h2, ⟨_, rfl, rfl, rfl, rfl, by decide⟩, finds_awaited_exactly h2⟩

/-- **A descending fetch is lost and is found where it has been.** Groups 0 and 1 are fetched, the newest first.
    After the first object of group 1 the entry's key is in group 1, and nobody finds the fetch for group 0,
    which it still has to bring. After the first object of group 0 it is found for a location of group 1, which
    it has passed. -/
theorem descending_fetch_not_found :
    (∃ ended s, History (fun _ _ => True) (init 4 4 100 0) ended s ∧ s.Awaited ended 0 ⟨0, 0⟩ 0 ∧
      (s.cache.track 0).findFetchInProgress ⟨0, 0⟩ = none) ∧
    ∃ ended s, History (fun _ _ => True) (init 4 4 100 0) ended s ∧
      (s.cache.track 0).findFetchInProgress ⟨1, 1⟩ = some 0 ∧ ¬s.Awaited ended 0 ⟨1, 1⟩ 0 := by
  have h0 : History (fun _ _ => True) (init 4 4 100 0) (fun _ => false) (init 4 4 100 0) := .start
  have h1 := h0.next (.fetch ⟨[], []⟩ ⟨0, 0⟩ ⟨1, 0⟩ .newestFirst) trivial rfl
  have h2 := h1.next (.writeback 0 (.object 1 0 0 (some [7]) noExtensions false false) 0) trivial rfl
  have h3 := h2.goes (.writeback 0 (.object 0 0 0 (some [7]) noExtensions false false) 0) trivial (by decide +kernel)
  refine ⟨⟨_, _, h2, ⟨_, rfl, rfl, rfl, rfl, by decide⟩, rfl⟩, ⟨_, _, h3, by decide +kernel, ?_⟩⟩
  exact not_awaited_of_all (by decide +kernel)

end System

end Moqx

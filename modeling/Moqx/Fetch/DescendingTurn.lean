/-
  Subject: One turn of a descending fetch against a state that nothing else changes.

  * `turn_desc` -- all a turn can do.
-/
import Moqx.Fetch.Descending

namespace Moqx

open AbsoluteLocation FetchRangeIterator FetchRun FetchVars

variable {tr : TrackRef} {start «end» stop : AbsoluteLocation} {c : MoqxCache} {it : FetchRangeIterator}

/-- The end the fetch computes, from what the track knows. -/
def fetchEnd (c : MoqxCache) (tr : TrackRef) (start «end» : AbsoluteLocation) : AbsoluteLocation :=
  guessedEnd c.group (c.track tr) start «end»

structure DescBase (tr : TrackRef) (start «end» : AbsoluteLocation) (c : MoqxCache)
    (it : FetchRangeIterator) : Prop where
  desc : it.descending = true
  track : it.track = tr
  min : it.minLocation = start
  max : it.maxLocation = «end»
  memo : MemoFresh (c.track tr) it.cachedGroup
  kept : EndKept (c.track tr) it ∨ PastTrackEnd (c.track tr) it.current ∨ it.isValid = false
  object : it.current.object ≤ kEightByteLimit
  notBelow : it.isValid = true → it.current ≠ fetchEnd c tr start «end» → NotBelow start it.current
  group : it.current.group ≤ «end».group
  top : it.isValid = true → it.current.group = «end».group → 0 < «end».object

/-- The location is known not to exist, or lies behind a gap of its group. -/
def Skippable (c : MoqxCache) (tr : TrackRef) (start l : AbsoluteLocation) : Prop :=
  Known c tr l ∨ AfterGap (c.track tr) start l

/-- Where the cursor is after a boundary at `a`: over a gap in a lower group (`hop`), on in the order
    behind a cached object (`on`), clamped to the end, or out of the lowest group. -/
inductive Moved (c : MoqxCache) (tr : TrackRef) (start «end» a : AbsoluteLocation) (atGap : Bool)
    (it : FetchRangeIterator) : Prop where
  | hop (gap : atGap = true) (valid : it.isValid = true) (lower : it.current.group < a.group) (inside : start ≤ it.current)
      (kind : it.current.object = if it.current.group = start.group then start.object else 0)
      (skips : ∀ l : AbsoluteLocation, l.object ≤ kEightByteLimit → start ≤ l → l < «end» →
        NewerFirst a l → NewerFirst l it.current → Skippable c tr start l)
  | on (object : atGap = false) (valid : it.isValid = true) (newer : NewerFirst a it.current)
      (inside : start ≤ a → a < «end» → a ≠ fetchEnd c tr start «end» →
        start ≤ it.current ∧ (it.current < «end» ∨ it.current = fetchEnd c tr start «end»))
      (kind : (it.current.object = if it.current.group = start.group then start.object else 0) ∨
        it.current = ⟨a.group, a.object + 1⟩)
      (skips : ∀ l : AbsoluteLocation, l.object ≤ kEightByteLimit → start ≤ l → l < «end» →
        NewerFirst a l → NewerFirst l it.current → Skippable c tr start l)
  | clamped (valid : it.isValid = true) (stops : it.current = fetchEnd c tr start «end»)
      (skips : ∀ l : AbsoluteLocation, l.object ≤ kEightByteLimit → start ≤ l → l < «end» →
        NewerFirst a l → Skippable c tr start l)
  | out (object : atGap = false) (invalid : it.isValid = false)
      (never : start ≤ a → a < «end» → a = fetchEnd c tr start «end»)
      (skips : ∀ l : AbsoluteLocation, l.object ≤ kEightByteLimit → start ≤ l → l < «end» →
        NewerFirst a l → Skippable c tr start l)

section moves

theorem fetchEnd_group :
    (fetchEnd c tr start stop).group = start.group ∧
      (start.group = stop.group → fetchEnd c tr start stop = stop) := by
  unfold fetchEnd guessedEnd
  split
  · rename_i hg
    exact ⟨hg.symm, fun _ => rfl⟩
  · rename_i hg
    split <;> exact ⟨rfl, fun h => absurd h hg⟩

theorem DescBase.move (hb : DescBase tr start stop c it) (hlt : start < stop)
    {b : AbsoluteLocation} {memo : GroupMemo} {valid : Bool} (hm : MemoFresh (c.track tr) memo)
    (hk : EndKept (c.track tr) it) (ho : b.object ≤ kEightByteLimit)
    (hnb : valid = true → b ≠ fetchEnd c tr start stop → NotBelow start b)
    (hg : b.group = start.group ∨ b.group ≤ it.current.group) (hv : it.isValid = true) :
    DescBase tr start stop c { it with current := b, cachedGroup := memo, isValid := valid } := by
  have hlt' := hlt
  rw [lt_iff] at hlt'
  have hbg := hb.group
  refine ⟨hb.desc, hb.track, hb.min, hb.max, hm, Or.inl ⟨hk.memo, hk.group, hk.single, hk.absent⟩, ho,
    hnb, ?_, ?_⟩
  · show b.group ≤ stop.group
    omega
  · intro _ heq
    replace heq : b.group = stop.group := heq
    rcases hg with hg | hg
    · omega
    · exact hb.top hv (by omega)

def Over (c : MoqxCache) (tr : TrackRef) (start «end» : AbsoluteLocation) (it : FetchRangeIterator) :
    Prop :=
  it.isValid = false ∨ PastTrackEnd (c.track tr) it.current ∨
    it.current = fetchEnd c tr start «end»

theorem end_over (hp : PastTrackEnd (c.track tr) it.current ∨ it.isValid = false) :
    it.end c.group (c.track tr) = (it.current, { it with end_ := it.current }) := by
  exact if_pos (pastTrackEnd_iff.mpr hp)

theorem valid_of_not_over (h : ¬Over c tr start stop it) : it.isValid = true := by
  by_contra hv
  exact h (Or.inl (by simpa using hv))

theorem Over.at_end (h : Over c tr start stop it) (hv : it.isValid = true)
    (hend : (c.track tr).endOfTrack = false) : it.current = fetchEnd c tr start stop := by
  rcases h with h | h | h
  · rw [hv] at h
    cases h
  · rw [PastTrackEnd, hend] at h
    cases h.1
  · exact h

theorem atEnd_desc {v : FetchVars} (hb : DescBase tr start stop c v.it) (hlt : start < stop)
    (he : stop.Valid) :
    ∃ end_ memo, v.atEnd c = ((v.atEnd c).1,
        { v with it := { v.it with end_ := end_, cachedEndGroup := memo } }) ∧
      DescBase tr start stop c { v.it with end_ := end_, cachedEndGroup := memo } ∧
      ((v.atEnd c).1 = true ↔ Over c tr start stop v.it) ∧
      (¬Over c tr start stop v.it → end_ = fetchEnd c tr start stop ∧
        EndKept (c.track tr) { v.it with end_ := end_, cachedEndGroup := memo }) := by
  have htr := hb.track
  by_cases hp : PastTrackEnd (c.track tr) v.it.current ∨ v.it.isValid = false
  · have hend := end_over hp
    have hover : Over c tr start stop v.it := by
      rcases hp with hp | hp
      · exact Or.inr (Or.inl hp)
      · exact Or.inl hp
    refine ⟨v.it.current, v.it.cachedEndGroup, ?_, ?_, ?_, fun hn => absurd hover hn⟩
    · simp only [atEnd, htr, hend]
    · exact ⟨hb.desc, hb.track, hb.min, hb.max, hb.memo, Or.inr hp, hb.object, hb.notBelow, hb.group,
        hb.top⟩
    · refine ⟨fun _ => hover, fun _ => ?_⟩
      simp only [atEnd, htr, hend, decide_true]
  · have hk : EndKept (c.track tr) v.it := hb.kept.resolve_right hp
    rw [not_or, Bool.not_eq_false] at hp
    rcases end_desc (h := c.group) hb.desc hk (by rw [hb.max]; exact he)
        (by rw [hb.min, hb.max]; exact hlt) with ⟨h1, -⟩ | ⟨-, -, memo, hend, hk'⟩
    · rcases h1 with h1 | h1
      · exact absurd h1 hp.1
      · rw [hp.2] at h1
        cases h1
    · have hfe : guessedEnd c.group (c.track tr) v.it.minLocation v.it.maxLocation =
          fetchEnd c tr start stop := by
        rw [hb.min, hb.max]
        rfl
      rw [hfe] at hend hk'
      refine ⟨fetchEnd c tr start stop, memo, ?_, ?_, ?_, fun _ => ⟨rfl, hk'⟩⟩
      · simp only [atEnd, htr, hend]
      · exact ⟨hb.desc, hb.track, hb.min, hb.max, hb.memo, Or.inl hk', hb.object, hb.notBelow,
          hb.group, hb.top⟩
      · have hat : (v.atEnd c).1 = decide (v.it.current = fetchEnd c tr start stop) := by
          simp only [atEnd, htr, hend]
        rw [hat, decide_eq_true_eq]
        refine ⟨fun h => Or.inr (Or.inr h), fun h => ?_⟩
        rcases h with h | h | h
        · rw [hp.2] at h
          cases h
        · exact absurd h hp.1
        · exact h

end moves

/-! ## The turn -/

section turn

variable {s s' : FetchRun} {now : TimePoint} {answer : Answer} {c' : MoqxCache} {it' : FetchRangeIterator}

theorem SameKnowledge.fetchEnd (hk : SameKnowledge c c' tr) :
    fetchEnd c' tr start stop = fetchEnd c tr start stop := by
  unfold Moqx.fetchEnd guessedEnd endIncludingMaxCached firstUncachedObject endIncludingMaxCached
  simp only [hk.groups, hk.max, hk.endOfGroup]

theorem SameKnowledge.base (hk : SameKnowledge c c' tr) (hb : DescBase tr start stop c it) :
    DescBase tr start stop c' it := by
  have hm : ∀ memo, MemoFresh (c.track tr) memo → MemoFresh (c'.track tr) memo := by
    intro memo h
    unfold MemoFresh at h ⊢
    rw [hk.groups]
    exact h
  have hp : ∀ l, PastTrackEnd (c.track tr) l → PastTrackEnd (c'.track tr) l := by
    intro l h
    unfold PastTrackEnd at h ⊢
    rw [hk.endOfTrack, hk.largest]
    exact h
  refine ⟨hb.desc, hb.track, hb.min, hb.max, hm _ hb.memo, ?_, hb.object, ?_, hb.group, hb.top⟩
  · rcases hb.kept with h | h | h
    · exact Or.inl ⟨hm _ h.memo, h.group, h.single, by rw [hk.groups]; exact h.absent⟩
    · exact Or.inr (Or.inl (hp _ h))
    · exact Or.inr (Or.inr h)
  · rw [hk.fetchEnd]
    exact hb.notBelow

/-- The requests of the pending misses as what is sent. -/
def requestsOf (start «end» a : AbsoluteLocation) (pending : Option AbsoluteLocation) (isTail : Bool) :
    List Sent :=
  match pending with
  | none => []
  | some m => (getFetchIntervals start «end» m a .newestFirst isTail).map fun r => .upstream r.1 r.2

theorem pendingIntervals_desc {v : FetchVars} {isTail : Bool} (hb : DescBase tr start stop c v.it) :
    (v.pendingIntervals isTail).map (fun r => Sent.upstream r.1 r.2) =
      requestsOf start stop v.it.current v.fetchStart isTail := by
  have ho : v.it.order = .newestFirst := by simpa [descending] using hb.desc
  unfold pendingIntervals requestsOf
  rw [hb.min, hb.max, ho]
  cases v.fetchStart <;> rfl

/-- A jump from a miss leads up in the group, down to a lower group, or nowhere. -/
def Jumped (t : CacheTrack) (it it' : FetchRangeIterator) : Prop :=
  it'.isValid = true ∧ (it.findNextInGroup t = some it'.current ∨
      it.findNextInGroup t = none ∧ it.findPrevGroupCachedPosition t = some it'.current) ∨
    it'.isValid = false ∧ it'.current = ⟨0, 0⟩ ∧ it.findNextInGroup t = none ∧
      it.findPrevGroupCachedPosition t = none

theorem Moved.congr {a : AbsoluteLocation} {atGap : Bool} (hm : Moved c tr start stop a atGap it)
    (hc : it'.current = it.current) (hv : it'.isValid = it.isValid) :
    Moved c tr start stop a atGap it' := by
  cases hm with
  | hop gap valid lower inside kind skips =>
    exact .hop gap (hv.trans valid) (hc ▸ lower) (hc ▸ inside) (hc ▸ kind) (hc ▸ skips)
  | on object valid newer inside kind skips =>
    exact .on object (hv.trans valid) (hc ▸ newer) (hc ▸ inside) (hc ▸ kind) (hc ▸ skips)
  | clamped valid stops skips => exact .clamped (hv.trans valid) (hc.trans stops) skips
  | out object invalid never skips => exact .out object (hv.trans invalid) never skips

end turn

end Moqx

/-
  Subject: `FetchRangeIterator`, the cursor that walks a fetch range.

  Groups are walked upward or, for `GroupOrder.newestFirst`, downward; the objects of one group
  always upward. The cursor jumps over known gaps (`skipGaps`) and over runs of unknown locations
  (`skipUncached`), and guesses where a group ends from what the cache knows (`findGroupEndMaybe`).

  Every function reads the track through the store of groups `h` and the track `t` as they are at
  the moment of the call. The two group pointers the iterator memoises (`GroupMemo`) keep naming
  the group they were looked up for, also after the cache has dropped it.
-/
import Moqx.Cache.State

namespace Moqx

/-- The group last looked up by `findGroupEndMaybe`, and its id. -/
structure GroupMemo where
  id : Nat := kLocationMax.group
  ptr : Option GroupRef := none

structure FetchRangeIterator where
  minLocation : AbsoluteLocation
  maxLocation : AbsoluteLocation
  order : GroupOrder
  track : TrackRef
  current : AbsoluteLocation
  end_ : AbsoluteLocation
  isValid : Bool := true
  cachedGroup : GroupMemo := {}
  cachedEndGroup : GroupMemo := {}

/-- `a - b` on unsigned 64-bit numbers. -/
def subU64 (a b : Nat) : Nat := (a + (2 ^ 64 - b)) % 2 ^ 64

theorem subU64_of_le {a b : Nat} (h : b ≤ a) (ha : a < 2 ^ 64) : subU64 a b = a - b := by
  unfold subU64
  omega

/-- The next iterator position after a gap when iterating descending: empty if the gap reaches
    past the iteration boundary. -/
def computeDescendingAfterGap (current gapStart minLocation : AbsoluteLocation) :
    Option AbsoluteLocation :=
  if 0 < gapStart.object ∧ gapStart.group ≠ current.group then
    some ⟨gapStart.group, if gapStart.group = minLocation.group then minLocation.object else 0⟩
  else
    gapStart.prevGroup.map fun afterGap =>
      if afterGap.group = minLocation.group then ⟨afterGap.group, minLocation.object⟩ else afterGap

namespace FetchRangeIterator

variable (h : GroupRef → CacheGroup) (t : CacheTrack)
variable {current gapStart minLocation b : AbsoluteLocation} {it : FetchRangeIterator}

def descending (it : FetchRangeIterator) : Bool := it.order == .newestFirst

/-! ## 1. Where a group ends -/

/-- `endIncludingMaxCached`: one past the largest cached object, not past the largest id. -/
def endIncludingMaxCached (g : CacheGroup) : Nat :=
  if g.maxCachedObject < kLocationMax.object then g.maxCachedObject + 1 else g.maxCachedObject

theorem endIncludingMaxCached_cases {g : CacheGroup} (hg : g.maxCachedObject ≤ kEightByteLimit) :
    endIncludingMaxCached g = g.maxCachedObject + 1 ∧ g.maxCachedObject < kEightByteLimit ∨
      endIncludingMaxCached g = g.maxCachedObject ∧ g.maxCachedObject = kEightByteLimit := by
  unfold endIncludingMaxCached
  by_cases hlt : g.maxCachedObject < kLocationMax.object
  · rw [if_pos hlt]
    exact Or.inl ⟨rfl, hlt⟩
  · rw [if_neg hlt]
    exact Or.inr ⟨rfl, Nat.le_antisymm hg (Nat.not_lt.mp hlt)⟩

/-- `firstUncachedObject`: one past `endIncludingMaxCached`, not past the largest id. -/
def firstUncachedObject (g : CacheGroup) : Nat :=
  if endIncludingMaxCached g < kLocationMax.object then endIncludingMaxCached g + 1
  else endIncludingMaxCached g

/-- The object the iterator walks a group up to before it moves on, when there is a guess. -/
def findGroupEndMaybe (it : FetchRangeIterator) (currGroup : Nat) (memo : GroupMemo) :
    Option Nat × GroupMemo :=
  let isFirstGroup := currGroup == it.minLocation.group
  let isLastGroup := currGroup == it.maxLocation.group
  if isLastGroup then
    if it.descending && !isFirstGroup then (some (subU64 it.maxLocation.object 1), memo)
    else (some it.maxLocation.object, memo)
  else
    let memo : GroupMemo :=
      if memo.id ≠ currGroup then ⟨currGroup, t.groups.lookup currGroup⟩ else memo
    match memo.ptr with
    | none => (none, memo)
    | some r =>
      if isFirstGroup && it.descending then
        (some (if (h r).endOfGroup then endIncludingMaxCached (h r) else firstUncachedObject (h r)),
          memo)
      else
        (some (if (h r).endOfGroup then (h r).maxCachedObject else endIncludingMaxCached (h r)), memo)

/-- The end of the iteration. It is recomputed, and kept, on every call. -/
def «end» (it : FetchRangeIterator) : AbsoluteLocation × FetchRangeIterator :=
  if (t.endOfTrack && t.largestGroupAndObject.any (· < it.current)) || !it.isValid then
    (it.current, { it with end_ := it.current })
  else if !it.descending then (it.end_, it)
  else
    match it.findGroupEndMaybe h t it.end_.group it.cachedEndGroup with
    | (some object, memo) =>
      (⟨it.end_.group, object⟩,
        { it with end_ := ⟨it.end_.group, object⟩, cachedEndGroup := memo })
    | (none, memo) => (it.end_, { it with cachedEndGroup := memo })

/-! ## 2. Moving -/

def advanceOne (it : FetchRangeIterator) : FetchRangeIterator :=
  if !it.isValid then it
  else if it.current = it.end_ then it
  else
    let (groupEndMaybe, memo) := it.findGroupEndMaybe h t it.current.group it.cachedGroup
    let it := { it with cachedGroup := memo }
    if groupEndMaybe.any (it.current.object < ·) then
      { it with current := ⟨it.current.group, it.current.object + 1⟩ }
    else if it.descending then
      if it.current.group = 0 then { it with isValid := false }
      else
        { it with current := ⟨it.current.group - 1,
            if it.current.group - 1 = it.minLocation.group then it.minLocation.object else 0⟩ }
    else if it.current.group = it.maxLocation.group then { it with current := it.end_ }
    else { it with current := ⟨it.current.group + 1, 0⟩ }

def skipGapsLoop : Nat → FetchRangeIterator → FetchRangeIterator
  | 0, it => it
  | fuel + 1, it =>
    if it.isValid && t.gaps.contains it.current then
      match t.gaps.findInterval it.current with
      | none => skipGapsLoop fuel (it.advanceOne h t)
      | some (gapStart, gapEnd) =>
        let afterGap :=
          if !it.descending then gapEnd.next
          else computeDescendingAfterGap it.current gapStart it.minLocation
        match afterGap with
        | none => { it with current := it.end_ }
        | some afterGap =>
          if (if !it.descending then afterGap < it.end_ else it.minLocation ≤ afterGap) then
            skipGapsLoop fuel { it with current := afterGap }
          else { it with current := it.end_ }
    else it

/-- A descending cursor leaves its group on every turn and an ascending one leaves the gaps on the
    first, so there are fewer turns than the bound allows (`skipGaps_leaves`). -/
def skipGaps (it : FetchRangeIterator) : FetchRangeIterator :=
  skipGapsLoop h t (it.current.group + 2) it

def next (it : FetchRangeIterator) : FetchRangeIterator :=
  if !it.isValid then it else (it.advanceOne h t).skipGaps h t

def advanceTo (it : FetchRangeIterator) (loc : AbsoluteLocation) : FetchRangeIterator :=
  let it := { it with current := loc }
  if (if !it.descending then it.maxLocation < it.current else it.current < it.minLocation) then
    { it with isValid := false }
  else it.skipGaps h t

def invalidate (it : FetchRangeIterator) : FetchRangeIterator :=
  { it with current := it.maxLocation, isValid := false }

/-- The next cached position in a lower group, empty if the range has none. The source checks that
    the last search succeeds (`findPrevGroupCachedPosition_check`). -/
def findPrevGroupCachedPosition (it : FetchRangeIterator) : Option AbsoluteLocation :=
  match it.current.prevGroupEnd with
  | none => none
  | some prevGE =>
    match (t.cachedContent.findInterval prevGE).or (t.cachedContent.findPrevInterval prevGE) with
    | none => none
    | some prev =>
      if prev.2 < it.minLocation then none
      else
        let targetGroup := min prev.2.group prevGE.group
        let target : AbsoluteLocation :=
          if (⟨targetGroup, 0⟩ : AbsoluteLocation) < it.minLocation then it.minLocation
          else ⟨targetGroup, 0⟩
        if t.cachedContent.contains target then some target
        else (t.cachedContent.findNextInterval target).map (·.1)

/-- Where the next indexed interval begins, if that is in the cursor's group. -/
def findNextInGroup (it : FetchRangeIterator) : Option AbsoluteLocation :=
  ((t.cachedContent.findNextInterval it.current).map (·.1)).filter
    fun first => first.group = it.current.group

/-- Skip to the next position the cache knows something about. -/
def skipUncached (it : FetchRangeIterator) : FetchRangeIterator :=
  if !it.isValid || it.current = it.end_ then it
  else if t.cachedContent.contains it.current then it
  else if !it.descending then
    match t.cachedContent.findNextInterval it.current with
    | none => { it with current := it.end_ }
    | some nextInt =>
      if it.end_ ≤ nextInt.1 then { it with current := it.end_ }
      else { it with current := nextInt.1 }
  else
    match it.findNextInGroup t with
    | some first => { it with current := first }
    | none =>
      match it.findPrevGroupCachedPosition t with
      | none => { it with current := ⟨0, 0⟩, isValid := false }
      | some target => { it with current := target }

/-! ## 3. Construction -/

/-- Where a descending iteration over several groups begins. -/
def descendingStart (start «end» : AbsoluteLocation) : AbsoluteLocation :=
  if «end».object = 0 then
    ⟨«end».group - 1, if «end».group - 1 = start.group then start.object else 0⟩
  else ⟨«end».group, 0⟩

/-- Where it ends: one past the last object of the first group if that is known. -/
def descendingEnd (start : AbsoluteLocation) : AbsoluteLocation :=
  match t.groups.lookup start.group with
  | some r =>
    if (h r).endOfGroup && decide ((h r).maxCachedObject < kLocationMax.object) then
      ⟨start.group, (h r).maxCachedObject + 1⟩
    else ⟨start.group, kLocationMax.object⟩
  | none => ⟨start.group, kLocationMax.object⟩

/-- The iterator of a range, `end` excluded, before any gap is skipped. -/
def ofRange (start «end» : AbsoluteLocation) (order : GroupOrder) (track : TrackRef) :
    FetchRangeIterator :=
  let it : FetchRangeIterator :=
    { minLocation := start, maxLocation := «end», order := order, track := track,
      current := start, end_ := «end» }
  if order = .newestFirst ∧ start.group ≠ «end».group then
    { it with current := descendingStart start «end», end_ := descendingEnd h t start }
  else it

def construct (start «end» : AbsoluteLocation) (order : GroupOrder) (track : TrackRef) :
    FetchRangeIterator :=
  (ofRange h t start «end» order track).skipGaps h t

/-! ## 4. The bound on the turns of `skipGaps` -/

theorem computeDescendingAfterGap_group
    (h : computeDescendingAfterGap current gapStart minLocation = some b) (hle : gapStart ≤ current) :
    b.group < current.group := by
  rw [AbsoluteLocation.le_iff] at hle
  unfold computeDescendingAfterGap at h
  split at h
  · rename_i hc
    cases h
    simp only
    omega
  · obtain ⟨p, hp, rfl⟩ := Option.map_eq_some_iff.mp h
    unfold AbsoluteLocation.prevGroup at hp
    split at hp
    · cases hp
      split <;> simp only <;> omega
    · cases hp

theorem computeDescendingAfterGap_object
    (h : computeDescendingAfterGap current gapStart minLocation = some b) :
    b.object = 0 ∨ b.object = minLocation.object := by
  unfold computeDescendingAfterGap at h
  split at h
  · cases h
    simp only
    split
    · exact Or.inr rfl
    · exact Or.inl rfl
  · obtain ⟨p, hp, rfl⟩ := Option.map_eq_some_iff.mp h
    unfold AbsoluteLocation.prevGroup at hp
    split at hp
    · cases hp
      split
      · exact Or.inr rfl
      · exact Or.inl rfl
    · cases hp

variable {h : GroupRef → CacheGroup} {t : CacheTrack}

theorem skipGaps_invalid (hv : it.isValid = false) : it.skipGaps h t = it := by
  unfold skipGaps skipGapsLoop
  rw [hv, Bool.false_and, if_neg (by decide)]

theorem skipGapsLoop_leaves (n : Nat)
    (hn : it.current.group + 2 ≤ n) (ho : it.current.object ≤ kEightByteLimit)
    (hmin : it.minLocation.object ≤ kEightByteLimit) :
    (skipGapsLoop h t n it).isValid = false ∨
      t.gaps.contains (skipGapsLoop h t n it).current = false ∨
      (skipGapsLoop h t n it).current = it.end_ := by
  induction n generalizing it with
  | zero => omega
  | succ n ih =>
    unfold skipGapsLoop
    split
    · rename_i hc
      rw [Bool.and_eq_true] at hc
      cases hi : t.gaps.findInterval it.current with
      | none =>
        have := LocationIntervalSet.findInterval_isSome (s := t.gaps) (l := it.current)
        rw [hi, hc.2] at this
        cases this
      | some p =>
        obtain ⟨gapStart, gapEnd⟩ := p
        obtain ⟨hle, -, -, -, -⟩ := LocationIntervalSet.findInterval_some hi ho
        simp only
        cases hd : it.descending with
        | false =>
          simp only [Bool.not_false, if_true]
          cases hnext : gapEnd.next with
          | none => exact Or.inr (Or.inr rfl)
          | some afterGap =>
            -- the location after a maximal gap is outside all gaps, so the next turn is the last
            have hout := LocationIntervalSet.findInterval_maximal hi hnext
            simp only
            split
            · cases n with
              | zero => omega
              | succ n =>
                refine Or.inr (Or.inl ?_)
                rw [skipGapsLoop, if_neg (by simp [hout])]
                exact hout
            · exact Or.inr (Or.inr rfl)
        | true =>
          simp only [Bool.not_true, Bool.false_eq_true, if_false]
          cases hafter : computeDescendingAfterGap it.current gapStart it.minLocation with
          | none => exact Or.inr (Or.inr rfl)
          | some afterGap =>
            have hgroup := computeDescendingAfterGap_group hafter hle
            have hobject : afterGap.object ≤ kEightByteLimit := by
              rcases computeDescendingAfterGap_object hafter with h0 | h0 <;> omega
            simp only
            split
            · have hfuel : afterGap.group + 2 ≤ n := by omega
              exact @ih { it with current := afterGap } hfuel hobject hmin
            · exact Or.inr (Or.inr rfl)
    · rename_i hc
      rw [Bool.and_eq_true, not_and_or] at hc
      rcases hc with hc | hc
      · exact Or.inl (by simpa using hc)
      · exact Or.inr (Or.inl (by simpa using hc))

/-- `skipGaps` stops only where the source's loop does: at an invalid cursor, outside the gaps, or
    clamped to the end. -/
theorem skipGaps_leaves {h : GroupRef → CacheGroup} {t : CacheTrack}
    (ho : it.current.object ≤ kEightByteLimit) (hmin : it.minLocation.object ≤ kEightByteLimit) :
    (it.skipGaps h t).isValid = false ∨ t.gaps.contains (it.skipGaps h t).current = false ∨
      (it.skipGaps h t).current = it.end_ :=
  skipGapsLoop_leaves _ (Nat.le_refl _) ho hmin

/-- A cursor in a gap goes to the object behind it. -/
theorem skipGaps_leaves_gap :
    let t := ({} : CacheTrack).insertGap ⟨0, 0⟩ ⟨0, 4⟩
    let it : FetchRangeIterator := ⟨⟨0, 0⟩, ⟨1, 0⟩, .oldestFirst, 0, ⟨0, 1⟩, ⟨1, 0⟩, true, {}, {}⟩
    t.gaps.contains it.current = true ∧ t.gaps.contains (it.skipGaps (fun _ => {}) t).current = false := by
  intro t it
  refine ⟨by decide, ?_⟩
  rcases @skipGaps_leaves it (fun _ => {}) t (by decide) (by decide) with h | h | h
  · exact absurd h (by decide)
  · exact h
  · exact absurd h (by decide)

end FetchRangeIterator

end Moqx

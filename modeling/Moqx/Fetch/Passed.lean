/-
  Subject: The locations a fetch passes over.

  What an upstream stream does not deliver on its way is taken not to exist. Here is what that is, seen
  from the cursor:

  * `getGapRanges_passed` -- `getGapRanges` gives nothing else.
-/
import Moqx.Fetch.Closing

namespace Moqx

open AbsoluteLocation Option

variable {l p : AbsoluteLocation}
variable {last : AbsoluteLocation}

/-! ## 1. From one location to another -/

/-- What lies from `start` up to `end`, which is excluded, in the order of the fetch. A descending fetch
    passes over the rest of the group it starts in, the groups between, and the beginning of the group it
    ends in, all within the range of the fetch. -/
def Passed (order : GroupOrder) (fetchStart fetchEnd start «end» l : AbsoluteLocation) : Prop :=
  if order ≠ .newestFirst then start ≤ l ∧ l < «end»
  else if start.group = «end».group then
    l.group = start.group ∧ start.object ≤ l.object ∧ l.object < «end».object
  else «end».group < start.group ∧
    (l.group = start.group ∧ start.object ≤ l.object ∧ (l.group = fetchEnd.group → l.object < fetchEnd.object) ∨
      «end».group < l.group ∧ l.group < start.group ∨
      l.group = «end».group ∧ l.object < «end».object ∧ (l.group = fetchStart.group → fetchStart.object ≤ l.object))

theorem not_passed_self {order : GroupOrder} {fetchStart fetchEnd loc : AbsoluteLocation} :
    ¬Passed order fetchStart fetchEnd loc loc l := by
  unfold Passed
  split
  · intro ⟨h1, h2⟩
    exact absurd (lt_of_le_of_lt h1 h2) (lt_irrefl loc)
  · rw [if_pos rfl]
    omega

theorem prevInGroup_some (h : l.prevInGroup = some p) :
    0 < l.object ∧ p = ⟨l.group, l.object - 1⟩ := by
  unfold prevInGroup at h
  split at h
  · rename_i hpos
    cases h
    exact ⟨hpos, rfl⟩
  · cases h

theorem prevGroupEnd_some (h : l.prevGroupEnd = some p) :
    0 < l.group ∧ p = ⟨l.group - 1, kEightByteLimit⟩ := by
  unfold prevGroupEnd at h
  split at h
  · rename_i hpos
    cases h
    exact ⟨hpos, rfl⟩
  · cases h

theorem nextGroup_some {n : AbsoluteLocation} (h : l.nextGroup = some n) : n = ⟨l.group + 1, 0⟩ := by
  unfold nextGroup at h
  split at h
  · cases h
    rfl
  · cases h

theorem prev_some (h : l.prev = some p) (hl : l.object ≤ kEightByteLimit) :
    p.object ≤ kEightByteLimit ∧ p < l := by
  unfold AbsoluteLocation.prev at h
  cases hin : l.prevInGroup with
  | some q =>
    rw [hin] at h
    cases h
    obtain ⟨hpos, rfl⟩ := prevInGroup_some hin
    rw [lt_iff]
    simp only [Nat.lt_irrefl, false_or, true_and]
    omega
  | none =>
    rw [hin] at h
    obtain ⟨hpos, rfl⟩ := prevGroupEnd_some h
    rw [lt_iff]
    exact ⟨Nat.le_refl _, Or.inl (Nat.sub_lt hpos Nat.one_pos)⟩

section ranges

variable {start «end» stop fetchStart fetchEnd l : AbsoluteLocation} {order : GroupOrder}
  {ranges : List (AbsoluteLocation × AbsoluteLocation)} {p : AbsoluteLocation × AbsoluteLocation}

/-- The range ends at an object id that fits, and has only passed locations. -/
def PassedRange (order : GroupOrder) (fetchStart fetchEnd start «end» : AbsoluteLocation)
    (p : AbsoluteLocation × AbsoluteLocation) : Prop :=
  p.2.object ≤ kEightByteLimit ∧ ∀ l, p.1 ≤ l → l ≤ p.2 → Passed order fetchStart fetchEnd start «end» l

theorem passedRange_group {prev : AbsoluteLocation} (hgroup : start.group = stop.group)
    (hprev : stop.prevInGroup = some prev) (hend : stop.object ≤ kEightByteLimit) :
    PassedRange order fetchStart fetchEnd start stop (start, prev) := by
  obtain ⟨hpos, rfl⟩ := prevInGroup_some hprev
  refine ⟨by simp only; omega, fun l h1 h2 => ?_⟩
  rw [le_iff] at h1 h2
  simp only at h1 h2
  unfold Passed
  by_cases horder : order = .newestFirst
  · rw [if_neg (fun h => h horder), if_pos hgroup]
    omega
  · rw [if_pos horder, le_iff, lt_iff]
    omega

section

variable (hlow : stop.group < start.group)

include hlow

theorem passedRange_rest (hgroup : last.group = start.group) (hobject : last.object ≤ kEightByteLimit)
    (hlast : start.group = fetchEnd.group → last.object < fetchEnd.object) :
    PassedRange .newestFirst fetchStart fetchEnd start stop (start, last) := by
  refine ⟨hobject, fun l h1 h2 => ?_⟩
  rw [le_iff] at h1 h2
  simp only at h1 h2
  unfold Passed
  rw [if_neg (fun h => h rfl), if_neg (Nat.ne_of_gt hlow)]
  refine ⟨hlow, Or.inl ?_⟩
  omega

theorem passedRange_between :
    PassedRange .newestFirst fetchStart fetchEnd start stop
      (⟨stop.group + 1, 0⟩, ⟨start.group - 1, kEightByteLimit⟩) := by
  refine ⟨Nat.le_refl _, fun l h1 h2 => ?_⟩
  rw [le_iff] at h1 h2
  simp only at h1 h2
  unfold Passed
  rw [if_neg (fun h => h rfl), if_neg (Nat.ne_of_gt hlow)]
  refine ⟨hlow, Or.inr (Or.inl ?_)⟩
  omega

theorem passedRange_beginning (hlast : stop.prevInGroup = some last) (hend : stop.object ≤ kEightByteLimit) :
    PassedRange .newestFirst fetchStart fetchEnd start stop
      (if stop.group = fetchStart.group then fetchStart else ⟨stop.group, 0⟩, last) := by
  obtain ⟨hpos, rfl⟩ := prevInGroup_some hlast
  refine ⟨by simp only; omega, fun l h1 h2 => ?_⟩
  unfold Passed
  rw [if_neg (fun h => h rfl), if_neg (Nat.ne_of_gt hlow)]
  refine ⟨hlow, Or.inr (Or.inr ?_)⟩
  simp only at h1
  rw [le_iff] at h1 h2
  simp only at h2
  split at h1
  · omega
  · simp only at h1
    omega

theorem downward_passed {startGroupEnd : AbsoluteLocation} (hend : stop.object ≤ kEightByteLimit)
    (hrest : PassedRange .newestFirst fetchStart fetchEnd start stop (start, startGroupEnd)) (h : (do
      let endNextGroup ← stop.nextGroup
      let startPrevGroupEnd ← start.prevGroupEnd
      if (if stop.group = fetchStart.group then fetchStart else ⟨stop.group, 0⟩) < stop then
        let last ← stop.prevInGroup
        return (start, startGroupEnd) ::
          (if endNextGroup.group ≤ startPrevGroupEnd.group then [(endNextGroup, startPrevGroupEnd)] else []) ++
            [(if stop.group = fetchStart.group then fetchStart else ⟨stop.group, 0⟩, last)]
      else return (start, startGroupEnd) ::
        (if endNextGroup.group ≤ startPrevGroupEnd.group then [(endNextGroup, startPrevGroupEnd)] else [])) =
          some ranges) (hp : p ∈ ranges) : PassedRange .newestFirst fetchStart fetchEnd start stop p := by
  obtain ⟨endNextGroup, hnext, h⟩ := bind_eq_some_iff.mp h
  obtain ⟨startPrevGroupEnd, hprev, h⟩ := bind_eq_some_iff.mp h
  obtain rfl := nextGroup_some hnext
  obtain ⟨-, rfl⟩ := prevGroupEnd_some hprev
  have hbetween : p ∈ (if stop.group + 1 ≤ start.group - 1 then
      [((⟨stop.group + 1, 0⟩ : AbsoluteLocation), (⟨start.group - 1, kEightByteLimit⟩ : AbsoluteLocation))]
      else []) → PassedRange .newestFirst fetchStart fetchEnd start stop p := by
    intro hp
    split at hp
    · rw [List.mem_singleton] at hp
      subst hp
      exact passedRange_between hlow
    · cases hp
  by_cases hbegins : (if stop.group = fetchStart.group then fetchStart else ⟨stop.group, 0⟩) < stop
  · rw [if_pos hbegins] at h
    obtain ⟨last, hlast, h⟩ := bind_eq_some_iff.mp h
    cases h
    rw [List.cons_append, List.mem_cons, List.mem_append, List.mem_singleton] at hp
    rcases hp with rfl | hp | rfl
    · exact hrest
    · exact hbetween hp
    · exact passedRange_beginning hlow hlast hend
  · rw [if_neg hbegins] at h
    cases h
    rw [List.mem_cons] at hp
    rcases hp with rfl | hp
    · exact hrest
    · exact hbetween hp

end

/-- **`getGapRanges` gives passed locations only.** -/
theorem getGapRanges_passed (h : getGapRanges start stop order fetchStart fetchEnd = some ranges)
    (hp : p ∈ ranges) (hend : stop.object ≤ kEightByteLimit) (hfetch : fetchEnd.object ≤ kEightByteLimit) :
    PassedRange order fetchStart fetchEnd start stop p := by
  unfold getGapRanges at h
  by_cases horder : order = .newestFirst
  · subst horder
    simp only [ne_eq, not_true_eq_false, if_false, decide_eq_true_eq] at h
    split at h
    · cases h
      cases hp
    · rename_i hempty
      split at h
      · rename_i hgroup
        split at h
        · rename_i prev hprev
          cases h
          rw [List.mem_singleton] at hp
          subst hp
          exact passedRange_group hgroup hprev hend
        · cases h
          cases hp
      · rename_i hgroup
        have hlow : stop.group < start.group := by omega
        split at h
        · rename_i hlast
          obtain ⟨startGroupEnd, hfirst, h⟩ := bind_eq_some_iff.mp h
          obtain ⟨hpos, rfl⟩ := prevInGroup_some hfirst
          refine downward_passed hlow hend ?_ h hp
          exact passedRange_rest hlow hlast.symm (by simp only; omega) fun _ => Nat.sub_lt hpos Nat.one_pos
        · rename_i hlast
          refine downward_passed hlow hend ?_ h hp
          exact passedRange_rest hlow rfl (Nat.le_refl _) fun heq => absurd heq hlast
  · simp only [ne_eq, horder, not_false_eq_true, if_true, decide_eq_true_eq] at h
    split at h
    · cases h
      cases hp
    · split at h
      · rename_i hgroup
        split at h
        · rename_i prev hprev
          cases h
          rw [List.mem_singleton] at hp
          subst hp
          exact passedRange_group hgroup hprev hend
        · cases h
          cases hp
      · -- upward, one range up to the location before
        obtain ⟨prev, hprev, heq⟩ := map_eq_some_iff.mp h
        subst heq
        rw [List.mem_singleton] at hp
        subst hp
        obtain ⟨hobject, hlt⟩ := prev_some hprev hend
        refine ⟨hobject, fun l h1 h2 => ?_⟩
        unfold Passed
        rw [if_pos horder]
        exact ⟨h1, lt_of_le_of_lt h2 hlt⟩

end ranges

/-! ## 2. To the end of the range -/

namespace FetchRangeIterator

variable {h : GroupRef → CacheGroup} {t : CacheTrack} {it : FetchRangeIterator} {loc l : AbsoluteLocation}
  {memo : GroupMemo}
variable {g : CacheGroup} {gapStart b : AbsoluteLocation} {it' : FetchRangeIterator}

/-- What lies at or behind `loc` in the order of the fetch, up to the end of the range. -/
def Remaining (it : FetchRangeIterator) (loc l : AbsoluteLocation) : Prop :=
  if it.order ≠ .newestFirst then loc ≤ l ∧ l < it.end_
  else it.end_.group ≤ l.group ∧
    (l.group = loc.group ∧ loc.object ≤ l.object ∧
        (l.group = it.maxLocation.group → l.object < it.maxLocation.object) ∨
      l.group < loc.group ∧ (l.group = it.minLocation.group → it.minLocation.object ≤ l.object))

structure Fits (it : FetchRangeIterator) : Prop where
  min : it.minLocation.object ≤ kEightByteLimit
  max : it.maxLocation.object ≤ kEightByteLimit
  end_ : it.end_.object ≤ kEightByteLimit

theorem endIncludingMaxCached_le (hg : g.maxCachedObject ≤ kEightByteLimit) :
    endIncludingMaxCached g ≤ kEightByteLimit := by
  rcases endIncludingMaxCached_cases hg with ⟨h1, h2⟩ | ⟨h1, h2⟩
  · omega
  · omega

theorem firstUncachedObject_le (hg : g.maxCachedObject ≤ kEightByteLimit) :
    firstUncachedObject g ≤ kEightByteLimit := by
  have hle := endIncludingMaxCached_le hg
  unfold firstUncachedObject
  split
  · rename_i hlt
    exact hlt
  · exact hle

/-- The guess of a group's end fits, and is the end of the range in the last group, but for the one object
    that a downward fetch is short of. -/
theorem findGroupEndMaybe_le {g object : Nat} (hsmall : ∀ r, (h r).maxCachedObject ≤ kEightByteLimit)
    (hfits : it.Fits) (hpos : it.order = .newestFirst → g = it.maxLocation.group → g ≠ it.minLocation.group →
      0 < it.maxLocation.object)
    (heq : (it.findGroupEndMaybe h t g memo).1 = some object) :
    object ≤ kEightByteLimit ∧ (g = it.maxLocation.group → object ≤ it.maxLocation.object) := by
  have hmax := hfits.max
  have hcached : ∀ r (b : Bool) (f f' : CacheGroup → Nat),
      (∀ g : CacheGroup, g.maxCachedObject ≤ kEightByteLimit → f g ≤ kEightByteLimit ∧ f' g ≤ kEightByteLimit) →
      (if b then f (h r) else f' (h r)) ≤ kEightByteLimit := by
    intro r b f f' hf
    split
    · exact (hf _ (hsmall r)).1
    · exact (hf _ (hsmall r)).2
  unfold findGroupEndMaybe at heq
  simp only at heq
  split at heq
  · rename_i hlast
    rw [beq_iff_eq] at hlast
    split at heq
    · rename_i hfirst
      rw [Bool.and_eq_true, Bool.not_eq_true', beq_eq_false_iff_ne] at hfirst
      have horder : it.order = .newestFirst := by
        have hd := hfirst.1
        unfold descending at hd
        simpa using hd
      have hone := hpos horder hlast hfirst.2
      have hsub : subU64 it.maxLocation.object 1 = it.maxLocation.object - 1 :=
        subU64_of_le hone (lt_of_le_of_lt hmax (by decide))
      rw [hsub, some.injEq] at heq
      omega
    · cases heq
      exact ⟨hmax, fun _ => Nat.le_refl _⟩
  · rename_i hlast
    rw [beq_iff_eq] at hlast
    refine ⟨?_, fun h => absurd h hlast⟩
    split at heq
    · cases heq
    · rename_i r _
      split at heq
      · cases heq
        exact hcached r _ endIncludingMaxCached firstUncachedObject fun g hg =>
          ⟨endIncludingMaxCached_le hg, firstUncachedObject_le hg⟩
      · cases heq
        exact hcached r _ (fun g => g.maxCachedObject) endIncludingMaxCached fun g hg =>
          ⟨hg, endIncludingMaxCached_le hg⟩

theorem findGroupEndMaybe_none {g : Nat} (heq : (it.findGroupEndMaybe h t g memo).1 = none) :
    g ≠ it.maxLocation.group := by
  intro hlast
  unfold findGroupEndMaybe at heq
  simp only at heq
  rw [if_pos (beq_iff_eq.mpr hlast)] at heq
  split at heq
  · cases heq
  · cases heq

/-- **What `end` leaves** of the range lies at or behind the cursor. -/
theorem end_remaining (hsmall : ∀ r, (h r).maxCachedObject ≤ kEightByteLimit) (hfits : it.Fits)
    (hend : it.isValid = true → it.order = .newestFirst → it.end_.group = it.minLocation.group) :
    (it.end h t).1 = it.current ∨
      it.isValid = true ∧ (it.end h t).1.object ≤ kEightByteLimit ∧
        ∀ l, Passed it.order it.minLocation it.maxLocation it.current (it.end h t).1 l →
          it.Remaining it.current l := by
  unfold «end»
  split
  · exact Or.inl rfl
  · rename_i hgo
    rw [Bool.or_eq_true, not_or, Bool.not_eq_true', Bool.not_eq_false] at hgo
    refine Or.inr ⟨hgo.2, ?_⟩
    by_cases horder : it.order = .newestFirst
    · have hdesc : it.descending = true := by rw [descending, horder]; rfl
      rw [if_neg (by rw [hdesc]; decide)]
      have hfirst := hend hgo.2 horder
      -- the end is in the lowest group, at or below what is known of it
      have hpassed : ∀ e : AbsoluteLocation, e.group = it.end_.group →
          (e.group = it.maxLocation.group → e.object ≤ it.maxLocation.object) → ∀ l,
          Passed it.order it.minLocation it.maxLocation it.current e l → it.Remaining it.current l := by
        intro e hgroup hmax l hl
        unfold Passed at hl
        unfold Remaining
        rw [if_neg (fun h => h horder)] at hl ⊢
        split at hl
        · omega
        · omega
      cases hfind : it.findGroupEndMaybe h t it.end_.group it.cachedEndGroup with
      | mk found memo =>
        cases found with
        | some object =>
          have hle := findGroupEndMaybe_le (g := it.end_.group) hsmall hfits
            (fun _ _ hne => absurd hfirst hne) (congrArg Prod.fst hfind)
          exact ⟨hle.1, hpassed _ rfl hle.2⟩
        | none =>
          have hne := findGroupEndMaybe_none (congrArg Prod.fst hfind)
          exact ⟨hfits.end_, hpassed _ rfl fun h => absurd h hne⟩
    · have hasc : it.descending = false := by
        rw [descending]
        simpa using horder
      rw [if_pos (by rw [hasc]; rfl)]
      refine ⟨hfits.end_, fun l hl => ?_⟩
      unfold Passed at hl
      unfold Remaining
      rw [if_pos horder] at hl ⊢
      exact hl

/-! ## 3. Leaving a location behind -/

/-- The cursor has left `loc` behind, or does not move any more. -/
def Past (it : FetchRangeIterator) (loc : AbsoluteLocation) : Prop :=
  it.isValid = false ∨
    if it.order ≠ .newestFirst then loc < it.current ∨ it.current = it.end_
    else it.current.group = loc.group ∧ loc.object < it.current.object ∨
      it.current.group < loc.group ∧
        (it.current.group = it.minLocation.group → it.minLocation.object ≤ it.current.object)

/-- `loc` lies in a downward range, before its end; the end is in the lowest group and not below the start. -/
def Orderly (it : FetchRangeIterator) (loc : AbsoluteLocation) : Prop :=
  it.order = .newestFirst → loc < it.maxLocation ∧ it.end_.group = it.minLocation.group ∧
    it.minLocation.object ≤ it.end_.object ∧
    (it.end_.group < loc.group ∨ it.end_.group = loc.group ∧ loc.object < it.end_.object)

theorem Past.remaining (hp : it.Past loc) (hv : it.isValid = true) (hl : it.Remaining it.current l) :
    it.Remaining loc l ∧ l ≠ loc := by
  rcases hp with hp | hp
  · exact absurd (hv.symm.trans hp) (by decide)
  · unfold Remaining at hl ⊢
    by_cases horder : it.order = .newestFirst
    · rw [if_neg (fun h => h horder)] at hp hl ⊢
      refine ⟨by omega, fun heq => ?_⟩
      subst heq
      omega
    · rw [if_pos horder] at hp hl ⊢
      rcases hp with hp | hp
      · have hlt := lt_of_lt_of_le hp hl.1
        exact ⟨⟨le_of_lt hlt, hl.2⟩, fun heq => absurd hlt (by rw [heq]; exact lt_irrefl _)⟩
      · rw [hp] at hl
        exact absurd (lt_of_le_of_lt hl.1 hl.2) (lt_irrefl _)

theorem Orderly.past_of_end (ho : it.Orderly loc) (heq : it.current = it.end_) : it.Past loc := by
  refine Or.inr ?_
  rw [heq]
  by_cases horder : it.order = .newestFirst
  · obtain ⟨-, hmin, hobject, hloc⟩ := ho horder
    rw [if_neg (fun h => h horder)]
    omega
  · rw [if_pos horder]
    exact Or.inr rfl

theorem Orderly.end_past (ho : it.Orderly loc) : Past { it with current := it.end_ } loc :=
  @Orderly.past_of_end { it with current := it.end_ } loc ho rfl

theorem next_object {a n : AbsoluteLocation} (hn : a.next = some n) : n.object ≤ kEightByteLimit := by
  unfold AbsoluteLocation.next nextInGroup nextGroup at hn
  split at hn
  · cases hn
    rename_i hlt
    exact hlt
  · split at hn
    · cases hn
      exact Nat.zero_le _
    · cases hn

theorem computeDescendingAfterGap_min {current minLocation : AbsoluteLocation}
    (hb : computeDescendingAfterGap current gapStart minLocation = some b) :
    b.group = minLocation.group → b.object = minLocation.object := by
  unfold computeDescendingAfterGap at hb
  split at hb
  · cases hb
    intro heq
    exact if_pos heq
  · obtain ⟨q, -, rfl⟩ := map_eq_some_iff.mp hb
    split
    · exact fun _ => rfl
    · rename_i hne
      exact fun heq => absurd heq hne

/-- A turn of `skipGaps` goes to the end, or to a location after the gap it stands in. -/
inductive Jump (it : FetchRangeIterator) (gapStart gapEnd : AbsoluteLocation) : AbsoluteLocation → Prop where
  | toEnd : Jump it gapStart gapEnd it.end_
  | up {b : AbsoluteLocation} : it.order ≠ .newestFirst → gapEnd.next = some b → b < it.end_ →
      Jump it gapStart gapEnd b
  | down {b : AbsoluteLocation} : it.order = .newestFirst →
      computeDescendingAfterGap it.current gapStart it.minLocation = some b → Jump it gapStart gapEnd b

theorem skipGapsLoop_rule {P : FetchRangeIterator → Prop}
    (hjump : ∀ {it gapStart gapEnd b}, P it → it.isValid = true →
      t.gaps.findInterval it.current = some (gapStart, gapEnd) → Jump it gapStart gapEnd b →
      P { it with current := b }) (n : Nat) (hP : P it) : P (skipGapsLoop h t n it) := by
  induction n generalizing it with
  | zero => exact hP
  | succ n ih =>
    unfold skipGapsLoop
    split
    · rename_i hin
      rw [Bool.and_eq_true] at hin
      cases hi : t.gaps.findInterval it.current with
      | none =>
        have hsome := @LocationIntervalSet.findInterval_isSome t.gaps it.current
        rw [hi, hin.2] at hsome
        cases hsome
      | some p =>
        obtain ⟨gapStart, gapEnd⟩ := p
        simp only
        cases hd : it.descending with
        | false =>
          have horder : it.order ≠ .newestFirst := by
            unfold descending at hd
            simpa using hd
          simp only [Bool.not_false, if_true]
          split
          · exact hjump hP hin.1 hi .toEnd
          · rename_i b hb
            split
            · rename_i hlt
              exact ih (hjump hP hin.1 hi (.up horder hb hlt))
            · exact hjump hP hin.1 hi .toEnd
        | true =>
          have horder : it.order = .newestFirst := by
            unfold descending at hd
            simpa using hd
          simp only [Bool.not_true, Bool.false_eq_true, if_false]
          split
          · exact hjump hP hin.1 hi .toEnd
          · rename_i b hb
            split
            · exact ih (hjump hP hin.1 hi (.down horder hb))
            · exact hjump hP hin.1 hi .toEnd
    · exact hP

theorem skipGaps_end : (it.skipGaps h t).end_ = it.end_ :=
  skipGapsLoop_rule (P := fun it' => it'.end_ = it.end_) (fun hP _ _ _ => hP) _ rfl

theorem advanceOne_end : (it.advanceOne h t).end_ = it.end_ := by
  unfold advanceOne
  split
  · rfl
  · split
    · rfl
    · simp only
      split
      · rfl
      · split
        · split
          · rfl
          · rfl
        · split
          · rfl
          · rfl

theorem next_end : (it.next h t).end_ = it.end_ := by
  unfold next
  split
  · rfl
  · rw [skipGaps_end, advanceOne_end]

theorem advanceTo_end : (it.advanceTo h t loc).end_ = it.end_ := by
  rw [advanceTo_eq]
  split
  · rfl
  · rw [skipGaps_end]

theorem Orderly.of_same (ho : it.Orderly loc) (hr : SameRange it it') (hend : it'.end_ = it.end_) : it'.Orderly loc := by
  intro horder
  rw [hr.order] at horder
  rw [hr.max, hr.min, hend]
  exact ho horder

theorem Fits.of_same (hf : it.Fits) (hr : SameRange it it') (hend : it'.end_ = it.end_) : it'.Fits := by
  refine ⟨?_, ?_, ?_⟩
  · rw [hr.min]
    exact hf.min
  · rw [hr.max]
    exact hf.max
  · rw [hend]
    exact hf.end_

/-- The cursor is at `loc` or past it, and its object id fits. -/
structure Reached (start : FetchRangeIterator) (loc : AbsoluteLocation) (it : FetchRangeIterator) : Prop where
  range : SameRange start it
  end_ : it.end_ = start.end_
  object : it.current.object ≤ kEightByteLimit
  past : it.Past loc ∨ it.current = loc

section reached

variable {start : FetchRangeIterator} (hr : Reached start loc it) (hfits : start.Fits) (ho : start.Orderly loc)

include hr hfits ho

theorem Reached.jump {gapEnd : AbsoluteLocation} (hv : it.isValid = true)
    (hi : t.gaps.findInterval it.current = some (gapStart, gapEnd)) (hj : Jump it gapStart gapEnd b) :
    Reached start loc { it with current := b } ∧ Past { it with current := b } loc := by
  have ho' := ho.of_same hr.range hr.end_
  suffices hb : b.object ≤ kEightByteLimit ∧ Past { it with current := b } loc from
    ⟨⟨⟨hr.range.track, hr.range.min, hr.range.max, hr.range.order⟩, hr.end_, hb.1, Or.inl hb.2⟩, hb.2⟩
  cases hj with
  | toEnd =>
    refine ⟨?_, ho'.end_past⟩
    rw [hr.end_]
    exact hfits.end_
  | up horder hnext hlt =>
    refine ⟨next_object hnext, Or.inr ?_⟩
    have hgap := lt_of_le_of_lt (LocationIntervalSet.findInterval_end hi) (lt_next hnext)
    rw [if_pos horder]
    refine Or.inl ?_
    rcases hr.past with (hp | hp) | hp
    · exact absurd (hv.symm.trans hp) (by decide)
    · rw [if_pos horder] at hp
      rcases hp with hp | hp
      · exact lt_trans hp hgap
      · rw [hp] at hgap
        exact absurd (lt_trans hgap hlt) (lt_irrefl _)
    · rw [← hp]
      exact hgap
  | down horder hafter =>
    have hle := (LocationIntervalSet.findInterval_some hi hr.object).1
    have hgroup := computeDescendingAfterGap_group hafter hle
    have hmin := computeDescendingAfterGap_min hafter
    refine ⟨?_, Or.inr ?_⟩
    · have := hfits.min
      rw [← hr.range.min] at this
      rcases computeDescendingAfterGap_object hafter with h0 | h0
      · omega
      · omega
    · rw [if_neg (fun h => h horder)]
      refine Or.inr ⟨?_, fun heq => le_of_eq (hmin heq).symm⟩
      show b.group < loc.group
      rcases hr.past with (hp | hp) | hp
      · exact absurd (hv.symm.trans hp) (by decide)
      · rw [if_neg (fun h => h horder)] at hp
        omega
      · rw [← hp]
        exact hgroup

theorem Reached.skipGaps :
    Reached start loc (it.skipGaps h t) ∧ (it.Past loc → (it.skipGaps h t).Past loc) := by
  suffices hP : Reached start loc (it.skipGaps h t) ∧ ((it.skipGaps h t).Past loc ∨ it.skipGaps h t = it) by
    refine ⟨hP.1, fun hp => ?_⟩
    rcases hP.2 with h | h
    · exact h
    · rw [h]
      exact hp
  refine skipGapsLoop_rule (P := fun it' => Reached start loc it' ∧ (it'.Past loc ∨ it' = it)) ?_ _ ⟨hr, Or.inr rfl⟩
  intro it' gapStart gapEnd b hP hv hi hj
  have hjump := hP.1.jump hfits ho hv hi hj
  exact ⟨hjump.1, Or.inl hjump.2⟩

theorem Reached.advanceOne (hsmall : ∀ r, (h r).maxCachedObject ≤ kEightByteLimit) :
    Reached start loc (it.advanceOne h t) ∧ (it.advanceOne h t).Past loc := by
  have ho' := ho.of_same hr.range hr.end_
  have hfits' := hfits.of_same hr.range hr.end_
  unfold FetchRangeIterator.advanceOne
  split
  · rename_i hv
    exact ⟨hr, Or.inl (by simpa using hv)⟩
  · rename_i hv
    replace hv : it.isValid = true := by simpa using hv
    split
    · rename_i heq
      exact ⟨hr, ho'.past_of_end heq⟩
    · rename_i hne
      -- where the cursor is now
      have hup : it.order ≠ .newestFirst → loc ≤ it.current := by
        intro horder
        rcases hr.past with (hp | hp) | hp
        · exact absurd (hv.symm.trans hp) (by decide)
        · rw [if_pos horder] at hp
          rcases hp with hp | hp
          · exact le_of_lt hp
          · exact absurd hp hne
        · exact le_of_eq hp.symm
      have hdown : it.order = .newestFirst → it.current = loc ∨
          (it.current.group = loc.group ∧ loc.object < it.current.object ∨ it.current.group < loc.group ∧
            (it.current.group = it.minLocation.group → it.minLocation.object ≤ it.current.object)) := by
        intro horder
        rcases hr.past with (hp | hp) | hp
        · exact absurd (hv.symm.trans hp) (by decide)
        · rw [if_neg (fun h => h horder)] at hp
          exact Or.inr hp
        · exact Or.inl hp
      cases hfind : it.findGroupEndMaybe h t it.current.group it.cachedGroup with
      | mk found memo =>
        have hmove : ∀ b : AbsoluteLocation, b.object ≤ kEightByteLimit →
            Past { it with cachedGroup := memo, current := b } loc →
            Reached start loc { it with cachedGroup := memo, current := b } ∧
              Past { it with cachedGroup := memo, current := b } loc := fun b hb hp =>
          ⟨⟨⟨hr.range.track, hr.range.min, hr.range.max, hr.range.order⟩, hr.end_, hb, Or.inl hp⟩, hp⟩
        simp only
        split
        · rename_i hany
          cases found with
          | none => cases hany
          | some groupEnd =>
            rw [any_some, decide_eq_true_eq] at hany
            have hle := (findGroupEndMaybe_le (g := it.current.group) hsmall hfits' (fun horder hlast _ => by
              have hmax := (ho' horder).1
              rw [lt_iff] at hmax
              rcases hdown horder with heq | hd
              · rw [heq] at hlast
                omega
              · omega) (congrArg Prod.fst hfind)).1
            refine hmove _ (Nat.le_trans hany hle) (Or.inr ?_)
            by_cases horder : it.order = .newestFirst
            · rw [if_neg (fun h => h horder)]
              simp only
              rcases hdown horder with heq | hd
              · rw [heq]
                exact Or.inl ⟨rfl, Nat.lt_succ_self _⟩
              · omega
            · rw [if_pos horder]
              refine Or.inl (lt_of_le_of_lt (hup horder) ?_)
              exact Or.inr ⟨rfl, Nat.lt_succ_self _⟩
        · cases hd : it.descending with
          | true =>
            have horder : it.order = .newestFirst := by
              unfold descending at hd
              simpa using hd
            rw [show descending { it with cachedGroup := memo } = true from hd, if_pos rfl]
            split
            · exact ⟨⟨⟨hr.range.track, hr.range.min, hr.range.max, hr.range.order⟩, hr.end_, hr.object,
                Or.inl (Or.inl rfl)⟩, Or.inl rfl⟩
            · rename_i hzero
              refine hmove _ ?_ (Or.inr ?_)
              · simp only
                split
                · exact hfits'.min
                · exact Nat.zero_le _
              · rw [if_neg (fun h => h horder)]
                refine Or.inr ⟨?_, fun heq => ?_⟩
                · show it.current.group - 1 < loc.group
                  rcases hdown horder with heq | hd
                  · rw [← heq]
                    omega
                  · omega
                · simp only at heq ⊢
                  rw [if_pos heq]
          | false =>
            have horder : it.order ≠ .newestFirst := by
              unfold descending at hd
              simpa using hd
            rw [show descending { it with cachedGroup := memo } = false from hd, if_neg Bool.false_ne_true]
            split
            · exact hmove _ hfits'.end_ ho'.end_past
            · refine hmove _ (Nat.zero_le _) (Or.inr ?_)
              rw [if_pos horder]
              refine Or.inl (lt_of_le_of_lt (hup horder) ?_)
              exact Or.inl (Nat.lt_succ_self _)

/-- **A step leaves `loc` behind.** -/
theorem Reached.next (hsmall : ∀ r, (h r).maxCachedObject ≤ kEightByteLimit) :
    Reached start loc (it.next h t) ∧ (it.next h t).Past loc := by
  unfold FetchRangeIterator.next
  split
  · rename_i hv
    exact ⟨hr, Or.inl (by simpa using hv)⟩
  · obtain ⟨hone, hpast⟩ := @Reached.advanceOne h t _ _ _ hr hfits ho hsmall
    have hskip := @Reached.skipGaps h t _ _ _ hone hfits ho
    exact ⟨hskip.1, hskip.2 hpast⟩

end reached

theorem advanceTo_reached (hfits : it.Fits) (ho : it.Orderly loc) (hloc : loc.object ≤ kEightByteLimit) :
    Reached it loc (it.advanceTo h t loc) := by
  rw [advanceTo_eq]
  split
  · exact ⟨⟨rfl, rfl, rfl, rfl⟩, rfl, hloc, Or.inl (Or.inl rfl)⟩
  · have hr : Reached it loc { it with current := loc } := ⟨⟨rfl, rfl, rfl, rfl⟩, rfl, hloc, Or.inr rfl⟩
    exact (@Reached.skipGaps h t _ _ _ hr hfits ho).1

end FetchRangeIterator

end Moqx

/-
  Subject: How a descending cursor moves.

  A `GroupOrder.newestFirst` fetch walks the groups downward and the objects of a group upward
  (`NewerFirst`).

  * `skipGaps_desc`, `advanceOne_desc`, `skipUncached_desc` -- each move goes on in that order, and
    what it steps over: locations known not to exist, locations behind a gap of their group
    (`AfterGap`), and what is left to the run of misses. The only move that may go back is
    `skipUncached` from the first group of the range, when an interval of the index reaches into
    the range from below;
  * `end_desc` -- the computed end (`guessedEnd`) is the same on every call;
  * `flush_covers`, `lower_ordered` -- the requests for a run of misses are that run.
-/
import Moqx.Fetch.Knowledge

namespace Moqx

open AbsoluteLocation LocationIntervalSet List Option

/-- The order in which a descending fetch walks: groups downward, objects of a group upward. -/
def NewerFirst (a b : AbsoluteLocation) : Prop :=
  b.group < a.group ∨ a.group = b.group ∧ a.object < b.object

instance (a b : AbsoluteLocation) : Decidable (NewerFirst a b) := inferInstanceAs (Decidable (_ ∨ _))

theorem NewerFirst.trans {a b c : AbsoluteLocation} (h : NewerFirst a b) (h' : NewerFirst b c) :
    NewerFirst a c := by
  unfold NewerFirst at *
  omega

/-- The location lies in a gap or behind one that is in its group and not below `start`. -/
def AfterGap (t : CacheTrack) (start l : AbsoluteLocation) : Prop :=
  ∃ g : AbsoluteLocation, t.gaps.contains g = true ∧ g.object ≤ kEightByteLimit ∧
    g.group = l.group ∧ g.object ≤ l.object ∧ start ≤ g

namespace FetchRangeIterator

variable {h : GroupRef → CacheGroup} {t : CacheTrack} {it : FetchRangeIterator}
variable {memo : GroupMemo} {r : GroupRef} {prev : AbsoluteLocation × AbsoluteLocation}
  {prevGE : AbsoluteLocation}

/-! ## 1. Gaps -/

/-- The cursor is not below `start` in the first group of the range. -/
def NotBelow (start l : AbsoluteLocation) : Prop := l.group = start.group → start.object ≤ l.object

section hop

variable {current gapStart gapEnd start b l : AbsoluteLocation}

end hop

/-- The memoised group is the one the track has under that id, or nothing was looked up yet. -/
def MemoFresh (t : CacheTrack) (memo : GroupMemo) : Prop :=
  memo.ptr = t.groups.lookup memo.id ∨ memo.ptr = none ∧ memo.id = kLocationMax.group

/-- The guess for a group below the last one of the range. -/
def groupEndGuess (it : FetchRangeIterator) (g : Nat) (group : CacheGroup) : Nat :=
  if g = it.minLocation.group then
    if group.endOfGroup then endIncludingMaxCached group else firstUncachedObject group
  else if group.endOfGroup then group.maxCachedObject else endIncludingMaxCached group

/-- The end a descending iteration computes: the end of a range inside one group; else one past the
    last object of the first group if that is known, and two past the largest cached object or the
    largest id there is if it is not. -/
def guessedEnd (h : GroupRef → CacheGroup) (t : CacheTrack) (start «end» : AbsoluteLocation) :
    AbsoluteLocation :=
  if start.group = «end».group then «end»
  else
    match t.groups.lookup start.group with
    | none => ⟨start.group, kLocationMax.object⟩
    | some r =>
      ⟨start.group,
        if (h r).endOfGroup then endIncludingMaxCached (h r) else firstUncachedObject (h r)⟩

theorem findGroupEndMaybe_desc (hd : it.descending = true) {g : Nat} (hm : MemoFresh t memo)
    (hlast : g ≠ it.maxLocation.group) (hg : g ≠ kLocationMax.group) :
    it.findGroupEndMaybe h t g memo =
      ((t.groups.lookup g).map fun r => it.groupEndGuess g (h r), ⟨g, t.groups.lookup g⟩) := by
  have hmemo : (if memo.id ≠ g then (⟨g, t.groups.lookup g⟩ : GroupMemo) else memo) =
      ⟨g, t.groups.lookup g⟩ := by
    split
    · rfl
    · rename_i hid
      rw [not_not] at hid
      rcases hm with hm | ⟨-, hm⟩
      · rw [← hid, ← hm]
      · exact absurd (hid.symm.trans hm) hg
  unfold findGroupEndMaybe groupEndGuess
  rw [if_neg (by simpa using hlast)]
  simp only [hmemo, hd, Bool.and_true, beq_iff_eq]
  cases t.groups.lookup g with
  | none => rfl
  | some r =>
    simp only [map_some]
    split <;> rfl

theorem memoFresh_lookup (g : Nat) : MemoFresh t ⟨g, t.groups.lookup g⟩ := Or.inl rfl

theorem firstUncachedObject_cases {g : CacheGroup} (hg : g.maxCachedObject ≤ kEightByteLimit) :
    firstUncachedObject g = g.maxCachedObject + 2 ∧ g.maxCachedObject + 2 ≤ kEightByteLimit ∨
      firstUncachedObject g = kEightByteLimit ∧ kEightByteLimit ≤ g.maxCachedObject + 1 := by
  have he := endIncludingMaxCached_cases hg
  unfold firstUncachedObject
  by_cases hlt : endIncludingMaxCached g < kLocationMax.object
  · rw [if_pos hlt]
    simp only [kLocationMax] at hlt
    omega
  · rw [if_neg hlt]
    simp only [kLocationMax] at hlt
    omega

/-- The interval the search for a lower group starts from: it ends inside the range, and the index
    holds a location of the target group there, or the first location of the range itself. -/
theorem findPrev_interval (hge : it.current.prevGroupEnd = some prevGE)
    (hp : (t.cachedContent.findInterval prevGE).or (t.cachedContent.findPrevInterval prevGE) = some prev)
    (hmin : ¬prev.2 < it.minLocation) (hmo : it.minLocation.object ≤ kEightByteLimit) :
    (t.cachedContent.contains it.minLocation = true ∧ it.current.group ≤ it.minLocation.group) ∨
      ∃ y : AbsoluteLocation, t.cachedContent.contains y = true ∧ y.object ≤ kEightByteLimit ∧
        it.minLocation ≤ y ∧ y.group = min prev.2.group prevGE.group := by
  have hpo : prevGE.object = kEightByteLimit ∧ prevGE.group + 1 = it.current.group := by
    unfold prevGroupEnd at hge
    split at hge
    · cases hge
      exact ⟨rfl, by simp only; omega⟩
    · cases hge
  obtain ⟨hpo, hpg⟩ := hpo
  cases hi : t.cachedContent.findInterval prevGE with
  | some iv =>
    rw [hi, some_or, some.injEq] at hp
    subst hp
    obtain ⟨h1, h2, -, -, hin⟩ := findInterval_some hi hpo.le
    simp only [lt_iff, le_iff] at hmin h1 h2
    by_cases hg : it.current.group ≤ it.minLocation.group
    · refine Or.inl ⟨hin _ hmo ?_ ?_, hg⟩
      · rw [le_iff]; omega
      · rw [le_iff]; omega
    · refine Or.inr ⟨prevGE, hin _ hpo.le ?_ ?_, hpo.le, ?_, ?_⟩
      · rw [le_iff]; omega
      · rw [le_iff]; omega
      · rw [le_iff]; omega
      · omega
  | none =>
    rw [hi, none_or] at hp
    obtain ⟨h1, h2, h3⟩ := findPrevInterval_some hp hpo.le
    refine Or.inr ⟨prev.2, h3, h2, not_lt.mp hmin, ?_⟩
    rw [lt_iff] at h1
    omega

theorem prevGroupEnd_group {l e : AbsoluteLocation} (h : l.prevGroupEnd = some e) :
    e.group + 1 = l.group := by
  unfold prevGroupEnd at h
  split at h
  · cases h
    simp only
    omega
  · cases h

/-- The source's check in the search for a lower group holds: if the first location of the target
    group is not indexed, the next indexed interval begins in that group. -/
theorem findPrevGroupCachedPosition_check {target : AbsoluteLocation}
    (hge : it.current.prevGroupEnd = some prevGE)
    (hp : (t.cachedContent.findInterval prevGE).or (t.cachedContent.findPrevInterval prevGE) = some prev)
    (hmin : ¬prev.2 < it.minLocation) (hmo : it.minLocation.object ≤ kEightByteLimit)
    (ht : target = if (⟨min prev.2.group prevGE.group, 0⟩ : AbsoluteLocation) < it.minLocation
      then it.minLocation else ⟨min prev.2.group prevGE.group, 0⟩)
    (hc : t.cachedContent.contains target = false) :
    ∃ p, t.cachedContent.findNextInterval target = some p ∧
      p.1.group = min prev.2.group prevGE.group := by
  have hpg := prevGroupEnd_group hge
  rcases findPrev_interval hge hp hmin hmo with ⟨hcm, hg⟩ | ⟨y, hcy, hyo, hmy, hyg⟩
  · have hlt : (⟨min prev.2.group prevGE.group, 0⟩ : AbsoluteLocation) < it.minLocation := by
      rw [lt_iff]
      simp only
      omega
    rw [if_pos hlt] at ht
    rw [ht, hcm] at hc
    cases hc
  · have hto : target.object ≤ kEightByteLimit := by
      rw [ht]
      split
      · exact hmo
      · exact Nat.zero_le _
    have hty : target ≤ y ∧ target.group = y.group := by
      rw [ht]
      split
      · rename_i hlt
        rw [lt_iff] at hlt
        rw [le_iff] at hmy
        simp only at hlt
        exact ⟨le_iff.mpr hmy, by omega⟩
      · refine ⟨?_, hyg.symm⟩
        rw [le_iff]
        simp only
        omega
    have hne : target ≠ y := by
      intro heq
      rw [heq, hcy] at hc
      cases hc
    obtain ⟨p, hnext, hpy⟩ :=
      findNextInterval_least hto hyo hc hcy (lt_of_le_of_ne hty.1 hne)
    refine ⟨p, hnext, ?_⟩
    obtain ⟨hlt, -, -⟩ := findNextInterval_some hnext hto
    have h2 := hty.2
    rw [lt_iff] at hlt
    rw [le_iff] at hpy
    omega

/-- The position found in a lower group is indexed, inside the range, and below the cursor's group
    unless the cursor is in the first group of the range or below. -/
theorem findPrevGroupCachedPosition_some {b : AbsoluteLocation}
    (hb : it.findPrevGroupCachedPosition t = some b) (hmo : it.minLocation.object ≤ kEightByteLimit) :
    b.object ≤ kEightByteLimit ∧ it.minLocation ≤ b ∧ t.cachedContent.contains b = true ∧
      (it.minLocation.group < it.current.group → b.group < it.current.group) ∧
      (it.current.group ≤ it.minLocation.group → b = it.minLocation) := by
  unfold findPrevGroupCachedPosition at hb
  cases hge : it.current.prevGroupEnd with
  | none => simp [hge] at hb
  | some prevGE =>
    have hpg := prevGroupEnd_group hge
    simp only [hge] at hb
    split at hb
    · cases hb
    · rename_i prev hp
      split at hb
      · cases hb
      · rename_i hmin
        generalize ht : (if (⟨min prev.2.group prevGE.group, 0⟩ : AbsoluteLocation) < it.minLocation
          then it.minLocation else ⟨min prev.2.group prevGE.group, 0⟩) = target at hb
        have hto : target.object ≤ kEightByteLimit ∧ it.minLocation ≤ target ∧
            (it.minLocation.group < it.current.group → target.group < it.current.group) ∧
            (it.current.group ≤ it.minLocation.group → target = it.minLocation) := by
          rw [← ht]
          split
          · exact ⟨hmo, le_refl _, id, fun _ => rfl⟩
          · rename_i hlt
            refine ⟨Nat.zero_le _, not_lt.mp hlt, fun _ => by simp only; omega, fun hg => ?_⟩
            rw [lt_iff] at hlt
            simp only at hlt
            omega
        split at hb
        · rename_i hc
          cases hb
          exact ⟨hto.1, hto.2.1, hc, hto.2.2⟩
        · rename_i hc
          obtain ⟨p, hnext, hpgroup⟩ :=
            findPrevGroupCachedPosition_check hge hp hmin hmo ht.symm (by simpa using hc)
          rw [hnext, map_some, some.injEq] at hb
          subst hb
          obtain ⟨h1, h2, h3⟩ := findNextInterval_some hnext hto.1
          refine ⟨h2, le_trans hto.2.1 h1.le, h3, fun _ => by omega, fun hg => ?_⟩
          -- from the first group on, the target is the start of the range
          have htg := hto.2.2.2 hg
          rw [htg, lt_iff] at h1
          omega

theorem findNextInGroup_some {b : AbsoluteLocation} (hb : it.findNextInGroup t = some b)
    (hco : it.current.object ≤ kEightByteLimit) :
    b.group = it.current.group ∧ it.current.object < b.object ∧ b.object ≤ kEightByteLimit ∧
      t.cachedContent.contains b = true := by
  unfold findNextInGroup at hb
  rw [filter_eq_some_iff, map_eq_some_iff] at hb
  obtain ⟨⟨p, hp, rfl⟩, hg⟩ := hb
  obtain ⟨h1, h2, h3⟩ := findNextInterval_some hp hco
  have hg' : p.1.group = it.current.group := by simpa using hg
  rw [lt_iff] at h1
  exact ⟨hg', by omega, h2, h3⟩

/-- The end kept by the iterator is in the first group of the range, and recomputing it gives
    `guessedEnd`. -/
structure EndKept (t : CacheTrack) (it : FetchRangeIterator) : Prop where
  memo : MemoFresh t it.cachedEndGroup
  group : it.end_.group = it.minLocation.group
  single : it.minLocation.group = it.maxLocation.group → it.end_ = it.maxLocation
  absent : it.minLocation.group ≠ it.maxLocation.group → t.groups.lookup it.minLocation.group = none →
    it.end_ = ⟨it.minLocation.group, kLocationMax.object⟩

/-- The iteration is over at its computed end, or early past the end of the track or at an invalid
    cursor. -/
theorem end_desc (hd : it.descending = true) (hk : EndKept t it) (hmax : it.maxLocation.Valid)
    (hlt : it.minLocation < it.maxLocation) :
    (PastTrackEnd t it.current ∨ it.isValid = false) ∧
        it.end h t = (it.current, { it with end_ := it.current }) ∨
      ¬PastTrackEnd t it.current ∧ it.isValid = true ∧
        ∃ memo, it.end h t = (guessedEnd h t it.minLocation it.maxLocation,
            { it with
              end_ := guessedEnd h t it.minLocation it.maxLocation
              cachedEndGroup := memo }) ∧
          EndKept t
            { it with
              end_ := guessedEnd h t it.minLocation it.maxLocation
              cachedEndGroup := memo } := by
  unfold «end»
  by_cases hp : PastTrackEnd t it.current ∨ it.isValid = false
  · exact Or.inl ⟨hp, if_pos (pastTrackEnd_iff.mpr hp)⟩
  · have hc : ¬_ = true := fun hc => hp (pastTrackEnd_iff.mp hc)
    rw [not_or, Bool.not_eq_false] at hp
    obtain ⟨hp, hv⟩ := hp
    refine Or.inr ⟨hp, hv, ?_⟩
    rw [if_neg hc, if_neg (by rw [hd]; exact Bool.false_ne_true)]
    · by_cases hs : it.minLocation.group = it.maxLocation.group
      · have hend := hk.single hs
        have hg : guessedEnd h t it.minLocation it.maxLocation = it.maxLocation := if_pos hs
        have hf : it.findGroupEndMaybe h t it.end_.group it.cachedEndGroup =
            (some it.maxLocation.object, it.cachedEndGroup) := by
          simp [findGroupEndMaybe, hk.group, hs]
        rw [hf, hg]
        refine ⟨it.cachedEndGroup, ?_, ⟨hk.memo, hs.symm, fun _ => rfl, fun hn => absurd hs hn⟩⟩
        simp only [hend]
      · have hne : it.end_.group ≠ it.maxLocation.group := by
          rw [hk.group]
          exact hs
        have hne' : it.end_.group ≠ kLocationMax.group := by
          rw [hk.group]
          have := hmax.1
          rw [lt_iff] at hlt
          simp only [kLocationMax]
          omega
        rw [findGroupEndMaybe_desc hd hk.memo hne hne', hk.group]
        have hguess : guessedEnd h t it.minLocation it.maxLocation =
            match t.groups.lookup it.minLocation.group with
            | none => ⟨it.minLocation.group, kLocationMax.object⟩
            | some r => ⟨it.minLocation.group,
              if (h r).endOfGroup then endIncludingMaxCached (h r) else firstUncachedObject (h r)⟩ :=
          if_neg hs
        rw [hguess]
        cases hr : t.groups.lookup it.minLocation.group with
        | none =>
          have habs := hk.absent hs hr
          refine ⟨⟨it.minLocation.group, t.groups.lookup it.minLocation.group⟩, ?_,
            ⟨memoFresh_lookup _, rfl, fun h => absurd h hs, fun _ _ => rfl⟩⟩
          rw [hr]
          simp only [map_none, habs]
        | some r =>
          refine ⟨⟨it.minLocation.group, t.groups.lookup it.minLocation.group⟩, ?_,
            ⟨memoFresh_lookup _, rfl, fun h => absurd h hs, fun _ hn => ?_⟩⟩
          · rw [hr]
            simp only [map_some, groupEndGuess, if_true]
          · rw [hr] at hn
            cases hn

end FetchRangeIterator

/-! ## 5. The requests for a run of misses -/

section requests

variable {start «end» stop m cur l : AbsoluteLocation} {tail : Bool}

/-- The end of the first request: of the group the run begins in, or of the range. -/
def runEnd (m «end» : AbsoluteLocation) : AbsoluteLocation :=
  if m.group = «end».group then «end» else m.nextGroup.getD «end»

/-- The first location of the range in the group of `cur`. -/
def groupStart (start cur : AbsoluteLocation) : AbsoluteLocation :=
  if start.group = cur.group then start else ⟨cur.group, 0⟩

theorem getFetchIntervals_lower (hlt : cur.group < m.group) (hm : m.group ≤ kEightByteLimit) :
    getFetchIntervals start stop m cur .newestFirst tail =
      (if m.group = cur.group + 1 then [(m, runEnd m stop)]
        else if m.object = 0 then [(max start ⟨cur.group + 1, 0⟩, runEnd m stop)]
        else [(m, runEnd m stop),
          (⟨cur.group + 1, if start.group = cur.group + 1 then start.object else 0⟩, ⟨m.group, 0⟩)]) ++
      (if cur.object ≠ 0 ∧ groupStart start cur < cur then [(groupStart start cur, cur)] else []) := by
  have hlim : kEightByteLimit < 2 ^ 64 := by decide
  have h1 : subU64 m.group cur.group = m.group - cur.group := subU64_of_le (by omega) (by omega)
  have h2 : subU64 (m.group - cur.group) 1 = m.group - cur.group - 1 :=
    subU64_of_le (by omega) (by omega)
  have h3 : subU64 m.group (m.group - cur.group - 1) = cur.group + 1 := by
    rw [subU64_of_le (by omega) (by omega)]
    omega
  unfold getFetchIntervals
  rw [if_neg (by simp), if_neg (by omega)]
  simp only [h1, h2, h3]
  by_cases hn : m.group = cur.group + 1
  · rw [if_pos hn, if_neg (by omega)]
    rfl
  · rw [if_neg hn, if_pos (by omega)]
    rfl

theorem lt_runEnd (hend : stop.Valid) (hmg : m.group ≤ stop.group) :
    l < runEnd m stop → l.group ≤ m.group ∧ l < stop := by
  intro hl
  have := hend.1
  unfold runEnd nextGroup at hl
  split at hl
  · rw [lt_iff] at hl
    exact ⟨by omega, lt_iff.mpr hl⟩
  · split at hl
    · simp only [getD_some, lt_iff] at hl ⊢
      omega
    · omega

theorem lt_runEnd_of (hl : l < stop) (hg : l.group ≤ m.group) : l < runEnd m stop := by
  unfold runEnd nextGroup
  split
  · exact hl
  · split
    · simp only [getD_some, lt_iff]
      omega
    · exact hl

theorem flush_covers (hm : m.group ≤ kEightByteLimit) (hstart : start ≤ l) (hend : l < stop)
    (h1 : ¬NewerFirst l m) (h2 : NewerFirst l cur) :
    ∃ p ∈ getFetchIntervals start stop m cur .newestFirst tail, p.1 ≤ l ∧ l < p.2 := by
  unfold NewerFirst at h1 h2
  by_cases hg : m.group = cur.group
  · unfold getFetchIntervals
    rw [if_neg (by simp), if_pos hg]
    cases tail with
    | false =>
      refine ⟨(m, cur), mem_singleton_self _, ?_, ?_⟩
      · rw [le_iff]; simp only; omega
      · rw [lt_iff]; simp only; omega
    | true =>
      refine ⟨(m, m.nextGroup.getD stop), mem_singleton_self _,
        by rw [le_iff]; simp only; omega, ?_⟩
      show l < m.nextGroup.getD stop
      unfold nextGroup
      split
      · simp only [getD_some, lt_iff]; omega
      · exact hend
  · have hlt : cur.group < m.group := by omega
    rw [getFetchIntervals_lower hlt hm]
    by_cases hlc : l.group = cur.group
    · -- in the group of the hit: the last request
      have hgs : groupStart start cur ≤ l := by
        unfold groupStart
        split
        · exact hstart
        · rw [le_iff]; simp only; omega
      have hlcur : l < cur := by rw [lt_iff]; omega
      refine ⟨(groupStart start cur, cur), mem_append_right _ ?_, hgs, hlcur⟩
      rw [if_pos ⟨by omega, lt_of_le_of_lt hgs hlcur⟩]
      exact mem_singleton_self _
    · have hre : l < runEnd m stop := lt_runEnd_of hend (by omega)
      by_cases hadj : m.group = cur.group + 1
      · rw [if_pos hadj]
        exact ⟨(m, runEnd m stop), mem_append_left _ (mem_singleton_self _),
          by rw [le_iff]; simp only; omega, hre⟩
      · rw [if_neg hadj]
        by_cases h0 : m.object = 0
        · rw [if_pos h0]
          refine ⟨_, mem_append_left _ (mem_singleton_self _), ?_, hre⟩
          refine max_le hstart ?_
          rw [le_iff]; simp only; omega
        · rw [if_neg h0]
          by_cases hlm : l.group = m.group
          · exact ⟨(m, runEnd m stop), mem_append_left _ mem_cons_self,
              by rw [le_iff]; simp only; omega, hre⟩
          · refine ⟨_, mem_append_left _ (mem_cons_of_mem _ (mem_singleton_self _)), ?_, ?_⟩
            · rw [le_iff] at hstart ⊢
              simp only
              split <;> omega
            · rw [lt_iff]; simp only; omega

def InRequest (p : AbsoluteLocation × AbsoluteLocation) (l : AbsoluteLocation) : Prop :=
  p.1 ≤ l ∧ l < p.2

/-- The requests of a run that ends in a lower group stay in the range and in the run, one before
    the other. -/
theorem lower_ordered (hend : stop.Valid) (hlt : cur.group < m.group) (hms : start ≤ m)
    (hme : m < stop) (hcs : cur.object ≠ 0 → start ≤ cur)
    (htail : m.object = 0 ∨ start.group ≤ cur.group + 1) :
    (getFetchIntervals start stop m cur .newestFirst tail).Pairwise
        (fun p q => ∀ x y, InRequest p x → InRequest q y → NewerFirst x y) ∧
      ∀ p ∈ getFetchIntervals start stop m cur .newestFirst tail, ∀ l, InRequest p l →
        start ≤ l ∧ l < stop ∧ ¬NewerFirst l m ∧ NewerFirst l cur := by
  have hmg : m.group ≤ stop.group := by rw [lt_iff] at hme; omega
  have hm : m.group ≤ kEightByteLimit := le_trans hmg hend.1
  rw [getFetchIntervals_lower hlt hm]
  -- a location of the first part: above the group of the hit, in the run and in the range
  have hpart : ∀ p ∈ (if m.group = cur.group + 1 then [(m, runEnd m stop)]
        else if m.object = 0 then [(max start ⟨cur.group + 1, 0⟩, runEnd m stop)]
        else [(m, runEnd m stop),
          (⟨cur.group + 1, if start.group = cur.group + 1 then start.object else 0⟩, ⟨m.group, 0⟩)]),
      ∀ l, InRequest p l → start ≤ l ∧ l < stop ∧ ¬NewerFirst l m ∧ cur.group < l.group := by
    have hfirst : ∀ l, InRequest (m, runEnd m stop) l →
        start ≤ l ∧ l < stop ∧ ¬NewerFirst l m ∧ cur.group < l.group := by
      intro l hl
      obtain ⟨h1, h2⟩ := hl
      obtain ⟨h3, h4⟩ := lt_runEnd hend hmg h2
      refine ⟨le_trans hms h1, h4, ?_, ?_⟩
      · unfold NewerFirst
        simp only [le_iff] at h1
        omega
      · simp only [le_iff] at h1
        omega
    intro p hp l hl
    split at hp
    · cases mem_singleton.mp hp
      exact hfirst l hl
    · split at hp
      · rename_i h0
        cases mem_singleton.mp hp
        obtain ⟨h1, h2⟩ := hl
        obtain ⟨h3, h4⟩ := lt_runEnd hend hmg h2
        obtain ⟨h5, h6⟩ := max_le_iff.mp h1
        simp only [le_iff] at h6
        refine ⟨h5, h4, ?_, by omega⟩
        unfold NewerFirst
        omega
      · rename_i hadj h0
        rcases mem_cons.mp hp with rfl | hp
        · exact hfirst l hl
        · cases mem_singleton.mp hp
          obtain ⟨h1, h2⟩ := hl
          have hs : start.group ≤ cur.group + 1 := htail.resolve_left h0
          simp only [le_iff, lt_iff, NewerFirst] at h1 h2 hme ⊢
          refine ⟨?_, by omega, by omega, by omega⟩
          split at h1 <;> omega
  have hlast : ∀ p ∈ (if cur.object ≠ 0 ∧ groupStart start cur < cur then [(groupStart start cur, cur)]
        else []), ∀ l, InRequest p l → start ≤ l ∧ l.group = cur.group ∧ l.object < cur.object := by
    intro p hp l hl
    split at hp
    · rename_i hc
      cases mem_singleton.mp hp
      obtain ⟨h1, h2⟩ := hl
      have hcs' := hcs hc.1
      unfold groupStart at h1
      simp only [le_iff, lt_iff] at h1 h2 hcs' ⊢
      split at h1
      · omega
      · simp only at h1
        omega
    · cases hp
  refine ⟨pairwise_append.mpr ⟨?_, ?_, ?_⟩, ?_⟩
  · split
    · exact pairwise_singleton _ _
    · split
      · exact pairwise_singleton _ _
      · refine pairwise_pair.mpr ?_
        intro x y hx hy
        simp only [InRequest, le_iff, lt_iff, NewerFirst] at hx hy ⊢
        omega
  · split
    · exact pairwise_singleton _ _
    · exact List.Pairwise.nil
  · intro p hp q hq x y hx hy
    obtain ⟨-, -, -, h1⟩ := hpart p hp x hx
    obtain ⟨-, h2, -⟩ := hlast q hq y hy
    unfold NewerFirst
    omega
  · intro p hp l hl
    rcases mem_append.mp hp with hp | hp
    · obtain ⟨h1, h2, h3, h4⟩ := hpart p hp l hl
      exact ⟨h1, h2, h3, Or.inl h4⟩
    · obtain ⟨h1, h2, h3⟩ := hlast p hp l hl
      rw [lt_iff] at hme
      refine ⟨h1, ?_, ?_, Or.inr ⟨h2, h3⟩⟩
      · rw [lt_iff]
        omega
      · unfold NewerFirst
        omega

end requests

end Moqx

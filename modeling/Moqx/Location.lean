/-
  Subject: Locations of a track, their order, and sets of locations.

  The transport library's `AbsoluteLocation` and `LocationIntervalSet` as the cache uses them:

  * `AbsoluteLocation` -- a group and an object in it, ordered by group and then by object; both
    ids fit an eight-byte varint (`Valid`), so the location after `{g, MAX}` is `{g + 1, 0}`;
  * `next`, `prev`, `nextInGroup`, `prevInGroup`, `nextGroup`, `prevGroup`, `prevGroupEnd` -- the
    neighbours, empty past either end.
-/
import Mathlib.Order.Defs.LinearOrder
import Mathlib.Tactic.Ring
import Mathlib.Tactic.Linarith
import Moqx.Lib.IntervalSet

namespace Moqx

/-- The largest eight-byte varint: the largest group and the largest object id. -/
def kEightByteLimit : Nat := 2 ^ 62 - 1

structure AbsoluteLocation where
  group : Nat
  object : Nat
  deriving DecidableEq, Repr

/-- The order in which the groups of a fetch are delivered. -/
inductive GroupOrder where
  | default
  | oldestFirst
  | newestFirst
  deriving DecidableEq, Repr

namespace AbsoluteLocation

variable {a b : AbsoluteLocation}

/-! ## 1. The order -/

@[ext] theorem ext' {a b : AbsoluteLocation} (hg : a.group = b.group) (ho : a.object = b.object) :
    a = b := by
  cases a; cases b; cases hg; cases ho; rfl

instance : LT AbsoluteLocation :=
  ⟨fun a b => a.group < b.group ∨ a.group = b.group ∧ a.object < b.object⟩

instance : LE AbsoluteLocation :=
  ⟨fun a b => a.group < b.group ∨ a.group = b.group ∧ a.object ≤ b.object⟩

theorem lt_iff :
    a < b ↔ a.group < b.group ∨ a.group = b.group ∧ a.object < b.object := Iff.rfl

theorem le_iff :
    a ≤ b ↔ a.group < b.group ∨ a.group = b.group ∧ a.object ≤ b.object := Iff.rfl

theorem eq_iff : a = b ↔ a.group = b.group ∧ a.object = b.object :=
  ⟨fun h => h ▸ ⟨rfl, rfl⟩, fun h => ext' h.1 h.2⟩

instance : DecidableLT AbsoluteLocation := fun _ _ => inferInstanceAs (Decidable (_ ∨ _))

instance : DecidableLE AbsoluteLocation := fun _ _ => inferInstanceAs (Decidable (_ ∨ _))

instance : LinearOrder AbsoluteLocation where
  le_refl a := by rw [le_iff]; omega
  le_trans a b c := by simp only [le_iff]; omega
  le_antisymm a b := by simp only [le_iff, eq_iff]; omega
  le_total a b := by simp only [le_iff]; omega
  lt_iff_le_not_ge a b := by simp only [lt_iff, le_iff]; omega
  toDecidableLE := inferInstance
  toDecidableEq := inferInstance
  toDecidableLT := inferInstance

/-! ## 2. Neighbours -/

def Valid (l : AbsoluteLocation) : Prop := l.group ≤ kEightByteLimit ∧ l.object ≤ kEightByteLimit

instance (l : AbsoluteLocation) : Decidable l.Valid := inferInstanceAs (Decidable (_ ∧ _))

def nextInGroup (l : AbsoluteLocation) : Option AbsoluteLocation :=
  if l.object < kEightByteLimit then some ⟨l.group, l.object + 1⟩ else none

def prevInGroup (l : AbsoluteLocation) : Option AbsoluteLocation :=
  if 0 < l.object then some ⟨l.group, l.object - 1⟩ else none

def nextGroup (l : AbsoluteLocation) : Option AbsoluteLocation :=
  if l.group < kEightByteLimit then some ⟨l.group + 1, 0⟩ else none

def prevGroup (l : AbsoluteLocation) : Option AbsoluteLocation :=
  if 0 < l.group then some ⟨l.group - 1, 0⟩ else none

def prevGroupEnd (l : AbsoluteLocation) : Option AbsoluteLocation :=
  if 0 < l.group then some ⟨l.group - 1, kEightByteLimit⟩ else none

def next (l : AbsoluteLocation) : Option AbsoluteLocation := l.nextInGroup.or l.nextGroup

def prev (l : AbsoluteLocation) : Option AbsoluteLocation := l.prevInGroup.or l.prevGroupEnd

theorem lt_next {l n : AbsoluteLocation} (h : l.next = some n) : l < n := by
  unfold next nextInGroup nextGroup at h
  rw [lt_iff]
  split at h
  · cases h
    exact Or.inr ⟨rfl, Nat.lt_succ_self _⟩
  · split at h
    · cases h
      exact Or.inl (Nat.lt_succ_self _)
    · cases h

end AbsoluteLocation

open AbsoluteLocation

def kLocationMax : AbsoluteLocation := ⟨kEightByteLimit, kEightByteLimit⟩

/-! ## 3. Numbering the locations -/

namespace AbsoluteLocation

/-- The number of locations below `l`. -/
def rank (l : AbsoluteLocation) : Nat := l.group * (kEightByteLimit + 1) + l.object

def ofRank (n : Nat) : AbsoluteLocation :=
  ⟨n / (kEightByteLimit + 1), n % (kEightByteLimit + 1)⟩

theorem ofRank_object_le (n : Nat) : (ofRank n).object ≤ kEightByteLimit :=
  Nat.le_of_lt_succ (Nat.mod_lt _ (Nat.succ_pos _))

@[simp] theorem rank_ofRank (n : Nat) : (ofRank n).rank = n := Nat.div_add_mod' n _

theorem rank_lt_rank {a b : AbsoluteLocation} (ha : a.object ≤ kEightByteLimit)
    (hb : b.object ≤ kEightByteLimit) : a.rank < b.rank ↔ a < b := by
  unfold rank
  rw [lt_iff]
  rcases Nat.lt_trichotomy a.group b.group with h | h | h
  · have : (a.group + 1) * (kEightByteLimit + 1) ≤ b.group * (kEightByteLimit + 1) :=
      Nat.mul_le_mul_right _ h
    rw [Nat.succ_mul] at this
    omega
  · rw [h]; omega
  · have : (b.group + 1) * (kEightByteLimit + 1) ≤ a.group * (kEightByteLimit + 1) :=
      Nat.mul_le_mul_right _ h
    rw [Nat.succ_mul] at this
    omega

theorem rank_le_rank {a b : AbsoluteLocation} (ha : a.object ≤ kEightByteLimit)
    (hb : b.object ≤ kEightByteLimit) : a.rank ≤ b.rank ↔ a ≤ b := by
  rw [← Nat.not_lt, rank_lt_rank hb ha, not_lt]

theorem le_ofRank (l : AbsoluteLocation) : l ≤ ofRank l.rank := by
  have hdiv : l.rank / (kEightByteLimit + 1) = l.group + l.object / (kEightByteLimit + 1) := by
    unfold rank
    rw [Nat.add_comm, Nat.add_mul_div_right _ _ (Nat.succ_pos _), Nat.add_comm]
  rw [le_iff, ofRank, hdiv]
  by_cases ho : l.object < kEightByteLimit + 1
  · have hobject : l.rank % (kEightByteLimit + 1) = l.object := by
      unfold rank
      rw [Nat.mul_add_mod', Nat.mod_eq_of_lt ho]
    rw [Nat.div_eq_of_lt ho, hobject]
    exact Or.inr ⟨rfl, Nat.le_refl _⟩
  · exact Or.inl (Nat.lt_add_of_pos_right (Nat.div_pos (Nat.not_lt.mp ho) (Nat.succ_pos _)))

theorem ofRank_le_ofRank {m n : Nat} (h : m ≤ n) : ofRank m ≤ ofRank n := by
  rw [← rank_le_rank (ofRank_object_le m) (ofRank_object_le n), rank_ofRank, rank_ofRank]
  exact h

end AbsoluteLocation

/-! ## 4. Sets of locations -/

/-- A set of locations as maximal inclusive intervals. -/
structure LocationIntervalSet where
  ranks : Intervals.IntervalSet

namespace LocationIntervalSet

open Intervals

def empty : LocationIntervalSet := ⟨.empty⟩

def contains (s : LocationIntervalSet) (l : AbsoluteLocation) : Bool := s.ranks.contains l.rank

def bounds (p : Nat × Nat) : AbsoluteLocation × AbsoluteLocation := (ofRank p.1, ofRank p.2)

def findInterval (s : LocationIntervalSet) (l : AbsoluteLocation) :
    Option (AbsoluteLocation × AbsoluteLocation) := (s.ranks.findInterval l.rank).map bounds

def findIntervalEnd (s : LocationIntervalSet) (l : AbsoluteLocation) : Option AbsoluteLocation :=
  (s.findInterval l).map (·.2)

def findNextInterval (s : LocationIntervalSet) (l : AbsoluteLocation) :
    Option (AbsoluteLocation × AbsoluteLocation) := (s.ranks.findNextInterval l.rank).map bounds

def findPrevInterval (s : LocationIntervalSet) (l : AbsoluteLocation) :
    Option (AbsoluteLocation × AbsoluteLocation) := (s.ranks.findPrevInterval l.rank).map bounds

def insert (s : LocationIntervalSet) (start «end» : AbsoluteLocation) : LocationIntervalSet :=
  ⟨s.ranks.insert start.rank «end».rank⟩

def remove (s : LocationIntervalSet) (start «end» : AbsoluteLocation) : LocationIntervalSet :=
  ⟨s.ranks.remove start.rank «end».rank⟩

def size (s : LocationIntervalSet) : Nat := s.ranks.size

def popFront (s : LocationIntervalSet) :
    Option (AbsoluteLocation × AbsoluteLocation) × LocationIntervalSet :=
  (s.ranks.popFront.1.map bounds, ⟨s.ranks.popFront.2⟩)

variable {s : LocationIntervalSet} {l a b : AbsoluteLocation}

section

variable (ha : a.object ≤ kEightByteLimit) (hb : b.object ≤ kEightByteLimit) (hl : l.object ≤ kEightByteLimit)

include ha hb hl

theorem contains_insert :
    (s.insert a b).contains l = true ↔ (a ≤ l ∧ l ≤ b) ∨ s.contains l = true := by
  rw [contains, insert, IntervalSet.contains_insert, rank_le_rank ha hl, rank_le_rank hl hb]
  rfl

theorem contains_remove :
    (s.remove a b).contains l = true ↔ s.contains l = true ∧ ¬(a ≤ l ∧ l ≤ b) := by
  rw [contains, remove, IntervalSet.contains_remove, rank_le_rank ha hl, rank_le_rank hl hb]
  rfl

end

theorem contains_of_remove (h : (s.remove a b).contains l = true) : s.contains l = true := by
  rw [contains, remove, IntervalSet.contains_remove] at h
  exact h.1

theorem not_contains_remove_self : (s.remove l l).contains l = false := by
  rw [contains, remove, ← Bool.not_eq_true, IntervalSet.contains_remove]
  exact fun h => h.2 ⟨Nat.le_refl _, Nat.le_refl _⟩

def Spans (a b l : AbsoluteLocation) : Prop := a.rank ≤ l.rank ∧ l.rank ≤ b.rank

theorem spans_iff (ha : a.object ≤ kEightByteLimit) (hb : b.object ≤ kEightByteLimit)
    (hl : l.object ≤ kEightByteLimit) : Spans a b l ↔ a ≤ l ∧ l ≤ b := by
  rw [Spans, rank_le_rank ha hl, rank_le_rank hl hb]

theorem spans_le (h : Spans a b l) (hl : l.object ≤ kEightByteLimit) (hb : b.object ≤ kEightByteLimit) :
    a ≤ l ∧ l ≤ b := by
  refine ⟨?_, (rank_le_rank hl hb).mp h.2⟩
  have hself : ofRank l.rank ≤ l := by
    rw [← rank_le_rank (ofRank_object_le _) hl, rank_ofRank]
  exact (le_ofRank a).trans ((ofRank_le_ofRank h.1).trans hself)

theorem contains_insert_iff : (s.insert a b).contains l = true ↔ Spans a b l ∨ s.contains l = true := by
  rw [contains, insert, IntervalSet.contains_insert]
  rfl

theorem contains_remove_iff : (s.remove a b).contains l = true ↔ s.contains l = true ∧ ¬Spans a b l := by
  rw [contains, remove, IntervalSet.contains_remove]
  rfl

theorem popFront_some {s' : LocationIntervalSet} {p : AbsoluteLocation × AbsoluteLocation}
    (h : s.popFront = (some p, s')) (l : AbsoluteLocation) :
    (s'.contains l = true ↔ s.contains l = true ∧ ¬Spans p.1 p.2 l) ∧
      (Spans p.1 p.2 l → s.contains l = true) := by
  obtain ⟨h1, h2⟩ := Prod.mk.inj h
  obtain ⟨q, hq, rfl⟩ := Option.map_eq_some_iff.mp h1
  subst h2
  have hspec := IntervalSet.popFront_some hq l.rank
  unfold Spans bounds
  rw [rank_ofRank, rank_ofRank]
  exact hspec

theorem findInterval_some (h : s.findInterval l = some (a, b)) (hl : l.object ≤ kEightByteLimit) :
    a ≤ l ∧ l ≤ b ∧ a.object ≤ kEightByteLimit ∧ b.object ≤ kEightByteLimit ∧
      ∀ y : AbsoluteLocation, y.object ≤ kEightByteLimit → a ≤ y → y ≤ b → s.contains y = true := by
  obtain ⟨p, hp, he⟩ := Option.map_eq_some_iff.mp h
  obtain ⟨rfl, rfl⟩ := Prod.mk.inj he
  obtain ⟨h1, h2, h3⟩ := IntervalSet.findInterval_some hp
  have ha := ofRank_object_le p.1
  have hb := ofRank_object_le p.2
  refine ⟨?_, ?_, ha, hb, fun y hy hay hyb => h3 y.rank ?_ ?_⟩
  · rw [← rank_le_rank ha hl, rank_ofRank]; exact h1
  · rw [← rank_le_rank hl hb, rank_ofRank]; exact h2
  · rw [← rank_ofRank p.1, rank_le_rank ha hy]; exact hay
  · rw [← rank_ofRank p.2, rank_le_rank hy hb]; exact hyb

theorem findInterval_end (h : s.findInterval l = some (a, b)) : l ≤ b := by
  obtain ⟨p, hp, he⟩ := Option.map_eq_some_iff.mp h
  obtain ⟨rfl, rfl⟩ := Prod.mk.inj he
  exact (le_ofRank l).trans (ofRank_le_ofRank (IntervalSet.findInterval_some hp).2.1)

theorem next_rank {n : AbsoluteLocation} (h : l.next = some n) (hl : l.object ≤ kEightByteLimit) :
    n.rank = l.rank + 1 := by
  unfold AbsoluteLocation.next nextInGroup nextGroup at h
  split at h
  · cases h
    simp only [rank]
    omega
  · split at h
    · cases h
      have : l.object = kEightByteLimit := by omega
      simp only [rank, this, Nat.succ_mul]
      omega
    · simp at h

theorem findInterval_maximal {n : AbsoluteLocation} (h : s.findInterval l = some (a, b))
    (hn : b.next = some n) : s.contains n = false := by
  obtain ⟨p, hp, he⟩ := Option.map_eq_some_iff.mp h
  obtain ⟨rfl, rfl⟩ := Prod.mk.inj he
  rw [contains, next_rank hn (ofRank_object_le p.2), rank_ofRank]
  exact IntervalSet.findInterval_maximal hp

theorem findInterval_isSome : (s.findInterval l).isSome = s.contains l := by
  rw [findInterval, Option.isSome_map, IntervalSet.findInterval_isSome]
  rfl

theorem findNextInterval_some (h : s.findNextInterval l = some (a, b))
    (hl : l.object ≤ kEightByteLimit) :
    l < a ∧ a.object ≤ kEightByteLimit ∧ s.contains a = true := by
  obtain ⟨p, hp, he⟩ := Option.map_eq_some_iff.mp h
  obtain ⟨rfl, rfl⟩ := Prod.mk.inj he
  obtain ⟨h1, h2⟩ := IntervalSet.findNextInterval_some hp
  have ha := ofRank_object_le p.1
  refine ⟨?_, ha, ?_⟩
  · rw [← rank_lt_rank hl ha, rank_ofRank]; exact h1
  · rw [contains, rank_ofRank]; exact h2

/-- From a location outside the set, the next interval begins no later than any location of the set
    above it. -/
theorem findNextInterval_least {y : AbsoluteLocation} (hl : l.object ≤ kEightByteLimit)
    (hy : y.object ≤ kEightByteLimit) (hc : s.contains l = false) (hcy : s.contains y = true)
    (hlt : l < y) : ∃ p, s.findNextInterval l = some p ∧ p.1 ≤ y := by
  obtain ⟨p, hp, hle⟩ :=
    IntervalSet.findNextInterval_least hc hcy ((rank_lt_rank hl hy).mpr hlt)
  refine ⟨bounds p, by rw [findNextInterval, hp]; rfl, ?_⟩
  show ofRank p.1 ≤ y
  rw [← rank_le_rank (ofRank_object_le _) hy, rank_ofRank]
  exact hle

theorem findPrevInterval_some (h : s.findPrevInterval l = some (a, b))
    (hl : l.object ≤ kEightByteLimit) :
    b < l ∧ b.object ≤ kEightByteLimit ∧ s.contains b = true := by
  obtain ⟨p, hp, he⟩ := Option.map_eq_some_iff.mp h
  obtain ⟨rfl, rfl⟩ := Prod.mk.inj he
  obtain ⟨h1, h2⟩ := IntervalSet.findPrevInterval_some hp
  have hb := ofRank_object_le p.2
  refine ⟨?_, hb, ?_⟩
  · rw [← rank_lt_rank hb hl, rank_ofRank]; exact h1
  · rw [contains, rank_ofRank]; exact h2

end LocationIntervalSet

end Moqx

/-
  Subject: FINITE UNIONS OF CLOSED INTERVALS OF NATURALS, in canonical form.

  * `contains`, `findInterval`, `findNextInterval`, `findPrevInterval` -- the queries, each with
    what its answer says about the set.
-/
import Mathlib.Data.List.Pairwise
import Mathlib.Order.Lattice

namespace Intervals

open List

/-- Two closed intervals, the first below the second, with a number between them. -/
def Apart (p q : Nat × Nat) : Prop := p.2 + 1 < q.1

/-- A finite set of naturals as its maximal runs, ascending. -/
structure IntervalSet where
  runs : List (Nat × Nat)
  ordered : ∀ p ∈ runs, p.1 ≤ p.2
  apart : runs.Pairwise Apart

def inRun (x : Nat) (p : Nat × Nat) : Bool := decide (p.1 ≤ x ∧ x ≤ p.2)

@[simp] theorem inRun_iff (x : Nat) (p : Nat × Nat) : inRun x p = true ↔ p.1 ≤ x ∧ x ≤ p.2 := by
  simp [inRun]

namespace IntervalSet

variable {s : IntervalSet} {x : Nat} {p : Nat × Nat}

/-! ## 1. Queries -/

def contains (s : IntervalSet) (x : Nat) : Bool := s.runs.any (inRun x)

/-- The run that holds `x`. -/
def findInterval (s : IntervalSet) (x : Nat) : Option (Nat × Nat) := s.runs.find? (inRun x)

/-- The first run that begins above `x`. -/
def findNextInterval (s : IntervalSet) (x : Nat) : Option (Nat × Nat) :=
  s.runs.find? fun p => decide (x < p.1)

/-- The last run that ends below `x`. -/
def findPrevInterval (s : IntervalSet) (x : Nat) : Option (Nat × Nat) :=
  s.runs.reverse.find? fun p => decide (p.2 < x)

def size (s : IntervalSet) : Nat := s.runs.length

theorem contains_iff :
    s.contains x = true ↔ ∃ p ∈ s.runs, p.1 ≤ x ∧ x ≤ p.2 := by
  simp [contains]

theorem findInterval_some (h : s.findInterval x = some p) :
    p.1 ≤ x ∧ x ≤ p.2 ∧ ∀ y, p.1 ≤ y → y ≤ p.2 → s.contains y = true := by
  obtain ⟨h1, h2⟩ := (inRun_iff x p).mp (find?_some h)
  exact ⟨h1, h2, fun y hy1 hy2 => contains_iff.mpr ⟨p, mem_of_find?_eq_some h, hy1, hy2⟩⟩

theorem findInterval_maximal (h : s.findInterval x = some p) : s.contains (p.2 + 1) = false := by
  have hp : p ∈ s.runs := mem_of_find?_eq_some h
  by_contra hc
  rw [Bool.not_eq_false, contains_iff] at hc
  obtain ⟨q, hq, h1, h2⟩ := hc
  -- two different runs are apart, one way or the other
  have hpq : p = q ∨ Apart p q ∨ Apart q p :=
    List.Pairwise.forall_of_forall_of_flip (R := fun p q => p = q ∨ Apart p q ∨ Apart q p)
      (fun _ _ => Or.inl rfl) (s.apart.imp fun h => Or.inr (Or.inl h))
      (s.apart.imp fun h => Or.inr (Or.inr h)) hp hq
  have hpo := s.ordered p hp
  have hqo := s.ordered q hq
  rcases hpq with rfl | hap | hap
  · omega
  · unfold Apart at hap
    omega
  · unfold Apart at hap
    omega

theorem findInterval_isSome :
    (s.findInterval x).isSome = s.contains x := by
  rw [Bool.eq_iff_iff]
  simp [findInterval, contains, find?_isSome]

theorem findNextInterval_some (h : s.findNextInterval x = some p) : x < p.1 ∧ s.contains p.1 = true := by
  have hx : x < p.1 := by simpa using find?_some h
  have hp := mem_of_find?_eq_some h
  exact ⟨hx, contains_iff.mpr ⟨p, hp, Nat.le_refl _, s.ordered p hp⟩⟩

theorem not_inRun_of_lt {y : Nat} {q : Nat × Nat} (hx : s.contains x = false) (hq : q ∈ s.runs) (hxy : x < y)
    (hy : y ≤ q.2) : x < q.1 := by
  by_contra hlt
  have : s.contains x = true := contains_iff.mpr ⟨q, hq, by omega, by omega⟩
  rw [hx] at this
  cases this

theorem findNextInterval_least {y : Nat} (hx : s.contains x = false) (hy : s.contains y = true) (hxy : x < y) :
    ∃ p, s.findNextInterval x = some p ∧ p.1 ≤ y := by
  obtain ⟨q, hq, h1, h2⟩ := contains_iff.mp hy
  have hlt := not_inRun_of_lt hx hq hxy h2
  have hsome : (s.findNextInterval x).isSome = true := by
    rw [findNextInterval, find?_isSome]
    exact ⟨q, hq, by simpa using hlt⟩
  obtain ⟨p, hp⟩ := Option.isSome_iff_exists.mp hsome
  refine ⟨p, hp, ?_⟩
  -- the run found is the first of its kind, and runs ascend
  obtain ⟨-, as, bs, hruns, has⟩ := find?_eq_some_iff_append.mp hp
  have hq' : q ∈ p :: bs := by
    rw [hruns] at hq
    rcases mem_append.mp hq with hq | hq
    · have := has q hq
      simp at this
      omega
    · exact hq
  rcases mem_cons.mp hq' with rfl | hq'
  · exact h1
  · have hap := s.apart
    rw [hruns] at hap
    have : Apart p q := (pairwise_cons.mp (pairwise_append.mp hap).2.1).1 q hq'
    have hpo := s.ordered p (hruns ▸ mem_append_right _ mem_cons_self)
    unfold Apart at this
    omega

theorem findPrevInterval_some (h : s.findPrevInterval x = some p) : p.2 < x ∧ s.contains p.2 = true := by
  have hx : p.2 < x := by simpa using find?_some h
  have hp : p ∈ s.runs := by simpa using mem_of_find?_eq_some h
  exact ⟨hx, contains_iff.mpr ⟨p, hp, s.ordered p hp, Nat.le_refl _⟩⟩

/-! ## 2. Insertion -/

def empty : IntervalSet := ⟨[], by simp, by simp⟩

/-- Insert `[lo, hi]`, merging every run that overlaps it or touches it. -/
def insertRuns (lo hi : Nat) : List (Nat × Nat) → List (Nat × Nat)
  | [] => [(lo, hi)]
  | (a, b) :: rest =>
    if b + 1 < lo then (a, b) :: insertRuns lo hi rest
    else if hi + 1 < a then (lo, hi) :: (a, b) :: rest
    else insertRuns (min lo a) (max hi b) rest

theorem insertRuns_ordered (l : List (Nat × Nat)) (lo hi : Nat) (hlo : lo ≤ hi)
    (h : ∀ p ∈ l, p.1 ≤ p.2) : ∀ p ∈ insertRuns lo hi l, p.1 ≤ p.2 := by
  induction l generalizing lo hi with
  | nil => simpa [insertRuns] using hlo
  | cons q rest ih =>
    obtain ⟨a, b⟩ := q
    obtain ⟨hab, hrest⟩ := forall_mem_cons.mp h
    unfold insertRuns
    split_ifs
    · exact forall_mem_cons.mpr ⟨hab, ih lo hi hlo hrest⟩
    · exact forall_mem_cons.mpr ⟨hlo, h⟩
    · exact ih _ _ (by omega) hrest

/-- What starts above `c` and is merged with an interval starting above `c` starts above `c`. -/
theorem insertRuns_above (l : List (Nat × Nat)) (lo hi c : Nat) (hc : c < lo)
    (h : ∀ p ∈ l, c < p.1) : ∀ p ∈ insertRuns lo hi l, c < p.1 := by
  induction l generalizing lo hi with
  | nil => simpa [insertRuns] using hc
  | cons q rest ih =>
    obtain ⟨a, b⟩ := q
    obtain ⟨ha, hrest⟩ := forall_mem_cons.mp h
    unfold insertRuns
    split_ifs
    · exact forall_mem_cons.mpr ⟨ha, ih lo hi hc hrest⟩
    · exact forall_mem_cons.mpr ⟨hc, h⟩
    · exact ih _ _ (by simp only at ha; omega) hrest

theorem insertRuns_apart (l : List (Nat × Nat)) (lo hi : Nat) (h : l.Pairwise Apart)
    (ho : ∀ p ∈ l, p.1 ≤ p.2) : (insertRuns lo hi l).Pairwise Apart := by
  induction l generalizing lo hi with
  | nil => simp [insertRuns]
  | cons q rest ih =>
    obtain ⟨a, b⟩ := q
    obtain ⟨hq, hrest⟩ := pairwise_cons.mp h
    obtain ⟨_, horest⟩ := forall_mem_cons.mp ho
    unfold insertRuns
    split_ifs with h1 h2
    · refine pairwise_cons.mpr ⟨?_, ih lo hi hrest horest⟩
      exact insertRuns_above rest lo hi (b + 1) h1 hq
    · refine pairwise_cons.mpr ⟨forall_mem_cons.mpr ⟨h2, fun p hp => ?_⟩, h⟩
      have hbp : b + 1 < p.1 := hq p hp
      show hi + 1 < p.1
      omega
    · exact ih _ _ hrest horest

theorem insertRuns_mem (l : List (Nat × Nat)) (lo hi x : Nat) (hlo : lo ≤ hi)
    (ho : ∀ p ∈ l, p.1 ≤ p.2) :
    (insertRuns lo hi l).any (inRun x) = true ↔
      (lo ≤ x ∧ x ≤ hi) ∨ l.any (inRun x) = true := by
  induction l generalizing lo hi with
  | nil => simp [insertRuns]
  | cons q rest ih =>
    obtain ⟨a, b⟩ := q
    obtain ⟨hab, horest⟩ := forall_mem_cons.mp ho
    unfold insertRuns
    split_ifs with h1 h2
    · rw [any_cons, any_cons, Bool.or_eq_true, Bool.or_eq_true, ih lo hi hlo horest]
      exact or_left_comm
    · rw [any_cons, Bool.or_eq_true, inRun_iff]
    · rw [ih _ _ (by omega) horest, any_cons, Bool.or_eq_true, inRun_iff, ← or_assoc]
      refine or_congr_left ?_
      simp only at hab ⊢
      omega

/-- Add the numbers of `[lo, hi]`. -/
def insert (s : IntervalSet) (lo hi : Nat) : IntervalSet :=
  if h : lo ≤ hi then
    ⟨insertRuns lo hi s.runs, insertRuns_ordered s.runs lo hi h s.ordered,
      insertRuns_apart s.runs lo hi s.apart s.ordered⟩
  else s

@[simp] theorem contains_insert (s : IntervalSet) (lo hi x : Nat) :
    (s.insert lo hi).contains x = true ↔ (lo ≤ x ∧ x ≤ hi) ∨ s.contains x = true := by
  unfold insert
  split_ifs with h
  · exact insertRuns_mem s.runs lo hi x h s.ordered
  · constructor
    · exact Or.inr
    · rintro (⟨h1, h2⟩ | h')
      · omega
      · exact h'

/-! ## 3. Removal -/

/-- What is left of one run when `[lo, hi]` is taken out. -/
def cut (lo hi : Nat) (p : Nat × Nat) : List (Nat × Nat) :=
  if p.2 < lo ∨ hi < p.1 then [p]
  else (if p.1 < lo then [(p.1, lo - 1)] else []) ++ (if hi < p.2 then [(hi + 1, p.2)] else [])

theorem mem_cut {lo hi : Nat} {q : Nat × Nat} (h : q ∈ cut lo hi p) (hp : p.1 ≤ p.2) :
    p.1 ≤ q.1 ∧ q.1 ≤ q.2 ∧ q.2 ≤ p.2 := by
  unfold cut at h
  split_ifs at h <;> simp at h
  · subst h; exact ⟨Nat.le_refl _, hp, Nat.le_refl _⟩
  · rcases h with rfl | rfl <;> simp <;> omega
  · subst h; simp; omega
  · subst h; simp; omega

theorem cut_mem (lo hi x : Nat) (p : Nat × Nat) :
    (cut lo hi p).any (inRun x) = true ↔ inRun x p = true ∧ ¬(lo ≤ x ∧ x ≤ hi) := by
  unfold cut
  split_ifs <;> simp <;> omega

/-- Take out the numbers of `[lo, hi]`. -/
def remove (s : IntervalSet) (lo hi : Nat) : IntervalSet :=
  if h : lo ≤ hi then
    ⟨s.runs.flatMap (cut lo hi),
      fun q hq => by
        obtain ⟨p, hp, hq⟩ := mem_flatMap.mp hq
        exact (mem_cut hq (s.ordered p hp)).2.1,
      by
        refine pairwise_flatMap.mpr ⟨fun p hp => ?_, ?_⟩
        · have hpo := s.ordered p hp
          unfold cut
          split_ifs <;> simp [Apart]
          omega
        · refine s.apart.imp_of_mem fun {p q} hp hq hpq x hx y hy => ?_
          obtain ⟨_, _, hx2⟩ := mem_cut hx (s.ordered p hp)
          obtain ⟨hy1, _, _⟩ := mem_cut hy (s.ordered q hq)
          simp only [Apart] at hpq ⊢
          omega⟩
  else s

@[simp] theorem contains_remove (s : IntervalSet) (lo hi x : Nat) :
    (s.remove lo hi).contains x = true ↔ s.contains x = true ∧ ¬(lo ≤ x ∧ x ≤ hi) := by
  unfold remove
  split_ifs with h
  · simp only [contains, any_flatMap, any_eq_true, cut_mem lo hi x]
    constructor
    · rintro ⟨p, hp, hx, hn⟩
      exact ⟨⟨p, hp, hx⟩, hn⟩
    · rintro ⟨⟨p, hp, hx⟩, hn⟩
      exact ⟨p, hp, hx, hn⟩
  · exact ⟨fun hx => ⟨hx, by omega⟩, fun hx => hx.1⟩

def popFront (s : IntervalSet) : Option (Nat × Nat) × IntervalSet :=
  match s with
  | ⟨[], _, _⟩ => (none, empty)
  | ⟨p :: rest, ho, ha⟩ =>
    (some p, ⟨rest, fun q hq => ho q (mem_cons_of_mem _ hq), (pairwise_cons.mp ha).2⟩)

theorem popFront_some (h : s.popFront.1 = some p) (x : Nat) :
    (s.popFront.2.contains x = true ↔ s.contains x = true ∧ ¬(p.1 ≤ x ∧ x ≤ p.2)) ∧
      (p.1 ≤ x ∧ x ≤ p.2 → s.contains x = true) := by
  obtain ⟨runs, ho, ha⟩ := s
  cases runs with
  | nil => cases h
  | cons q rest =>
    cases h
    have hfirst := (pairwise_cons.mp ha).1
    refine ⟨?_, fun hx => contains_iff.mpr ⟨p, mem_cons_self, hx⟩⟩
    rw [contains_iff, contains_iff]
    constructor
    · rintro ⟨q, hq, hx⟩
      refine ⟨⟨q, mem_cons_of_mem _ hq, hx⟩, fun hp => ?_⟩
      -- the runs behind the first begin above its end
      have hapart := hfirst q hq
      unfold Apart at hapart
      omega
    · rintro ⟨⟨q, hq, hx⟩, hp⟩
      rcases mem_cons.mp hq with rfl | hq
      · exact absurd hx hp
      · exact ⟨q, hq, hx⟩

end IntervalSet

end Intervals

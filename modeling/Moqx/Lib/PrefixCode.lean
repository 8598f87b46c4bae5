/-
  Subject: PREFIX CODES: words written symbol by symbol, where no symbol's code starts another one.

  * `flatMap_isPrefix_iff`, `flatMap_inj` -- a word's code starts another's exactly when the word does;
  * `isSuffix_iff`, `isInfix_iff` -- where a word's code can end, or stand in, another's;
  * `lengthPrefixed` -- a header of fixed size that tells the length, followed by the text, is such a code.
-/
import Mathlib.Data.List.Infix

/-- The symbols `P` allows have codes that are not empty, and what follows a code cannot change which
    symbol it is. -/
structure PrefixCode {σ α : Type*} (enc : σ → List α) (P : σ → Prop) : Prop where
  ne_nil : ∀ {a}, P a → enc a ≠ []
  cancel : ∀ {a b x y}, P a → P b → enc a ++ x = enc b ++ y → a = b

namespace PrefixCode

open List

variable {σ α : Type*} {enc : σ → List α} {P : σ → Prop} {l m : List σ}

/-! ## 1. Words from the left -/

/-- **The code of a word starts the code of another exactly when the word starts the other word.** -/
theorem flatMap_isPrefix_iff (hc : PrefixCode enc P) (hl : ∀ a ∈ l, P a) (hm : ∀ a ∈ m, P a) :
    l.flatMap enc <+: m.flatMap enc ↔ l <+: m := by
  refine ⟨fun h => ?_, fun ⟨r, hr⟩ => ⟨r.flatMap enc, by rw [← hr, flatMap_append]⟩⟩
  induction l generalizing m with
  | nil => exact nil_prefix
  | cons a l ih =>
    obtain ⟨x, hx⟩ := h
    rw [flatMap_cons, append_assoc] at hx
    have ha : P a := hl a mem_cons_self
    cases m with
    | nil => exact absurd (append_eq_nil_iff.mp hx).1 (hc.ne_nil ha)
    | cons b m =>
      rw [flatMap_cons] at hx
      obtain rfl := hc.cancel ha (hm b mem_cons_self) hx
      have hrest : l.flatMap enc <+: m.flatMap enc := ⟨x, append_cancel_left hx⟩
      exact cons_prefix_cons.mpr ⟨rfl, ih (fun c h => hl c (mem_cons_of_mem _ h))
        (fun c h => hm c (mem_cons_of_mem _ h)) hrest⟩

theorem flatMap_inj (hc : PrefixCode enc P) (hl : ∀ a ∈ l, P a) (hm : ∀ a ∈ m, P a) :
    l.flatMap enc = m.flatMap enc ↔ l = m := by
  refine ⟨fun h => ?_, fun h => h ▸ rfl⟩
  have hlm := (hc.flatMap_isPrefix_iff hl hm).mp (h ▸ prefix_rfl)
  have hml := (hc.flatMap_isPrefix_iff hm hl).mp (h ▸ prefix_rfl)
  exact hlm.eq_of_length_le hml.length_le

/-! ## 2. Cuts -/

/-- The code of `m` is cut into `u` and `v` strictly inside the code of one of its symbols. -/
def Inside (enc : σ → List α) (m : List σ) (u v : List α) : Prop :=
  ∃ before a after x y, m = before ++ a :: after ∧ enc a = x ++ y ∧ x ≠ [] ∧ y ≠ [] ∧
    u = before.flatMap enc ++ x ∧ v = y ++ after.flatMap enc

theorem Inside.code {u v : List α} (h : Inside enc m u v) : m.flatMap enc = u ++ v := by
  obtain ⟨before, a, after, x, y, hm, ha, -, -, hu, hv⟩ := h
  rw [hm, hu, hv, flatMap_append, flatMap_cons, ha]
  simp only [append_assoc]

theorem Inside.cons {a : σ} {u v : List α} (h : Inside enc m u v) : Inside enc (a :: m) (enc a ++ u) v := by
  obtain ⟨before, b, after, x, y, hm, hb, hx, hy, hu, hv⟩ := h
  exact ⟨a :: before, b, after, x, y, by rw [hm]; rfl, hb, hx, hy,
    by rw [hu, flatMap_cons, append_assoc], hv⟩

theorem cut {u v : List α} (h : m.flatMap enc = u ++ v) :
    (∃ before after, m = before ++ after ∧ u = before.flatMap enc ∧ v = after.flatMap enc) ∨
      Inside enc m u v := by
  induction m generalizing u with
  | nil =>
    obtain ⟨rfl, rfl⟩ := append_eq_nil_iff.mp h.symm
    exact .inl ⟨[], [], rfl, rfl, rfl⟩
  | cons a m ih =>
    rw [flatMap_cons] at h
    rcases append_eq_append_iff.mp h with ⟨w, hu, hw⟩ | ⟨w, ha, hv⟩
    · -- the cut is not before the end of the first symbol's code
      rcases ih hw with ⟨before, after, hm, hb, hv⟩ | hin
      · exact .inl ⟨a :: before, after, by rw [hm]; rfl, by rw [hu, hb, flatMap_cons], hv⟩
      · exact .inr (hu ▸ hin.cons)
    · rcases u.eq_nil_or_concat with rfl | ⟨_, _, hu⟩
      · exact .inl ⟨[], a :: m, rfl, rfl, by rw [hv, flatMap_cons, ha]; rfl⟩
      · rcases w.eq_nil_or_concat with rfl | ⟨_, _, hw⟩
        · exact .inl ⟨[a], m, rfl, by rw [flatMap_singleton, ha, append_nil], hv⟩
        · exact .inr ⟨[], a, m, u, w, rfl, ha, by rw [hu]; simp, by rw [hw]; simp, rfl, hv⟩

theorem not_inside {before after : List σ} {v : List α} (hm : m = before ++ after) :
    ¬ Inside enc m (before.flatMap enc) v := by
  rintro ⟨before', a, after', x, y, hm', ha, hx, hy, hu, -⟩
  have hlen := congrArg length hu
  rw [length_append] at hlen
  have hxl : 0 < x.length := length_pos_iff.mpr hx
  have hyl : 0 < y.length := length_pos_iff.mpr hy
  rcases append_eq_append_iff.mp (hm.symm.trans hm') with ⟨w, hw, -⟩ | ⟨w, hw, haw⟩
  · rw [hw, flatMap_append, length_append] at hlen
    omega
  · cases w with
    | nil =>
      rw [hw, append_nil] at hlen
      omega
    | cons b w =>
      obtain ⟨rfl, -⟩ := cons.inj haw
      rw [hw, flatMap_append, flatMap_cons, ha] at hlen
      simp only [length_append] at hlen
      omega

/-! ## 3. Words at the end of, and inside, other words -/

/-- **The code of a word ends the code of another exactly when the word ends the other word, or the cut
    is strictly inside a symbol.** -/
theorem isSuffix_iff (hc : PrefixCode enc P) (hl : ∀ a ∈ l, P a) (hm : ∀ a ∈ m, P a) :
    l.flatMap enc <:+ m.flatMap enc ↔ l <:+ m ∨ ∃ u, Inside enc m u (l.flatMap enc) := by
  constructor
  · rintro ⟨u, hu⟩
    rcases cut hu.symm with ⟨before, after, hm', -, hv⟩ | hin
    · have hafter : ∀ a ∈ after, P a := fun a h => hm a (hm' ▸ mem_append_right _ h)
      exact .inl ⟨before, by rw [hm', (hc.flatMap_inj hl hafter).mp hv]⟩
    · exact .inr ⟨u, hin⟩
  · rintro (⟨r, hr⟩ | ⟨u, hin⟩)
    · exact ⟨r.flatMap enc, by rw [← hr, flatMap_append]⟩
    · exact ⟨u, hin.code.symm⟩

/-- **The code of a word stands in the code of another exactly when the word stands in the other word, or
    an occurrence begins strictly inside a symbol.** -/
theorem isInfix_iff (hc : PrefixCode enc P) (hl : ∀ a ∈ l, P a) (hm : ∀ a ∈ m, P a) :
    l.flatMap enc <:+: m.flatMap enc ↔ l <:+: m ∨ ∃ u v, Inside enc m u (l.flatMap enc ++ v) := by
  constructor
  · rintro ⟨u, v, huv⟩
    rw [append_assoc] at huv
    rcases cut huv.symm with ⟨before, after, hm', -, hv⟩ | hin
    · have hafter : ∀ a ∈ after, P a := fun a h => hm a (hm' ▸ mem_append_right _ h)
      obtain ⟨r, hr⟩ := (hc.flatMap_isPrefix_iff hl hafter).mp ⟨v, hv⟩
      exact .inl ⟨before, r, by rw [hm', ← hr, append_assoc]⟩
    · exact .inr ⟨u, v, hin⟩
  · rintro (⟨r, s, hrs⟩ | ⟨u, v, hin⟩)
    · exact ⟨r.flatMap enc, s.flatMap enc, by rw [← hrs, flatMap_append, flatMap_append]⟩
    · exact ⟨u, v, by rw [hin.code, append_assoc]⟩

theorem not_isSuffix_of_inside {u : List α} (h : Inside enc m u (l.flatMap enc)) : ¬ l <:+ m := by
  rintro ⟨r, hr⟩
  have hu : r.flatMap enc ++ l.flatMap enc = u ++ l.flatMap enc := by
    rw [← h.code, ← hr, flatMap_append]
  rw [← append_cancel_right hu] at h
  exact not_inside hr.symm h

/-! ## 4. Length headers -/

/-- **A header of fixed size that tells the length, followed by the text, is a prefix code** on the texts
    whose lengths the headers tell apart. -/
theorem lengthPrefixed {header : Nat → List α} {size bound : Nat} (hsize : ∀ n, (header n).length = size)
    (hpos : size ≠ 0) (hinj : ∀ {j k}, j < bound → k < bound → header j = header k → j = k) :
    PrefixCode (fun s : List α => header s.length ++ s) (fun s => s.length < bound) where
  ne_nil := by
    intro s _ h
    have := congrArg length h
    rw [length_append, hsize] at this
    simp at this
    omega
  cancel := by
    intro s t x y hs ht h
    simp only [append_assoc] at h
    obtain ⟨hh, hrest⟩ := append_inj h ((hsize _).trans (hsize _).symm)
    exact (append_inj hrest (hinj hs ht hh)).1

end PrefixCode

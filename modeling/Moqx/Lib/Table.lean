/-
  Subject: TABLES from keys to values, visited entry by entry.

  A visit replaces every value by a new one and emits a list on the way; the order of the entries is
  the table's own.

  * `lookup_visit`, `keys_visit` -- what the table holds afterwards;
  * `filterMap_visit` -- what a reader that only listens to one key's entry gets to hear.
-/
import Mathlib.Data.List.AList
import Mathlib.Tactic.Ring

namespace Table

variable {κ : Type*} {β : Type*} {ε : Type*} {δ : Type*}

/-! ## 1. One pass over a table -/

theorem keys_map (f : κ → β → β) (l : List (Sigma fun _ : κ => β)) :
    (l.map fun e => (⟨e.1, f e.1 e.2⟩ : Sigma fun _ : κ => β)).keys = l.keys := by
  unfold List.keys
  rw [List.map_map]
  rfl

/-- Replace every value, in the order of the entries, and collect what each step emits. -/
def visit (f : κ → β → β × List ε) (t : AList fun _ : κ => β) : (AList fun _ : κ => β) × List ε :=
  (⟨t.entries.map fun e => ⟨e.1, (f e.1 e.2).1⟩, by
      rw [List.NodupKeys, keys_map fun k v => (f k v).1]
      exact t.nodupKeys⟩,
    t.entries.flatMap fun e => (f e.1 e.2).2)

@[simp]
theorem keys_visit {f : κ → β → β × List ε} {t : AList fun _ : κ => β} :
    (visit f t).1.keys = t.keys :=
  keys_map (fun k v => (f k v).1) t.entries

theorem flatMap_filterMap_none {f : κ → β → List ε} {g : ε → Option δ} {k : κ}
    {l : List (Sigma fun _ : κ => β)} (hk : k ∉ l.keys)
    (hg : ∀ j v, j ≠ k → (f j v).filterMap g = []) :
    (l.flatMap fun e => f e.1 e.2).filterMap g = [] := by
  induction l with
  | nil => rfl
  | cons e l ih =>
    rw [List.keys_cons, List.mem_cons, not_or] at hk
    rw [List.flatMap_cons, List.filterMap_append, hg e.1 e.2 (Ne.symm hk.1), ih hk.2]
    rfl

/-! ## 2. What one key sees of a pass -/

variable [DecidableEq κ]

theorem dlookup_map (f : κ → β → β) (k : κ) (l : List (Sigma fun _ : κ => β)) :
    List.dlookup k (l.map fun e => (⟨e.1, f e.1 e.2⟩ : Sigma fun _ : κ => β)) =
      (List.dlookup k l).map (f k) := by
  induction l with
  | nil => rfl
  | cons e l ih =>
    obtain ⟨j, v⟩ := e
    by_cases hj : j = k
    · subst hj
      rw [List.map_cons, List.dlookup_cons_eq, List.dlookup_cons_eq]
      rfl
    · rw [List.map_cons, List.dlookup_cons_ne _ _ (Ne.symm hj), List.dlookup_cons_ne _ _ (Ne.symm hj), ih]

theorem flatMap_filterMap {f : κ → β → List ε} {g : ε → Option δ} {k : κ}
    {l : List (Sigma fun _ : κ => β)} (hl : l.NodupKeys)
    (hg : ∀ j v, j ≠ k → (f j v).filterMap g = []) :
    (l.flatMap fun e => f e.1 e.2).filterMap g =
      ((List.dlookup k l).map fun v => (f k v).filterMap g).getD [] := by
  induction l with
  | nil => rfl
  | cons e l ih =>
    obtain ⟨j, v⟩ := e
    rw [List.nodupKeys_cons] at hl
    rw [List.flatMap_cons, List.filterMap_append]
    by_cases hj : j = k
    · subst hj
      rw [List.dlookup_cons_eq, flatMap_filterMap_none hl.1 hg, List.append_nil]
      rfl
    · rw [hg j v hj, List.dlookup_cons_ne _ _ (Ne.symm hj), ih hl.2]
      rfl

variable {f : κ → β → β × List ε} {t : AList fun _ : κ => β} {k : κ}

@[simp]
theorem lookup_visit : (visit f t).1.lookup k = (t.lookup k).map fun v => (f k v).1 :=
  dlookup_map (fun k v => (f k v).1) k t.entries

theorem filterMap_visit {g : ε → Option δ}
    (hg : ∀ j v, j ≠ k → (f j v).2.filterMap g = []) :
    (visit f t).2.filterMap g = ((t.lookup k).map fun v => (f k v).2.filterMap g).getD [] :=
  flatMap_filterMap t.nodupKeys hg

def mapValues (f : κ → β → β) (t : AList fun _ : κ => β) : AList fun _ : κ => β :=
  ⟨t.entries.map fun e => ⟨e.1, f e.1 e.2⟩, by
    rw [List.NodupKeys, keys_map f]
    exact t.nodupKeys⟩

@[simp]
theorem lookup_mapValues {f : κ → β → β} : (mapValues f t).lookup k = (t.lookup k).map (f k) :=
  dlookup_map f k t.entries

def keepIf (p : κ → β → Bool) (t : AList fun _ : κ => β) : AList fun _ : κ => β :=
  ⟨t.entries.filter fun e => p e.1 e.2, (List.filter_sublist.map Sigma.fst).nodup t.nodupKeys⟩

theorem lookup_keepIf {p : κ → β → Bool} {v : β} :
    (keepIf p t).lookup k = some v ↔ t.lookup k = some v ∧ p k v = true := by
  have hkeep := @AList.mem_lookup_iff κ (fun _ => β) _ k v (keepIf p t)
  have ht := @AList.mem_lookup_iff κ (fun _ => β) _ k v t
  rw [Option.mem_def] at hkeep ht
  rw [hkeep, ht]
  exact List.mem_filter

/-! ## 3. Sums over a table -/

def total (n : κ → β → Nat) (t : AList fun _ : κ => β) : Nat := (t.entries.map fun e => n e.1 e.2).sum

variable {n m : κ → β → Nat} {v : β}

theorem sum_kerase {l : List (Sigma fun _ : κ => β)} (hl : l.NodupKeys) (h : List.dlookup k l = some v) :
    (l.map fun e => n e.1 e.2).sum = n k v + ((List.kerase k l).map fun e => n e.1 e.2).sum := by
  induction l with
  | nil => cases h
  | cons e l ih =>
    obtain ⟨j, u⟩ := e
    by_cases hj : k = j
    · subst hj
      rw [List.dlookup_cons_eq] at h
      cases h
      have hk : List.kerase k (⟨k, v⟩ :: l : List (Sigma fun _ : κ => β)) = l := List.kerase_cons_eq rfl
      rw [hk, List.map_cons, List.sum_cons]
    · rw [List.dlookup_cons_ne _ _ hj] at h
      rw [List.kerase_cons_ne hj, List.map_cons, List.map_cons, List.sum_cons, List.sum_cons,
        ih (List.nodupKeys_cons.mp hl).2 h]
      omega

theorem total_erase (h : t.lookup k = some v) : total n t = n k v + total n (t.erase k) :=
  sum_kerase t.nodupKeys h

theorem total_insert : total n (t.insert k v) = n k v + total n (t.erase k) := rfl

theorem lookup_erase_iff {j : κ} : (t.erase k).lookup j = some v ↔ j ≠ k ∧ t.lookup j = some v := by
  by_cases hj : j = k
  · subst hj
    simp [AList.lookup_erase]
  · simp [AList.lookup_erase_ne hj, hj]

theorem mem_of_lookup (h : t.lookup k = some v) : k ∈ t := by
  rw [← AList.lookup_isSome, h]
  rfl

theorem lookup_insert_cases {j : κ} {u : β} (h : (t.insert k v).lookup j = some u) :
    (j = k ∧ u = v) ∨ (j ≠ k ∧ t.lookup j = some u) := by
  by_cases hj : j = k
  · rw [hj, AList.lookup_insert] at h
    exact .inl ⟨hj, (Option.some.inj h).symm⟩
  · rw [AList.lookup_insert_ne hj] at h
    exact .inr ⟨hj, h⟩

theorem lookup_erase_none {j : κ} (h : t.lookup j = none) : (t.erase k).lookup j = none := by
  by_cases hj : j = k
  · subst hj
    exact AList.lookup_erase _ _
  · rw [AList.lookup_erase_ne hj]
    exact h

theorem erase_of_lookup_none (h : t.lookup k = none) : t.erase k = t := by
  refine AList.ext ?_
  exact List.kerase_of_notMem_keys fun hk => AList.lookup_eq_none.mp h hk

theorem total_insert_new (h : t.lookup k = none) : total n (t.insert k v) = n k v + total n t := by
  rw [total_insert, erase_of_lookup_none h]

theorem le_total (h : t.lookup k = some v) : n k v ≤ total n t := by
  rw [total_erase h]
  exact Nat.le_add_right _ _

theorem total_congr (h : ∀ k v, t.lookup k = some v → n k v = m k v) : total n t = total m t := by
  unfold total
  congr 1
  refine List.map_congr_left fun e he => h e.1 e.2 ?_
  exact AList.mem_lookup_iff.mpr he

theorem total_eq_zero (h : ∀ k v, t.lookup k = some v → n k v = 0) : total n t = 0 := by
  rw [total_congr h]
  unfold total
  simp

theorem total_differ (h : t.lookup k = some v) (hne : ∀ j u, j ≠ k → t.lookup j = some u → n j u = m j u) :
    total m t + n k v = total n t + m k v := by
  rw [@total_erase _ _ _ t k n v h, @total_erase _ _ _ t k m v h]
  have hrest : total n (t.erase k) = total m (t.erase k) := by
    refine total_congr fun j u hj => ?_
    by_cases hjk : j = k
    · subst hjk
      rw [AList.lookup_erase] at hj
      cases hj
    · rw [AList.lookup_erase_ne hjk] at hj
      exact hne j u hjk hj
  omega

/-! ## 4. Counting entries -/

def count (p : β → Prop) [DecidablePred p] (t : AList fun _ : κ => β) : Nat :=
  total (fun _ v => if p v then 1 else 0) t

variable {p : β → Prop} [DecidablePred p]

theorem count_erase (h : t.lookup k = some v) : count p t = (if p v then 1 else 0) + count p (t.erase k) :=
  total_erase h

theorem count_insert : count p (t.insert k v) = (if p v then 1 else 0) + count p (t.erase k) := rfl

theorem count_insert_new (h : t.lookup k = none) :
    count p (t.insert k v) = (if p v then 1 else 0) + count p t := total_insert_new h

theorem count_eq_zero (h : ∀ k v, t.lookup k = some v → ¬p v) : count p t = 0 :=
  total_eq_zero fun k v hk => if_neg (h k v hk)

theorem count_pos (h : t.lookup k = some v) (hp : p v) : 0 < count p t := by
  rw [count_erase h, if_pos hp]
  omega

end Table

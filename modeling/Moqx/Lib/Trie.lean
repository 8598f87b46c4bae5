/-
  Subject: SELF-PRUNING TRIES: values at paths, with nodes made on the way down and dropped on the way up.

  * `Trie`, `Forest` -- a node with its value, and its children by label;
  * `get` -- the value at a path, `init` where there is no node.
-/
import Mathlib.Data.List.Nodup

/-- The children of a node: for each label the value and the children of the child. -/
inductive Forest (κ β : Type*) where
  | none
  | node (label : κ) (val : β) (below others : Forest κ β)

structure Trie (κ β : Type*) where
  val : β
  children : Forest κ β

open List

variable {κ β γ : Type*}

/-! ## 1. Children by label -/

namespace Forest

def labels : Forest κ β → List κ
  | none => []
  | node label _ _ others => label :: others.labels

/-- Labels are unique, and every node has a value or a child. -/
def Kept (empty : β → Bool) : Forest κ β → Prop
  | none => True
  | node label val below others =>
    label ∉ others.labels ∧ (empty val = true → below ≠ none) ∧ below.Kept empty ∧ others.Kept empty

variable [DecidableEq κ]

def find (l : κ) : Forest κ β → Option (Trie κ β)
  | none => .none
  | node label val below others => if label = l then some ⟨val, below⟩ else others.find l

/-- `children[l] = t`. -/
def insert (l : κ) (t : Trie κ β) : Forest κ β → Forest κ β
  | none => node l t.val t.children none
  | node label val below others =>
    if label = l then node label t.val t.children others else node label val below (others.insert l t)

def erase (l : κ) : Forest κ β → Forest κ β
  | none => none
  | node label val below others => if label = l then others else node label val below (others.erase l)

variable {l k : κ} {t : Trie κ β} {f : Forest κ β}

theorem find_insert_self : (f.insert l t).find l = some t := by
  induction f with
  | none => simp only [insert, find, if_true]
  | node label val below others _ ih =>
    rw [insert]
    split
    · rename_i h
      rw [find, if_pos h]
    · rename_i h
      rw [find, if_neg h, ih]

theorem find_insert_ne (h : k ≠ l) : (f.insert l t).find k = f.find k := by
  induction f with
  | none => simp only [insert, find, if_neg (Ne.symm h)]
  | node label val below others _ ih =>
    rw [insert]
    split
    · rename_i hl
      have hk : label ≠ k := fun h' => h (h'.symm.trans hl)
      rw [find, find, if_neg hk, if_neg hk]
    · rw [find, find, ih]

theorem find_eq_none : f.find l = .none ↔ l ∉ f.labels := by
  induction f with
  | none => exact ⟨fun _ => not_mem_nil, fun _ => rfl⟩
  | node label val below others _ ih =>
    rw [find, labels, mem_cons, not_or]
    split
    · rename_i h
      exact ⟨nofun, fun h' => absurd h.symm h'.1⟩
    · rename_i h
      rw [ih]
      exact ⟨fun h' => ⟨Ne.symm h, h'⟩, fun h' => h'.2⟩

theorem find_erase_ne (h : k ≠ l) : (f.erase l).find k = f.find k := by
  induction f with
  | none => rfl
  | node label val below others _ ih =>
    rw [erase]
    split
    · rename_i hl
      have hk : label ≠ k := fun h' => h (h'.symm.trans hl)
      rw [find, if_neg hk]
    · rw [find, find, ih]

theorem labels_insert : k ∈ (f.insert l t).labels ↔ k = l ∨ k ∈ f.labels := by
  induction f with
  | none => simp only [insert, labels, mem_cons]
  | node label val below others _ ih =>
    rw [insert]
    split
    · rename_i h
      rw [labels, labels, mem_cons, h]
      exact ⟨.inr, fun h' => h'.elim .inl id⟩
    · rw [labels, labels, mem_cons, mem_cons, ih]
      exact or_left_comm

theorem labels_erase (h : k ∈ (f.erase l).labels) : k ∈ f.labels := by
  induction f with
  | none => exact h
  | node label val below others _ ih =>
    rw [erase] at h
    split at h
    · exact mem_cons_of_mem _ h
    · rw [labels, mem_cons] at h ⊢
      exact h.imp id ih

variable {empty : β → Bool}

theorem Kept.find (h : f.Kept empty) (hf : f.find l = some t) :
    (empty t.val = true → t.children ≠ none) ∧ t.children.Kept empty := by
  induction f with
  | none => cases hf
  | node label val below others _ ih =>
    obtain ⟨-, hval, hbelow, hothers⟩ := h
    rw [Forest.find] at hf
    split at hf
    · cases hf
      exact ⟨hval, hbelow⟩
    · exact ih hothers hf

theorem Kept.insert (h : f.Kept empty) (ht : empty t.val = true → t.children ≠ none)
    (hc : t.children.Kept empty) : (f.insert l t).Kept empty := by
  induction f with
  | none => exact ⟨not_mem_nil, ht, hc, trivial⟩
  | node label val below others _ ih =>
    obtain ⟨hlabel, hval, hbelow, hothers⟩ := h
    rw [Forest.insert]
    split
    · exact ⟨hlabel, ht, hc, hothers⟩
    · rename_i hl
      refine ⟨fun hmem => ?_, hval, hbelow, ih hothers⟩
      exact (labels_insert.mp hmem).elim hl hlabel

theorem Kept.erase (h : f.Kept empty) : (f.erase l).Kept empty := by
  induction f with
  | none => exact h
  | node label val below others _ ih =>
    obtain ⟨hlabel, hval, hbelow, hothers⟩ := h
    rw [Forest.erase]
    split
    · exact hothers
    · exact ⟨fun hmem => hlabel (labels_erase hmem), hval, hbelow, ih hothers⟩

theorem Kept.find_erase (h : f.Kept empty) : (f.erase l).find l = .none := by
  induction f with
  | none => rfl
  | node label val below others _ ih =>
    obtain ⟨hlabel, -, -, hothers⟩ := h
    rw [Forest.erase]
    split
    · rename_i hl
      exact find_eq_none.mpr (hl ▸ hlabel)
    · rename_i hl
      rw [Forest.find, if_neg hl, ih hothers]

end Forest

/-! ## 2. Values by path -/

namespace Trie

/-- A node without a value and without children is dropped. -/
def isEmpty (empty : β → Bool) (t : Trie κ β) : Bool :=
  empty t.val && match t.children with
    | .none => true
    | .node _ _ _ _ => false

def Kept (empty : β → Bool) (t : Trie κ β) : Prop := t.children.Kept empty

theorem not_isEmpty {empty : β → Bool} {t : Trie κ β} :
    t.isEmpty empty = false ↔ (empty t.val = true → t.children ≠ .none) := by
  rw [isEmpty]
  cases empty t.val with
  | false => exact ⟨fun _ => nofun, fun _ => rfl⟩
  | true =>
    cases t.children with
    | none => exact ⟨nofun, fun h => absurd rfl (h rfl)⟩
    | node label val below others => exact ⟨fun _ _ => nofun, fun _ => rfl⟩

theorem eq_of_isEmpty {init : β} {empty : β → Bool} {t : Trie κ β}
    (hinit : ∀ v, empty v = true → v = init) (h : t.isEmpty empty = true) :
    t = ⟨init, .none⟩ := by
  rcases t with ⟨val, children⟩
  rw [isEmpty, Bool.and_eq_true] at h
  cases children with
  | none => rw [hinit val h.1]
  | node label val below others => exact absurd h.2 nofun

variable [DecidableEq κ] (init : β) (empty : β → Bool)

def sub : List κ → Trie κ β → Option (Trie κ β)
  | [], t => some t
  | l :: path, t => (t.children.find l).bind (sub path)

def get (path : List κ) (t : Trie κ β) : β := ((t.sub path).map (·.val)).getD init

/-- Change the value at a path, making the nodes on the way. -/
def create (change : β → β) : List κ → Trie κ β → Trie κ β
  | [], t => { t with val := change t.val }
  | l :: path, t =>
    { t with children :=
        t.children.insert l (create change path ((t.children.find l).getD ⟨init, .none⟩)) }

/-- Change the node at a path, if there is one; on the way back, drop the nodes that are empty now. -/
def apply (change : Trie κ β → Trie κ β × List γ) : List κ → Trie κ β → Trie κ β × List γ
  | [], t => change t
  | l :: path, t =>
    match t.children.find l with
    | none => (t, [])
    | some child =>
      let result := apply change path child
      ({ t with children :=
          if result.1.isEmpty empty then t.children.erase l else t.children.insert l result.1 }, result.2)

variable {init empty} {t : Trie κ β} {path q : List κ} {l : κ}

theorem get_cons : t.get init (l :: path) = ((t.children.find l).getD ⟨init, .none⟩).get init path := by
  rw [get, sub]
  cases t.children.find l with
  | some child => rfl
  | none => cases path <;> rfl

theorem get_empty : (⟨init, .none⟩ : Trie κ β).get init path = init := by
  cases path <;> rfl

theorem sub_append (p : List κ) : t.sub (p ++ q) = (t.sub p).bind (sub q) := by
  induction p generalizing t with
  | nil => rfl
  | cons l p ih =>
    rw [cons_append, sub, sub]
    cases t.children.find l with
    | none => rfl
    | some child => exact ih

theorem get_sub {p : List κ} : ((t.sub p).getD ⟨init, .none⟩).get init q = t.get init (p ++ q) := by
  rw [get, get, sub_append]
  cases t.sub p with
  | some child => rfl
  | none => cases q <;> rfl

theorem get_create {change : β → β} :
    (t.create init change path).get init q = if q = path then change (t.get init path) else t.get init q := by
  induction path generalizing t q with
  | nil =>
    cases q with
    | nil => rfl
    | cons k q =>
      rw [if_neg (cons_ne_nil k q), get_cons, get_cons]
      rfl
  | cons l path ih =>
    cases q with
    | nil =>
      rw [if_neg (Ne.symm (cons_ne_nil l path))]
      rfl
    | cons k q =>
      rw [get_cons, create]
      by_cases hk : k = l
      · subst hk
        rw [Forest.find_insert_self, Option.getD_some, ih, ← get_cons, ← get_cons]
        simp only [cons.injEq, true_and]
      · rw [Forest.find_insert_ne hk, ← get_cons, if_neg (fun h => hk (cons.inj h).1)]

theorem Kept.create {change : β → β} (h : t.Kept empty) (hchange : ∀ v, empty (change v) = false) :
    (t.create init change path).Kept empty := by
  have hne : ∀ (path : List κ) (t : Trie κ β), (t.create init change path).isEmpty empty = false := by
    intro path t
    cases path with
    | nil => rw [Trie.create, isEmpty, hchange, Bool.false_and]
    | cons l path =>
      rw [not_isEmpty]
      intro _ hnone
      have := @Forest.find_insert_self _ _ _ l
        (Trie.create init change path ((t.children.find l).getD ⟨init, .none⟩)) t.children
      rw [show t.children.insert l _ = Forest.none from hnone] at this
      cases this
  induction path generalizing t with
  | nil => exact h
  | cons l path ih =>
    refine Forest.Kept.insert h (not_isEmpty.mp (hne _ _)) (ih ?_)
    cases hf : t.children.find l with
    | none => exact trivial
    | some child => exact (Forest.Kept.find h hf).2

section apply

variable {change : Trie κ β → Trie κ β × List γ}

theorem apply_out (hnil : change ⟨init, .none⟩ = (⟨init, .none⟩, [])) :
    (t.apply empty change path).2 = (change ((t.sub path).getD ⟨init, .none⟩)).2 := by
  induction path generalizing t with
  | nil => rfl
  | cons l path ih =>
    rw [apply, sub]
    cases t.children.find l with
    | none => rw [Option.bind_none, Option.getD_none, hnil]
    | some child => exact ih

theorem get_apply_below (hinit : ∀ v, empty v = true → v = init)
    (hnil : change ⟨init, .none⟩ = (⟨init, .none⟩, [])) (h : t.Kept empty) :
    (t.apply empty change path).1.get init (path ++ q) =
      (change ((t.sub path).getD ⟨init, .none⟩)).1.get init q := by
  induction path generalizing t with
  | nil => rfl
  | cons l path ih =>
    rw [apply, sub, cons_append, get_cons]
    cases hf : t.children.find l with
    | none =>
      simp only [hf]
      rw [Option.getD_none, get_empty, Option.bind_none, Option.getD_none, hnil, get_empty]
    | some child =>
      rw [Option.bind_some, ← ih (Forest.Kept.find h hf).2]
      simp only
      split
      · rename_i hempty
        rw [Forest.Kept.find_erase h, Option.getD_none, get_empty, eq_of_isEmpty hinit hempty, get_empty]
      · rw [Forest.find_insert_self, Option.getD_some]

theorem get_apply_other (hinit : ∀ v, empty v = true → v = init) (h : t.Kept empty) (hq : ¬ path <+: q) :
    (t.apply empty change path).1.get init q = t.get init q := by
  induction path generalizing t q with
  | nil => exact absurd nil_prefix hq
  | cons l path ih =>
    rw [apply]
    cases hf : t.children.find l with
    | none => rfl
    | some child =>
      cases q with
      | nil => rfl
      | cons k q =>
        rw [get_cons, get_cons]
        by_cases hk : k = l
        · subst hk
          have hq' : ¬ path <+: q := fun h' => hq (cons_prefix_cons.mpr ⟨rfl, h'⟩)
          have hchild := ih (Forest.Kept.find h hf).2 hq'
          rw [hf, Option.getD_some, ← hchild]
          simp only
          split
          · rename_i hempty
            rw [Forest.Kept.find_erase h, Option.getD_none, get_empty, eq_of_isEmpty hinit hempty, get_empty]
          · rw [Forest.find_insert_self, Option.getD_some]
        · simp only
          split
          · rw [Forest.find_erase_ne hk]
          · rw [Forest.find_insert_ne hk]

theorem Kept.sub {child : Trie κ β} (h : t.Kept empty) (hs : t.sub path = some child) : child.Kept empty := by
  induction path generalizing t with
  | nil =>
    cases hs
    exact h
  | cons l path ih =>
    rw [Trie.sub] at hs
    cases hf : t.children.find l with
    | none =>
      rw [hf] at hs
      cases hs
    | some next =>
      rw [hf] at hs
      exact ih (Forest.Kept.find h hf).2 hs

theorem Kept.apply (h : t.Kept empty) (hchange : ∀ u : Trie κ β, u.Kept empty → (change u).1.Kept empty) :
    (t.apply empty change path).1.Kept empty := by
  induction path generalizing t with
  | nil => exact hchange t h
  | cons l path ih =>
    rw [Trie.apply]
    cases hf : t.children.find l with
    | none => exact h
    | some child =>
      have hchild := ih (Forest.Kept.find h hf).2
      simp only
      split
      · exact Forest.Kept.erase h
      · rename_i hne
        rw [Bool.not_eq_true] at hne
        exact Forest.Kept.insert h (not_isEmpty.mp hne) hchild

end apply

end Trie

/-! ## 3. All values -/

namespace Forest

def toList : Forest κ β → List (List κ × β)
  | none => []
  | node label val below others =>
    ([label], val) :: below.toList.map (fun x => (label :: x.1, x.2)) ++ others.toList

theorem head_mem_labels {f : Forest κ β} {x : List κ × β} (h : x ∈ f.toList) :
    ∃ l path, x.1 = l :: path ∧ l ∈ f.labels := by
  induction f with
  | none => cases h
  | node label val below others _ ih =>
    rw [toList, cons_append, mem_cons, mem_append] at h
    rcases h with h | h | h
    · exact ⟨label, [], by rw [h], mem_cons_self⟩
    · obtain ⟨y, -, rfl⟩ := mem_map.mp h
      exact ⟨label, y.1, rfl, mem_cons_self⟩
    · obtain ⟨l, path, hx, hl⟩ := ih h
      exact ⟨l, path, hx, mem_cons_of_mem _ hl⟩

end Forest

namespace Trie

def toList (t : Trie κ β) : List (List κ × β) := ([], t.val) :: t.children.toList

end Trie

namespace Forest

theorem ne_nil_of_mem_toList {f : Forest κ β} {x : List κ × β} (h : x ∈ f.toList) : x.1 ≠ [] := by
  obtain ⟨l, path, hx, -⟩ := head_mem_labels h
  rw [hx]
  exact cons_ne_nil _ _

theorem Kept.nodup_toList {f : Forest κ β} {empty : β → Bool} (h : f.Kept empty) :
    (f.toList.map (·.1)).Nodup := by
  induction f with
  | none => exact nodup_nil
  | node label val below others ihb iho =>
    obtain ⟨hlabel, -, hbelow, hothers⟩ := h
    have hb : ((below.toList.map fun x => (label :: x.1, x.2)).map (·.1)).Nodup := by
      rw [map_map]
      have := (ihb hbelow).map (@cons_injective _ label)
      rwa [map_map] at this
    rw [toList, cons_append, map_cons, map_append, nodup_cons, nodup_append']
    refine ⟨?_, hb, iho hothers, ?_⟩
    · rw [mem_append, map_map, not_or]
      constructor
      · intro hmem
        obtain ⟨y, hy, heq⟩ := mem_map.mp hmem
        exact ne_nil_of_mem_toList hy (cons.inj heq).2
      · intro hmem
        obtain ⟨y, hy, heq⟩ := mem_map.mp hmem
        obtain ⟨l, path, hx, hl⟩ := head_mem_labels hy
        rw [heq] at hx
        exact hlabel ((cons.inj hx).1 ▸ hl)
    · intro p hp hq
      rw [map_map] at hp
      obtain ⟨y, hy, heq⟩ := mem_map.mp hp
      obtain ⟨z, hz, heq'⟩ := mem_map.mp hq
      obtain ⟨l, path, hx, hl⟩ := head_mem_labels hz
      rw [heq', ← heq] at hx
      exact hlabel ((cons.inj hx).1 ▸ hl)

variable [DecidableEq κ]

theorem Kept.mem_toList {f : Forest κ β} {empty : β → Bool} (h : f.Kept empty) {path : List κ} {v : β} :
    (path, v) ∈ f.toList ↔
      ∃ l rest child, path = l :: rest ∧ f.find l = some child ∧ (child.sub rest).map (·.val) = some v := by
  induction f generalizing path with
  | none =>
    refine ⟨nofun, fun hex => ?_⟩
    obtain ⟨_, _, _, _, hf, _⟩ := hex
    cases hf
  | node label val below others ihb iho =>
    obtain ⟨hlabel, -, hbelow, hothers⟩ := h
    rw [toList, cons_append, mem_cons, mem_append]
    constructor
    · intro hmem
      rcases hmem with hmem | hmem | hmem
      · cases hmem
        exact ⟨label, [], ⟨v, below⟩, rfl, if_pos rfl, rfl⟩
      · obtain ⟨⟨p, w⟩, hy, heq⟩ := mem_map.mp hmem
        cases heq
        obtain ⟨l, rest, child, rfl, hf, hv⟩ := (ihb hbelow).mp hy
        refine ⟨label, l :: rest, ⟨val, below⟩, rfl, if_pos rfl, ?_⟩
        rw [Trie.sub, hf, Option.bind_some, hv]
      · obtain ⟨l, rest, child, hpath, hf, hv⟩ := (iho hothers).mp hmem
        have hl : label ≠ l := by
          intro heq
          rw [find_eq_none.mpr (heq ▸ hlabel)] at hf
          cases hf
        exact ⟨l, rest, child, hpath, (if_neg hl).trans hf, hv⟩
    · intro hex
      obtain ⟨l, rest, child, hpath, hf, hv⟩ := hex
      rw [Forest.find] at hf
      split at hf
      · rename_i hl
        cases hf
        cases rest with
        | nil =>
          cases hv
          exact .inl (by rw [hpath, hl])
        | cons l' rest =>
          refine .inr (.inl (mem_map.mpr ⟨(l' :: rest, v), ?_, by rw [hpath, hl]⟩))
          rw [Trie.sub] at hv
          cases hb : below.find l' with
          | none =>
            rw [hb] at hv
            cases hv
          | some next =>
            rw [hb] at hv
            exact (ihb hbelow).mpr ⟨l', rest, next, rfl, hb, hv⟩
      · exact .inr (.inr ((iho hothers).mpr ⟨l, rest, child, hpath, hf, hv⟩))

end Forest

namespace Trie

variable {t : Trie κ β} {empty : β → Bool}

/-- **No path is listed twice.** -/
theorem Kept.nodup_toList (h : t.Kept empty) : (t.toList.map (·.1)).Nodup := by
  rw [toList, map_cons, nodup_cons]
  refine ⟨fun hmem => ?_, Forest.Kept.nodup_toList h⟩
  obtain ⟨x, hx, heq⟩ := mem_map.mp hmem
  exact Forest.ne_nil_of_mem_toList hx heq

/-- **What is listed is what stands at the path.** -/
theorem Kept.mem_toList [DecidableEq κ] (h : t.Kept empty) {path : List κ} {v : β} :
    (path, v) ∈ t.toList ↔ (t.sub path).map (·.val) = some v := by
  rw [toList, mem_cons, Forest.Kept.mem_toList h]
  cases path with
  | nil =>
    simp only [Prod.mk.injEq, true_and, Trie.sub, Option.map_some, Option.some.injEq]
    refine ⟨fun hv => ?_, fun hv => .inl hv.symm⟩
    rcases hv with hv | ⟨_, _, _, hp, _⟩
    · exact hv.symm
    · cases hp
  | cons l path =>
    rw [Trie.sub]
    constructor
    · intro hv
      rcases hv with hv | ⟨l', rest, child, hp, hf, hv⟩
      · cases hv
      · cases hp
        rw [hf, Option.bind_some, hv]
    · intro hv
      cases hf : t.children.find l with
      | none =>
        rw [hf] at hv
        cases hv
      | some child =>
        rw [hf] at hv
        exact .inr ⟨l, path, child, rfl, hf, hv⟩

theorem Kept.not_empty [DecidableEq κ] (h : t.Kept empty) {path : List κ} {child : Trie κ β}
    (hpath : path ≠ []) (hs : t.sub path = some child) : empty child.val = true → child.children ≠ .none := by
  induction path generalizing t with
  | nil => exact absurd rfl hpath
  | cons l path ih =>
    rw [Trie.sub] at hs
    cases hf : t.children.find l with
    | none =>
      rw [hf] at hs
      cases hs
    | some next =>
      rw [hf, Option.bind_some] at hs
      cases path with
      | nil =>
        cases hs
        exact (Forest.Kept.find h hf).1
      | cons l' path => exact ih (Forest.Kept.find h hf).2 (cons_ne_nil _ _) hs

theorem exists_of_forest {f : Forest κ β} (h : f.Kept empty) (hne : f ≠ .none) :
    ∃ x ∈ f.toList, empty x.2 = false := by
  induction f with
  | none => exact absurd rfl hne
  | node label val below others ihb _ =>
    obtain ⟨-, hval, hbelow, -⟩ := h
    cases hv : empty val with
    | false => exact ⟨([label], val), mem_cons_self, hv⟩
    | true =>
      obtain ⟨x, hx, hxe⟩ := ihb hbelow (hval hv)
      refine ⟨(label :: x.1, x.2), ?_, hxe⟩
      rw [Forest.toList, cons_append, mem_cons, mem_append]
      exact .inr (.inl (mem_map.mpr ⟨x, hx, rfl⟩))

/-- **Every node below the root of a kept trie has a value in it that is not empty.** -/
theorem Kept.exists_value [DecidableEq κ] (h : t.Kept empty) {path : List κ} {child : Trie κ β}
    (hpath : path ≠ []) (hs : t.sub path = some child) : ∃ x ∈ child.toList, empty x.2 = false := by
  cases hv : empty child.val with
  | false => exact ⟨([], child.val), mem_cons_self, hv⟩
  | true =>
    obtain ⟨x, hx, hxe⟩ := exists_of_forest (h.sub hs) (h.not_empty hpath hs hv)
    exact ⟨x, mem_cons_of_mem _ hx, hxe⟩

end Trie

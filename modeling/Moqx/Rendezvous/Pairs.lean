/-
  Subject: THE TREE OF WAITERS AS A SET of pairs of a track and a waiter.

  * `waiters` -- who waits for a track, and how each operation changes it;
  * `rendezvous_tree_is_set` -- for every sequence of calls.
-/
import Mathlib.Data.List.Induction
import Mathlib.Data.Set.Insert
import Moqx.Rendezvous.Tree

namespace Moqx.PendingRendezvousTree

open List AList Option Trie

variable {tree : PendingRendezvousTree} {ftn g : FullTrackName} {w : Waiter}

variable {ns path : List Bytes} {erases : Waiter → Option FullTrackName} {toWake : List Waiter}
  {waitersByTrack : WaitersByTrack} {name : Bytes}

/-! ## 1. Who waits for a track -/

def waiters (tree : PendingRendezvousTree) (ftn : FullTrackName) : List Waiter :=
  ((tree.get ∅ ftn.trackNamespace).lookup ftn.trackName).getD []

/-- No node below the root is empty, and no list of waiters is. -/
structure Tidy (tree : PendingRendezvousTree) : Prop where
  kept : tree.Kept noWaiters
  filled : ∀ ns name l, (tree.get ∅ ns).lookup name = some l → l ≠ []

theorem noWaiters_eq (h : noWaiters waitersByTrack = true) :
    waitersByTrack = ∅ := by
  apply AList.ext
  exact isEmpty_iff.mp h

theorem eq_mk_iff :
    g = ⟨ns, name⟩ ↔ g.trackNamespace = ns ∧ g.trackName = name := by
  cases g
  simp

section changed

variable {tree' : PendingRendezvousTree}

theorem waiters_changed
    (hget : ∀ q, tree'.get ∅ q = if q = ftn.trackNamespace then waitersByTrack else tree.get ∅ q)
    (hother : ∀ k, k ≠ ftn.trackName → (waitersByTrack.lookup k).getD [] = tree.waiters ⟨ftn.trackNamespace, k⟩) :
    tree'.waiters g =
      if g = ftn then (waitersByTrack.lookup ftn.trackName).getD [] else tree.waiters g := by
  rw [waiters, hget]
  by_cases hns : g.trackNamespace = ftn.trackNamespace
  · rw [if_pos hns]
    by_cases hname : g.trackName = ftn.trackName
    · rw [if_pos (eq_mk_iff.mpr ⟨hns, hname⟩), hname]
    · rw [if_neg fun h => hname (by rw [h]), hother _ hname, ← hns]
  · rw [if_neg hns, if_neg fun h => hns (by rw [h])]
    rfl

def Filled (waitersByTrack : WaitersByTrack) : Prop := ∀ k l, waitersByTrack.lookup k = some l → l ≠ []

theorem Filled.erase (h : Filled waitersByTrack) : Filled (waitersByTrack.erase name) := by
  intro k l hl
  by_cases hk : k = name
  · rw [hk, lookup_erase] at hl
    cases hl
  · rw [lookup_erase_ne hk] at hl
    exact h k l hl

theorem Filled.insert (h : Filled waitersByTrack) {l' : List Waiter} (hl' : l' ≠ []) :
    Filled (waitersByTrack.insert name l') := by
  intro k l hl
  by_cases hk : k = name
  · rw [hk, lookup_insert] at hl
    cases hl
    exact hl'
  · rw [lookup_insert_ne hk] at hl
    exact h k l hl

theorem Tidy.changed (h : tree.Tidy)
    (hget : ∀ q, tree'.get ∅ q = if q = ftn.trackNamespace then waitersByTrack else tree.get ∅ q)
    (hfilled : Filled waitersByTrack) (ns : List Bytes) : Filled (tree'.get ∅ ns) := by
  rw [hget]
  split
  · exact hfilled
  · exact h.filled ns

end changed

theorem waiters_addWaiter : (tree.addWaiter ftn w).waiters g =
    if g = ftn then tree.waiters ftn ++ [w] else tree.waiters g := by
  rw [addWaiter, waiters_changed fun _ => get_create]
  · rw [lookup_insert]
    rfl
  · intro k hk
    rw [lookup_insert_ne hk]
    rfl

theorem Tidy.addWaiter (h : tree.Tidy) : (tree.addWaiter ftn w).Tidy where
  kept := h.kept.create fun _ => rfl
  filled := h.changed (fun _ => get_create)
    (Filled.insert (h.filled _) (append_ne_nil_of_right_ne_nil _ (cons_ne_nil _ _)))

/-! ## 2. Calls at a node -/

/-- What a call at the node of a namespace does: how it changes the values at the node and below it, and
    what it gives out. -/
theorem applyAt_get {onNode : PendingRendezvousTree → PendingRendezvousTree × List Waiter} (h : tree.Tidy)
    (hnil : onNode newTree = (newTree, [])) :
    (∀ q, (tree.applyAtNamespaceNode ns onNode).1.get ∅ (ns ++ q) =
      (onNode ((tree.sub ns).getD newTree)).1.get ∅ q) ∧
    (∀ q, ¬ ns <+: q → (tree.applyAtNamespaceNode ns onNode).1.get ∅ q = tree.get ∅ q) ∧
    (tree.applyAtNamespaceNode ns onNode).2 = (onNode ((tree.sub ns).getD newTree)).2 :=
  ⟨fun _ => get_apply_below (fun _ => noWaiters_eq) hnil h.kept,
    fun _ hq => get_apply_other (fun _ => noWaiters_eq) h.kept hq, apply_out hnil⟩

theorem applyAt_val {change : WaitersByTrack → WaitersByTrack} {out : WaitersByTrack → List Waiter}
    (h : tree.Tidy) (hchange : change ∅ = ∅) (hout : out ∅ = []) :
    (∀ q, (tree.applyAtNamespaceNode ns fun n => ({ n with val := change n.val }, out n.val)).1.get ∅ q =
      if q = ns then change (tree.get ∅ ns) else tree.get ∅ q) ∧
    (tree.applyAtNamespaceNode ns fun n => ({ n with val := change n.val }, out n.val)).2 =
      out (tree.get ∅ ns) := by
  have hnil : ((⟨change newTree.val, newTree.children⟩, out newTree.val) :
      PendingRendezvousTree × List Waiter) = (newTree, []) := by
    rw [newTree, hchange, hout]
  obtain ⟨hbelow, hother, hgives⟩ := @applyAt_get tree ns
    (fun n => ({ n with val := change n.val }, out n.val)) h hnil
  have hval : ((tree.sub ns).getD newTree).val = tree.get ∅ ns := by
    have := @get_sub _ _ _ (∅ : WaitersByTrack) tree [] ns
    rwa [append_nil] at this
  constructor
  · intro q
    by_cases hq : ns <+: q
    · obtain ⟨r, rfl⟩ := hq
      rw [hbelow]
      cases r with
      | nil =>
        rw [append_nil, if_pos rfl, ← hval]
        rfl
      | cons l r =>
        have hne : ns ++ l :: r ≠ ns := fun h' => cons_ne_nil l r (append_right_eq_self.mp h')
        rw [if_neg hne, ← get_sub]
        rfl
    · have hne : q ≠ ns := fun h' => hq (h' ▸ prefix_rfl)
      rw [hother q hq, if_neg hne]
  · rw [hgives, ← hval]

/-- What `eraseWaiter` leaves of the waiters at a node. -/
def erased (name : Bytes) (w : Waiter) (waitersByTrack : WaitersByTrack) : WaitersByTrack :=
  match waitersByTrack.lookup name with
  | none => waitersByTrack
  | some l =>
    if (l.filter (· ≠ w)).isEmpty then waitersByTrack.erase name
    else waitersByTrack.insert name (l.filter (· ≠ w))

theorem eraseAt_eq (name : Bytes) (w : Waiter) :
    eraseAt name w = fun n => ({ n with val := erased name w n.val }, []) := by
  funext n
  rw [eraseAt, erased]
  cases n.val.lookup name with
  | none => rfl
  | some l => rfl

theorem lookup_erased {k : Bytes} :
    ((erased name w waitersByTrack).lookup k).getD [] =
      if k = name then ((waitersByTrack.lookup name).getD []).filter (· ≠ w)
      else (waitersByTrack.lookup k).getD [] := by
  rw [erased]
  cases hl : waitersByTrack.lookup name with
  | none =>
    by_cases hk : k = name
    · rw [if_pos hk, hk]
      simp only [hl, getD_none, filter_nil]
    · rw [if_neg hk]
  | some l =>
    simp only [getD_some]
    split
    · rename_i hempty
      split
      · rename_i hk
        rw [hk, lookup_erase, getD_none, isEmpty_iff.mp hempty]
      · rename_i hk
        rw [lookup_erase_ne hk]
    · split
      · rename_i hk
        rw [hk, lookup_insert, getD_some]
      · rename_i hk
        rw [lookup_insert_ne hk]

theorem Filled.erased (h : Filled waitersByTrack) : Filled (erased name w waitersByTrack) := by
  rw [PendingRendezvousTree.erased]
  split
  · exact h
  · split
    · exact h.erase
    · rename_i hne
      exact h.insert fun h' => hne (isEmpty_iff.mpr h')

theorem eraseWaiter_get (h : tree.Tidy) (q : List Bytes) :
    (tree.eraseWaiter ftn w).get ∅ q =
      if q = ftn.trackNamespace then erased ftn.trackName w (tree.get ∅ ftn.trackNamespace)
      else tree.get ∅ q := by
  rw [eraseWaiter, eraseAt_eq]
  exact (@applyAt_val tree ftn.trackNamespace _ (fun _ => []) h rfl rfl).1 q

theorem waiters_eraseWaiter (h : tree.Tidy) : (tree.eraseWaiter ftn w).waiters g =
    if g = ftn then (tree.waiters ftn).filter (· ≠ w) else tree.waiters g := by
  rw [waiters_changed (eraseWaiter_get h)]
  · rw [lookup_erased, if_pos rfl]
    rfl
  · intro k hk
    rw [lookup_erased, if_neg hk]
    rfl

theorem Tidy.eraseWaiter (h : tree.Tidy) : (tree.eraseWaiter ftn w).Tidy where
  kept := by
    rw [PendingRendezvousTree.eraseWaiter, eraseAt_eq]
    exact h.kept.apply fun _ hu => hu
  filled := h.changed (eraseWaiter_get h) (Filled.erased (h.filled _))

/-! ## 3. Taking waiters out -/

theorem takeTrack_eq (name : Bytes) :
    takeTrack name = fun n => ({ n with val := n.val.erase name }, (n.val.lookup name).getD []) := by
  funext n
  rw [takeTrack]
  cases hl : n.val.lookup name with
  | some l => rfl
  | none =>
    have habsent : n.val.erase name = n.val :=
      ext (kerase_of_notMem_keys (lookup_eq_none.mp hl))
    rw [habsent]
    rfl

/-- The tree, and the waiters to signal, once the waiters of a track are taken out. -/
def takenTrack (ftn : FullTrackName) (tree : PendingRendezvousTree) : PendingRendezvousTree × List Waiter :=
  tree.applyAtNamespaceNode ftn.trackNamespace (takeTrack ftn.trackName)

theorem takenTrack_get (h : tree.Tidy) :
    (∀ q, (tree.takenTrack ftn).1.get ∅ q =
      if q = ftn.trackNamespace then (tree.get ∅ ftn.trackNamespace).erase ftn.trackName
      else tree.get ∅ q) ∧
    (tree.takenTrack ftn).2 = tree.waiters ftn := by
  rw [takenTrack, takeTrack_eq]
  exact @applyAt_val tree ftn.trackNamespace (fun ws => ws.erase ftn.trackName)
    (fun ws => (ws.lookup ftn.trackName).getD []) h rfl rfl

theorem waiters_takenTrack (h : tree.Tidy) :
    (tree.takenTrack ftn).1.waiters g = if g = ftn then [] else tree.waiters g := by
  rw [waiters_changed (takenTrack_get h).1]
  · rw [lookup_erase]
    rfl
  · intro k hk
    rw [lookup_erase_ne hk]
    rfl

theorem Tidy.takenTrack (h : tree.Tidy) : (tree.takenTrack ftn).1.Tidy where
  kept := by
    rw [PendingRendezvousTree.takenTrack, takeTrack_eq]
    exact h.kept.apply fun _ hu => hu
  filled := h.changed (takenTrack_get h).1 (Filled.erase (h.filled _))

/-- The tree, and the waiters to signal, once the waiters under a namespace are taken out. -/
def takenUnder (ns : List Bytes) (tree : PendingRendezvousTree) : PendingRendezvousTree × List Waiter :=
  tree.applyAtNamespaceNode ns collectSubtree

theorem takenUnder_get (h : tree.Tidy) :
    (∀ q, (tree.takenUnder ns).1.get ∅ q = if ns <+: q then ∅ else tree.get ∅ q) ∧
    (tree.takenUnder ns).2 = (collectSubtree ((tree.sub ns).getD newTree)).2 := by
  obtain ⟨hbelow, hother, hgives⟩ := @applyAt_get tree ns collectSubtree h rfl
  refine ⟨fun q => ?_, hgives⟩
  by_cases hq : ns <+: q
  · obtain ⟨r, hr⟩ := hq
    rw [if_pos ⟨r, hr⟩, ← hr]
    exact (hbelow r).trans get_empty
  · rw [if_neg hq]
    exact hother q hq

theorem waiters_takenUnder (h : tree.Tidy) :
    (tree.takenUnder ns).1.waiters g = if ns <+: g.trackNamespace then [] else tree.waiters g := by
  rw [waiters, (takenUnder_get h).1]
  split
  · rfl
  · rfl

theorem Tidy.takenUnder (h : tree.Tidy) : (tree.takenUnder ns).1.Tidy where
  kept := h.kept.apply fun _ _ => trivial
  filled := by
    intro q name l hl
    rw [(takenUnder_get h).1] at hl
    split at hl
    · cases hl
    · exact h.filled _ _ _ hl

theorem mem_entries :
    w ∈ waitersByTrack.entries.flatMap (·.2) ↔ ∃ name, w ∈ (waitersByTrack.lookup name).getD [] := by
  rw [mem_flatMap]
  constructor
  · intro hw
    obtain ⟨⟨name, l⟩, hmem, hw⟩ := hw
    refine ⟨name, ?_⟩
    rw [mem_lookup_iff.mpr hmem]
    exact hw
  · intro hw
    obtain ⟨name, hw⟩ := hw
    cases hl : waitersByTrack.lookup name with
    | none =>
      rw [hl] at hw
      cases hw
    | some l =>
      rw [hl] at hw
      exact ⟨⟨name, l⟩, mem_lookup_iff.mp hl, hw⟩

theorem Tidy.subtree (h : tree.Tidy) (ns : List Bytes) : ((tree.sub ns).getD newTree).Kept noWaiters := by
  cases hs : tree.sub ns with
  | none => exact trivial
  | some child => exact h.kept.sub hs

theorem get_of_mem_toList (h : tree.Tidy) {v : WaitersByTrack}
    (hmem : (path, v) ∈ ((tree.sub ns).getD newTree).toList) : tree.get ∅ (ns ++ path) = v := by
  rw [← get_sub]
  have hv := (h.subtree ns).mem_toList.mp hmem
  change ((sub path ((tree.sub ns).getD newTree)).map (·.val)).getD ∅ = v
  rw [hv]
  rfl

theorem mem_toList_of_get (h : tree.Tidy) {l : List Waiter}
    (hl : (tree.get ∅ (ns ++ path)).lookup name = some l) :
    (path, tree.get ∅ (ns ++ path)) ∈ ((tree.sub ns).getD newTree).toList := by
  rw [(h.subtree ns).mem_toList]
  have hget : ((tree.sub ns).getD newTree).get ∅ path = tree.get ∅ (ns ++ path) := Trie.get_sub
  rw [← hget] at hl ⊢
  rw [Trie.get] at hl ⊢
  cases hs : Trie.sub path ((tree.sub ns).getD newTree) with
  | none =>
    rw [hs] at hl
    cases hl
  | some child => rfl

theorem mem_takenUnder (h : tree.Tidy) :
    w ∈ (tree.takenUnder ns).2 ↔ ∃ g : FullTrackName, ns <+: g.trackNamespace ∧ w ∈ tree.waiters g := by
  rw [(takenUnder_get h).2, collectSubtree, mem_flatMap]
  constructor
  · intro hw
    obtain ⟨⟨path, v⟩, hmem, hw⟩ := hw
    obtain ⟨name, hw⟩ := mem_entries.mp hw
    refine ⟨⟨ns ++ path, name⟩, prefix_append ns path, ?_⟩
    rw [waiters, get_of_mem_toList h hmem]
    exact hw
  · intro hw
    obtain ⟨⟨q, name⟩, ⟨path, hpath⟩, hw⟩ := hw
    subst hpath
    have hw' : w ∈ ((tree.get ∅ (ns ++ path)).lookup name).getD [] := hw
    cases hl : (tree.get ∅ (ns ++ path)).lookup name with
    | none =>
      rw [hl] at hw'
      cases hw'
    | some l =>
      exact ⟨(path, tree.get ∅ (ns ++ path)), mem_toList_of_get h hl, mem_entries.mpr ⟨name, hw'⟩⟩

/-! ## 4. Waiters that erase themselves while the others are signalled -/

theorem Tidy.signalAll (h : tree.Tidy) :
    (tree.signalAll erases toWake).Tidy := by
  induction toWake generalizing tree with
  | nil => exact h
  | cons w toWake ih =>
    rw [PendingRendezvousTree.signalAll, foldl_cons]
    cases erases w with
    | none => exact ih h
    | some ftn => exact ih h.eraseWaiter

theorem waiters_signalAll (h : tree.Tidy) (hgone : ∀ w ∈ toWake, w ∉ tree.waiters g) :
    (tree.signalAll erases toWake).waiters g = tree.waiters g := by
  induction toWake generalizing tree with
  | nil => rfl
  | cons w toWake ih =>
    rw [signalAll, foldl_cons]
    cases erases w with
    | none => exact ih h fun v hv => hgone v (mem_cons_of_mem _ hv)
    | some ftn =>
      have hsame : (tree.eraseWaiter ftn w).waiters g = tree.waiters g := by
        rw [waiters_eraseWaiter h]
        split
        · rename_i hg
          rw [← hg, filter_eq_self]
          intro v hv
          refine decide_eq_true fun hvw => ?_
          exact hgone w mem_cons_self (hvw ▸ hv)
        · rfl
      refine (ih h.eraseWaiter fun v hv => ?_).trans hsame
      rw [hsame]
      exact hgone v (mem_cons_of_mem _ hv)

/-! ## 5. The set -/

/-- Who waits for what. -/
abbrev Pairs := Set (FullTrackName × Waiter)

def Op.wakes : Op → FullTrackName → Prop
  | .addWaiter _ _, _ => False
  | .eraseWaiter _ _, _ => False
  | .wakeForTrack ftn _, g => g = ftn
  | .wakeUnderNamespace ns _, g => ns <+: g.trackNamespace

/-- Who is signalled: those of the set that the wake is for. -/
def signalled (pairs : Pairs) (op : Op) : Set Waiter := {w | ∃ g, op.wakes g ∧ (g, w) ∈ pairs}

/-- A call adds its pair, removes its pair, or removes all pairs it wakes. -/
def after (pairs : Pairs) : Op → Pairs
  | .addWaiter ftn waiter => insert (ftn, waiter) pairs
  | .eraseWaiter ftn waiter => pairs \ {(ftn, waiter)}
  | .wakeForTrack ftn _ => {p ∈ pairs | p.1 ≠ ftn}
  | .wakeUnderNamespace ns _ => {p ∈ pairs | ¬ ns <+: p.1.trackNamespace}

def pairsAfter (ops : List Op) : Pairs := ops.foldl after ∅

def Op.AddsFor (home : Waiter → FullTrackName) : Op → Prop
  | .addWaiter ftn waiter => ftn = home waiter
  | _ => True

/-- The tree stands for the set. -/
structure Stands (home : Waiter → FullTrackName) (tree : PendingRendezvousTree) (pairs : Pairs) : Prop where
  tidy : tree.Tidy
  mem : ∀ ftn w, w ∈ tree.waiters ftn ↔ (ftn, w) ∈ pairs
  home : ∀ ftn w, (ftn, w) ∈ pairs → ftn = home w

variable {home : Waiter → FullTrackName} {pairs : Pairs}

theorem Stands.newTree : Stands home newTree ∅ where
  tidy := by
    refine ⟨trivial, fun ns name l hl => ?_⟩
    rw [PendingRendezvousTree.newTree, get_empty] at hl
    cases hl
  mem := by
    intro ftn w
    rw [waiters, PendingRendezvousTree.newTree, get_empty]
    exact ⟨fun h => absurd h not_mem_nil, fun h => absurd h (Set.notMem_empty _)⟩
  home := fun _ _ h => absurd h (Set.notMem_empty _)

section take

variable {taken : PendingRendezvousTree} {gone : FullTrackName → Prop} (h : Stands home tree pairs)
  (htidy : taken.Tidy) (hkeep : ∀ g, ¬ gone g → taken.waiters g = tree.waiters g)
  (hempty : ∀ g, gone g → taken.waiters g = []) (hwake : ∀ w ∈ toWake, ∃ g, gone g ∧ w ∈ tree.waiters g)

include h htidy hkeep hempty hwake

theorem Stands.waiters_signalAll (g : FullTrackName) :
    (taken.signalAll erases toWake).waiters g = taken.waiters g := by
  apply PendingRendezvousTree.waiters_signalAll htidy
  intro w hw hin
  by_cases hg : gone g
  · rw [hempty g hg] at hin
    cases hin
  · rw [hkeep g hg] at hin
    obtain ⟨g', hg', hw'⟩ := hwake w hw
    have heq : g' = g :=
      (h.home g' w ((h.mem g' w).mp hw')).trans (h.home g w ((h.mem g w).mp hin)).symm
    exact hg (heq ▸ hg')

theorem Stands.take :
    Stands home (taken.signalAll erases toWake) {p ∈ pairs | ¬ gone p.1} where
  tidy := htidy.signalAll
  mem := by
    intro ftn w
    rw [h.waiters_signalAll htidy hkeep hempty hwake, Set.mem_setOf_eq, ← h.mem]
    by_cases hg : gone ftn
    · rw [hempty ftn hg]
      exact ⟨fun h' => absurd h' not_mem_nil, fun h' => absurd hg h'.2⟩
    · rw [hkeep ftn hg]
      exact ⟨fun h' => ⟨h', hg⟩, fun h' => h'.1⟩
  home := fun ftn w hmem => h.home ftn w hmem.1

end take

/-- **One call.** The tree it leaves stands for the set it leaves. -/
theorem Stands.step (h : Stands home tree pairs) {op : Op} (hop : op.AddsFor home) :
    Stands home (tree.step op).1 (after pairs op) := by
  cases op with
  | addWaiter ftn waiter =>
    refine ⟨h.tidy.addWaiter, fun g w => ?_, fun g w hmem => ?_⟩
    · change w ∈ (tree.addWaiter ftn waiter).waiters g ↔ _
      rw [waiters_addWaiter, after, Set.mem_insert_iff, ← h.mem, Prod.mk.injEq]
      split
      · rename_i hg
        rw [mem_append, mem_singleton, hg]
        exact ⟨fun h' => h'.elim .inr fun hw => .inl ⟨rfl, hw⟩, fun h' => h'.elim (fun hw => .inr hw.2) .inl⟩
      · rename_i hg
        exact ⟨.inr, fun h' => h'.elim (fun hw => absurd hw.1 hg) id⟩
    · rcases Set.mem_insert_iff.mp hmem with heq | hmem
      · cases heq
        exact hop
      · exact h.home g w hmem
  | eraseWaiter ftn waiter =>
    refine ⟨h.tidy.eraseWaiter, fun g w => ?_, fun g w hmem => h.home g w hmem.1⟩
    change w ∈ (tree.eraseWaiter ftn waiter).waiters g ↔ _
    rw [waiters_eraseWaiter h.tidy, after, Set.mem_diff, Set.mem_singleton_iff, ← h.mem, Prod.mk.injEq]
    split
    · rename_i hg
      rw [mem_filter, decide_eq_true_iff, hg]
      exact and_congr_right fun _ => ⟨fun hw h' => hw h'.2, fun hw h' => hw ⟨rfl, h'⟩⟩
    · rename_i hg
      exact ⟨fun hw => ⟨hw, fun h' => hg h'.1⟩, fun hw => hw.1⟩
  | wakeForTrack ftn erases =>
    refine @Stands.take tree erases (tree.takenTrack ftn).2 home pairs _ (· = ftn) h (h.tidy.takenTrack)
      (fun g hg => ?_) (fun g hg => ?_) fun w hw => ?_
    · exact (waiters_takenTrack h.tidy).trans (if_neg hg)
    · exact (waiters_takenTrack h.tidy).trans (if_pos hg)
    · rw [(takenTrack_get h.tidy).2] at hw
      exact ⟨ftn, rfl, hw⟩
  | wakeUnderNamespace ns erases =>
    refine @Stands.take tree erases (tree.takenUnder ns).2 home pairs _ (ns <+: ·.trackNamespace) h
      h.tidy.takenUnder (fun g hg => ?_) (fun g hg => ?_) fun w hw => ?_
    · exact (waiters_takenUnder h.tidy).trans (if_neg hg)
    · exact (waiters_takenUnder h.tidy).trans (if_pos hg)
    · exact (mem_takenUnder h.tidy).mp hw

/-- **Who is signalled.** -/
theorem Stands.mem_signals (h : Stands home tree pairs) (op : Op) :
    w ∈ (tree.step op).2 ↔ w ∈ signalled pairs op := by
  cases op with
  | addWaiter ftn waiter => exact ⟨fun h' => absurd h' not_mem_nil, fun ⟨_, h', _⟩ => absurd h' id⟩
  | eraseWaiter ftn waiter => exact ⟨fun h' => absurd h' not_mem_nil, fun ⟨_, h', _⟩ => absurd h' id⟩
  | wakeForTrack ftn erases =>
    change w ∈ (tree.takenTrack ftn).2 ↔ ∃ g, g = ftn ∧ (g, w) ∈ pairs
    rw [(takenTrack_get h.tidy).2, h.mem, exists_eq_left]
  | wakeUnderNamespace ns erases =>
    change w ∈ (tree.takenUnder ns).2 ↔ ∃ g : FullTrackName, ns <+: g.trackNamespace ∧ (g, w) ∈ pairs
    rw [mem_takenUnder h.tidy]
    exact exists_congr fun g => and_congr_right fun _ => h.mem g w

/-! ## 6. Each once -/

def Once (tree : PendingRendezvousTree) : Prop := ∀ ftn, (tree.waiters ftn).Nodup

/-- A call does not add a waiter that is already waiting. -/
def Op.AddsNew (pairs : Pairs) : Op → Prop
  | .addWaiter ftn waiter => (ftn, waiter) ∉ pairs
  | _ => True

def AddedOnce (ops : List Op) : Prop :=
  ∀ before op after, ops = before ++ op :: after → op.AddsNew (pairsAfter before)

theorem Stands.nodup_takenUnder (h : Stands home tree pairs) (honce : tree.Once) (ns : List Bytes) :
    (tree.takenUnder ns).2.Nodup := by
  have hlist : ∀ path v (e : Sigma fun _ : Bytes => List Waiter),
      (path, v) ∈ ((tree.sub ns).getD PendingRendezvousTree.newTree).toList → e ∈ v.entries →
      tree.waiters ⟨ns ++ path, e.1⟩ = e.2 := by
    intro path v e hmem he
    rw [waiters, get_of_mem_toList h.tidy hmem, mem_lookup_iff.mpr he]
    rfl
  have hhome : ∀ path v (e : Sigma fun _ : Bytes => List Waiter),
      (path, v) ∈ ((tree.sub ns).getD PendingRendezvousTree.newTree).toList → e ∈ v.entries →
      ∀ w ∈ e.2, (⟨ns ++ path, e.1⟩ : FullTrackName) = home w := by
    intro path v e hmem he w hw
    rw [← hlist path v e hmem he] at hw
    exact h.home _ w ((h.mem _ w).mp hw)
  rw [(takenUnder_get h.tidy).2, collectSubtree, nodup_flatMap]
  constructor
  · intro x hx
    obtain ⟨path, v⟩ := x
    rw [nodup_flatMap]
    constructor
    · intro e he
      exact hlist path v e hx he ▸ honce _
    · refine (pairwise_map.mp v.nodupKeys).imp_of_mem ?_
      intro e e' he he' hne w hw hw'
      have := (hhome path v e hx he w hw).trans (hhome path v e' hx he' w hw').symm
      exact hne (congrArg FullTrackName.trackName this)
  · refine (pairwise_map.mp (h.tidy.subtree ns).nodup_toList).imp_of_mem ?_
    intro x y hx hy hne w hw hw'
    obtain ⟨e, he, hw⟩ := mem_flatMap.mp hw
    obtain ⟨e', he', hw'⟩ := mem_flatMap.mp hw'
    have := (hhome _ _ e hx he w hw).trans (hhome _ _ e' hy he' w hw').symm
    exact hne (append_cancel_left (congrArg FullTrackName.trackNamespace this))

/-- **Nobody is signalled twice by a call.** -/
theorem Stands.nodup_signals (h : Stands home tree pairs) (honce : tree.Once) (op : Op) :
    (tree.step op).2.Nodup := by
  cases op with
  | addWaiter ftn waiter => exact nodup_nil
  | eraseWaiter ftn waiter => exact nodup_nil
  | wakeForTrack ftn erases =>
    change (tree.takenTrack ftn).2.Nodup
    rw [(takenTrack_get h.tidy).2]
    exact honce ftn
  | wakeUnderNamespace ns erases => exact h.nodup_takenUnder honce ns

theorem Once.signalAll (h : tree.Once) (htidy : tree.Tidy) : (tree.signalAll erases toWake).Once := by
  induction toWake generalizing tree with
  | nil => exact h
  | cons w toWake ih =>
    rw [PendingRendezvousTree.signalAll, foldl_cons]
    cases erases w with
    | none => exact ih h htidy
    | some ftn =>
      refine ih (fun g => ?_) htidy.eraseWaiter
      rw [waiters_eraseWaiter htidy]
      split
      · exact (h ftn).filter _
      · exact h g

theorem Stands.once_step (h : Stands home tree pairs) (honce : tree.Once) {op : Op} (hnew : op.AddsNew pairs) :
    (tree.step op).1.Once := by
  cases op with
  | addWaiter ftn waiter =>
    intro g
    change ((tree.addWaiter ftn waiter).waiters g).Nodup
    rw [waiters_addWaiter]
    split
    · refine nodup_append.mpr ⟨honce ftn, nodup_singleton _, fun a ha b hb hab => ?_⟩
      rw [mem_singleton] at hb
      rw [hab, hb, h.mem] at ha
      exact hnew ha
    · exact honce g
  | eraseWaiter ftn waiter =>
    intro g
    change ((tree.eraseWaiter ftn waiter).waiters g).Nodup
    rw [waiters_eraseWaiter h.tidy]
    split
    · exact (honce ftn).filter _
    · exact honce g
  | wakeForTrack ftn erases =>
    have htaken : (tree.takenTrack ftn).1.Once := by
      intro g
      rw [waiters_takenTrack h.tidy]
      split
      · exact nodup_nil
      · exact honce g
    exact htaken.signalAll h.tidy.takenTrack
  | wakeUnderNamespace ns erases =>
    have htaken : (tree.takenUnder ns).1.Once := by
      intro g
      rw [waiters_takenUnder h.tidy]
      split
      · exact nodup_nil
      · exact honce g
    exact htaken.signalAll h.tidy.takenUnder

/-! ## 7. Every sequence of calls -/

theorem stands_run {ops : List Op} (hadds : ∀ op ∈ ops, op.AddsFor home) :
    Stands home (run ops) (pairsAfter ops) := by
  induction ops using reverseRecOn with
  | nil => exact .newTree
  | append_singleton ops op ih =>
    rw [run, pairsAfter, foldl_concat, foldl_concat]
    exact (ih fun o ho => hadds o (mem_append_left _ ho)).step
      (hadds op (mem_append_right _ mem_cons_self))

theorem once_run {ops : List Op} (hadds : ∀ op ∈ ops, op.AddsFor home) (honce : AddedOnce ops) :
    (run ops).Once := by
  induction ops using reverseRecOn with
  | nil =>
    intro ftn
    rw [waiters, run, foldl_nil, newTree, get_empty]
    exact nodup_nil
  | append_singleton ops op ih =>
    have hops : ∀ o ∈ ops, o.AddsFor home := fun o ho => hadds o (mem_append_left _ ho)
    have hearlier : AddedOnce ops := by
      intro before o later heq
      refine honce before o (later ++ [op]) ?_
      rw [heq, append_assoc, cons_append]
    rw [run, foldl_concat]
    exact (stands_run hops).once_step (ih hops hearlier) (honce ops op [] rfl)

theorem Stands.node (h : Stands home tree pairs) {node : PendingRendezvousTree} (hpath : path ≠ [])
    (hnode : tree.sub path = some node) :
    ∃ g w, path <+: g.trackNamespace ∧ (g, w) ∈ pairs := by
  obtain ⟨⟨rest, v⟩, hmem, hv⟩ := h.tidy.kept.exists_value hpath hnode
  have hnodeD : (tree.sub path).getD PendingRendezvousTree.newTree = node := by
    rw [hnode]
    rfl
  have hget := get_of_mem_toList h.tidy (hnodeD.symm ▸ hmem)
  obtain ⟨⟨name, l⟩, hl⟩ : ∃ e, e ∈ v.entries := by
    cases he : v.entries with
    | nil =>
      simp only [noWaiters, he, isEmpty_nil] at hv
      cases hv
    | cons e _ => exact ⟨e, mem_cons_self⟩
  have hlookup : (tree.get ∅ (path ++ rest)).lookup name = some l := by
    rw [hget]
    exact mem_lookup_iff.mpr hl
  obtain ⟨w, hw⟩ := exists_mem_of_ne_nil l (h.tidy.filled _ _ _ hlookup)
  refine ⟨⟨path ++ rest, name⟩, w, prefix_append _ _, (h.mem _ w).mp ?_⟩
  rw [waiters, hlookup]
  exact hw

/-- **The tree is a set of pairs.** After every sequence of calls in which each waiter is for one track,
    the waiters found at the tracks are the pairs of the set; the next call, whatever it is, signals exactly
    those of the set that it wakes, each once if nobody was added again while waiting; and every node below
    the root has a waiter at it or below it. -/
theorem rendezvous_tree_is_set (home : Waiter → FullTrackName) (ops : List Op)
    (hadds : ∀ op ∈ ops, op.AddsFor home) :
    (∀ ftn w, w ∈ (run ops).waiters ftn ↔ (ftn, w) ∈ pairsAfter ops) ∧
    (∀ op w, w ∈ ((run ops).step op).2 ↔ w ∈ signalled (pairsAfter ops) op) ∧
    (AddedOnce ops → ∀ op, ((run ops).step op).2.Nodup) ∧
    ∀ path node, path ≠ [] → (run ops).sub path = some node →
      ∃ g w, path <+: g.trackNamespace ∧ (g, w) ∈ pairsAfter ops := by
  have h := stands_run hadds
  exact ⟨h.mem, fun op _ => h.mem_signals op, fun honce => h.nodup_signals (once_run hadds honce),
    fun _ _ => h.node⟩

/-- Two waiters under one namespace; the wake of it reaches both, the first erases itself meanwhile. -/
theorem rendezvous_tree_wakes_two :
    ((run [.addWaiter ⟨[[1], [2]], [7]⟩ 0, .addWaiter ⟨[[1]], [8]⟩ 1]).step
      (.wakeUnderNamespace [[1]] fun w => if w = 1 then some ⟨[[1]], [8]⟩ else none)).2.Nodup := by
  refine (rendezvous_tree_is_set (fun w => if w = 0 then ⟨[[1], [2]], [7]⟩ else ⟨[[1]], [8]⟩)
    [.addWaiter ⟨[[1], [2]], [7]⟩ 0, .addWaiter ⟨[[1]], [8]⟩ 1] ?_).2.2.1 ?_ _
  · intro op hop
    rw [mem_cons, mem_singleton] at hop
    rcases hop with hop | hop
    · rw [hop]
      rfl
    · rw [hop]
      rfl
  · intro before op later heq
    match before, heq with
    | [], heq =>
      cases heq
      exact Set.notMem_empty _
    | [_], heq =>
      cases heq
      intro hmem
      rcases Set.mem_insert_iff.mp hmem with h | h
      · exact absurd h (by decide)
      · exact Set.notMem_empty _ h
    | _ :: _ :: before, heq => simp at heq

end Moqx.PendingRendezvousTree

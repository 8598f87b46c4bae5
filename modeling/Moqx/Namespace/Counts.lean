/-
  Subject: The counts of active children, and what pruning removes.

  A node is kept (`shouldKeep`) for its own content or for its count. How the count of a node relates to
  the number of its kept children is left open: the relation `r` is "at most" in every run, and equality
  in the runs that never give first content to a node that already exists.

  * `attached`, `keptChildren`, `Balanced` -- the nodes of the tree, and the relation at each of them;
  * `incrementActiveChildren_balanced`, `pruneUp_pruned` -- the two walks up the tree;
  * `Guarded.balanced`, `Guarded.tidy` -- a change of a node's content.
-/
import Mathlib.Data.Finset.Card
import Moqx.Namespace.Tree

namespace Moqx

open List Function NamespaceNode

variable {k key : NodeKey} {tree t t' : NamespaceTree} {n : NamespaceNode} {r : Nat → Nat → Prop}

namespace NamespaceTree

/-! ## 1. The nodes of the tree -/

def attached (tree : NamespaceTree) : NodeKey → Bool
  | [] => true
  | name :: up => tree.attached up && decide (name ∈ (tree.node up).children)

@[simp] theorem attached_nil (tree : NamespaceTree) : tree.attached [] = true := rfl

@[simp] theorem attached_cons (tree : NamespaceTree) (name : Bytes) (up : NodeKey) :
    tree.attached (name :: up) = true ↔ tree.attached up = true ∧ name ∈ (tree.node up).children := by
  simp [attached]

@[simp] theorem setNode_node_self (tree : NamespaceTree) (key : NodeKey) (n : NamespaceNode) :
    (tree.setNode key n).node key = n := by
  simp [setNode]

theorem setNode_node_of_ne (tree : NamespaceTree) {key : NodeKey} (n : NamespaceNode) (h : k ≠ key) :
    (tree.setNode key n).node k = tree.node k := by
  simp [setNode, update_of_ne h]

theorem attached_congr (h : ∀ k, (t'.node k).children = (t.node k).children) (k : NodeKey) :
    t'.attached k = t.attached k := by
  induction k with
  | nil => rfl
  | cons name up ih => rw [attached, attached, ih, h]

theorem attached_of_suffix {d : NodeKey} (h : k <:+ d) (hd : tree.attached d = true) :
    tree.attached k = true := by
  induction d with
  | nil => rw [suffix_nil.1 h]; rfl
  | cons c d ih =>
    rcases suffix_cons_iff.1 h with h | h
    · exact h ▸ hd
    · exact ih h ((attached_cons _ _ _).1 hd).1

theorem attached_removeChild (tree : NamespaceTree) (key : NodeKey) (name : Bytes) (k : NodeKey) :
    (tree.removeChild key name).attached k = true ↔ tree.attached k = true ∧ ¬ (name :: key) <:+ k := by
  induction k with
  | nil => simp
  | cons c up ih =>
    rw [attached_cons, ih, attached_cons, suffix_cons_iff]
    by_cases hup : up = key
    · subst hup
      simp only [removeChild, setNode_node_self, Finset.mem_erase]
      constructor
      · intro ⟨⟨ha, hs⟩, hne, hc⟩
        exact ⟨⟨ha, hc⟩, fun h => h.elim (fun e => hne (cons.inj e).1.symm) hs⟩
      · intro ⟨⟨ha, hc⟩, hs⟩
        exact ⟨⟨ha, fun h => hs (.inr h)⟩, fun e => hs (.inl (e ▸ rfl)), hc⟩
    · rw [removeChild, setNode_node_of_ne tree _ hup]
      constructor
      · intro ⟨⟨ha, hs⟩, hc⟩
        exact ⟨⟨ha, hc⟩, fun h => h.elim (fun e => hup (cons.inj e).2.symm) hs⟩
      · intro ⟨⟨ha, hc⟩, hs⟩
        exact ⟨⟨ha, fun h => hs (.inr h)⟩, hc⟩

theorem attached_addChild {key : NodeKey} {name : Bytes} (ha : tree.attached key = true)
    (hn : name ∉ (tree.node key).children) (k : NodeKey) :
    (tree.addChild key name).attached k = true ↔ tree.attached k = true ∨ k = name :: key := by
  induction k with
  | nil => simp
  | cons c up ih =>
    rw [attached_cons, ih, attached_cons]
    by_cases hnew : up = name :: key
    · subst hnew
      have hout : tree.attached (name :: key) ≠ true := fun h => hn ((attached_cons _ _ _).1 h).2
      simp [addChild, hout]
    · rw [addChild, setNode_node_of_ne _ _ hnew]
      by_cases hup : up = key
      · subst hup
        simp only [setNode_node_self, Finset.mem_insert, hnew, or_false, ha, true_and, cons.injEq,
          and_true]
        exact or_comm
      · rw [setNode_node_of_ne tree _ hup]
        simp [hnew, hup]

/-! ## 2. Counts -/

def keptChildren (tree : NamespaceTree) (k : NodeKey) : Finset Bytes :=
  (tree.node k).children.filter fun c => (tree.node (c :: k)).shouldKeep = true

/-- What the proofs use of the relation between the number of kept children and the count. -/
structure CountRel (r : Nat → Nat → Prop) : Prop where
  zero : r 0 0
  succ : ∀ a b, r (a + 1) (b + 1) ↔ r a b
  pos : ∀ a b, r (a + 1) b → 0 < b

theorem countRel_le : CountRel (· ≤ ·) :=
  ⟨le_rfl, fun _ _ => Nat.succ_le_succ_iff, fun _ _ h => by omega⟩

theorem countRel_eq : CountRel (· = ·) := ⟨rfl, fun _ _ => Nat.succ_inj, fun _ _ h => by omega⟩

theorem CountRel.pred {r : Nat → Nat → Prop} (hr : CountRel r) {a b : Nat} (h : r (a + 1) b) :
    r a (b - 1) := by
  have := hr.pos a b h
  obtain ⟨b, rfl⟩ : ∃ b', b = b' + 1 := ⟨b - 1, by omega⟩
  exact (hr.succ a b).1 h

/-- The count of a node is in the relation `r` to the number of its kept children. -/
def BalancedAt (r : Nat → Nat → Prop) (tree : NamespaceTree) (k : NodeKey) : Prop :=
  r (tree.keptChildren k).card (tree.node k).activeChildCount

def Balanced (r : Nat → Nat → Prop) (tree : NamespaceTree) : Prop :=
  ∀ k, tree.attached k = true → BalancedAt r tree k

def Tidy (tree : NamespaceTree) : Prop :=
  ∀ k, k ≠ [] → tree.attached k = true → (tree.node k).shouldKeep = true

theorem keptChildren_congr (hc : (t'.node k).children = (t.node k).children)
    (hs : ∀ c, (t'.node (c :: k)).shouldKeep = (t.node (c :: k)).shouldKeep) :
    t'.keptChildren k = t.keptChildren k := by
  rw [keptChildren, keptChildren, hc]
  exact Finset.filter_congr fun c _ => by rw [hs c]

theorem card_keptChildren_succ {name : Bytes} {up : NodeKey}
    (hc : (t'.node up).children = (t.node up).children) (hn : name ∈ (t.node up).children)
    (hs : ∀ c, c ≠ name → (t'.node (c :: up)).shouldKeep = (t.node (c :: up)).shouldKeep)
    (h : (t.node (name :: up)).shouldKeep = false) (h' : (t'.node (name :: up)).shouldKeep = true) :
    (t'.keptChildren up).card = (t.keptChildren up).card + 1 := by
  have hout : name ∉ t.keptChildren up := by simp [keptChildren, h]
  rw [← Finset.card_insert_of_notMem hout]
  congr 1
  ext c
  by_cases hcn : c = name
  · subst hcn
    simp [keptChildren, hc, hn, h']
  · simp [keptChildren, hc, hs c hcn, hcn]

theorem CountRel.count_pos {r : Nat → Nat → Prop} (hr : CountRel r) {c : Bytes} (hb : BalancedAt r tree k)
    (hc : c ∈ tree.keptChildren k) :
    0 < (tree.node k).activeChildCount := by
  have hcard := Finset.card_pos.2 ⟨c, hc⟩
  obtain ⟨n, hn⟩ : ∃ n, (tree.keptChildren k).card = n + 1 := ⟨_, (Nat.succ_pred_eq_of_pos hcard).symm⟩
  rw [BalancedAt, hn] at hb
  exact hr.pos _ _ hb

theorem shouldKeep_of_count {n : NamespaceNode} (h : 0 < n.activeChildCount) : n.shouldKeep = true := by
  simp [shouldKeep, h]

theorem shouldKeep_of_content {n : NamespaceNode} (h : n.hasContent = true) : n.shouldKeep = true := by
  simp [shouldKeep, h]

/-- **A node with content below it is kept**, where no count is zero above a kept child. -/
theorem shouldKeep_of_below
    (hpos : ∀ k, tree.attached k = true → ∀ c ∈ tree.keptChildren k, 0 < (tree.node k).activeChildCount)
    {d : NodeKey} (h : k <:+ d) (hd : tree.attached d = true) (hkeep : (tree.node d).shouldKeep = true) :
    (tree.node k).shouldKeep = true := by
  induction d with
  | nil => rwa [suffix_nil.1 h]
  | cons c d ih =>
    rcases suffix_cons_iff.1 h with h | h
    · exact h ▸ hkeep
    · obtain ⟨ha, hc⟩ := (attached_cons _ _ _).1 hd
      exact ih h ha (shouldKeep_of_count (hpos d ha c (Finset.mem_filter.2 ⟨hc, hkeep⟩)))

/-! ## 3. A change of one node -/

section change

variable (hch : n.children = (tree.node key).children)

include hch

theorem children_setNode (k : NodeKey) : ((tree.setNode key n).node k).children = (tree.node k).children := by
  by_cases hk : k = key
  · rw [hk, setNode_node_self, hch]
  · rw [setNode_node_of_ne tree n hk]

theorem attached_setNode (k : NodeKey) : (tree.setNode key n).attached k = tree.attached k :=
  attached_congr (children_setNode hch) k

theorem keptChildren_setNode (hk : ∀ c, c :: k ≠ key) :
    (tree.setNode key n).keptChildren k = tree.keptChildren k :=
  keptChildren_congr (children_setNode hch k) fun c => by rw [setNode_node_of_ne tree n (hk c)]

theorem keptChildren_setNode_same (hs : n.shouldKeep = (tree.node key).shouldKeep) (k : NodeKey) :
    (tree.setNode key n).keptChildren k = tree.keptChildren k := by
  refine keptChildren_congr (children_setNode hch k) fun c => ?_
  by_cases hk : c :: k = key
  · rw [hk, setNode_node_self, hs]
  · rw [setNode_node_of_ne tree n hk]

theorem balancedAt_setNode (hk : k ≠ key) (hc : ∀ c, c :: k ≠ key) :
    BalancedAt r (tree.setNode key n) k ↔ BalancedAt r tree k := by
  rw [BalancedAt, BalancedAt, keptChildren_setNode hch hc, setNode_node_of_ne tree n hk]

theorem balancedAt_setNode_same (hs : n.shouldKeep = (tree.node key).shouldKeep) (hk : k ≠ key) :
    BalancedAt r (tree.setNode key n) k ↔ BalancedAt r tree k := by
  rw [BalancedAt, BalancedAt, keptChildren_setNode_same hch hs, setNode_node_of_ne tree n hk]

theorem balancedAt_setNode_self :
    BalancedAt r (tree.setNode key n) key ↔ r (tree.keptChildren key).card n.activeChildCount := by
  rw [BalancedAt, keptChildren_setNode hch fun c => cons_ne_self c key, setNode_node_self]

theorem card_keptChildren_setNode {name : Bytes} {up : NodeKey} (hkey : key = name :: up)
    (hn : name ∈ (tree.node up).children) (h : (tree.node key).shouldKeep = false)
    (h' : n.shouldKeep = true) :
    ((tree.setNode key n).keptChildren up).card = (tree.keptChildren up).card + 1 := by
  subst hkey
  refine card_keptChildren_succ (children_setNode hch up) hn (fun c hc => ?_) h (by rwa [setNode_node_self])
  rw [setNode_node_of_ne tree n fun e => hc (cons.inj e).1]

theorem card_keptChildren_setNode_pred {name : Bytes} {up : NodeKey} (hkey : key = name :: up)
    (hn : name ∈ (tree.node up).children) (h : (tree.node key).shouldKeep = true)
    (h' : n.shouldKeep = false) :
    (tree.keptChildren up).card = ((tree.setNode key n).keptChildren up).card + 1 := by
  subst hkey
  have hch' := children_setNode hch up
  refine card_keptChildren_succ hch'.symm (hch' ▸ hn) (fun c hc => ?_) (by rwa [setNode_node_self]) h
  rw [setNode_node_of_ne tree n fun e => hc (cons.inj e).1]

end change

theorem cons_ne_of_ne {name c : Bytes} {up : NodeKey} (h : k ≠ up) : c :: k ≠ name :: up :=
  fun e => h (cons.inj e).2

/-! ## 4. A child becomes active -/

structure Raised (t t' : NamespaceTree) : Prop where
  node : ∀ k, ∃ c, (t.node k).activeChildCount ≤ c ∧ t'.node k = { t.node k with activeChildCount := c }
  seq : t'.nextRouteSeq = t.nextRouteSeq
  underflow : t'.underflow = t.underflow

theorem Raised.trans {t'' : NamespaceTree} (h : Raised t t') (h' : Raised t' t'') : Raised t t'' := by
  refine ⟨fun k => ?_, h'.seq.trans h.seq, h'.underflow.trans h.underflow⟩
  obtain ⟨c, hc, hn⟩ := h.node k
  obtain ⟨c', hc', hn'⟩ := h'.node k
  rw [hn] at hc' hn'
  exact ⟨c', hc.trans hc', hn'⟩

theorem Raised.children (h : Raised t t') (k : NodeKey) :
    (t'.node k).children = (t.node k).children := by
  obtain ⟨c, -, hn⟩ := h.node k
  rw [hn]

theorem Raised.attached (h : Raised t t') (k : NodeKey) :
    t'.attached k = t.attached k := attached_congr h.children k

theorem Raised.hasContent (h : Raised t t') (k : NodeKey) :
    (t'.node k).hasContent = (t.node k).hasContent := by
  obtain ⟨c, -, hn⟩ := h.node k
  rw [hn]
  rfl

theorem Raised.shouldKeep (h : Raised t t') (hk : (t.node k).shouldKeep = true) :
    (t'.node k).shouldKeep = true := by
  obtain ⟨c, hc, hn⟩ := h.node k
  rw [NamespaceNode.shouldKeep, h.hasContent k]
  rw [NamespaceNode.shouldKeep, Bool.or_eq_true, decide_eq_true_eq] at hk
  rw [Bool.or_eq_true, decide_eq_true_eq, hn]
  exact hk.imp id fun h => lt_of_lt_of_le h hc

def withCount (n : NamespaceNode) (c : Nat) : NamespaceNode := { n with activeChildCount := c }

theorem raised_setNode (tree : NamespaceTree) (key : NodeKey) :
    Raised tree (tree.setNode key (withCount (tree.node key) ((tree.node key).activeChildCount + 1))) := by
  refine ⟨fun k => ?_, rfl, rfl⟩
  by_cases hk : k = key
  · subst hk
    exact ⟨_, Nat.le_succ _, setNode_node_self _ _ _⟩
  · exact ⟨_, le_rfl, setNode_node_of_ne _ _ hk⟩

theorem incrementActiveChildren_raised (key : NodeKey) (tree : NamespaceTree) :
    Raised tree (incrementActiveChildren key tree) := by
  induction key generalizing tree with
  | nil => exact raised_setNode tree []
  | cons name up ih =>
    have hone := raised_setNode tree (name :: up)
    rw [incrementActiveChildren]
    split
    · exact hone.trans (ih _)
    · exact hone

/-- **The walk up of a new active child.** It repairs the one node whose count is one short. -/
theorem incrementActiveChildren_balanced {r : Nat → Nat → Prop} (hr : CountRel r) (key : NodeKey)
    (tree : NamespaceTree) (ha : tree.attached key = true)
    (hb : ∀ k, tree.attached k = true → k ≠ key → BalancedAt r tree k)
    (hkey : r (tree.keptChildren key).card ((tree.node key).activeChildCount + 1)) :
    Balanced r (incrementActiveChildren key tree) := by
  induction key generalizing tree with
  | nil =>
    intro k hk
    have hk' : tree.attached k = true := by rwa [(incrementActiveChildren_raised [] tree).attached k] at hk
    have hsame := @keptChildren_setNode k [] tree
      (withCount (tree.node []) ((tree.node []).activeChildCount + 1)) rfl (by simp)
    rw [BalancedAt, incrementActiveChildren]
    by_cases hroot : k = []
    · subst hroot
      rw [setNode_node_self]
      exact hsame ▸ hkey
    · rw [setNode_node_of_ne _ _ hroot]
      exact hsame ▸ hb k hk' hroot
  | cons name up ih =>
    obtain ⟨haup, hname⟩ := (attached_cons _ _ _).1 ha
    have hch : (withCount (tree.node (name :: up)) ((tree.node (name :: up)).activeChildCount + 1)).children =
        (tree.node (name :: up)).children := rfl
    have hself : BalancedAt r (tree.setNode (name :: up) _) (name :: up) := (balancedAt_setNode_self hch).2 hkey
    rw [incrementActiveChildren]
    split
    · -- the node was not counted before, so that its parent is one short now
      rename_i hfirst
      have hcount : (tree.node (name :: up)).activeChildCount = 0 := Nat.succ_inj.1 hfirst.1
      have hcontent : (tree.node (name :: up)).hasContent = false := by
        simpa [hasContent] using hfirst.2
      have hnot : (tree.node (name :: up)).shouldKeep = false := by
        simp [shouldKeep, hcontent, hcount]
      refine ih _ ((attached_setNode hch up).trans haup) (fun k hk hne => ?_) ?_
      · by_cases hkey : k = name :: up
        · exact hkey ▸ hself
        · exact (balancedAt_setNode hch hkey fun c => cons_ne_of_ne hne).2
            (hb k ((attached_setNode hch k).symm.trans hk) hkey)
      · have hcard := card_keptChildren_setNode hch rfl hname hnot (shouldKeep_of_count (Nat.succ_pos _))
        have hnode := setNode_node_of_ne tree
          (withCount (tree.node (name :: up)) ((tree.node (name :: up)).activeChildCount + 1))
          (cons_ne_self name up).symm
        exact (hcard.symm ▸ hnode.symm ▸ (hr.succ _ _).2 (hb up haup (cons_ne_self name up).symm) :
          r _ (_ + 1))
    · -- the node was kept already
      rename_i hfirst
      have hkept : (tree.node (name :: up)).shouldKeep = true := by
        rw [shouldKeep, Bool.or_eq_true, decide_eq_true_eq]
        by_contra hnot
        rw [not_or] at hnot
        refine hfirst ⟨?_, by simpa [hasContent] using hnot.1⟩
        show (tree.node (name :: up)).activeChildCount + 1 = 1
        omega
      intro k hk
      by_cases hkey : k = name :: up
      · exact hkey ▸ hself
      · exact (balancedAt_setNode_same hch ((shouldKeep_of_count (Nat.succ_pos _)).trans hkept.symm) hkey).2
          (hb k ((attached_setNode hch k).symm.trans hk) hkey)

/-! ## 5. Pruning -/

def Pruned (t t' : NamespaceTree) : Prop :=
  t'.nextRouteSeq = t.nextRouteSeq ∧
  ∀ k, ∃ c ch, t'.node k = { t.node k with activeChildCount := c, children := ch }

theorem Pruned.trans {t'' : NamespaceTree} (h : Pruned t t') (h' : Pruned t' t'') : Pruned t t'' := by
  refine ⟨h'.1.trans h.1, fun k => ?_⟩
  obtain ⟨c, ch, hn⟩ := h.2 k
  obtain ⟨c', ch', hn'⟩ := h'.2 k
  rw [hn] at hn'
  exact ⟨c', ch', hn'⟩

theorem decrementActiveChildren_node_self (tree : NamespaceTree) (key : NodeKey) :
    (tree.decrementActiveChildren key).node key =
      withCount (tree.node key) ((tree.node key).activeChildCount - 1) := setNode_node_self _ _ _

theorem decrementActiveChildren_node_of_ne (tree : NamespaceTree) {key : NodeKey} (h : k ≠ key) :
    (tree.decrementActiveChildren key).node k = tree.node k := setNode_node_of_ne _ _ h

theorem decrementActiveChildren_attached (tree : NamespaceTree) (key k : NodeKey) :
    (tree.decrementActiveChildren key).attached k = tree.attached k := by
  refine attached_congr (fun k => ?_) k
  by_cases hk : k = key
  · rw [hk, decrementActiveChildren_node_self]
    rfl
  · rw [decrementActiveChildren_node_of_ne tree hk]

theorem decrementActiveChildren_hasContent (tree : NamespaceTree) (key k : NodeKey) :
    ((tree.decrementActiveChildren key).node k).hasContent = (tree.node k).hasContent := by
  by_cases hk : k = key
  · rw [hk, decrementActiveChildren_node_self]
    rfl
  · rw [decrementActiveChildren_node_of_ne tree hk]

theorem decrementActiveChildren_pruned (tree : NamespaceTree) (key : NodeKey) :
    Pruned tree (tree.decrementActiveChildren key) := by
  refine ⟨rfl, fun k => ?_⟩
  by_cases hk : k = key
  · subst hk
    exact ⟨_, _, setNode_node_self _ _ _⟩
  · exact ⟨_, _, setNode_node_of_ne _ _ hk⟩

theorem removeChild_pruned (tree : NamespaceTree) (key : NodeKey) (name : Bytes) :
    Pruned tree (tree.removeChild key name) := by
  refine ⟨rfl, fun k => ?_⟩
  by_cases hk : k = key
  · subst hk
    exact ⟨_, _, setNode_node_self _ _ _⟩
  · exact ⟨_, _, setNode_node_of_ne _ _ hk⟩

theorem pruneUp_pruned (up : NodeKey) (name : Bytes) (tree : NamespaceTree) :
    Pruned tree (pruneUp up name tree) := by
  induction up generalizing name tree with
  | nil => exact (decrementActiveChildren_pruned tree []).trans (removeChild_pruned _ _ _)
  | cons name' up ih =>
    have hdec := decrementActiveChildren_pruned tree (name' :: up)
    rw [pruneUp]
    split
    · exact hdec.trans (removeChild_pruned _ _ _)
    · exact hdec.trans (ih _ _)

/-- What pruning a child that is not kept any more does: the child is gone, with its empty ancestors, the
    counts are right again, and no node that was kept is gone. -/
structure PruneResult (r : Nat → Nat → Prop) (t t' : NamespaceTree) : Prop where
  balanced : Balanced r t'
  underflow : t'.underflow = t.underflow
  attached : ∀ k, t'.attached k = true → t.attached k = true
  /-- What is gone has no content. -/
  gone : ∀ k, t.attached k = true → t'.attached k ≠ true → (t.node k).hasContent = false

/-- The state in which the walk up stands at a node: the child `name` is not kept any more, and the count
    still includes it. -/
structure PruneState (r : Nat → Nat → Prop) (t : NamespaceTree) (up : NodeKey) (name : Bytes) : Prop where
  attached : t.attached up = true
  child : name ∈ (t.node up).children
  empty : (t.node (name :: up)).shouldKeep = false
  others : ∀ k, t.attached k = true → k ≠ up → BalancedAt r t k
  here : r ((t.keptChildren up).card + 1) (t.node up).activeChildCount

section prune

variable (hr : CountRel r) {up : NodeKey} {name : Bytes} (h : PruneState r t up name)

include hr h

theorem PruneState.count_pos : 0 < (t.node up).activeChildCount := hr.pos _ _ h.here

theorem PruneState.nothing_below {k : NodeKey} (hk : (name :: up) <:+ k) (ha : t.attached k = true) :
    (t.node k).hasContent = false := by
  by_contra hcontent
  have hpos : ∀ k, t.attached k = true → ∀ c ∈ t.keptChildren k, 0 < (t.node k).activeChildCount := by
    intro k hk c hc
    by_cases hup : k = up
    · exact hup ▸ h.count_pos hr
    · exact hr.count_pos (h.others k hk hup) hc
  have hkeep := shouldKeep_of_below hpos hk ha (shouldKeep_of_content (eq_true_of_ne_false hcontent))
  rw [h.empty] at hkeep
  cases hkeep

theorem PruneState.underflow : (t.decrementActiveChildren up).underflow = t.underflow := by
  have hpos := h.count_pos hr
  have hne : ((t.node up).activeChildCount == 0) = false := by
    rw [beq_eq_false_iff_ne]
    omega
  show (t.underflow || _) = _
  rw [hne, Bool.or_false]

theorem PruneState.decrement_here : BalancedAt r (t.decrementActiveChildren up) up :=
  (@balancedAt_setNode_self up t (withCount (t.node up) ((t.node up).activeChildCount - 1)) r rfl).2
    (hr.pred h.here)

theorem PruneState.removeChild
    (hb : Balanced r (t.decrementActiveChildren up)) :
    PruneResult r t ((t.decrementActiveChildren up).removeChild up name) := by
  have hatt := decrementActiveChildren_attached t up
  have hempty : ((t.decrementActiveChildren up).node (name :: up)).shouldKeep = false := by
    rw [decrementActiveChildren_node_of_ne t (cons_ne_self name up), h.empty]
  refine ⟨fun k hk => ?_, h.underflow hr, fun k hk => ?_, fun k hk hgone => ?_⟩
  · have hold := hb k ((attached_removeChild _ _ _ _).1 hk).1
    by_cases hup : k = up
    · subst hup
      have hsame : ((t.decrementActiveChildren k).removeChild k name).keptChildren k =
          (t.decrementActiveChildren k).keptChildren k := by
        ext c
        have hc : ((t.decrementActiveChildren k).removeChild k name).node (c :: k) =
            (t.decrementActiveChildren k).node (c :: k) :=
          setNode_node_of_ne _ _ (cons_ne_self c k)
        simp only [keptChildren, Finset.mem_filter, hc]
        simp only [NamespaceTree.removeChild, setNode_node_self, Finset.mem_erase]
        constructor
        · exact fun ⟨⟨_, hc⟩, hk⟩ => ⟨hc, hk⟩
        · intro ⟨hc, hk⟩
          refine ⟨⟨fun e => ?_, hc⟩, hk⟩
          rw [e, hempty] at hk
          cases hk
      rw [BalancedAt, hsame, NamespaceTree.removeChild, setNode_node_self]
      exact hold
    · have hsame : ((t.decrementActiveChildren up).removeChild up name).keptChildren k =
          (t.decrementActiveChildren up).keptChildren k := by
        refine keptChildren_congr (by rw [NamespaceTree.removeChild, setNode_node_of_ne _ _ hup]) fun c => ?_
        by_cases hc : c :: k = up
        · rw [hc, NamespaceTree.removeChild, setNode_node_self]
          rfl
        · rw [NamespaceTree.removeChild, setNode_node_of_ne _ _ hc]
      rw [BalancedAt, hsame, NamespaceTree.removeChild, setNode_node_of_ne _ _ hup]
      exact hold
  · exact (hatt k).symm.trans ((attached_removeChild _ _ _ _).1 hk).1
  · have hbelow : (name :: up) <:+ k := by
      by_contra hnot
      exact hgone ((attached_removeChild _ _ _ _).2 ⟨(hatt k).trans hk, hnot⟩)
    exact h.nothing_below hr hbelow hk

end prune

/-- **The walk up from a child that is not kept any more.** -/
theorem pruneUp_result {r : Nat → Nat → Prop} (hr : CountRel r) (up : NodeKey) (name : Bytes)
    (t : NamespaceTree) (h : PruneState r t up name) : PruneResult r t (pruneUp up name t) := by
  induction up generalizing name t with
  | nil =>
    refine h.removeChild hr fun k hk => ?_
    by_cases hroot : k = []
    · exact hroot ▸ h.decrement_here hr
    · exact (@balancedAt_setNode k [] t (withCount (t.node []) ((t.node []).activeChildCount - 1)) r rfl hroot
        (by simp)).2
        (h.others k ((decrementActiveChildren_attached t [] k).symm.trans hk) hroot)
  | cons name' up ih =>
    obtain ⟨haup, hname⟩ := (attached_cons _ _ _).1 h.attached
    have hch : (withCount (t.node (name' :: up)) ((t.node (name' :: up)).activeChildCount - 1)).children =
        (t.node (name' :: up)).children := rfl
    have hatt := decrementActiveChildren_attached t (name' :: up)
    have hkept : (t.node (name' :: up)).shouldKeep = true := shouldKeep_of_count (h.count_pos hr)
    rw [pruneUp]
    split
    · rename_i hkeep
      refine h.removeChild hr fun k hk => ?_
      by_cases hhere : k = name' :: up
      · exact hhere ▸ h.decrement_here hr
      · have hsame : (withCount (t.node (name' :: up))
            ((t.node (name' :: up)).activeChildCount - 1)).shouldKeep = (t.node (name' :: up)).shouldKeep := by
          rw [hkept, ← hkeep, decrementActiveChildren_node_self]
        exact (balancedAt_setNode_same hch hsame hhere).2 (h.others k ((hatt k).symm.trans hk) hhere)
    · -- the node is empty now, and its own parent counts it still
      rename_i hkeep
      have hempty : ((t.decrementActiveChildren (name' :: up)).node (name' :: up)).shouldKeep = false := by
        simpa using hkeep
      have hup := decrementActiveChildren_node_of_ne t (cons_ne_self name' up).symm
      have hstate : PruneState r (t.decrementActiveChildren (name' :: up)) up name' := by
        refine ⟨(hatt up).trans haup, hup.symm ▸ hname, hempty, fun k hk hne => ?_, ?_⟩
        · by_cases hhere : k = name' :: up
          · exact hhere ▸ h.decrement_here hr
          · exact (balancedAt_setNode hch hhere fun c => cons_ne_of_ne hne).2
              (h.others k ((hatt k).symm.trans hk) hhere)
        · have hn : (withCount (t.node (name' :: up))
              ((t.node (name' :: up)).activeChildCount - 1)).shouldKeep = false := by
            rw [← hempty, decrementActiveChildren_node_self]
          have hcard : (t.keptChildren up).card =
              ((t.decrementActiveChildren (name' :: up)).keptChildren up).card + 1 :=
            card_keptChildren_setNode_pred hch rfl hname hkept hn
          rw [hup, ← hcard]
          exact h.others up haup (cons_ne_self name' up).symm
      have hres := ih name' _ hstate
      refine ⟨hres.balanced, hres.underflow.trans (h.underflow hr),
        fun k hk => (hatt k).symm.trans (hres.attached k hk), fun k hk hgone => ?_⟩
      rw [← hres.gone k ((hatt k).trans hk) hgone, decrementActiveChildren_hasContent]

theorem pruneUp_tidy (up : NodeKey) (name : Bytes) (t : NamespaceTree)
    (h : ∀ k, k ≠ [] → t.attached k = true → ¬ (name :: up) <:+ k → (t.node k).shouldKeep = true) :
    Tidy (pruneUp up name t) := by
  induction up generalizing name t with
  | nil =>
    intro k hne hk
    obtain ⟨ha, hnot⟩ := (attached_removeChild _ _ _ _).1 hk
    rw [decrementActiveChildren_attached] at ha
    rw [pruneUp, removeChild, setNode_node_of_ne _ _ hne, decrementActiveChildren_node_of_ne t hne]
    exact h k hne ha hnot
  | cons name' up ih =>
    rw [pruneUp]
    split
    · rename_i hkeep
      intro k hne hk
      obtain ⟨ha, hnot⟩ := (attached_removeChild _ _ _ _).1 hk
      rw [decrementActiveChildren_attached] at ha
      by_cases hhere : k = name' :: up
      · rw [hhere, removeChild, setNode_node_self]
        exact hkeep
      · rw [removeChild, setNode_node_of_ne _ _ hhere, decrementActiveChildren_node_of_ne t hhere]
        exact h k hne ha hnot
    · refine ih name' _ fun k hne ha hnot => ?_
      have hhere : k ≠ name' :: up := fun e => hnot (e ▸ suffix_refl _)
      rw [decrementActiveChildren_attached] at ha
      rw [decrementActiveChildren_node_of_ne t hhere]
      exact h k hne ha fun hbelow => hnot ((suffix_cons _ _).trans hbelow)

/-! ## 6. A change of a node's content -/

/-- A change of the content of a node, which leaves the rest. -/
structure ContentChange (change : NamespaceNode → NamespaceNode) : Prop where
  children : ∀ n, (change n).children = n.children
  count : ∀ n, (change n).activeChildCount = n.activeChildCount
  advertisements : ∀ n, (change n).advertisements = n.advertisements

inductive Guarded (t : NamespaceTree) (key : NodeKey) (n : NamespaceNode) : NamespaceTree → Prop
  /-- The parent counts the node as before. -/
  | plain (h : (n.shouldKeep = (t.node key).shouldKeep ∧
      (n.hasContent = true → (t.node key).hasContent = true)) ∨ key = []) : Guarded t key n (t.setNode key n)
  | first {name : Bytes} {up : NodeKey} (hkey : key = name :: up) (hold : (t.node key).hasContent = false)
      (hnew : n.hasContent = true) : Guarded t key n (incrementActiveChildren up (t.setNode key n))
  | last {name : Bytes} {up : NodeKey} (hkey : key = name :: up) (hold : (t.node key).hasContent = true)
      (hnew : n.shouldKeep = false) : Guarded t key n (pruneUp up name (t.setNode key n))

theorem withGuard_guarded {t : NamespaceTree} {key : NodeKey} {change : NamespaceNode → NamespaceNode}
    (hc : ContentChange change) (ha : t.attached key = true) :
    Guarded t key (change (t.node key)) (t.withGuard key change) := by
  have hcount := hc.count (t.node key)
  cases key with
  | nil => exact .plain (.inr rfl)
  | cons name up =>
    obtain ⟨haup, hname⟩ := (attached_cons _ _ _).1 ha
    rw [withGuard]
    cases hold : (t.node (name :: up)).hasContent with
    | false =>
      cases hnew : (change (t.node (name :: up))).hasContent with
      | false =>
        have hsame : (change (t.node (name :: up))).shouldKeep = (t.node (name :: up)).shouldKeep := by
          rw [shouldKeep, shouldKeep, hold, hnew, hcount]
        simpa [notifyParentIfFirstContent, tryPruneSelf, hnew] using
          Guarded.plain (.inl ⟨hsame, fun h => by rw [hnew] at h; cases h⟩)
      | true =>
        simpa [notifyParentIfFirstContent, tryPruneSelf, hnew] using Guarded.first rfl hold hnew
    | true =>
      cases hkeep : (change (t.node (name :: up))).shouldKeep with
      | false =>
        have hup : (t.setNode (name :: up) (change (t.node (name :: up)))).node up = t.node up :=
          setNode_node_of_ne t _ (cons_ne_self name up).symm
        simpa [notifyParentIfFirstContent, tryPruneSelf, tryPruneChild, hkeep, hup, hname] using
          Guarded.last rfl hold hkeep
      | true =>
        simpa [notifyParentIfFirstContent, tryPruneSelf, hkeep] using
          Guarded.plain (.inl ⟨hkeep.trans (shouldKeep_of_content hold).symm, fun _ => hold⟩)

section guarded

variable (hr : CountRel r) (hch : n.children = (t.node key).children)
  (hcount : n.activeChildCount = (t.node key).activeChildCount) (ha : t.attached key = true)
  (hb : Balanced r t)

include hch hcount hb

theorem balancedAt_setNode_here (ha : t.attached key = true) : BalancedAt r (t.setNode key n) key := by
  rw [balancedAt_setNode_self hch, hcount]
  exact hb key ha

theorem balancedAt_setNode_other {k : NodeKey} (hk : t.attached k = true) (hp : ∀ c, c :: k ≠ key) :
    BalancedAt r (t.setNode key n) k := by
  by_cases hhere : k = key
  · rw [hhere]
    exact balancedAt_setNode_here hch hcount hb (hhere ▸ hk)
  · exact (balancedAt_setNode hch hhere hp).2 (hb k hk)

include ha in
theorem pruneState_setNode {name : Bytes} {up : NodeKey} (hkey : key = name :: up)
    (hold : (t.node key).hasContent = true) (hnew : n.shouldKeep = false) :
    PruneState r (t.setNode key n) up name := by
  obtain ⟨haup, hname⟩ := (attached_cons _ _ _).1 (hkey ▸ ha)
  have hup : (t.setNode key n).node up = t.node up :=
    setNode_node_of_ne t n fun e => cons_ne_self name up (e.trans hkey).symm
  refine ⟨(attached_setNode hch up).trans haup, hup.symm ▸ hname, ?_, fun k hk hne => ?_, ?_⟩
  · rw [← hkey, setNode_node_self, hnew]
  · exact balancedAt_setNode_other hch hcount hb ((attached_setNode hch k).symm.trans hk)
      fun c => hkey ▸ cons_ne_of_ne hne
  · rw [hup, ← card_keptChildren_setNode_pred hch hkey hname (shouldKeep_of_content hold) hnew]
    exact hb up haup

include hr ha in
/-- **A guarded change keeps the counts right.** First content for a node that is kept already is counted
    twice. -/
theorem Guarded.balanced (h : Guarded t key n t')
    (hfirst : (∀ a b, r a b → r a (b + 1)) ∨
      (key ≠ [] → (t.node key).hasContent = false → n.hasContent = true →
        (t.node key).shouldKeep = false)) :
    Balanced r t' ∧ t'.underflow = t.underflow := by
  cases h with
  | plain h =>
    refine ⟨fun k hk => ?_, rfl⟩
    have hk' := (attached_setNode hch k).symm.trans hk
    rcases h with h | h
    · by_cases hhere : k = key
      · rw [hhere]
        exact balancedAt_setNode_here hch hcount hb ha
      · exact (balancedAt_setNode_same hch h.1 hhere).2 (hb k hk')
    · exact balancedAt_setNode_other hch hcount hb hk' (by simp [h])
  | @first name up hkey hold hnew =>
    obtain ⟨haup, hname⟩ := (attached_cons _ _ _).1 (hkey ▸ ha)
    have hup : (t.setNode key n).node up = t.node up :=
      setNode_node_of_ne t n fun e => cons_ne_self name up (e.trans hkey).symm
    refine ⟨incrementActiveChildren_balanced hr up _ ((attached_setNode hch up).trans haup)
      (fun k hk hne => ?_) ?_, (incrementActiveChildren_raised up _).underflow⟩
    · exact balancedAt_setNode_other hch hcount hb ((attached_setNode hch k).symm.trans hk)
        fun c => hkey ▸ cons_ne_of_ne hne
    · rw [hup]
      cases hkept : (t.node key).shouldKeep with
      | false =>
        rw [card_keptChildren_setNode hch hkey hname hkept (shouldKeep_of_content hnew)]
        exact (hr.succ _ _).2 (hb up haup)
      | true =>
        rcases hfirst with hmono | hfirst
        · rw [keptChildren_setNode_same hch ((shouldKeep_of_content hnew).trans hkept.symm)]
          exact hmono _ _ (hb up haup)
        · rw [hfirst (by rw [hkey]; exact cons_ne_nil _ _) hold hnew] at hkept
          cases hkept
  | @last name up hkey hold hnew =>
    have hres := pruneUp_result hr up name _ (pruneState_setNode hch hcount ha hb hkey hold hnew)
    exact ⟨hres.balanced, hres.underflow⟩

end guarded

/-- **A guarded change leaves no node without a reason**, if the nodes that are not on the way to it had
    one, and if it has one itself or all the others had one. -/
theorem Guarded.tidy {r : Nat → Nat → Prop} (hr : CountRel r) {t t' : NamespaceTree} {key : NodeKey}
    {n : NamespaceNode} (hch : n.children = (t.node key).children) (ha : t.attached key = true)
    (hb : Balanced r t')
    (hoff : ∀ k, k ≠ [] → t.attached k = true → ¬ k <:+ key → (t.node k).shouldKeep = true)
    (hon : n.hasContent = true ∨ Tidy t) (h : Guarded t key n t') : Tidy t' := by
  have hpos : ∀ k, t'.attached k = true → ∀ c ∈ t'.keptChildren k, 0 < (t'.node k).activeChildCount :=
    fun k hk c hc => hr.count_pos (hb k hk) hc
  have hne : ∀ {k}, ¬ k <:+ key → k ≠ key := fun hk e => hk (e ▸ suffix_refl _)
  have hatt := attached_setNode hch
  cases h with
  | plain h =>
    intro k hroot hk
    rcases hon with hcontent | htidy
    · by_cases hpath : k <:+ key
      · refine shouldKeep_of_below hpos hpath ((hatt key).trans ha) ?_
        rw [setNode_node_self]
        exact shouldKeep_of_content hcontent
      · rw [setNode_node_of_ne t n (hne hpath)]
        exact hoff k hroot ((hatt k).symm.trans hk) hpath
    · by_cases hhere : k = key
      · rw [hhere, setNode_node_self, (h.resolve_right (hhere ▸ hroot)).1]
        exact htidy key (hhere ▸ hroot) ha
      · rw [setNode_node_of_ne t n hhere]
        exact htidy k hroot ((hatt k).symm.trans hk)
  | @first name up hkey hold hnew =>
    have hraised := incrementActiveChildren_raised up (t.setNode key n)
    intro k hroot hk
    have hk' := (hraised.attached k).symm.trans hk
    by_cases hpath : k <:+ key
    · refine shouldKeep_of_below hpos hpath ((hraised.attached key).trans ((hatt key).trans ha)) ?_
      refine hraised.shouldKeep ?_
      rw [setNode_node_self]
      exact shouldKeep_of_content hnew
    · refine hraised.shouldKeep ?_
      rw [setNode_node_of_ne t n (hne hpath)]
      exact hoff k hroot ((hatt k).symm.trans hk') hpath
  | @last name up hkey hold hnew =>
    have htidy : Tidy t := hon.resolve_left fun hcontent => by
      rw [shouldKeep_of_content hcontent] at hnew
      cases hnew
    refine pruneUp_tidy up name _ fun k hroot hk hbelow => ?_
    have hhere : k ≠ key := fun e => hbelow (by rw [e, hkey])
    rw [setNode_node_of_ne t n hhere]
    exact htidy k hroot ((hatt k).symm.trans hk)

end NamespaceTree

end Moqx

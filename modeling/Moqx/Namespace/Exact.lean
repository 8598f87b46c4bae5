/-
  Subject: When the tree has the nodes it needs, and no others.

  * `exact_of_balanced` -- counts that agree with the kept children agree with the active ones;
  * `exact_iff_first_content_new` -- the runs in which the tree stays exact.
-/
import Moqx.Namespace.Directory

namespace Moqx

open List

namespace NamespaceTree

variable {k : NodeKey} {r : Nat → Nat → Prop}

/-! ## 1. Exact trees -/

def Active (t : NamespaceTree) (k : NodeKey) : Prop :=
  ∃ d, k <:+ d ∧ t.attached d = true ∧ (t.node d).hasContent = true

open Classical in
/-- The tree has exactly the nodes it needs. -/
structure Exact (t : NamespaceTree) : Prop where
  counts : ∀ k, t.attached k = true →
    (t.node k).activeChildCount = ((t.node k).children.filter fun c => t.Active (c :: k)).card
  needed : ∀ k, k ≠ [] → t.attached k = true → t.Active k
  underflow : t.underflow = false

/-- A call gives content to the root, to a node that has some already, or to one that it makes. -/
def FirstContentIsNew (t : NamespaceTree) (op : Op) : Prop :=
  op.adds = true → op.target ≠ [] → ∀ key above t',
    t.findNode op.target false = some (key, above, t') → (t.node key).hasContent = true

theorem FirstContentIsNew.hasContent {t : NamespaceTree} {op : Op} (h : FirstContentIsNew t op)
    (hadds : op.adds = true) (hkey : op.key ≠ []) (ha : t.attached op.key = true) :
    (t.node op.key).hasContent = true := by
  obtain ⟨above, hfind, -⟩ := findNode_found ha
  exact h hadds (fun e => hkey (by rw [Op.key, e]; rfl)) _ _ _ hfind

def Shallow (t : NamespaceTree) : Prop := ∃ depth, ∀ k, t.attached k = true → k.length ≤ depth

section balanced

variable {t : NamespaceTree} (hb : Balanced (· = ·) t) (hs : Shallow t)

include hb

theorem shouldKeep_of_active (h : t.Active k) : (t.node k).shouldKeep = true := by
  obtain ⟨d, hd, ha, hc⟩ := h
  exact shouldKeep_of_below (fun k hk _ hc => countRel_eq.count_pos (hb k hk) hc) hd ha (shouldKeep_of_content hc)

include hs

theorem active_of_shouldKeep (ha : t.attached k = true) (hk : (t.node k).shouldKeep = true) :
    t.Active k := by
  obtain ⟨depth, hdepth⟩ := hs
  -- by induction on how much deeper the tree can go below the node
  obtain ⟨m, hm⟩ : ∃ m, depth - k.length = m := ⟨_, rfl⟩
  induction m generalizing k with
  | zero =>
    cases hc : (t.node k).hasContent with
    | true => exact ⟨k, suffix_refl k, ha, hc⟩
    | false =>
      rw [NamespaceNode.shouldKeep, hc, Bool.false_or, decide_eq_true_eq, ← hb k ha] at hk
      obtain ⟨c, hc⟩ := Finset.card_pos.1 hk
      have hlen := hdepth (c :: k) ((attached_cons _ _ _).2 ⟨ha, (Finset.mem_filter.1 hc).1⟩)
      rw [length_cons] at hlen
      omega
  | succ m ih =>
    cases hc : (t.node k).hasContent with
    | true => exact ⟨k, suffix_refl k, ha, hc⟩
    | false =>
      rw [NamespaceNode.shouldKeep, hc, Bool.false_or, decide_eq_true_eq, ← hb k ha] at hk
      obtain ⟨c, hc⟩ := Finset.card_pos.1 hk
      obtain ⟨hmem, hkeep⟩ := Finset.mem_filter.1 hc
      obtain ⟨d, hd, had, hdc⟩ := ih ((attached_cons _ _ _).2 ⟨ha, hmem⟩) hkeep
        (by rw [length_cons]; omega)
      exact ⟨d, (suffix_cons c k).trans hd, had, hdc⟩

open Classical in
theorem exact_of_balanced (ht : Tidy t) (hu : t.underflow = false) : Exact t where
  counts k hk := by
    rw [← hb k hk, keptChildren]
    refine congrArg Finset.card (Finset.filter_congr fun c hc => ?_)
    exact ⟨fun hkeep => active_of_shouldKeep hb hs ((attached_cons _ _ _).2 ⟨hk, hc⟩) hkeep,
      shouldKeep_of_active hb⟩
  needed k hroot hk := active_of_shouldKeep hb hs hk (ht k hroot hk)
  underflow := hu

end balanced

variable {t t' : NamespaceTree} {op : Op}

/-! ## 2. Calls -/

theorem Edited.shallow (hr : CountRel r) (h : Edited t op t') (hb : Balanced r t) (hs : Shallow t) : Shallow t' := by
  cases h with
  | refused => exact hs
  | @edited g g' _ n hg hd hguard hch hcount =>
    obtain ⟨depth, hdepth⟩ := hs
    refine ⟨max depth op.key.length, fun k hk => ?_⟩
    have hk' := hguard.attached_of hr hch hcount (hg.dressed_attached hd)
      (hd.redressed.balanced (hg.balanced r hr hb)) hk
    rw [hd.redressed.attached, hg.attached] at hk'
    rcases hk' with hk' | hk'
    · exact (hdepth k hk').trans (le_max_left _ _)
    · exact hk'.length_le.trans (le_max_right _ _)

theorem Edited.tidy (hr : CountRel r) (h : Edited t op t') (hb : Balanced r t') (ht : Tidy t) : Tidy t' := by
  cases h with
  | refused => exact ht
  | @edited g g' _ n hg hd hguard hch hcount _ hn hadd =>
    refine hguard.tidy hr hch (hg.dressed_attached hd) hb (fun k hroot hk hoff => ?_) ?_
    · rw [hd.redressed.attached, hg.attached] at hk
      obtain ⟨ch, hnode⟩ := hg.old k (hk.resolve_right hoff)
      rw [hd.redressed.shouldKeep, hnode]
      exact ht k hroot (hk.resolve_right hoff)
    · refine hadd.imp (·.2) fun ⟨_, hsame, _⟩ k hroot hk => ?_
      rw [hsame] at hd
      rw [hd.redressed.shouldKeep]
      exact ht k hroot ((hd.redressed.attached k).symm.trans hk)

theorem incrementActiveChildren_count (key : NodeKey) (t : NamespaceTree) :
    (t.node key).activeChildCount < ((incrementActiveChildren key t).node key).activeChildCount := by
  cases key with
  | nil =>
    rw [incrementActiveChildren, setNode_node_self]
    exact Nat.lt_succ_self _
  | cons name up =>
    rw [incrementActiveChildren]
    split
    · obtain ⟨c, hc, hn⟩ := (incrementActiveChildren_raised up (t.setNode (name :: up)
        (withCount (t.node (name :: up)) ((t.node (name :: up)).activeChildCount + 1)))).node (name :: up)
      rw [setNode_node_self] at hc
      exact lt_of_lt_of_le (Nat.lt_succ_self _) (hc.trans_eq (congrArg (·.activeChildCount) hn).symm)
    · rw [setNode_node_self]
      exact Nat.lt_succ_self _

theorem Grown.children {g : NamespaceTree} {key : NodeKey} (hg : Grown t g key)
    (hkey : t.attached key = true) (hk : t.attached k = true) :
    (g.node k).children = (t.node k).children := by
  have hsame : ∀ k, g.attached k = true ↔ t.attached k = true := fun k => by
    rw [hg.attached]
    exact ⟨fun h => h.elim id fun h => attached_of_suffix h hkey, .inl⟩
  ext c
  have hg' := (attached_cons g c k).symm.trans ((hsame (c :: k)).trans (attached_cons t c k))
  exact ⟨fun hc => (hg'.1 ⟨(hsame k).2 hk, hc⟩).2, fun hc => (hg'.2 ⟨hk, hc⟩).2⟩

open Classical in
theorem Exact.not_of_first_content (hexact : Exact t) (h : Edited t op t') (hadds : op.adds = true)
    (hkey : op.key ≠ []) (ha : t.attached op.key = true) (hold : (t.node op.key).hasContent = false) :
    ¬ Exact t' := by
  cases h with
  | refused hnot =>
    rw [hnot] at hadds
    cases hadds
  | @edited g g' _ n hg hd hguard hch hcount _ hn hadd =>
    have hnew : n.hasContent = true := hadd.elim (·.2) fun h => by
      rw [h.1] at hadds
      cases hadds
    have hold' : (g'.node op.key).hasContent = false := by
      obtain ⟨ch, hnode⟩ := hg.old op.key ha
      rw [NamespaceNode.hasContent_congr (hd.redressed.content op.key), hnode]
      exact hold
    cases hguard with
    | plain h =>
      rcases h with h | h
      · rw [h.2 hnew] at hold'
        cases hold'
      · exact absurd h hkey
    | last _ hcontent =>
      rw [hcontent] at hold'
      cases hold'
    | @first name up hkey' _ _ =>
      intro hexact'
      have hup : t.attached up = true := attached_of_suffix (hkey' ▸ suffix_cons name up) ha
      have hne : up ≠ op.key := fun e => cons_ne_self name up (hkey'.symm.trans e.symm)
      have hraised := incrementActiveChildren_raised up (g'.setNode op.key n)
      obtain ⟨ch, hnode⟩ := hg.old up hup
      obtain ⟨ads, hnode', -⟩ := hd.node up
      have hchildren : ((incrementActiveChildren up (g'.setNode op.key n)).node up).children =
          (t.node up).children := by
        rw [hraised.children, setNode_node_of_ne g' n hne, hnode', hg.children ha hup]
      have hattached : (incrementActiveChildren up (g'.setNode op.key n)).attached up = true := by
        rw [hraised.attached, attached_setNode hch, hd.redressed.attached, hg.attached]
        exact .inl hup
      have hbefore : (t.node up).activeChildCount = (t.node up).children.card := by
        rw [hexact.counts up hup]
        refine congrArg Finset.card (Finset.filter_true_of_mem fun c hc => ?_)
        exact hexact.needed (c :: up) (cons_ne_nil c up) ((attached_cons _ _ _).2 ⟨hup, hc⟩)
      have hafter := (hexact'.counts up hattached).le.trans (Finset.card_filter_le _ _)
      have hmore := incrementActiveChildren_count up (g'.setNode op.key n)
      rw [setNode_node_of_ne g' n hne, hnode', hnode] at hmore
      rw [hchildren, ← hbefore] at hafter
      exact absurd hmore (Nat.not_lt.2 hafter)

/-! ## 3. Runs -/

/-- What holds of the tree as long as first content goes to new nodes. -/
structure Neat (t : NamespaceTree) : Prop where
  balanced : Balanced (· = ·) t
  tidy : Tidy t
  shallow : Shallow t
  underflow : t.underflow = false

theorem Neat.exact (h : Neat t) : Exact t :=
  exact_of_balanced h.balanced h.shallow h.tidy h.underflow

theorem empty_neat : Neat {} where
  balanced := empty_balanced countRel_eq
  tidy k hroot hk := by
    cases k with
    | nil => exact absurd rfl hroot
    | cons name up => exact absurd ((attached_cons _ _ _).1 hk).2 (Finset.notMem_empty _)
  shallow := ⟨0, fun k hk => by
    cases k with
    | nil => exact le_rfl
    | cons name up => exact absurd ((attached_cons _ _ _).1 hk).2 (Finset.notMem_empty _)⟩
  underflow := rfl

theorem Neat.step (h : Neat t) (hnew : FirstContentIsNew t op) :
    Neat (t.step op) := by
  have he := step_edited t op
  obtain ⟨hb, hu⟩ := he.balanced countRel_eq h.balanced (.inr hnew.hasContent)
  exact ⟨hb, he.tidy countRel_eq hb h.tidy, he.shallow countRel_eq h.balanced h.shallow, hu.trans h.underflow⟩

/-- **The tree has exactly the nodes it needs, in every state of a run, if and only if no call of the run
    gives first content to a node, other than the root, that was there without content.** Such a node is
    there for the content below it and is counted already, and the call counts it again. -/
theorem exact_iff_first_content_new (ops : List Op) :
    (∀ before, before <+: ops → Exact (run before)) ↔
      ∀ before op, before ++ [op] <+: ops → FirstContentIsNew (run before) op := by
  constructor
  · intro h before op hop hadds htarget key above t' hfind
    by_contra hold
    have hkey : op.key ≠ [] := fun e => htarget (reverse_eq_nil_iff.1 e)
    have ha : (run before).attached op.key = true := by
      by_contra hnot
      rw [findNode_missing hnot] at hfind
      cases hfind
    have hfound : key = op.key := by
      obtain ⟨above', hfind', -⟩ := findNode_found ha
      rw [hfind] at hfind'
      exact (Prod.mk.inj (Option.some.inj hfind')).1
    have hexact := h before ((prefix_append _ _).trans hop)
    refine hexact.not_of_first_content (step_edited _ op) hadds hkey ha ?_ ?_
    · rw [← hfound]
      exact eq_false_of_ne_true hold
    · rw [← run_append]
      exact h _ hop
  · intro h before hbefore
    suffices hneat : Neat (run before) from hneat.exact
    induction before using reverseRecOn with
    | nil => exact empty_neat
    | append_singleton before op ih =>
      rw [run_append]
      exact (ih ((prefix_append _ _).trans hbefore)).step (h before op hbefore)

/-- A track is published three levels down, and its parent namespace subscribed to; both are taken
    back. -/
def leftoverOps : List Op :=
  [.addPublish ⟨[[120], [97], [98]], [116]⟩ 1,
   .addNamespaceSubscriber [[120], [97]] 2 ⟨true, .both, some 0, [[120], [97]], none, []⟩,
   .removeNamespaceSubscriber [[120], [97]] 2,
   .unpublishTrack [[120], [97], [98]] [116]]

/-- The subscription to `x/a` has counted `a` a second time in `x`: with all content gone `x` is still
    there, without children, and its count is 1. -/
theorem leftover_node_not_exact :
    (run leftoverOps).attached [[120]] = true ∧ ((run leftoverOps).node [[120]]).hasContent = false ∧
      ((run leftoverOps).node [[120]]).children = ∅ ∧
      ((run leftoverOps).node [[120]]).activeChildCount = 1 ∧ ¬ Exact (run leftoverOps) := by
  have hattached : (run leftoverOps).attached [[120]] = true := by decide +kernel
  have hchildren : ((run leftoverOps).node [[120]]).children = ∅ := by decide +kernel
  have hcount : ((run leftoverOps).node [[120]]).activeChildCount = 1 := by decide +kernel
  refine ⟨hattached, by decide +kernel, hchildren, hcount, fun hexact => ?_⟩
  have h := hexact.counts _ hattached
  rw [hcount, hchildren, Finset.filter_empty] at h
  cases h

end NamespaceTree

end Moqx

/-
  Subject: What the tree holds under each name, and the walks of `findNode`.

  * `findNode_found`, `findNode_created` -- the node, and the subscribers of the prefixes.
-/
import Mathlib.Data.List.Infix
import Moqx.Namespace.Counts

namespace Moqx

open NamespaceNode List

/-! ## 1. Content -/

structure Content where
  routes : List Route := []
  publishes : AList (fun _ : Bytes => SessionRef) := ∅
  subscribers : AList (fun _ : SessionRef => NamespaceSubscriberInfo) := ∅

def NamespaceNode.content (n : NamespaceNode) : Content := ⟨n.routes, n.publishes, n.subscribers⟩

theorem NamespaceNode.content_of_empty {n : NamespaceNode} (h : n.hasContent = false) : n.content = {} := by
  simp only [hasContent, Bool.or_eq_false_iff, Bool.not_eq_false', List.isEmpty_iff] at h
  obtain ⟨⟨hp, hs⟩, hr⟩ := h
  have hpub : n.publishes = ∅ := AList.ext hp
  have hsub : n.subscribers = ∅ := AList.ext hs
  rw [content, hr, hpub, hsub]

theorem NamespaceNode.hasContent_congr {n n' : NamespaceNode} (h : n.content = n'.content) :
    n.hasContent = n'.hasContent := by
  injection h with hr hp hs
  rw [hasContent, hasContent, hr, hp, hs]

def Content.subscriberList (c : Content) : NamespaceTree.SessionSubscriberList :=
  c.subscribers.entries.map fun e => (e.1, e.2)

namespace NamespaceTree

variable {t t' : NamespaceTree} {key k : NodeKey} {name : Bytes} {r : Nat → Nat → Prop} {n : NamespaceNode}

/-- What the tree holds under a key: nothing where there is no node. -/
def contentAt (tree : NamespaceTree) (k : NodeKey) : Content :=
  if tree.attached k then (tree.node k).content else {}

theorem contentAt_of_attached {tree : NamespaceTree} (h : tree.attached k = true) :
    tree.contentAt k = (tree.node k).content := if_pos h

theorem contentAt_of_not_attached {tree : NamespaceTree} (h : tree.attached k ≠ true) :
    tree.contentAt k = {} := if_neg h

theorem contentAt_congr (ha : ∀ k, t'.attached k = t.attached k)
    (hn : ∀ k, (t'.node k).content = (t.node k).content) (k : NodeKey) : t'.contentAt k = t.contentAt k := by
  rw [contentAt, contentAt, ha, hn]

/-! ## 2. Making nodes -/

/-- Nodes were made on the way to `key`, and nothing else has changed. -/
structure Grown (t t' : NamespaceTree) (key : NodeKey) : Prop where
  seq : t'.nextRouteSeq = t.nextRouteSeq
  underflow : t'.underflow = t.underflow
  attached : ∀ k, t'.attached k = true ↔ t.attached k = true ∨ k <:+ key
  old : ∀ k, t.attached k = true → ∃ ch, t'.node k = { t.node k with children := ch }
  new : ∀ k, t.attached k ≠ true → k <:+ key → ∃ ch, t'.node k = { children := ch }
  balanced : ∀ r, CountRel r → Balanced r t → Balanced r t'

theorem Grown.refl (h : t.attached key = true) : Grown t t key where
  seq := rfl
  underflow := rfl
  attached _ := ⟨.inl, fun hk => hk.elim id fun hk => attached_of_suffix hk h⟩
  old _ _ := ⟨_, rfl⟩
  new _ hk hs := absurd (attached_of_suffix hs h) hk
  balanced _ _ hb := hb

theorem Grown.trans {t'' : NamespaceTree} {key' : NodeKey} (h : Grown t t' key) (h' : Grown t' t'' key')
    (hs : key <:+ key') : Grown t t'' key' where
  seq := h'.seq.trans h.seq
  underflow := h'.underflow.trans h.underflow
  attached k := by
    rw [h'.attached, h.attached, or_assoc]
    exact or_congr_right ⟨fun hk => hk.elim (fun hk => hk.trans hs) id, .inr⟩
  old k hk := by
    obtain ⟨ch, hn⟩ := h.old k hk
    obtain ⟨ch', hn'⟩ := h'.old k ((h.attached k).2 (.inl hk))
    rw [hn] at hn'
    exact ⟨ch', hn'⟩
  new k hk hs' := by
    by_cases hkey : k <:+ key
    · obtain ⟨ch, hn⟩ := h.new k hk hkey
      obtain ⟨ch', hn'⟩ := h'.old k ((h.attached k).2 (.inr hkey))
      rw [hn] at hn'
      exact ⟨ch', hn'⟩
    · exact h'.new k (fun h'' => ((h.attached k).1 h'').elim hk hkey) hs'
  balanced r hr hb := h'.balanced r hr (h.balanced r hr hb)

theorem Grown.contentAt (h : Grown t t' key) (k : NodeKey) :
    t'.contentAt k = t.contentAt k := by
  by_cases hk : t.attached k = true
  · obtain ⟨ch, hn⟩ := h.old k hk
    rw [contentAt_of_attached hk, contentAt_of_attached ((h.attached k).2 (.inl hk)), hn]
    rfl
  · rw [contentAt_of_not_attached hk]
    by_cases hk' : t'.attached k = true
    · obtain ⟨ch, hn⟩ := h.new k hk (((h.attached k).1 hk').resolve_left hk)
      rw [contentAt_of_attached hk', hn]
      rfl
    · exact contentAt_of_not_attached hk'

theorem addChild_node_self (t : NamespaceTree) (key : NodeKey) (name : Bytes) :
    (t.addChild key name).node (name :: key) = {} := setNode_node_self _ _ _

theorem addChild_node_key (t : NamespaceTree) (key : NodeKey) (name : Bytes) :
    (t.addChild key name).node key = { t.node key with children := insert name (t.node key).children } := by
  rw [addChild, setNode_node_of_ne _ _ (cons_ne_self name key).symm, setNode_node_self]

theorem addChild_node_of_ne (t : NamespaceTree) (h : k ≠ key) (h' : k ≠ name :: key) :
    (t.addChild key name).node k = t.node k := by
  rw [addChild, setNode_node_of_ne _ _ h', setNode_node_of_ne _ _ h]

theorem addChild_balanced (hr : CountRel r) (ha : t.attached key = true) (hn : name ∉ (t.node key).children)
    (hb : Balanced r t) :
    Balanced r (t.addChild key name) := by
  intro k hk
  by_cases hnew : k = name :: key
  · rw [hnew, BalancedAt, keptChildren, addChild_node_self]
    exact hr.zero
  · have hold := ((attached_addChild ha hn k).1 hk).resolve_right hnew
    have hcount : ((t.addChild key name).node k).activeChildCount = (t.node k).activeChildCount := by
      by_cases hkey : k = key
      · rw [hkey, addChild_node_key]
      · rw [addChild_node_of_ne t hkey hnew]
    have hkept : (t.addChild key name).keptChildren k = t.keptChildren k := by
      ext c
      by_cases hc : c :: k = name :: key
      · obtain ⟨rfl, rfl⟩ := cons.inj hc
        simp [keptChildren, addChild_node_self, hn, shouldKeep, hasContent]
      · have hkeep : ((t.addChild key name).node (c :: k)).shouldKeep = (t.node (c :: k)).shouldKeep := by
          by_cases hck : c :: k = key
          · rw [hck, addChild_node_key]
            rfl
          · rw [addChild_node_of_ne t hck hc]
        rw [keptChildren, keptChildren, Finset.mem_filter, Finset.mem_filter, hkeep]
        by_cases hkey : k = key
        · subst hkey
          rw [addChild_node_key, Finset.mem_insert]
          have hne : c ≠ name := fun e => hc (e ▸ rfl)
          simp [hne]
        · rw [addChild_node_of_ne t hkey hnew]
    rw [BalancedAt, hkept, hcount]
    exact hb k hold

theorem addChild_grown (ha : t.attached key = true) (hn : name ∉ (t.node key).children) :
    Grown t (t.addChild key name) (name :: key) where
  seq := rfl
  underflow := rfl
  attached k := by
    rw [attached_addChild ha hn, suffix_cons_iff]
    constructor
    · exact fun h => h.imp id .inl
    · exact fun h => h.elim .inl fun h => h.elim .inr fun h => .inl (attached_of_suffix h ha)
  old k hk := by
    have hnew : k ≠ name :: key := fun e => hn ((attached_cons _ _ _).1 (e ▸ hk)).2
    by_cases hkey : k = key
    · exact ⟨_, by rw [hkey, addChild_node_key]⟩
    · exact ⟨_, by rw [addChild_node_of_ne t hkey hnew]⟩
  new k hk hs := by
    rcases suffix_cons_iff.1 hs with h | h
    · exact ⟨_, by rw [h, addChild_node_self]⟩
    · exact absurd (attached_of_suffix h ha) hk
  balanced _ hr hb := addChild_balanced hr ha hn hb

/-! ## 3. The walk to a namespace -/

/-- The subscribers at the nodes from `key` on, along `rest`. -/
def subscribersAlong (content : NodeKey → Content) (key : NodeKey) (rest : TrackNamespace) :
    SessionSubscriberList :=
  rest.inits.flatMap fun p => (content (p.reverse ++ key)).subscriberList

theorem subscribersAlong_cons (content : NodeKey → Content) (key : NodeKey) (name : Bytes)
    (rest : TrackNamespace) :
    subscribersAlong content key (name :: rest) =
      (content key).subscriberList ++ subscribersAlong content (name :: key) rest := by
  simp [subscribersAlong, flatMap_map]

theorem subscriberList_eq (h : t.attached k = true) :
    t.subscriberList k = (t.contentAt k).subscriberList := by
  rw [contentAt_of_attached h]
  rfl

theorem findNodeFrom_created (rest : TrackNamespace) (key : NodeKey) (t : NamespaceTree)
    (ha : t.attached key = true) :
    ∃ above t', findNodeFrom true key rest t = some (rest.reverse ++ key, above, t') ∧
      Grown t t' (rest.reverse ++ key) ∧
      above ++ t'.subscriberList (rest.reverse ++ key) = subscribersAlong t.contentAt key rest := by
  induction rest generalizing key t with
  | nil =>
    refine ⟨[], t, rfl, Grown.refl ha, ?_⟩
    simp [subscribersAlong, subscriberList_eq ha]
  | cons name rest ih =>
    have hsuffix : (name :: key) <:+ rest.reverse ++ name :: key := suffix_append _ _
    rw [findNodeFrom, reverse_cons, append_assoc, singleton_append, subscribersAlong_cons,
      ← subscriberList_eq ha]
    by_cases hn : name ∈ (t.node key).children
    · obtain ⟨above, t', hfind, hg, hl⟩ := ih (name :: key) t ((attached_cons _ _ _).2 ⟨ha, hn⟩)
      refine ⟨t.subscriberList key ++ above, t', by rw [if_pos hn, hfind]; rfl, hg, ?_⟩
      rw [append_assoc, hl]
    · have hg := addChild_grown ha hn
      obtain ⟨above, t', hfind, hg', hl⟩ := ih (name :: key) (t.addChild key name)
        ((hg.attached _).2 (.inr (suffix_refl _)))
      refine ⟨t.subscriberList key ++ above, t', by rw [if_neg hn, if_pos rfl, hfind]; rfl,
        hg.trans hg' hsuffix, ?_⟩
      rw [append_assoc, hl, funext hg.contentAt]

theorem findNodeFrom_found (rest : TrackNamespace) (key : NodeKey) (t : NamespaceTree)
    (ha : t.attached key = true) :
    (t.attached (rest.reverse ++ key) = true →
      ∃ above, findNodeFrom false key rest t = some (rest.reverse ++ key, above, t) ∧
        above ++ t.subscriberList (rest.reverse ++ key) = subscribersAlong t.contentAt key rest) ∧
    (t.attached (rest.reverse ++ key) ≠ true → findNodeFrom false key rest t = none) := by
  induction rest generalizing key with
  | nil => exact ⟨fun _ => ⟨[], rfl, by simp [subscribersAlong, subscriberList_eq ha]⟩, fun h => absurd ha h⟩
  | cons name rest ih =>
    have hsuffix : (name :: key) <:+ rest.reverse ++ name :: key := suffix_append _ _
    rw [findNodeFrom, reverse_cons, append_assoc, singleton_append, subscribersAlong_cons,
      ← subscriberList_eq ha]
    by_cases hn : name ∈ (t.node key).children
    · obtain ⟨hyes, hno⟩ := ih (name :: key) ((attached_cons _ _ _).2 ⟨ha, hn⟩)
      rw [if_pos hn]
      constructor
      · intro h
        obtain ⟨above, hfind, hl⟩ := hyes h
        exact ⟨t.subscriberList key ++ above, by rw [hfind]; rfl, by rw [append_assoc, hl]⟩
      · intro h
        rw [hno h]
        rfl
    · rw [if_neg hn, if_neg (by simp)]
      exact ⟨fun h => absurd ((attached_cons _ _ _).1 (attached_of_suffix hsuffix h)).2 hn, fun _ => rfl⟩

/-- The subscribers of every prefix of a namespace, as a map from namespaces has them. -/
def subscribersOf (content : NodeKey → Content) (ns : TrackNamespace) : SessionSubscriberList :=
  subscribersAlong content [] ns

theorem findNode_created (t : NamespaceTree) (ns : TrackNamespace) :
    ∃ above t', t.findNode ns true = some (ns.reverse, above, t') ∧ Grown t t' ns.reverse ∧
      above ++ t'.subscriberList ns.reverse = subscribersOf t.contentAt ns := by
  have h := findNodeFrom_created ns [] t rfl
  rwa [append_nil] at h

theorem findNode_found {ns : TrackNamespace} (h : t.attached ns.reverse = true) :
    ∃ above, t.findNode ns false = some (ns.reverse, above, t) ∧
      above ++ t.subscriberList ns.reverse = subscribersOf t.contentAt ns := by
  have hfound := (findNodeFrom_found ns [] t rfl).1
  rw [append_nil] at hfound
  exact hfound h

theorem findNode_missing {ns : TrackNamespace} (h : t.attached ns.reverse ≠ true) :
    t.findNode ns false = none := by
  have hmissing := (findNodeFrom_found ns [] t rfl).2
  rw [append_nil] at hmissing
  exact hmissing h

/-! ## 4. The content after a guarded change -/

theorem Pruned.content (h : Pruned t t') (k : NodeKey) :
    (t'.node k).content = (t.node k).content := by
  obtain ⟨c, ch, hn⟩ := h.2 k
  rw [hn]
  rfl

theorem contentAt_setNode (hch : n.children = (t.node key).children) (ha : t.attached key = true)
    (k : NodeKey) :
    (t.setNode key n).contentAt k = if k = key then n.content else t.contentAt k := by
  rw [contentAt, attached_setNode hch]
  by_cases hk : k = key
  · rw [hk, if_pos ha, if_pos rfl, setNode_node_self]
  · rw [setNode_node_of_ne t n hk, if_neg hk]
    rfl

section

variable (hr : CountRel r) (hch : n.children = (t.node key).children)
  (hcount : n.activeChildCount = (t.node key).activeChildCount) (ha : t.attached key = true)
  (hb : Balanced r t) (h : Guarded t key n t')

include hr hch hcount ha hb h

theorem Guarded.attached_of (hk : t'.attached k = true) :
    t.attached k = true := by
  rw [← attached_setNode hch]
  cases h with
  | plain => exact hk
  | @first name up => exact ((incrementActiveChildren_raised up _).attached k).symm.trans hk
  | @last name up hkey hold hnew =>
    exact (pruneUp_result hr up name _ (pruneState_setNode hch hcount ha hb hkey hold hnew)).attached k hk

/-- **Pruning loses no content.** -/
theorem Guarded.contentAt (k : NodeKey) :
    t'.contentAt k = if k = key then n.content else t.contentAt k := by
  rw [← contentAt_setNode hch ha]
  cases h with
  | plain => rfl
  | @first name up =>
    have hraised := incrementActiveChildren_raised up (t.setNode key n)
    refine contentAt_congr hraised.attached (fun k => ?_) k
    obtain ⟨c, -, hn⟩ := hraised.node k
    rw [hn]
    rfl
  | @last name up hkey hold hnew =>
    have hres := pruneUp_result hr up name _ (pruneState_setNode hch hcount ha hb hkey hold hnew)
    have hpruned := pruneUp_pruned up name (t.setNode key n)
    by_cases hk : (pruneUp up name (t.setNode key n)).attached k = true
    · rw [contentAt_of_attached hk, contentAt_of_attached (hres.attached k hk), hpruned.content]
    · rw [contentAt_of_not_attached hk]
      by_cases hold : (t.setNode key n).attached k = true
      · rw [contentAt_of_attached hold, content_of_empty (hres.gone k hold hk)]
      · exact (contentAt_of_not_attached hold).symm

end

end NamespaceTree

end Moqx

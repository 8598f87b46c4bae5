/-
  Subject: OVERLAPPING SUBSCRIPTIONS: the search for what a session has above, at and below a prefix.

  * `hasTracksSubscriptionInSubtree`, `hasOverlappingTracksSubscription` -- the search in the tree;
  * `inSubtree_iff`, `overlappingFrom_iff` -- what it finds, by the content of the nodes;
  * `exists_depth` -- no subscription of a run is deeper than its calls;
  * `overlap_detection_exact` -- **in every run the search finds the related subscriptions, and no others**.
-/
import Moqx.Namespace.Directory

namespace Moqx

namespace NamespaceTree

open List

/-! ## 1. The search -/

def isSubscribed (tree : NamespaceTree) (session : SessionRef) (key : NodeKey) : Bool :=
  ((tree.node key).subscribers.lookup session).isSome

/-- The visit of a node and of all that is pushed for it, at most `depth` levels down. The order in which the
    children are popped does not matter. -/
def hasTracksSubscriptionInSubtree (tree : NamespaceTree) (session : SessionRef) : Nat → NodeKey → Bool
  | 0, key => tree.isSubscribed session key
  | depth + 1, key =>
    tree.isSubscribed session key || decide (∃ name ∈ (tree.node key).children,
      tree.hasTracksSubscriptionInSubtree session depth (name :: key) = true)

def overlappingFrom (tree : NamespaceTree) (session : SessionRef) (depth : Nat) : NodeKey → TrackNamespace → Bool
  | key, [] => tree.hasTracksSubscriptionInSubtree session depth key
  | key, name :: rest =>
    if tree.isSubscribed session key then true
    else if name ∈ (tree.node key).children then tree.overlappingFrom session depth (name :: key) rest
    else false

def hasOverlappingTracksSubscription (tree : NamespaceTree) (trackNamespacePrefix : TrackNamespace)
    (session : SessionRef) (depth : Nat) : Bool :=
  tree.overlappingFrom session depth [] trackNamespacePrefix

/-! ## 2. What it finds -/

/-- The session has a subscription at a node of the tree. -/
def Subscribed (t : NamespaceTree) (session : SessionRef) (k : NodeKey) : Prop :=
  ((t.contentAt k).subscribers.lookup session).isSome = true

variable {t : NamespaceTree} {session : SessionRef} {key k : NodeKey} {depth : Nat} {name : Bytes}

theorem isSubscribed_iff (ha : t.attached key = true) : t.isSubscribed session key = true ↔ t.Subscribed session key := by
  rw [Subscribed, contentAt_of_attached ha]
  rfl

theorem Subscribed.attached (h : t.Subscribed session k) : t.attached k = true := by
  by_contra hk
  rw [Subscribed, contentAt_of_not_attached hk] at h
  cases h

theorem Subscribed.child {q : TrackNamespace} (h : t.Subscribed session (q.reverse ++ name :: key)) :
    t.attached (name :: key) = true ∧ name ∈ (t.node key).children := by
  have ha := attached_of_suffix (suffix_append _ _) h.attached
  exact ⟨ha, ((attached_cons _ _ _).1 ha).2⟩

theorem reverse_cons_append (q : TrackNamespace) : (name :: q).reverse ++ key = q.reverse ++ name :: key := by simp

theorem inSubtree_iff (ha : t.attached key = true) :
    t.hasTracksSubscriptionInSubtree session depth key = true ↔
      ∃ q : TrackNamespace, q.length ≤ depth ∧ t.Subscribed session (q.reverse ++ key) := by
  induction depth generalizing key with
  | zero =>
    rw [hasTracksSubscriptionInSubtree, isSubscribed_iff ha]
    refine ⟨fun h => ⟨[], Nat.le_refl 0, h⟩, ?_⟩
    rintro ⟨q, hq, h⟩
    rw [length_eq_zero_iff.1 (Nat.le_zero.1 hq)] at h
    exact h
  | succ depth ih =>
    rw [hasTracksSubscriptionInSubtree, Bool.or_eq_true, isSubscribed_iff ha, decide_eq_true_eq]
    constructor
    · rintro (h | ⟨name, hn, h⟩)
      · exact ⟨[], Nat.zero_le _, h⟩
      · obtain ⟨q, hq, h⟩ := (ih ((attached_cons _ _ _).2 ⟨ha, hn⟩)).1 h
        exact ⟨name :: q, Nat.succ_le_succ hq, by rwa [reverse_cons_append]⟩
    · rintro ⟨q, hq, h⟩
      cases q with
      | nil => exact .inl h
      | cons name q =>
        rw [reverse_cons_append] at h
        exact .inr ⟨name, h.child.2, (ih h.child.1).2 ⟨q, Nat.le_of_succ_le_succ hq, h⟩⟩

theorem overlappingFrom_iff {rest : TrackNamespace} (ha : t.attached key = true) :
    t.overlappingFrom session depth key rest = true ↔
      ∃ q : TrackNamespace, (q <+: rest ∨ rest <+: q ∧ q.length ≤ rest.length + depth) ∧
        t.Subscribed session (q.reverse ++ key) := by
  induction rest generalizing key with
  | nil =>
    rw [overlappingFrom, inSubtree_iff ha]
    refine exists_congr fun q => and_congr_left fun _ => ?_
    rw [prefix_nil, length_nil, Nat.zero_add]
    refine ⟨fun h => .inr ⟨List.nil_prefix, h⟩, ?_⟩
    rintro (rfl | h)
    · exact Nat.zero_le _
    · exact h.2
  | cons name rest ih =>
    rw [overlappingFrom]
    by_cases hs : t.isSubscribed session key = true
    · rw [if_pos hs]
      exact ⟨fun _ => ⟨[], .inl nil_prefix, (isSubscribed_iff ha).1 hs⟩, fun _ => rfl⟩
    rw [if_neg hs]
    -- what is found is not at this node, so its first name is the next one of the prefix
    have hnext : (∃ q : TrackNamespace, (q <+: name :: rest ∨ name :: rest <+: q ∧
          q.length ≤ (name :: rest).length + depth) ∧ t.Subscribed session (q.reverse ++ key)) ↔
        ∃ q : TrackNamespace, (q <+: rest ∨ rest <+: q ∧ q.length ≤ rest.length + depth) ∧
          t.Subscribed session (q.reverse ++ name :: key) := by
      have hlen : ∀ q : TrackNamespace, q.length + 1 ≤ rest.length + 1 + depth ↔ q.length ≤ rest.length + depth := by
        omega
      constructor
      · rintro ⟨q, hq, h⟩
        cases q with
        | nil => exact absurd ((isSubscribed_iff ha).2 h) hs
        | cons n q =>
          rw [cons_prefix_cons, cons_prefix_cons, length_cons, length_cons, hlen] at hq
          have hn : n = name := hq.elim And.left fun h => h.1.1.symm
          subst hn
          exact ⟨q, hq.imp And.right fun h => ⟨h.1.2, h.2⟩, by rwa [reverse_cons_append] at h⟩
      · rintro ⟨q, hq, h⟩
        refine ⟨name :: q, ?_, by rwa [reverse_cons_append]⟩
        rw [cons_prefix_cons, cons_prefix_cons, length_cons, length_cons, hlen]
        exact hq.imp (fun h => ⟨rfl, h⟩) fun h => ⟨⟨rfl, h.1⟩, h.2⟩
    rw [hnext]
    split
    · rename_i hn
      exact ih ((attached_cons _ _ _).2 ⟨ha, hn⟩)
    · rename_i hn
      refine ⟨nofun, ?_⟩
      rintro ⟨q, -, h⟩
      exact absurd h.child.2 hn

/-! ## 3. Runs -/

theorem exists_depth (ops : List Op) :
    ∃ depth, ∀ ns session, (((Directory.run ops).content ns).subscribers.lookup session).isSome = true →
      ns.length ≤ depth := by
  induction ops using reverseRecOn with
  | nil => exact ⟨0, nofun⟩
  | append_singleton ops op ih =>
    obtain ⟨depth, ih⟩ := ih
    refine ⟨max depth op.target.length, fun ns session h => ?_⟩
    rw [Directory.run_append] at h
    by_cases hns : ns = op.target
    · rw [hns]
      exact Nat.le_max_right _ _
    · simp only [Directory.step, Function.update_of_ne hns] at h
      exact (ih ns session h).trans (Nat.le_max_left _ _)

/-- **Overlap detection is exact.** After every run of calls a search that goes deep enough answers whether the
    session has a subscription at a prefix of the given one, at the given one, or at one that extends it. -/
theorem overlap_detection_exact (ops : List Op) : ∃ enough, ∀ depth, enough ≤ depth →
    ∀ (trackNamespacePrefix : TrackNamespace) (session : SessionRef),
      (run ops).hasOverlappingTracksSubscription trackNamespacePrefix session depth = true ↔
        ∃ ns : TrackNamespace, (ns <+: trackNamespacePrefix ∨ trackNamespacePrefix <+: ns) ∧
          (((Directory.run ops).content ns).subscribers.lookup session).isSome = true := by
  obtain ⟨enough, hdeep⟩ := exists_depth ops
  refine ⟨enough, fun depth hdepth trackNamespacePrefix session => ?_⟩
  rw [hasOverlappingTracksSubscription, overlappingFrom_iff rfl]
  simp only [append_nil, Subscribed, (run_contentAt ops).1]
  refine exists_congr fun ns => and_congr_left fun hs => or_congr_right ⟨And.left, fun hp => ⟨hp, ?_⟩⟩
  exact ((hdeep ns session hs).trans hdepth).trans (Nat.le_add_left _ _)

end NamespaceTree

end Moqx

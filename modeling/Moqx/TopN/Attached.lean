/-
  Subject: The rankings that hang on the nodes of the tree, call by call.

  * `mem_rankingsUp` -- the rankings on the path of a namespace;
  * `step_rankingAt` -- a call changes no ranking of a node that is in the tree after it.
-/
import Moqx.Namespace.Directory

namespace Moqx

open AList Option

namespace NamespaceTree

variable {t : NamespaceTree} {key k : NodeKey}

/-! ## 1. Rankings of nodes -/

/-- The ranking of a property at a node: nothing where there is no node. -/
def rankingAt (t : NamespaceTree) (k : NodeKey) (propertyType : Nat) : Option RankingRef :=
  if t.attached k then (t.node k).rankings.lookup propertyType else none

theorem rankingAt_of_attached (h : t.attached k = true) (propertyType : Nat) :
    t.rankingAt k propertyType = (t.node k).rankings.lookup propertyType := if_pos h

theorem attached_of_rankingAt {propertyType : Nat} {ref : RankingRef}
    (h : t.rankingAt k propertyType = some ref) : t.attached k = true := by
  by_contra hout
  rw [rankingAt, if_neg hout] at h
  cases h

theorem mem_entries_iff (rankings : AList fun _ : Nat => RankingRef) (propertyType : Nat) (ref : RankingRef) :
    (propertyType, ref) ∈ rankings.entries.map (fun e => (e.1, e.2)) ↔
      rankings.lookup propertyType = some ref := by
  rw [List.mem_map]
  constructor
  · intro h
    obtain ⟨⟨x, y⟩, hmem, heq⟩ := h
    cases heq
    exact mem_lookup_iff.2 hmem
  · intro h
    exact ⟨_, mem_lookup_iff.1 h, rfl⟩

/-- **The rankings on the path of a namespace.** -/
theorem mem_rankingsUp (ha : t.attached key = true) {propertyType : Nat} {ref : RankingRef} :
    (propertyType, ref) ∈ t.rankingsUp key ↔ ∃ k, k <:+ key ∧ t.rankingAt k propertyType = some ref := by
  induction key with
  | nil =>
    rw [rankingsUp, mem_entries_iff]
    constructor
    · intro h
      exact ⟨[], List.suffix_refl _, by rw [rankingAt_of_attached ha]; exact h⟩
    · intro h
      obtain ⟨k, hk, h⟩ := h
      rw [List.suffix_nil.1 hk, rankingAt_of_attached ha] at h
      exact h
  | cons name up ih =>
    rw [rankingsUp, List.mem_append, mem_entries_iff, ih ((attached_cons _ _ _).1 ha).1,
      ← rankingAt_of_attached ha]
    constructor
    · intro h
      rcases h with h | ⟨k, hk, h⟩
      · exact ⟨_, List.suffix_refl _, h⟩
      · exact ⟨k, hk.trans (List.suffix_cons _ _), h⟩
    · intro h
      obtain ⟨k, hk, h⟩ := h
      rcases List.suffix_cons_iff.1 hk with rfl | hk
      · exact .inl h
      · exact .inr ⟨k, hk, h⟩

theorem rankingAt_insert (ha : t.attached key = true) (propertyType : Nat) (ref : RankingRef) (k : NodeKey)
    (propertyType' : Nat) :
    (t.setNode key { t.node key with
        rankings := (t.node key).rankings.insert propertyType ref }).rankingAt k propertyType' =
      if k = key ∧ propertyType' = propertyType then some ref else t.rankingAt k propertyType' := by
  rw [rankingAt, attached_setNode (by rfl)]
  by_cases hk : k = key
  · subst hk
    rw [if_pos ha, setNode_node_self]
    by_cases hp : propertyType' = propertyType
    · subst hp
      rw [if_pos ⟨rfl, rfl⟩]
      exact lookup_insert _
    · rw [if_neg (fun h => hp h.2), rankingAt_of_attached ha]
      exact lookup_insert_ne hp
  · have hno : ¬(k = key ∧ propertyType' = propertyType) := fun h => hk h.1
    rw [if_neg hno, setNode_node_of_ne _ _ hk]
    rfl

theorem contentAt_setRankings (rankings : AList fun _ : Nat => RankingRef) (k : NodeKey) :
    (t.setNode key { t.node key with rankings := rankings }).contentAt k = t.contentAt k := by
  refine contentAt_congr (attached_setNode (by rfl)) (fun k => ?_) k
  by_cases hk : k = key
  · subst hk
    rw [setNode_node_self]
    rfl
  · rw [setNode_node_of_ne _ _ hk]

theorem setRankings_balanced {r : Nat → Nat → Prop} (hb : Balanced r t) (key : NodeKey)
    (rankings : AList fun _ : Nat => RankingRef) :
    Balanced r (t.setNode key { t.node key with rankings := rankings }) := by
  have hnode : ∀ k, ∃ rankings', (t.setNode key { t.node key with rankings := rankings }).node k =
      { t.node k with rankings := rankings' } := fun k => by
    by_cases hk : k = key
    · subst hk
      exact ⟨rankings, setNode_node_self _ _ _⟩
    · exact ⟨_, setNode_node_of_ne _ _ hk⟩
  intro k hk
  obtain ⟨rankings', hn⟩ := hnode k
  have hkept : (t.setNode key { t.node key with rankings := rankings }).keptChildren k = t.keptChildren k :=
    keptChildren_congr (by rw [hn]) fun c => by
      obtain ⟨_, hn'⟩ := hnode (c :: k)
      rw [hn']
      rfl
  rw [BalancedAt, hkept, hn]
  exact hb k ((attached_setNode (by rfl) k).symm.trans hk)

/-! ## 2. Calls -/

theorem incrementActiveChildren_rankings (up : NodeKey) (t : NamespaceTree) (k : NodeKey) :
    ((incrementActiveChildren up t).node k).rankings = (t.node k).rankings := by
  obtain ⟨c, -, hn⟩ := (incrementActiveChildren_raised up t).node k
  rw [hn]

theorem pruneUp_rankings (up : NodeKey) (name : Bytes) (t : NamespaceTree) (k : NodeKey) :
    ((pruneUp up name t).node k).rankings = (t.node k).rankings := by
  obtain ⟨c, ch, hn⟩ := (pruneUp_pruned up name t).2 k
  rw [hn]

theorem setNode_rankings {n : NamespaceNode} (h : n.rankings = (t.node key).rankings) (k : NodeKey) :
    ((t.setNode key n).node k).rankings = (t.node k).rankings := by
  by_cases hk : k = key
  · subst hk
    rw [setNode_node_self, h]
  · rw [setNode_node_of_ne _ _ hk]

theorem notifyParent_rankings (t : NamespaceTree) (key : NodeKey) (wasEmpty : Bool) (k : NodeKey) :
    ((t.notifyParentIfFirstContent key wasEmpty).node k).rankings = (t.node k).rankings := by
  cases key with
  | nil => rfl
  | cons name up =>
    rw [notifyParentIfFirstContent]
    split
    · exact incrementActiveChildren_rankings up t k
    · rfl

theorem tryPruneSelf_rankings (t : NamespaceTree) (key : NodeKey) (hadContent : Bool) (k : NodeKey) :
    ((t.tryPruneSelf key hadContent).node k).rankings = (t.node k).rankings := by
  cases key with
  | nil => rfl
  | cons name up =>
    rw [tryPruneSelf]
    split
    · rw [tryPruneChild]
      split
      · rfl
      · split
        · rfl
        · exact pruneUp_rankings up name t k
    · rfl

theorem withGuard_rankings (t : NamespaceTree) (key : NodeKey) {change : NamespaceNode → NamespaceNode}
    (h : ∀ n, (change n).rankings = n.rankings) (k : NodeKey) :
    ((t.withGuard key change).node k).rankings = (t.node k).rankings := by
  rw [withGuard]
  exact (tryPruneSelf_rankings _ _ _ k).trans
    ((notifyParent_rankings _ _ _ k).trans (setNode_rankings (h (t.node key)) k))

theorem revise_rankings (t : NamespaceTree) (key : NodeKey) (named : Route → Bool) (change : Route → Route)
    (path : List Nat) (cost : Nat) (k : NodeKey) :
    ((t.revise key named change path cost).2.node k).rankings = (t.node k).rankings := by
  rw [revise]
  dsimp only
  split
  · exact setNode_rankings (by rfl) k
  · exact setNode_rankings (by rfl) k

theorem forgetAdvertisements_rankings (t : NamespaceTree) (key : NodeKey) (adKey : AdvertisementKey)
    (k : NodeKey) : ((t.forgetAdvertisements key adKey).node k).rankings = (t.node k).rankings := by
  rw [forgetAdvertisements]
  dsimp only
  split <;> rfl

/-- The nodes of a tree after a call have the rankings they had, or are new. -/
def KeepsRankings (t : NamespaceTree) (op : Op) : Prop :=
  (op.adds = false ∧ ∀ k, ((t.step op).node k).rankings = (t.node k).rankings) ∨
    ∃ g, Grown t g op.key ∧ ∀ k, ((t.step op).node k).rankings = (g.node k).rankings

theorem step_keepsRankings (t : NamespaceTree) (op : Op) : KeepsRankings t op := by
  cases op with
  | setPublisher ns session callback peerID requestID relayHopPath routeCost fromCluster =>
    obtain ⟨above, g, hfind, hg, -⟩ := t.findNode_created ns
    refine .inr ⟨g, hg, fun k => ?_⟩
    simp only [step, setPublisher, hfind, bind_eq_bind, bind_some, pure_def]
    split
    · exact revise_rankings g _ _ _ _ _ k
    · simp only [map_some, getD_some]
      exact withGuard_rankings { g with nextRouteSeq := g.nextRouteSeq + 1 } _ (by intro _; rfl) k
  | updateRoute ns session requestID path cost =>
    refine .inl ⟨rfl, fun k => ?_⟩
    simp only [step, updateRoute]
    split
    · rfl
    · split
      · exact revise_rankings t _ _ _ _ _ k
      · rfl
  | unpublishNamespace ns session requestID =>
    refine .inl ⟨rfl, fun k => ?_⟩
    simp only [step, unpublishNamespace]
    split
    · rfl
    · split
      · rfl
      · simp only [afterCall]
        exact withGuard_rankings t _ (by intro _; rfl) k
  | addPublish ftn session =>
    obtain ⟨above, g, hfind, hg, -⟩ := t.findNode_created ftn.trackNamespace
    refine .inr ⟨g, hg, fun k => ?_⟩
    simp only [step, addPublish, hfind, bind_eq_bind, bind_some, pure_def, map_some,
      getD_some]
    exact withGuard_rankings g _ (by intro _; rfl) k
  | unpublishTrack ns trackName =>
    refine .inl ⟨rfl, fun k => ?_⟩
    simp only [step, unpublishTrack]
    split
    · rfl
    · simp only [Except.toOption, getD_some]
      exact withGuard_rankings t _ (by intro _; rfl) k
  | addNamespaceSubscriber ns session info =>
    obtain ⟨above, g, hfind, hg, -⟩ := t.findNode_created ns
    refine .inr ⟨g, hg, fun k => ?_⟩
    simp only [step, addNamespaceSubscriber, hfind, bind_eq_bind, bind_some, pure_def,
      map_some, getD_some]
    refine withGuard_rankings g _ (fun n => ?_) k
    split <;> rfl
  | removeNamespaceSubscriber ns session =>
    refine .inl ⟨rfl, fun k => ?_⟩
    simp only [step, removeNamespaceSubscriber]
    split
    · rfl
    · split
      · rfl
      · simp only [afterCall]
        exact (withGuard_rankings _ _ (by intro _; rfl) k).trans (forgetAdvertisements_rankings t _ _ k)

/-- **A call changes no ranking of a node that is in the tree after it.** -/
theorem step_rankingAt (hb : Balanced (· ≤ ·) t) (op : Op) (hk : (t.step op).attached k = true)
    (propertyType : Nat) :
    (t.step op).rankingAt k propertyType = t.rankingAt k propertyType := by
  have hor := (step_edited t op).attached_or hb hk
  rw [rankingAt_of_attached hk, rankingAt]
  by_cases hold : t.attached k = true
  · rw [if_pos hold]
    rcases step_keepsRankings t op with ⟨-, h⟩ | ⟨g, hg, h⟩
    · rw [h]
    · obtain ⟨ch, hn⟩ := hg.old k hold
      rw [h, hn]
  · rw [if_neg hold]
    obtain ⟨hadds, hs⟩ := hor.resolve_left hold
    rcases step_keepsRankings t op with ⟨hno, -⟩ | ⟨g, hg, h⟩
    · rw [hadds] at hno
      cases hno
    · obtain ⟨ch, hn⟩ := hg.new k hold hs
      rw [h, hn]
      rfl

/-! ## 3. Tracks -/

def publishedBy (t : NamespaceTree) (ftn : FullTrackName) : Option SessionRef :=
  (t.contentAt ftn.trackNamespace.reverse).publishes.lookup ftn.trackName

theorem attached_of_published {ftn : FullTrackName} (h : (t.publishedBy ftn).isSome = true) :
    t.attached ftn.trackNamespace.reverse = true := by
  by_contra hout
  rw [publishedBy, contentAt_of_not_attached hout] at h
  cases h

section publishedBy

variable {t : NamespaceTree} (hb : Balanced (· ≤ ·) t)

include hb

theorem step_publishedBy {op : Op} (hop : ∀ c next, (Content.apply c next op).1.publishes = c.publishes)
    (ftn : FullTrackName) : (t.step op).publishedBy ftn = t.publishedBy ftn := by
  rw [publishedBy, publishedBy, (step_edited t op).contentAt hb]
  split
  · rename_i hk
    rw [hop, hk]
  · rfl

theorem publish_publishedBy {op : Op} {ftn : FullTrackName} {p : Option SessionRef}
    (hkey : op.key = ftn.trackNamespace.reverse) (hop : ∀ c next name, (Content.apply c next op).1.publishes.lookup name =
      if name = ftn.trackName then p else c.publishes.lookup name) (ftn' : FullTrackName) :
    (t.step op).publishedBy ftn' = if ftn' = ftn then p else t.publishedBy ftn' := by
  rw [publishedBy, publishedBy, (step_edited t op).contentAt hb, hkey]
  by_cases hns : ftn'.trackNamespace = ftn.trackNamespace
  · rw [if_pos (congrArg List.reverse hns), hop, hns]
    by_cases hname : ftn'.trackName = ftn.trackName
    · have heq : ftn' = ftn := by
        cases ftn
        cases ftn'
        simp only at hns hname
        rw [hns, hname]
      rw [if_pos heq, if_pos hname]
    · rw [if_neg fun heq => hname (congrArg _ heq), if_neg hname]
  · rw [if_neg fun heq => hns (List.reverse_injective heq), if_neg fun heq => hns (congrArg _ heq)]

theorem addPublish_publishedBy (ftn : FullTrackName) (session : SessionRef) (ftn' : FullTrackName) :
    (t.step (.addPublish ftn session)).publishedBy ftn' =
      if ftn' = ftn then some session else t.publishedBy ftn' := by
  refine publish_publishedBy hb rfl (fun c next name => ?_) ftn'
  show (c.publishes.insert ftn.trackName session).lookup name = _
  split
  · rename_i h
    subst h
    exact lookup_insert _
  · exact lookup_insert_ne ‹_›

theorem unpublishTrack_publishedBy (ftn ftn' : FullTrackName) :
    (t.step (.unpublishTrack ftn.trackNamespace ftn.trackName)).publishedBy ftn' =
      if ftn' = ftn then none else t.publishedBy ftn' := by
  refine publish_publishedBy hb rfl (fun c next name => ?_) ftn'
  show (c.publishes.erase ftn.trackName).lookup name = _
  split
  · rename_i h
    subst h
    exact lookup_erase _ _
  · exact lookup_erase_ne ‹_›

end publishedBy

theorem addPublish_rankings (t : NamespaceTree) (ftn : FullTrackName) (session : SessionRef) :
    ∃ result, t.addPublish ftn session = some (result, t.step (.addPublish ftn session)) ∧
      result.rankings = (t.step (.addPublish ftn session)).rankingsUp ftn.trackNamespace.reverse := by
  obtain ⟨above, g, hfind, -, -⟩ := t.findNode_created ftn.trackNamespace
  simp only [step, addPublish, hfind, bind_eq_bind, bind_some, pure_def, map_some,
    getD_some]
  exact ⟨_, rfl, rfl⟩

theorem addNamespaceSubscriber_step (t : NamespaceTree) (ns : TrackNamespace) (session : SessionRef)
    (info : NamespaceSubscriberInfo) : t.addNamespaceSubscriber ns session info =
      some (ns.reverse, t.step (.addNamespaceSubscriber ns session info)) := by
  obtain ⟨t', h, -⟩ := t.addNamespaceSubscriber_edited ns session info
  rw [step, h]
  rfl

theorem attached_of_subscribed {t : NamespaceTree} (hb : Balanced (· ≤ ·) t) (ns : TrackNamespace)
    (session : SessionRef) (info : NamespaceSubscriberInfo) :
    (t.step (.addNamespaceSubscriber ns session info)).attached ns.reverse = true := by
  by_contra hout
  have hcontent := (step_edited t (.addNamespaceSubscriber ns session info)).contentAt hb ns.reverse
  rw [contentAt_of_not_attached hout, if_pos (show ns.reverse = Op.key _ from rfl)] at hcontent
  have hsubs := congrArg Content.subscribers hcontent
  rw [Content.apply] at hsubs
  split at hsubs
  · rename_i hin
    dsimp only at hsubs
    rw [← hsubs] at hin
    cases hin
  · have hlookup := congrArg (lookup session) hsubs
    rw [lookup_insert] at hlookup
    cases hlookup

end NamespaceTree

end Moqx

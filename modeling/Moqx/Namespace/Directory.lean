/-
  Subject: The namespace tree is a map from namespaces to their content.

  The map (`Directory`) has no nodes, no counts and no pruning: a call changes the content of the one
  namespace it names. Every call of the tree is such a change (`step_edited`), so that the tree shows the
  content of the map after any run.

  * `Edited`, `step_edited` -- what a call does to the tree;
  * `run_balanced`, `run_contentAt` -- counts and content in every run;
  * `findRouteNode_spec`, `tree_refines_directory` -- what the tree answers.
-/
import Moqx.Namespace.Paths

namespace Moqx

open NamespaceTree NamespaceNode List Function

/-! ## 1. The map -/

def NamespaceTree.Op.target : Op → TrackNamespace
  | .setPublisher ns .. => ns
  | .updateRoute ns .. => ns
  | .unpublishNamespace ns .. => ns
  | .addPublish ftn _ => ftn.trackNamespace
  | .unpublishTrack ns _ => ns
  | .addNamespaceSubscriber ns .. => ns
  | .removeNamespaceSubscriber ns _ => ns

def NamespaceTree.Op.adds : Op → Bool
  | .setPublisher .. => true
  | .addPublish .. => true
  | .addNamespaceSubscriber .. => true
  | _ => false

/-- The first route with a property is revised. With the next generation. -/
def Content.revise (c : Content) (nextRouteSeq : Nat) (named : Route → Bool) (change : Route → Route)
    (path : List Nat) (cost : Nat) : Content × Nat :=
  ({ c with routes := updateFirst named (fun r => reviseRoute (change r) path cost nextRouteSeq) c.routes },
    if ((c.routes.find? named).filter fun r => !sameOrigin r.path path).isSome then nextRouteSeq + 1
    else nextRouteSeq)

/-- What a call does to the content of its namespace. -/
def Content.apply (c : Content) (nextRouteSeq : Nat) : Op → Content × Nat
  | .setPublisher _ session callback peerID requestID relayHopPath routeCost fromCluster =>
    let displaced := displaces session fromCluster
    if (c.routes.find? displaced).any (repeatsNamespace session callback fromCluster) then
      c.revise nextRouteSeq displaced (fun r => { r with peerID := peerID }) relayHopPath routeCost
    else
      let route : Route :=
        { session := session, callback := callback, peerID := peerID, requestID := requestID,
          path := relayHopPath, cost := routeCost, seq := nextRouteSeq + 1, fromCluster := fromCluster }
      ({ c with routes := c.routes.eraseP displaced ++ [route] }, nextRouteSeq + 1)
  | .updateRoute _ session requestID path cost =>
    c.revise nextRouteSeq (fun r => r.session == session && r.requestID == requestID) id path cost
  | .unpublishNamespace _ session requestID =>
    let named : Route → Bool := fun r => r.session == session && requestID.all (r.requestID == ·)
    ({ c with routes := c.routes.eraseP named }, nextRouteSeq)
  | .addPublish ftn session => ({ c with publishes := c.publishes.insert ftn.trackName session }, nextRouteSeq)
  | .unpublishTrack _ trackName => ({ c with publishes := c.publishes.erase trackName }, nextRouteSeq)
  | .addNamespaceSubscriber _ session info =>
    (if (c.subscribers.lookup session).isSome then c
      else { c with subscribers := c.subscribers.insert session info }, nextRouteSeq)
  | .removeNamespaceSubscriber _ session =>
    ({ c with subscribers := c.subscribers.erase session }, nextRouteSeq)

/-- The content of every namespace. -/
structure Directory where
  content : TrackNamespace → Content := fun _ => {}
  nextRouteSeq : Nat := 0

def Directory.step (d : Directory) (op : Op) : Directory where
  content := Function.update d.content op.target ((d.content op.target).apply d.nextRouteSeq op).1
  nextRouteSeq := ((d.content op.target).apply d.nextRouteSeq op).2

def Directory.run (ops : List Op) : Directory := ops.foldl Directory.step {}

namespace NamespaceTree

variable {session : SessionRef} {p : Route → Bool} {rs : List Route}

/-! ## 2. What a call does to the tree -/

/-- What a call forgets of what subscriptions were told. -/
def Op.forgets (t : NamespaceTree) : Op → NodeKey → AdvertisementKey → Bool
  | .removeNamespaceSubscriber ns session, k, adKey =>
    t.inSubtree ns.reverse k && decide (adKey = (session, ns.length))
  | _, _, _ => false

/-- Only what subscriptions were told, and the next generation, have changed. -/
structure Dressed (forgets : NodeKey → AdvertisementKey → Bool) (t t' : NamespaceTree) : Prop where
  node : ∀ k, ∃ ads, t'.node k = { t.node k with advertisements := ads } ∧
    ∀ adKey, ads.lookup adKey = if forgets k adKey then none else (t.node k).advertisements.lookup adKey
  underflow : t'.underflow = t.underflow

theorem Dressed.withSeq (t : NamespaceTree) (seq : Nat) :
    Dressed (fun _ _ => false) t { t with nextRouteSeq := seq } :=
  ⟨fun _ => ⟨_, rfl, fun _ => rfl⟩, rfl⟩

theorem Dressed.refl (t : NamespaceTree) : Dressed (fun _ _ => false) t t :=
  ⟨fun _ => ⟨_, rfl, fun _ => rfl⟩, rfl⟩

theorem forgetAdvertisements_dressed (t : NamespaceTree) (ns : TrackNamespace) (session : SessionRef) :
    Dressed (Op.forgets t (.removeNamespaceSubscriber ns session)) t
      (t.forgetAdvertisements ns.reverse (session, ns.length)) := by
  refine ⟨fun k => ?_, rfl⟩
  by_cases hk : t.inSubtree ns.reverse k = true
  · refine ⟨_, if_pos hk, fun adKey => ?_⟩
    by_cases had : adKey = (session, ns.length)
    · rw [had, AList.lookup_erase]
      simp [Op.forgets, hk]
    · rw [AList.lookup_erase_ne had]
      simp [Op.forgets, had]
  · exact ⟨_, if_neg hk, fun adKey => by simp [Op.forgets, hk]⟩

/-- Only what subscriptions were told has changed at the nodes. -/
def Redressed (t t' : NamespaceTree) : Prop := ∀ k, ∃ ads, t'.node k = { t.node k with advertisements := ads }

theorem Dressed.redressed {forgets : NodeKey → AdvertisementKey → Bool} {t t' : NamespaceTree}
    (h : Dressed forgets t t') : Redressed t t' := by
  intro k
  obtain ⟨ads, hn, -⟩ := h.node k
  exact ⟨ads, hn⟩

section redressed

variable {t t' : NamespaceTree} (h : Redressed t t')

include h

theorem Redressed.attached (k : NodeKey) : t'.attached k = t.attached k := by
  refine attached_congr (fun k => ?_) k
  obtain ⟨ads, hn⟩ := h k
  rw [hn]

theorem Redressed.content (k : NodeKey) : (t'.node k).content = (t.node k).content := by
  obtain ⟨ads, hn⟩ := h k
  rw [hn]
  rfl

theorem Redressed.contentAt (k : NodeKey) : t'.contentAt k = t.contentAt k :=
  contentAt_congr h.attached h.content k

theorem Redressed.shouldKeep (k : NodeKey) : (t'.node k).shouldKeep = (t.node k).shouldKeep := by
  obtain ⟨ads, hn⟩ := h k
  rw [hn]
  rfl

theorem Redressed.balanced {r : Nat → Nat → Prop} (hb : Balanced r t) : Balanced r t' := by
  intro k hk
  obtain ⟨ads, hn⟩ := h k
  have hkept : t'.keptChildren k = t.keptChildren k :=
    keptChildren_congr (by rw [hn]) fun c => h.shouldKeep (c :: k)
  rw [BalancedAt, hkept, hn]
  exact hb k ((h.attached k).symm.trans hk)

end redressed

def Op.key (op : Op) : NodeKey := op.target.reverse

/-- **What a call can do**: nothing, where it changes nothing in the map, or a guarded change of the
    content of its node. A call that only takes out makes no nodes, and gives no first content. -/
inductive Edited (t : NamespaceTree) (op : Op) : NamespaceTree → Prop
  | refused (hnot : op.adds = false)
    (h : (t.contentAt op.key).apply t.nextRouteSeq op = (t.contentAt op.key, t.nextRouteSeq)) : Edited t op t
  | edited {g g' t' : NamespaceTree} {n : NamespaceNode} (hg : Grown t g op.key)
    (hd : Dressed (op.forgets t) g g') (hguard : Guarded g' op.key n t')
    (hch : n.children = (g'.node op.key).children)
    (hcount : n.activeChildCount = (g'.node op.key).activeChildCount)
    (hads : n.advertisements = (g'.node op.key).advertisements)
    (hn : (n.content, t'.nextRouteSeq) = (t.contentAt op.key).apply t.nextRouteSeq op)
    (hadd : (op.adds = true ∧ n.hasContent = true) ∨
      (op.adds = false ∧ g = t ∧ (n.hasContent = true → (t.node op.key).hasContent = true))) : Edited t op t'

theorem Guarded.seq {t t' : NamespaceTree} {key : NodeKey} {n : NamespaceNode} (h : Guarded t key n t') :
    t'.nextRouteSeq = t.nextRouteSeq := by
  cases h with
  | plain => rfl
  | @first name up => exact (incrementActiveChildren_raised up _).seq
  | @last name up => exact (pruneUp_pruned up name _).1

theorem hasContent_of_routes {n : NamespaceNode} (h : n.routes ≠ []) : n.hasContent = true := by
  simp [hasContent, h]

theorem hasContent_of_subscriber {n : NamespaceNode}
    (h : (n.subscribers.lookup session).isSome = true) : n.hasContent = true := by
  have hne : n.subscribers.entries ≠ [] := by
    intro hnil
    rw [show n.subscribers = ∅ from AList.ext hnil] at h
    simp at h
  simp [hasContent, hne]

theorem updateFirst_ne_nil {f : Route → Route} (h : rs ≠ []) :
    updateFirst p f rs ≠ [] := by
  cases rs with
  | nil => exact absurd rfl h
  | cons r rs =>
    rw [updateFirst]
    split <;> exact cons_ne_nil _ _

theorem revise_guarded (t : NamespaceTree) {key : NodeKey} (named : Route → Bool) (change : Route → Route)
    (path : List Nat) (cost : Nat) (h : (t.node key).routes ≠ []) :
    ∃ t' n, Dressed (fun _ _ => false) t t' ∧ Guarded t' key n (t.revise key named change path cost).2 ∧
      n.children = (t'.node key).children ∧ n.activeChildCount = (t'.node key).activeChildCount ∧
      n.advertisements = (t'.node key).advertisements ∧
      (n.content, t'.nextRouteSeq) = (t.node key).content.revise t.nextRouteSeq named change path cost ∧
      n.hasContent = true := by
  set n : NamespaceNode := { t.node key with
    routes := updateFirst named (fun r => reviseRoute (change r) path cost t.nextRouteSeq)
      (t.node key).routes }
  have hold : (t.node key).hasContent = true := hasContent_of_routes h
  have hnew : n.hasContent = true := hasContent_of_routes (updateFirst_ne_nil h)
  have hkeep : n.shouldKeep = (t.node key).shouldKeep :=
    (shouldKeep_of_content hnew).trans (shouldKeep_of_content hold).symm
  rw [revise, Content.revise]
  cases hfind : ((t.node key).routes.find? named).filter fun r => !sameOrigin r.path path with
  | none =>
    refine ⟨t, n, Dressed.refl t, .plain (.inl ⟨hkeep, fun _ => hold⟩), rfl, rfl, rfl, ?_, hnew⟩
    simp only [content, hfind]
    rfl
  | some route =>
    refine ⟨{ t with nextRouteSeq := t.nextRouteSeq + 1 }, n, Dressed.withSeq t _,
      .plain (.inl ⟨hkeep, fun _ => hold⟩), rfl, rfl, rfl, ?_, hnew⟩
    simp only [content, hfind]
    rfl

/-! ## 3. The calls -/

theorem Grown.attached_key {t g : NamespaceTree} {key : NodeKey} (h : Grown t g key) : g.attached key = true :=
  (h.attached key).2 (.inr (suffix_refl key))

theorem Grown.content_key {t g : NamespaceTree} {key : NodeKey} (h : Grown t g key) :
    (g.node key).content = t.contentAt key := by
  rw [← h.contentAt, contentAt_of_attached h.attached_key]

theorem Grown.dressed_attached {forgets : NodeKey → AdvertisementKey → Bool} {t g g' : NamespaceTree}
    {key : NodeKey} (h : Grown t g key) (hd : Dressed forgets g g') : g'.attached key = true :=
  (hd.redressed.attached key).trans h.attached_key

theorem refused_missing {t : NamespaceTree} {op : Op} (hnot : op.adds = false) (ha : t.attached op.key ≠ true)
    (h : ({} : Content).apply t.nextRouteSeq op = ({}, t.nextRouteSeq)) : Edited t op t := by
  refine .refused hnot ?_
  rw [contentAt_of_not_attached ha, h]

theorem edited_withGuard (op : Op) (key : NodeKey) (hkey : op.key = key) {t g g' : NamespaceTree}
    (hg : Grown t g key) (hd : Dressed (op.forgets t) g g') {change : NamespaceNode → NamespaceNode}
    (hc : ContentChange change)
    (hn : ((change (g'.node key)).content, g'.nextRouteSeq) = (t.contentAt key).apply t.nextRouteSeq op)
    (hadd : (op.adds = true ∧ (change (g'.node key)).hasContent = true) ∨
      (op.adds = false ∧ g = t ∧
        ((change (g'.node key)).hasContent = true → (t.node key).hasContent = true))) :
    Edited t op (g'.withGuard key change) := by
  subst hkey
  have hguard := withGuard_guarded (t := g') hc (hg.dressed_attached hd)
  exact .edited hg hd hguard (hc.children _) (hc.count _) (hc.advertisements _) (by rw [hguard.seq, hn]) hadd

theorem find?_ne_nil (h : (rs.find? p).isSome = true) : rs ≠ [] := by
  intro hnil
  rw [hnil] at h
  cases h

theorem setPublisher_edited (t : NamespaceTree) (ns : TrackNamespace) (session : SessionRef)
    (callback : Option Nat) (peerID : Bytes) (requestID : Nat) (relayHopPath : List Nat)
    (routeCost : Nat) (fromCluster : Bool) :
    ∃ result t',
      t.setPublisher ns session callback peerID requestID relayHopPath routeCost fromCluster =
        some (result, t') ∧
      result.node = ns.reverse ∧ result.subscribers = subscribersOf t.contentAt ns ∧
      Edited t (.setPublisher ns session callback peerID requestID relayHopPath routeCost fromCluster) t' := by
  obtain ⟨above, g, hfind, hg, hl⟩ := t.findNode_created ns
  have hroutes : (g.node ns.reverse).routes = (t.contentAt ns.reverse).routes :=
    congrArg Content.routes hg.content_key
  simp only [setPublisher, hfind, Option.bind_eq_bind, Option.bind_some]
  cases hrep : ((g.node ns.reverse).routes.find? (displaces session fromCluster)).any
      (repeatsNamespace session callback fromCluster) with
  | true =>
    have hsome : ((g.node ns.reverse).routes.find? (displaces session fromCluster)).isSome = true := by
      obtain ⟨r, hr, -⟩ := Option.any_eq_true _ _ |>.1 hrep
      rw [hr]
      rfl
    obtain ⟨g', n, hd, hguard, hch, hcount, hads, hn, hcontent⟩ := revise_guarded g (displaces session fromCluster)
      (fun r => { r with peerID := peerID }) relayHopPath routeCost (find?_ne_nil hsome)
    refine ⟨_, _, rfl, rfl, hl, .edited hg hd hguard hch hcount hads ?_ (.inl ⟨rfl, hcontent⟩)⟩
    rw [hguard.seq, hn, hg.content_key, hg.seq]
    rw [hroutes] at hrep
    exact (if_pos hrep).symm
  | false =>
    refine ⟨_, _, rfl, rfl, hl, edited_withGuard (.setPublisher ns session callback peerID requestID relayHopPath
      routeCost fromCluster) ns.reverse rfl hg (Dressed.withSeq g (g.nextRouteSeq + 1))
      ⟨fun _ => rfl, fun _ => rfl, fun _ => rfl⟩ ?_ (.inl ⟨rfl, hasContent_of_routes (by simp)⟩)⟩
    rw [hroutes] at hrep
    rw [Content.apply, if_neg (by rw [hrep]; exact Bool.false_ne_true), ← hg.content_key, ← hg.seq]
    rfl

theorem Content.apply_updateRoute_missing {c : Content} {seq : Nat} {ns : TrackNamespace}
    {requestID : Nat} {path : List Nat} {cost : Nat}
    (h : c.routes.any (fun r => r.session == session && r.requestID == requestID) = false) :
    c.apply seq (.updateRoute ns session requestID path cost) = (c, seq) := by
  have hsame : ∀ (p : Route → Bool) (f : Route → Route) (rs : List Route), rs.any p = false →
      updateFirst p f rs = rs := by
    intro p f rs
    induction rs with
    | nil => exact fun _ => rfl
    | cons r rs ih =>
      intro hany
      rw [any_cons, Bool.or_eq_false_iff] at hany
      rw [updateFirst, if_neg (by rw [hany.1]; exact Bool.false_ne_true), ih hany.2]
  have hfind : c.routes.find? (fun r => r.session == session && r.requestID == requestID) = none := by
    rw [find?_eq_none]
    intro r hr
    rw [any_eq_false] at h
    exact h r hr
  rw [Content.apply, Content.revise, hsame _ _ _ h, hfind]
  rfl

section edits

variable (t : NamespaceTree)

include t

theorem updateRoute_edited (ns : TrackNamespace) (session : SessionRef)
    (requestID : Nat) (path : List Nat) (cost : Nat) :
    Edited t (.updateRoute ns session requestID path cost)
      (t.afterCall (t.updateRoute ns session requestID path cost)) ∧
    ∀ result t', t.updateRoute ns session requestID path cost = .ok (result, t') →
      t.attached ns.reverse = true ∧ result.node = ns.reverse ∧
        result.subscribers = subscribersOf t.contentAt ns := by
  by_cases ha : t.attached ns.reverse = true
  · obtain ⟨above, hfind, hl⟩ := findNode_found ha
    simp only [updateRoute, hfind]
    cases hany : (t.node ns.reverse).routes.any fun r => r.session == session && r.requestID == requestID with
    | true =>
      have hne : (t.node ns.reverse).routes ≠ [] := by
        intro hnil
        rw [hnil] at hany
        cases hany
      obtain ⟨g', n, hd, hguard, hch, hcount, hads, hn, -⟩ := revise_guarded t
        (fun r => r.session == session && r.requestID == requestID) id path cost hne
      rw [if_pos rfl]
      refine ⟨.edited (Grown.refl ha) hd hguard hch hcount hads ?_
        (.inr ⟨rfl, rfl, fun _ => hasContent_of_routes hne⟩), fun result t' h => ?_⟩
      · rw [← contentAt_of_attached ha] at hn
        exact (congrArg (Prod.mk n.content) hguard.seq).trans hn
      · injection h with h
        rw [← (Prod.mk.inj h).1]
        exact ⟨ha, rfl, hl⟩
    | false =>
      refine ⟨.refused rfl ?_, fun _ _ h => by cases h⟩
      refine Content.apply_updateRoute_missing ?_
      rw [show Op.key _ = ns.reverse from rfl, contentAt_of_attached ha]
      exact hany
  · simp only [updateRoute, findNode_missing ha]
    exact ⟨refused_missing rfl ha rfl, fun _ _ h => by cases h⟩

theorem unpublishNamespace_edited (ns : TrackNamespace) (session : SessionRef)
    (requestID : Option Nat) :
    Edited t (.unpublishNamespace ns session requestID)
      (t.afterCall (t.unpublishNamespace ns session requestID)) ∧
    ∀ result t', t.unpublishNamespace ns session requestID = .ok (result, t') →
      t.attached ns.reverse = true ∧ result.node = ns.reverse ∧
        result.subscribers = subscribersOf t.contentAt ns := by
  have hnone : ∀ {rs : List Route} {p : Route → Bool}, rs.find? p = none → rs.eraseP p = rs :=
    fun h => eraseP_of_forall_not (find?_eq_none.1 h)
  by_cases ha : t.attached ns.reverse = true
  · obtain ⟨above, hfind, hl⟩ := findNode_found ha
    simp only [unpublishNamespace, hfind]
    cases hroute : (t.node ns.reverse).routes.find?
        fun r => r.session == session && requestID.all (r.requestID == ·) with
    | some removed =>
      have hold : (t.node ns.reverse).hasContent = true :=
        hasContent_of_routes (find?_ne_nil (by rw [hroute]; rfl))
      simp only [afterCall]
      refine ⟨edited_withGuard (.unpublishNamespace ns session requestID) ns.reverse rfl (Grown.refl ha)
        (Dressed.refl t) ⟨fun _ => rfl, fun _ => rfl, fun _ => rfl⟩ ?_ (.inr ⟨rfl, rfl, fun _ => hold⟩),
        fun result t' h => ?_⟩
      · rw [contentAt_of_attached ha]
        rfl
      · injection h with h
        rw [← (Prod.mk.inj h).1]
        exact ⟨ha, rfl, hl⟩
    | none =>
      refine ⟨.refused rfl ?_, fun _ _ h => by cases h⟩
      show (t.contentAt ns.reverse).apply _ _ = (t.contentAt ns.reverse, _)
      rw [contentAt_of_attached ha]
      simp only [Content.apply, content, hnone hroute]
  · simp only [unpublishNamespace, findNode_missing ha]
    exact ⟨refused_missing rfl ha rfl, fun _ _ h => by cases h⟩

theorem addPublish_edited (ftn : FullTrackName) (session : SessionRef) :
    ∃ result t', t.addPublish ftn session = some (result, t') ∧
      result.subscribers = subscribersOf t.contentAt ftn.trackNamespace ∧
      Edited t (.addPublish ftn session) t' := by
  obtain ⟨above, g, hfind, hg, hl⟩ := t.findNode_created ftn.trackNamespace
  simp only [addPublish, hfind, Option.bind_eq_bind, Option.bind_some]
  refine ⟨_, _, rfl, hl, edited_withGuard (.addPublish ftn session) ftn.trackNamespace.reverse rfl hg
    (Dressed.refl g) ⟨fun _ => rfl, fun _ => rfl, fun _ => rfl⟩ ?_
    (.inl ⟨rfl, by simp [hasContent]⟩)⟩
  rw [← hg.content_key, ← hg.seq]
  rfl

theorem unpublishTrack_edited (ns : TrackNamespace) (trackName : Bytes) :
    Edited t (.unpublishTrack ns trackName) (((t.unpublishTrack ns trackName).toOption).getD t) := by
  by_cases ha : t.attached ns.reverse = true
  · obtain ⟨above, hfind, -⟩ := findNode_found ha
    simp only [unpublishTrack, hfind, Except.toOption, Option.getD_some]
    refine edited_withGuard (.unpublishTrack ns trackName) ns.reverse rfl (Grown.refl ha)
      (Dressed.refl t) ⟨fun _ => rfl, fun _ => rfl, fun _ => rfl⟩ ?_ (.inr ⟨rfl, rfl, fun h => ?_⟩)
    · rw [contentAt_of_attached ha]
      rfl
    · by_contra hnone
      have hempty := content_of_empty (eq_false_of_ne_true hnone)
      injection hempty with hr hp hs
      simp only [hasContent, hr, hp, hs] at h
      cases h
  · simp only [unpublishTrack, findNode_missing ha]
    exact refused_missing rfl ha rfl

theorem addNamespaceSubscriber_edited (ns : TrackNamespace) (session : SessionRef)
    (info : NamespaceSubscriberInfo) :
    ∃ t', t.addNamespaceSubscriber ns session info = some (ns.reverse, t') ∧
      Edited t (.addNamespaceSubscriber ns session info) t' := by
  obtain ⟨above, g, hfind, hg, -⟩ := t.findNode_created ns
  simp only [addNamespaceSubscriber, hfind, Option.bind_eq_bind, Option.bind_some]
  refine ⟨_, rfl, edited_withGuard (.addNamespaceSubscriber ns session info) ns.reverse rfl hg
    (Dressed.refl g) ⟨fun n => ?_, fun n => ?_, fun n => ?_⟩ ?_ (.inl ⟨rfl, ?_⟩)⟩
  · split <;> rfl
  · split <;> rfl
  · split <;> rfl
  · rw [← hg.content_key, ← hg.seq]
    by_cases hin : ((g.node ns.reverse).subscribers.lookup session).isSome = true
    · simp [Content.apply, content, hin]
    · simp [Content.apply, content, hin]
  · split
    · rename_i h
      exact hasContent_of_subscriber h
    · simp [hasContent]

theorem removeNamespaceSubscriber_edited (ns : TrackNamespace) (session : SessionRef) :
    Edited t (.removeNamespaceSubscriber ns session) (t.afterCall (t.removeNamespaceSubscriber ns session)) := by
  by_cases ha : t.attached ns.reverse = true
  · obtain ⟨above, hfind, -⟩ := findNode_found ha
    simp only [removeNamespaceSubscriber, hfind]
    cases hinfo : (t.node ns.reverse).subscribers.lookup session with
    | none =>
      refine .refused rfl ?_
      show (t.contentAt ns.reverse).apply _ _ = (t.contentAt ns.reverse, _)
      have hout : session ∉ (t.node ns.reverse).subscribers.keys := AList.lookup_eq_none.1 hinfo
      have hsame : (t.node ns.reverse).subscribers.erase session = (t.node ns.reverse).subscribers :=
        AList.ext (kerase_of_notMem_keys hout)
      rw [contentAt_of_attached ha]
      simp only [Content.apply, content, hsame]
    | some info =>
      have hd := forgetAdvertisements_dressed t ns session
      simp only [afterCall]
      refine edited_withGuard (.removeNamespaceSubscriber ns session) ns.reverse rfl (Grown.refl ha) hd
        ⟨fun _ => rfl, fun _ => rfl, fun _ => rfl⟩ ?_
        (.inr ⟨rfl, rfl, fun _ => hasContent_of_subscriber (by rw [hinfo]; rfl)⟩)
      obtain ⟨ads, hn, -⟩ := hd.node ns.reverse
      rw [contentAt_of_attached ha, hn]
      rfl
  · simp only [removeNamespaceSubscriber, findNode_missing ha]
    exact refused_missing rfl ha rfl

theorem step_edited (op : Op) : Edited t op (t.step op) := by
  cases op with
  | setPublisher ns session callback peerID requestID relayHopPath routeCost fromCluster =>
    obtain ⟨result, t', h, -, -, he⟩ := t.setPublisher_edited ns session callback peerID requestID relayHopPath
      routeCost fromCluster
    rwa [step, h]
  | updateRoute ns session requestID path cost => exact (t.updateRoute_edited ns session requestID path cost).1
  | unpublishNamespace ns session requestID => exact (t.unpublishNamespace_edited ns session requestID).1
  | addPublish ftn session =>
    obtain ⟨result, t', h, -, he⟩ := t.addPublish_edited ftn session
    rwa [step, h]
  | unpublishTrack ns trackName => exact t.unpublishTrack_edited ns trackName
  | addNamespaceSubscriber ns session info =>
    obtain ⟨t', h, he⟩ := t.addNamespaceSubscriber_edited ns session info
    rwa [step, h]
  | removeNamespaceSubscriber ns session => exact t.removeNamespaceSubscriber_edited ns session

end edits

/-! ## 4. Runs -/

section edited

variable {t t' : NamespaceTree} {op : Op}

theorem Edited.balanced {r : Nat → Nat → Prop} (hr : CountRel r) (h : Edited t op t') (hb : Balanced r t)
    (hfirst : (∀ a b, r a b → r a (b + 1)) ∨
      (op.adds = true → op.key ≠ [] → t.attached op.key = true → (t.node op.key).hasContent = true)) :
    Balanced r t' ∧ t'.underflow = t.underflow := by
  cases h with
  | refused => exact ⟨hb, rfl⟩
  | @edited g g' _ n hg hd hguard hch hcount _ hn hadd =>
    have hfirst' : (∀ a b, r a b → r a (b + 1)) ∨ (op.key ≠ [] → (g'.node op.key).hasContent = false →
        n.hasContent = true → (g'.node op.key).shouldKeep = false) := by
      refine hfirst.imp id fun hfirst hkey hold hnew => ?_
      rw [hasContent_congr (hd.redressed.content op.key)] at hold
      rw [hd.redressed.shouldKeep]
      rcases hadd with ⟨hadds, -⟩ | ⟨-, rfl, hadd⟩
      · by_cases hatt : t.attached op.key = true
        · obtain ⟨ch, hnode⟩ := hg.old op.key hatt
          have hcontent : (g.node op.key).hasContent = true := by
            rw [hnode]
            exact hfirst hadds hkey hatt
          rw [hcontent] at hold
          cases hold
        · obtain ⟨ch, hnode⟩ := hg.new op.key hatt (suffix_refl _)
          rw [hnode]
          rfl
      · rw [hadd hnew] at hold
        cases hold
    obtain ⟨hbal, hu⟩ := hguard.balanced hr hch hcount (hg.dressed_attached hd)
      (hd.redressed.balanced (hg.balanced r hr hb)) hfirst'
    exact ⟨hbal, hu.trans (hd.underflow.trans hg.underflow)⟩

theorem Edited.counts (h : Edited t op t') (hb : Balanced (· ≤ ·) t) :
    Balanced (· ≤ ·) t' ∧ t'.underflow = t.underflow :=
  h.balanced countRel_le hb (.inl fun _ _ h => Nat.le_succ_of_le h)

theorem Edited.contentAt (h : Edited t op t') (hb : Balanced (· ≤ ·) t) (k : NodeKey) :
    t'.contentAt k =
      if k = op.key then ((t.contentAt op.key).apply t.nextRouteSeq op).1 else t.contentAt k := by
  cases h with
  | refused _ h =>
    rw [h]
    split
    · rename_i hk
      rw [hk]
    · rfl
  | @edited g g' _ n hg hd hguard hch hcount _ hn hadd =>
    rw [hguard.contentAt countRel_le hch hcount (hg.dressed_attached hd)
      (hd.redressed.balanced (hg.balanced _ countRel_le hb)), hd.redressed.contentAt, hg.contentAt, ← hn]

theorem Edited.seq (h : Edited t op t') :
    t'.nextRouteSeq = ((t.contentAt op.key).apply t.nextRouteSeq op).2 := by
  cases h with
  | refused _ h => rw [h]
  | edited _ _ _ _ _ _ hn _ => rw [← hn]

theorem Edited.attached_or (h : Edited t op t') (hb : Balanced (· ≤ ·) t) {k : NodeKey}
    (hk : t'.attached k = true) : t.attached k = true ∨ (op.adds = true ∧ k <:+ op.key) := by
  cases h with
  | refused => exact .inl hk
  | @edited g g' _ n hg hd hguard hch hcount _ _ hadd =>
    have hgk : g.attached k = true := by
      rw [← hd.redressed.attached]
      exact hguard.attached_of countRel_le hch hcount (hg.dressed_attached hd)
        (hd.redressed.balanced (hg.balanced _ countRel_le hb)) hk
    rcases hadd with ⟨hadds, -⟩ | ⟨-, hsame, -⟩
    · exact ((hg.attached k).1 hgk).imp id fun hs => ⟨hadds, hs⟩
    · exact .inl (hsame ▸ hgk)

end edited

theorem run_append (ops : List Op) (op : Op) : run (ops ++ [op]) = (run ops).step op := by
  rw [run, foldl_append]
  rfl

theorem Directory.run_append (ops : List Op) (op : Op) :
    Directory.run (ops ++ [op]) = (Directory.run ops).step op := by
  rw [Directory.run, foldl_append]
  rfl

theorem empty_balanced {r : Nat → Nat → Prop} (hr : CountRel r) : Balanced r {} := fun _ _ => hr.zero

/-- **In every run no count is lower than the number of kept children**, and so none is lowered at
    zero. -/
theorem run_balanced (ops : List Op) : Balanced (· ≤ ·) (run ops) ∧ (run ops).underflow = false := by
  induction ops using reverseRecOn with
  | nil => exact ⟨empty_balanced countRel_le, rfl⟩
  | append_singleton ops op ih =>
    rw [run_append]
    obtain ⟨hb, hu⟩ := (step_edited (run ops) op).counts ih.1
    exact ⟨hb, hu.trans ih.2⟩

theorem run_contentAt (ops : List Op) :
    (∀ ns : TrackNamespace, (run ops).contentAt ns.reverse = (Directory.run ops).content ns) ∧
      (run ops).nextRouteSeq = (Directory.run ops).nextRouteSeq := by
  induction ops using reverseRecOn with
  | nil =>
    refine ⟨fun ns => ?_, rfl⟩
    rw [NamespaceTree.contentAt]
    split <;> rfl
  | append_singleton ops op ih =>
    obtain ⟨hcontent, hseq⟩ := ih
    have he := step_edited (run ops) op
    have hop : (run ops).contentAt op.key = (Directory.run ops).content op.target := hcontent op.target
    rw [run_append, Directory.run_append]
    refine ⟨fun ns => ?_, by rw [he.seq, hop, hseq]; rfl⟩
    rw [he.contentAt (run_balanced ops).1, hop, hseq, Op.key]
    by_cases hns : ns = op.target
    · rw [hns, if_pos rfl]
      simp [Directory.step]
    · rw [if_neg fun e => hns (reverse_injective e), hcontent]
      simp [Directory.step, update_of_ne hns]

/-! ## 5. The deepest node with routes -/

theorem prefix_cons_cases {q rest : TrackNamespace} {name : Bytes} (h : q <+: name :: rest) :
    q = [] ∨ ∃ q', q = name :: q' ∧ q' <+: rest := by
  rcases prefix_cons_iff.1 h with h | ⟨q', h, h'⟩
  · exact .inl h
  · exact .inr ⟨q', h, h'⟩

theorem findRouteNodeFrom_spec (t : NamespaceTree) (rest : TrackNamespace) (key : NodeKey)
    (deepest : Option NodeKey) (ha : t.attached key = true) :
    (∃ p, p <+: rest ∧ t.findRouteNodeFrom key deepest rest = some (p.reverse ++ key) ∧
        (t.contentAt (p.reverse ++ key)).routes ≠ [] ∧
        ∀ q, q <+: rest → (t.contentAt (q.reverse ++ key)).routes ≠ [] → q.length ≤ p.length) ∨
      (t.findRouteNodeFrom key deepest rest = deepest ∧
        ∀ q, q <+: rest → q ≠ [] → (t.contentAt (q.reverse ++ key)).routes = []) := by
  induction rest generalizing key deepest with
  | nil => exact .inr ⟨rfl, fun q hq hne => absurd (prefix_nil.1 hq) hne⟩
  | cons name rest ih =>
    have hcons : ∀ p : TrackNamespace, (name :: p).reverse ++ key = p.reverse ++ name :: key := by simp
    rw [findRouteNodeFrom]
    by_cases hn : name ∈ (t.node key).children
    · have ha' : t.attached (name :: key) = true := (attached_cons _ _ _).2 ⟨ha, hn⟩
      have hhere : (t.contentAt (name :: key)).routes = (t.node (name :: key)).routes := by
        rw [contentAt_of_attached ha']
        rfl
      rw [if_pos hn]
      rcases ih (name :: key) _ ha' with ⟨p, hp, hres, hroutes, hmax⟩ | ⟨hres, hnone⟩
      · refine .inl ⟨name :: p, (prefix_cons_inj name).2 hp, by rw [hres, hcons], by rwa [hcons],
          fun q hq hqr => ?_⟩
        rcases prefix_cons_cases hq with rfl | ⟨q', rfl, hq'⟩
        · exact Nat.zero_le _
        · rw [hcons] at hqr
          exact Nat.succ_le_succ (hmax q' hq' hqr)
      · by_cases hr : (t.node (name :: key)).routes = []
        · refine .inr ⟨by rw [hres, hr]; rfl, fun q hq hne => ?_⟩
          rcases prefix_cons_cases hq with rfl | ⟨q', rfl, hq'⟩
          · exact absurd rfl hne
          · rw [hcons]
            by_cases hq0 : q' = []
            · rw [hq0]
              exact hhere.trans hr
            · exact hnone q' hq' hq0
        · refine .inl ⟨[name], by simp, by rw [hres, if_neg (by simpa using hr)]; rfl,
            fun h => hr (hhere.symm.trans h), fun q hq hqr => ?_⟩
          rcases prefix_cons_cases hq with rfl | ⟨q', rfl, hq'⟩
          · exact Nat.zero_le _
          · by_cases hq0 : q' = []
            · rw [hq0]
            · rw [hcons] at hqr
              exact absurd (hnone q' hq' hq0) hqr
    · rw [if_neg hn]
      refine .inr ⟨rfl, fun q hq hne => ?_⟩
      rcases prefix_cons_cases hq with rfl | ⟨q', rfl, hq'⟩
      · exact absurd rfl hne
      · have hout : t.attached (q'.reverse ++ name :: key) ≠ true := fun h =>
          hn ((attached_cons _ _ _).1 (attached_of_suffix (suffix_append _ _) h)).2
        rw [hcons, contentAt_of_not_attached hout]

/-- **The deepest node that covers a namespace and has routes**: that of the longest prefix with
    routes. -/
theorem findRouteNode_spec (t : NamespaceTree) (ns : TrackNamespace) :
    (∃ p, p <+: ns ∧ t.findRouteNode ns = some p.reverse ∧ (t.contentAt p.reverse).routes ≠ [] ∧
        ∀ q, q <+: ns → (t.contentAt q.reverse).routes ≠ [] → q.length ≤ p.length) ∨
      (t.findRouteNode ns = none ∧ ∀ q, q <+: ns → (t.contentAt q.reverse).routes = []) := by
  have h := t.findRouteNodeFrom_spec ns [] (if (t.node []).routes.isEmpty then none else some []) rfl
  simp only [append_nil] at h
  rcases h with h | ⟨hres, hnone⟩
  · exact .inl h
  · have hroot : (t.contentAt []).routes = (t.node []).routes := by
      rw [contentAt_of_attached rfl]
      rfl
    by_cases hr : (t.node []).routes = []
    · refine .inr ⟨by rw [findRouteNode, hres, hr]; rfl, fun q hq => ?_⟩
      by_cases hq0 : q = []
      · rw [hq0]
        exact hroot.trans hr
      · exact hnone q hq hq0
    · refine .inl ⟨[], nil_prefix, by rw [findRouteNode, hres, if_neg (by simpa using hr)]; rfl,
        fun h => hr (hroot.symm.trans h), fun q hq hqr => ?_⟩
      by_cases hq0 : q = []
      · rw [hq0]
      · exact absurd (hnone q hq hq0) hqr

end NamespaceTree

/-! ## 6. The answers of the tree -/

/-- A list of subscribers is that of the subscriptions at the prefixes of a namespace, each once. -/
def Directory.Lists (d : Directory) (ns : TrackNamespace) (l : SessionSubscriberList) : Prop :=
  ∃ subs : List (TrackNamespace × SessionRef × NamespaceSubscriberInfo),
    (subs.map fun s => (s.1, s.2.1)).Nodup ∧
    (∀ p session info, (p, session, info) ∈ subs ↔
      p <+: ns ∧ (d.content p).subscribers.lookup session = some info) ∧
    l = subs.map (·.2)

theorem inits_nodup (ns : TrackNamespace) : ns.inits.Nodup := by
  induction ns with
  | nil => simp
  | cons name ns ih =>
    rw [inits_cons, nodup_cons]
    exact ⟨by simp, ih.map fun _ _ h => (cons.inj h).2⟩

theorem Directory.lists_subscribersOf {d : Directory} {content : NodeKey → Content}
    (h : ∀ ns : TrackNamespace, content ns.reverse = d.content ns) (ns : TrackNamespace) :
    d.Lists ns (subscribersOf content ns) := by
  refine ⟨ns.inits.flatMap fun p => (d.content p).subscribers.entries.map fun e => (p, e.1, e.2), ?_, ?_, ?_⟩
  · rw [map_flatMap, nodup_flatMap]
    constructor
    · intro p _
      rw [map_map]
      have hkeys := (d.content p).subscribers.nodupKeys
      rw [List.NodupKeys, keys] at hkeys
      have := hkeys.map (f := fun session => (p, session)) fun _ _ h => (Prod.mk.inj h).2
      rwa [map_map] at this
    · refine (inits_nodup ns).imp fun {p q} hpq => ?_
      simp only [onFun, disjoint_left, map_map, mem_map]
      intro x ⟨_, _, hx⟩ ⟨_, _, hx'⟩
      exact hpq (Prod.mk.inj (hx.trans hx'.symm)).1
  · intro p session info
    simp only [mem_flatMap, mem_inits, mem_map]
    constructor
    · intro ⟨p', hp', e, he, heq⟩
      obtain ⟨rfl, hrest⟩ := Prod.mk.inj heq
      obtain ⟨rfl, rfl⟩ := Prod.mk.inj hrest
      exact ⟨hp', AList.mem_lookup_iff.2 he⟩
    · intro ⟨hp, hl⟩
      exact ⟨p, hp, ⟨session, info⟩, AList.mem_lookup_iff.1 hl, rfl⟩
  · rw [subscribersOf, subscribersAlong, map_flatMap]
    refine congrArg (flatMap · ns.inits) (funext fun p => ?_)
    rw [append_nil, h, map_map]
    rfl

/-- **The namespace tree is a map from namespaces to routes, publishes and subscribers.** After every
    sequence of calls it holds, under every namespace, what the map holds, so that pruning has lost
    nothing; `findRouteNode` gives the node of the longest prefix that has a route in the map, or none if
    there is no such prefix; and the subscribers that the calls return are the subscriptions at every
    prefix of the namespace, each once. -/
theorem tree_refines_directory (ops : List Op) :
    (∀ ns : TrackNamespace, (run ops).contentAt ns.reverse = (Directory.run ops).content ns) ∧
    (∀ ns : TrackNamespace,
      (∃ p, p <+: ns ∧ (run ops).findRouteNode ns = some p.reverse ∧
        ((Directory.run ops).content p).routes ≠ [] ∧
        ∀ q, q <+: ns → ((Directory.run ops).content q).routes ≠ [] → q.length ≤ p.length) ∨
      ((run ops).findRouteNode ns = none ∧
        ∀ q, q <+: ns → ((Directory.run ops).content q).routes = [])) ∧
    (∀ ns session callback peerID requestID relayHopPath routeCost fromCluster, ∃ result t',
      (run ops).setPublisher ns session callback peerID requestID relayHopPath routeCost fromCluster =
        some (result, t') ∧ (Directory.run ops).Lists ns result.subscribers) ∧
    (∀ ns session requestID path cost result t',
      (run ops).updateRoute ns session requestID path cost = .ok (result, t') →
        (Directory.run ops).Lists ns result.subscribers) ∧
    (∀ ns session requestID result t',
      (run ops).unpublishNamespace ns session requestID = .ok (result, t') →
        (Directory.run ops).Lists ns result.subscribers) ∧
    (∀ ftn session, ∃ result t', (run ops).addPublish ftn session = some (result, t') ∧
      (Directory.run ops).Lists ftn.trackNamespace result.subscribers) := by
  have hcontent := (run_contentAt ops).1
  have hlists := fun ns => Directory.lists_subscribersOf hcontent ns
  refine ⟨hcontent, fun ns => ?_, fun ns session callback peerID requestID relayHopPath routeCost fromCluster => ?_,
    fun ns session requestID path cost result t' h => ?_, fun ns session requestID result t' h => ?_,
    fun ftn session => ?_⟩
  · have hspec := (run ops).findRouteNode_spec ns
    simp only [hcontent] at hspec
    exact hspec
  · obtain ⟨result, t', h, -, hl, -⟩ := (run ops).setPublisher_edited ns session callback peerID requestID
      relayHopPath routeCost fromCluster
    exact ⟨result, t', h, hl ▸ hlists ns⟩
  · obtain ⟨-, -, hl⟩ := ((run ops).updateRoute_edited ns session requestID path cost).2 result t' h
    exact hl ▸ hlists ns
  · obtain ⟨-, -, hl⟩ := ((run ops).unpublishNamespace_edited ns session requestID).2 result t' h
    exact hl ▸ hlists ns
  · obtain ⟨result, t', h, hl, -⟩ := (run ops).addPublish_edited ftn session
    exact ⟨result, t', h, hl ▸ hlists ftn.trackNamespace⟩

end Moqx

/-
  Subject: Every subscription has been told of the namespaces that have a route for it.

  * `reconcileAll_spec` -- the subscriptions of a namespace reconciled one after the other;
  * `Acts`, `step_acts` -- what an event can do;
  * `advertisements_match_routes` -- the messages of every run.
-/
import Moqx.Namespace.Advertise

namespace Moqx

open NamespaceTree NamespaceSubscriberInfo List Function

variable {t t' : NamespaceTree} {op : Op} {key : NodeKey} {cfg : RelayConfig} {origin : Nat → Option Nat}
  {relay : NamespaceRelay}

/-! ## 1. Records at the nodes -/

namespace NamespaceTree

variable {k : NodeKey}

/-- What a node of the tree has recorded for a subscription. -/
def adAt (t : NamespaceTree) (k : NodeKey) (a : AdvertisementKey) : Option Advertisement :=
  if t.attached k then (t.node k).advertisements.lookup a else none

theorem adAt_of_attached (h : t.attached k = true) (a : AdvertisementKey) :
    t.adAt k a = (t.node k).advertisements.lookup a := if_pos h

theorem adAt_of_not_attached (h : t.attached k ≠ true) (a : AdvertisementKey) : t.adAt k a = none := if_neg h

theorem Guarded.advertisements {n : NamespaceNode} (hads : n.advertisements = (t.node key).advertisements)
    (h : Guarded t key n t') (k : NodeKey) :
    (t'.node k).advertisements = (t.node k).advertisements := by
  have hset : ((t.setNode key n).node k).advertisements = (t.node k).advertisements := by
    by_cases hk : k = key
    · rw [hk, setNode_node_self, hads]
    · rw [setNode_node_of_ne t n hk]
  rw [← hset]
  cases h with
  | plain => rfl
  | @first name up =>
    obtain ⟨c, -, hn⟩ := (incrementActiveChildren_raised up (t.setNode key n)).node k
    rw [hn]
  | @last name up =>
    obtain ⟨c, ch, hn⟩ := (pruneUp_pruned up name (t.setNode key n)).2 k
    rw [hn]

theorem Grown.adAt {g : NamespaceTree} (hg : Grown t g key) (hk : g.attached k = true) (a : AdvertisementKey) :
    (g.node k).advertisements.lookup a = t.adAt k a := by
  by_cases hold : t.attached k = true
  · obtain ⟨ch, hn⟩ := hg.old k hold
    rw [adAt_of_attached hold, hn]
  · obtain ⟨ch, hn⟩ := hg.new k hold (((hg.attached k).1 hk).resolve_left hold)
    rw [adAt_of_not_attached hold, hn]
    rfl

section

variable (h : Edited t op t')

include h

theorem Edited.adAt_or (hb : Balanced (· ≤ ·) t) :
    t' = t ∨ ∀ k a, (t.attached k = true ∨ t'.attached k = true) →
      (t'.node k).advertisements.lookup a = if op.forgets t k a then none else t.adAt k a := by
  cases h with
  | refused => exact .inl rfl
  | @edited g g' _ n hg hd hguard hch hcount hads =>
    refine .inr fun k a hk => ?_
    have hgk : g.attached k = true := by
      rcases hk with hk | hk
      · exact (hg.attached k).2 (.inl hk)
      · rw [← hd.redressed.attached]
        exact hguard.attached_of countRel_le hch hcount (hg.dressed_attached hd)
          (hd.redressed.balanced (hg.balanced _ countRel_le hb)) hk
    obtain ⟨ads, hn, hl⟩ := hd.node k
    rw [hguard.advertisements hads, hn, ← hg.adAt hgk]
    exact hl a

theorem Edited.adAt (hforget : ∀ k a, op.forgets t k a = false) (hb : Balanced (· ≤ ·) t)
    (hk : t.attached k = true ∨ t'.attached k = true) (a : AdvertisementKey) :
    (t'.node k).advertisements.lookup a = t.adAt k a := by
  rcases h.adAt_or hb with heq | had
  · rw [heq] at hk ⊢
    rw [adAt_of_attached (hk.elim id id)]
  · exact (had k a hk).trans (if_neg (by rw [hforget]; exact Bool.false_ne_true))

theorem Edited.attached_of (hop : op.adds = false) (hb : Balanced (· ≤ ·) t) (hk : t'.attached k = true) :
    t.attached k = true := by
  rcases h.attached_or hb hk with hk | ⟨hadds, -⟩
  · exact hk
  · rw [hop] at hadds
    cases hadds

theorem Edited.attached_of_routes (hb : Balanced (· ≤ ·) t)
    (hr : ((t.contentAt op.key).apply t.nextRouteSeq op).1.routes ≠ []) :
    t'.attached op.key = true := by
  by_contra hout
  have hcontent := h.contentAt hb op.key
  rw [contentAt_of_not_attached hout, if_pos rfl] at hcontent
  exact hr (congrArg Content.routes hcontent).symm

theorem Edited.slot (hb : Balanced (· ≤ ·) t) (hk : t.attached op.key = true ∨ t'.attached op.key = true) :
    (t'.node op.key).content = t'.contentAt op.key := by
  cases h with
  | refused => exact (contentAt_of_attached (hk.elim id id)).symm
  | @edited g g' _ n hg hd hguard hch hcount =>
    rw [hguard.contentAt countRel_le hch hcount (hg.dressed_attached hd)
      (hd.redressed.balanced (hg.balanced _ countRel_le hb)), if_pos rfl]
    have hset : ((g'.setNode op.key n).node op.key).content = n.content := by rw [setNode_node_self]
    rw [← hset]
    cases hguard with
    | plain => rfl
    | @first name up =>
      obtain ⟨c, -, hn⟩ := (incrementActiveChildren_raised up (g'.setNode op.key n)).node op.key
      rw [hn]
      rfl
    | @last name up => exact (pruneUp_pruned up name _).content op.key

end

end NamespaceTree

namespace NamespaceRelay

variable {content : NodeKey → Content} {requestID : Nat} {params : RouteParams}

/-! ## 2. The subscriptions of a namespace -/

variable {relay' : NamespaceRelay} {p ns : TrackNamespace} {session : SessionRef}

/-- The subscriptions in the list have been reconciled at the node `key`, each once. -/
structure Reconciled (cfg : RelayConfig) (key : NodeKey) (subs : SessionSubscriberList)
    (relay relay' : NamespaceRelay) : Prop where
  node_ne : ∀ k, k ≠ key → relay'.tree.node k = relay.tree.node k
  redressed : Redressed relay.tree relay'.tree
  seq : relay'.tree.nextRouteSeq = relay.tree.nextRouteSeq
  told : ∀ s ∈ subs, s.2.namespacePublishHandle.isSome = true →
    let told := reconciled cfg s.1 (advertisableRoute cfg (relay.tree.node key).routes s.1 s.2)
      ((relay.tree.node key).advertisements.lookup (s.2.adKey s.1))
    (relay'.tree.node key).advertisements.lookup (s.2.adKey s.1) = told.1 ∧
      relay'.sent (s.1, s.2.trackNamespacePrefix) key.reverse =
        relay.sent (s.1, s.2.trackNamespacePrefix) key.reverse ++ told.2
  other_ad : ∀ a, (∀ s ∈ subs, s.2.namespacePublishHandle.isSome = true → a ≠ s.2.adKey s.1) →
    (relay'.tree.node key).advertisements.lookup a = (relay.tree.node key).advertisements.lookup a
  other_sent : ∀ stream ns, (ns ≠ key.reverse ∨ ∀ s ∈ subs, stream ≠ (s.1, s.2.trackNamespacePrefix)) →
    relay'.sent stream ns = relay.sent stream ns

theorem redressed_setNode {n : NamespaceNode} (h : ∃ ads, n = { t.node key with advertisements := ads }) :
    Redressed t (t.setNode key n) := by
  intro k
  by_cases hk : k = key
  · rw [hk, setNode_node_self]
    exact h
  · exact ⟨_, by rw [setNode_node_of_ne t n hk]⟩

theorem reconcileAdvertisement_spec (cfg : RelayConfig) (relay : NamespaceRelay) (key : NodeKey)
    (s : SessionRef × NamespaceSubscriberInfo) :
    Reconciled cfg key [s] relay (relay.reconcileAdvertisement cfg key s.1 s.2) := by
  have hsent : ∀ stream ns, (ns ≠ key.reverse ∨ ∀ s' ∈ [s], stream ≠ (s'.1, s'.2.trackNamespacePrefix)) →
      (relay.reconcileAdvertisement cfg key s.1 s.2).sent stream ns = relay.sent stream ns := by
    intro stream ns hne
    by_cases hstream : stream = (s.1, s.2.trackNamespacePrefix)
    · have hns := hne.resolve_right fun h => h s mem_cons_self hstream
      simp [reconcileAdvertisement, hstream, update_of_ne hns]
    · simp [reconcileAdvertisement, update_of_ne hstream]
  cases hh : s.2.namespacePublishHandle.isSome with
  | false =>
    have hnone := @reconcileNode_of_no_handle cfg (relay.tree.node key) s.1 s.2 hh
    have htree : (relay.reconcileAdvertisement cfg key s.1 s.2).tree =
        relay.tree.setNode key (relay.tree.node key) := by
      rw [reconcileAdvertisement, hnone]
    refine ⟨fun k hk => ?_, ?_, rfl, fun s' hs' hh' => ?_, fun a _ => ?_, hsent⟩
    · rw [htree, setNode_node_of_ne _ _ hk]
    · rw [htree]
      exact redressed_setNode ⟨_, rfl⟩
    · rw [mem_singleton.1 hs', hh] at hh'
      cases hh'
    · rw [htree, setNode_node_self]
  | true =>
    obtain ⟨ads, hres, hkey, hother⟩ := reconcileNode_spec cfg (relay.tree.node key) s.1 hh
    have htree : (relay.reconcileAdvertisement cfg key s.1 s.2).tree =
        relay.tree.setNode key { relay.tree.node key with advertisements := ads } := by
      rw [reconcileAdvertisement, hres]
    refine ⟨fun k hk => ?_, ?_, rfl, fun s' hs' _ => ?_, fun a ha => ?_, hsent⟩
    · rw [htree, setNode_node_of_ne _ _ hk]
    · rw [htree]
      exact redressed_setNode ⟨_, rfl⟩
    · rw [mem_singleton.1 hs']
      refine ⟨by rw [htree, setNode_node_self]; exact hkey, ?_⟩
      rw [reconcileAdvertisement, hres]
      simp
    · rw [htree, setNode_node_self]
      exact hother a (ha s mem_cons_self hh)

theorem Reconciled.routes {subs : SessionSubscriberList} (h : Reconciled cfg key subs relay relay') :
    (relay'.tree.node key).routes = (relay.tree.node key).routes := by
  obtain ⟨ads, hn⟩ := h.redressed key
  rw [hn]

/-- **The subscriptions of a namespace, one after the other.** None changes what another was told. -/
theorem reconcileAll_spec (cfg : RelayConfig) (key : NodeKey) (subs : SessionSubscriberList)
    (hnodup : (subs.map fun s => (s.1, s.2.trackNamespacePrefix.length)).Nodup) (relay : NamespaceRelay) :
    Reconciled cfg key subs relay (relay.reconcileAll cfg key subs) := by
  induction subs generalizing relay with
  | nil =>
    exact ⟨fun _ _ => rfl, fun _ => ⟨_, rfl⟩, rfl, fun s hs => absurd hs not_mem_nil, fun _ _ => rfl,
      fun _ _ _ => rfl⟩
  | cons s subs ih =>
    rw [map_cons, nodup_cons] at hnodup
    obtain ⟨hnew, hrest⟩ := hnodup
    have hone := reconcileAdvertisement_spec cfg relay key s
    have hmore := ih hrest (relay.reconcileAdvertisement cfg key s.1 s.2)
    have hkeys : ∀ s' ∈ subs, s'.2.adKey s'.1 ≠ s.2.adKey s.1 := fun s' hs' e =>
      hnew (mem_map.2 ⟨s', hs', e⟩)
    have hstreams : ∀ s' ∈ subs, (s'.1, s'.2.trackNamespacePrefix) ≠ (s.1, s.2.trackNamespacePrefix) := by
      intro s' hs' e
      obtain ⟨h1, h2⟩ := Prod.mk.inj e
      exact hkeys s' hs' (by rw [adKey, adKey, h1, h2])
    refine ⟨fun k hk => (hmore.node_ne k hk).trans (hone.node_ne k hk), fun k => ?_,
      hmore.seq.trans hone.seq, fun s' hs' hh => ?_, fun a ha => ?_, fun stream ns hne => ?_⟩
    · obtain ⟨ads, hn⟩ := hone.redressed k
      obtain ⟨ads', hn'⟩ := hmore.redressed k
      rw [hn] at hn'
      exact ⟨ads', hn'⟩
    · rcases mem_cons.1 hs' with rfl | hs'
      · -- the head was reconciled first, and the others leave its record and its stream
        obtain ⟨had, hsent⟩ := hone.told s' mem_cons_self hh
        refine ⟨?_, ?_⟩
        · rw [reconcileAll, foldl_cons]
          exact (hmore.other_ad _ fun s'' hs'' _ => (hkeys s'' hs'').symm).trans had
        · rw [reconcileAll, foldl_cons]
          exact (hmore.other_sent _ _ (.inr fun s'' hs'' => (hstreams s'' hs'').symm)).trans hsent
      · obtain ⟨had, hsent⟩ := hmore.told s' hs' hh
        have hsame := hone.other_ad (s'.2.adKey s'.1) fun s'' hs'' _ =>
          mem_singleton.1 hs'' ▸ hkeys s' hs'
        have hsame' := hone.other_sent (s'.1, s'.2.trackNamespacePrefix) key.reverse
          (.inr fun s'' hs'' => mem_singleton.1 hs'' ▸ hstreams s' hs')
        rw [hone.routes, hsame] at had hsent
        rw [hsame'] at hsent
        exact ⟨had, hsent⟩
    · rw [reconcileAll, foldl_cons]
      refine (hmore.other_ad a fun s' hs' => ha s' (mem_cons_of_mem s hs')).trans
        (hone.other_ad a fun s' hs' => ?_)
      rw [mem_singleton.1 hs']
      exact ha s mem_cons_self
    · rw [reconcileAll, foldl_cons]
      refine (hmore.other_sent stream ns (hne.imp id fun h s' hs' => h s' (mem_cons_of_mem s hs'))).trans
        (hone.other_sent stream ns (hne.imp id fun h s' hs' => ?_))
      rw [mem_singleton.1 hs']
      exact h s mem_cons_self

/-! ## 3. What an event does -/

/-- Why an event calls `op` to change the routes of a namespace. -/
inductive Reroutes (cfg : RelayConfig) (t : NamespaceTree) : Event → Op → Prop
  | withdrawn {e : Event} (ns : TrackNamespace) (session : SessionRef) (requestID : Option Nat) :
    Reroutes cfg t e (.unpublishNamespace ns session requestID)
  | published {ns : TrackNamespace} {session : SessionRef} {callback : Option Nat} {peerID : Bytes}
    {requestID : Nat} {params : RouteParams} {route : IngestedRoute}
    (hroute : ingestRoute cfg params session = some route) :
    Reroutes cfg t (.publishNamespace ns session callback peerID requestID params)
      (.setPublisher ns session callback peerID requestID route.path route.cost route.fromCluster)
  | updated {ns : TrackNamespace} {session : SessionRef} {requestID : Nat} {params : RouteParams}
    {route : Route} {read : ClusterParams} (ha : t.attached ns.reverse = true)
    (hroute : (findRoute (t.node ns.reverse).routes session).filter (·.requestID == requestID) = some route)
    (hread : readClusterParams cfg params (cfg.relayLinkCost session) = some read)
    (hcheck : (route.fromCluster || (read.path.isEmpty && read.cost.isNone)) = true) :
    Reroutes cfg t (.requestUpdate ns session requestID params)
      (.updateRoute ns session requestID (updatedRoute route read).1 (updatedRoute route read).2)

theorem Reroutes.isRouteCall {e : Event} (h : Reroutes cfg t e op) : op.isRouteCall = true := by
  cases h <;> rfl

/-- **What an event can do**: nothing; change the routes of a namespace and reconcile its subscriptions;
    begin or end a subscription; or change the tracks of a namespace. -/
inductive Acts (cfg : RelayConfig) (relay : NamespaceRelay) : Event → NamespaceRelay → Prop
  | nothing {e : Event} : Acts cfg relay e relay
  | reroutes {e : Event} {op : Op} {t' : NamespaceTree} (hop : Reroutes cfg relay.tree e op)
    (he : Edited relay.tree op t') (hk : relay.tree.attached op.key = true ∨ t'.attached op.key = true) :
    Acts cfg relay e ({ relay with tree := t' }.reconcileAll cfg op.key
      (subscribersOf relay.tree.contentAt op.target))
  | subscribes {p : TrackNamespace} {session : SessionRef} {info : NamespaceSubscriberInfo} {tooLarge : Bool}
    {t' : NamespaceTree} (hinfo : info.trackNamespacePrefix = p)
    (he : Edited relay.tree (.addNamespaceSubscriber p session info) t') :
    Acts cfg relay (.subscribeNamespace p session info.forward info.options info.namespacePublishHandle
      info.trackFilter info.peerID tooLarge) (replay cfg relay.tree { relay with tree := t' } p session info)
  | unsubscribes {e : Event} {p : TrackNamespace} {session : SessionRef} {t' : NamespaceTree}
    (he : Edited relay.tree (.removeNamespaceSubscriber p session) t') : Acts cfg relay e { relay with tree := t' }
  | tracks {e : Event} {op : Op} {t' : NamespaceTree}
    (hop : (∃ ftn session, op = .addPublish ftn session) ∨ ∃ ns trackName, op = .unpublishTrack ns trackName)
    (he : Edited relay.tree op t') : Acts cfg relay e { relay with tree := t' }

theorem done_acts (e : Event) (ns : TrackNamespace) (session : SessionRef) (requestID : Option Nat) :
    Acts cfg relay e (relay.doPublishNamespaceDone cfg ns session requestID) := by
  obtain ⟨he, hok⟩ := relay.tree.unpublishNamespace_edited ns session requestID
  rw [doPublishNamespaceDone]
  cases hres : relay.tree.unpublishNamespace ns session requestID with
  | error => exact .nothing
  | ok r =>
    obtain ⟨result, t'⟩ := r
    obtain ⟨ha, hnode, hsubs⟩ := hok result t' hres
    rw [hres] at he
    have hacts := Acts.reroutes (@Reroutes.withdrawn cfg relay.tree e ns session requestID) he (.inl ha)
    simp only [hnode, hsubs]
    exact hacts

theorem step_acts (hb : Balanced (· ≤ ·) relay.tree) {e : Event} (hs : relay.step cfg e = some relay') :
    Acts cfg relay e relay' := by
  cases e with
  | publishNamespace ns session callback peerID requestID params =>
    rw [NamespaceRelay.step, doPublishNamespace] at hs
    split at hs
    · split at hs
      · rw [← Option.some.inj hs]
        exact done_acts _ ns session none
      · rw [← Option.some.inj hs]
        exact .nothing
    · rename_i route hroute
      split at hs
      · cases hs
      · split at hs
        · rw [← Option.some.inj hs]
          exact .nothing
        · obtain ⟨result, t', hset, hnode, hsubs, he⟩ := relay.tree.setPublisher_edited ns session callback
            peerID requestID route.path route.cost route.fromCluster
          rw [hset] at hs
          rw [← Option.some.inj hs]
          have hacts := Acts.reroutes (.published hroute) he
            (.inr (he.attached_of_routes hb Content.apply_setPublisher_routes))
          simp only [hnode, hsubs]
          exact hacts
  | requestUpdate ns session requestID params =>
    rw [NamespaceRelay.step, updatePublishNamespace] at hs
    split at hs
    · rw [← Option.some.inj hs]
      exact .nothing
    · rename_i route hfound
      split at hs
      · rw [← Option.some.inj hs]
        exact done_acts _ ns session (some requestID)
      · rename_i read hread
        split at hs
        · cases hs
        · rename_i hcheck
          obtain ⟨he, hok⟩ := relay.tree.updateRoute_edited ns session requestID (updatedRoute route read).1
            (updatedRoute route read).2
          simp only at hs
          split at hs
          · cases hs
          · rename_i result t' hres
            obtain ⟨ha, hnode, hsubs⟩ := hok result t' hres
            obtain ⟨above, hnodeFound, -⟩ := findNode_found ha
            rw [hnodeFound, Option.bind_some] at hfound
            rw [Bool.not_eq_true', Bool.not_eq_false] at hcheck
            rw [hres] at he
            have hacts := Acts.reroutes (.updated ha hfound hread hcheck) he (.inl ha)
            rw [← Option.some.inj hs]
            simp only [hnode, hsubs]
            exact hacts
  | publishNamespaceDone ns session requestID =>
    rw [← Option.some.inj hs]
    exact done_acts _ ns session requestID
  | subscribeNamespace ns session forward options handle trackFilter peerID tooLarge =>
    simp only [NamespaceRelay.step, subscribeNamespace] at hs
    split at hs
    · rw [← Option.some.inj hs]
      exact .nothing
    · obtain ⟨t', hadd, he⟩ := relay.tree.addNamespaceSubscriber_edited ns session
        { forward := forward, options := options, namespacePublishHandle := handle,
          trackNamespacePrefix := ns, trackFilter := trackFilter, peerID := peerID }
      rw [hadd] at hs
      rw [← Option.some.inj hs]
      exact @Acts.subscribes cfg relay ns session _ tooLarge t' rfl he
  | unsubscribeNamespace ns session =>
    rw [← Option.some.inj hs]
    exact .unsubscribes (relay.tree.removeNamespaceSubscriber_edited ns session)
  | publish ftn session =>
    obtain ⟨result, t', hadd, -, he⟩ := relay.tree.addPublish_edited ftn session
    simp only [NamespaceRelay.step, hadd] at hs
    rw [← Option.some.inj hs]
    exact .tracks (.inl ⟨ftn, session, rfl⟩) he
  | publishDone ns trackName =>
    rw [← Option.some.inj hs]
    exact .tracks (.inr ⟨ns, trackName, rfl⟩) (relay.tree.unpublishTrack_edited ns trackName)

/-! ## 4. The invariant -/

/-- The subscription of a session to a prefix, if there is one. -/
def subscription (relay : NamespaceRelay) (p : TrackNamespace) (session : SessionRef) :
    Option NamespaceSubscriberInfo :=
  (relay.tree.contentAt p.reverse).subscribers.lookup session

def routesOf (relay : NamespaceRelay) (ns : TrackNamespace) : List Route :=
  (relay.tree.contentAt ns.reverse).routes

/-- What is recorded, sent and known of routes fits together. `origin` gives the first hop each generation
    was given out to. -/
structure Inv (cfg : RelayConfig) (origin : Nat → Option Nat) (relay : NamespaceRelay) : Prop where
  balanced : Balanced (· ≤ ·) relay.tree
  stamped : ∀ (ns : TrackNamespace), ∀ r ∈ relay.routesOf ns, Stamped origin relay.tree.nextRouteSeq r.advertisement
  prefixes : ∀ p session info, relay.subscription p session = some info → info.trackNamespacePrefix = p
  /-- A record belongs to a subscription to a prefix. -/
  owned : ∀ (ns : TrackNamespace) (a : AdvertisementKey), relay.tree.adAt ns.reverse a ≠ none → a.2 ≤ ns.length ∧
    ∃ info, relay.subscription (ns.take a.2) a.1 = some info ∧ info.namespacePublishHandle.isSome = true
  told : ∀ (p : TrackNamespace) session info, relay.subscription p session = some info →
    info.namespacePublishHandle.isSome = true → ∀ ns, p <+: ns →
    Logged cfg origin relay.tree.nextRouteSeq session (relay.tree.adAt ns.reverse (session, p.length))
      (relay.sent (session, p) ns) ∧
    Current cfg session (relay.tree.adAt ns.reverse (session, p.length))
      (advertisableRoute cfg (relay.routesOf ns) session info)

theorem inv_empty (cfg : RelayConfig) : Inv cfg (fun _ => none) {} := by
  have hcontent : ∀ k, ({} : NamespaceTree).contentAt k = {} := fun k => by
    rw [NamespaceTree.contentAt]
    split <;> rfl
  have hsub : ∀ p session, subscription {} p session = none := fun p session => by
    show (({} : NamespaceTree).contentAt p.reverse).subscribers.lookup session = none
    rw [hcontent]
    rfl
  refine ⟨empty_balanced countRel_le, fun ns r hr => ?_, fun p session info h => ?_, fun ns a h => ?_,
    fun p session info h => ?_⟩
  · rw [routesOf, hcontent] at hr
    exact absurd hr not_mem_nil
  · rw [hsub] at h
    cases h
  · refine absurd ?_ h
    rw [adAt]
    split <;> rfl
  · rw [hsub] at h
    cases h

section inv

variable (h : Inv cfg origin relay)

include h

theorem Inv.adAt_none (hr : relay.routesOf ns = []) (a : AdvertisementKey) :
    relay.tree.adAt ns.reverse a = none := by
  by_contra hne
  obtain ⟨hle, info, hsub, hh⟩ := h.owned ns a hne
  obtain ⟨-, hiff, -⟩ := h.told _ a.1 info hsub hh ns (List.take_prefix _ _)
  rw [length_take_of_le hle, hr] at hiff
  have hsome := hiff.1 (Option.isSome_iff_ne_none.2 hne)
  cases hsome

theorem Inv.adAt_of_not_subscribed (hp : p <+: ns) (hsub : relay.subscription p session = none) :
    relay.tree.adAt ns.reverse (session, p.length) = none := by
  by_contra hne
  obtain ⟨-, info, hsub', -⟩ := h.owned ns _ hne
  rw [← prefix_iff_eq_take.1 hp, hsub] at hsub'
  cases hsub'

theorem Inv.adAt_edited (he : Edited relay.tree op t') (hforget : ∀ k a, op.forgets relay.tree k a = false)
    (hroutes : (t'.contentAt ns.reverse).routes = relay.routesOf ns) (a : AdvertisementKey) :
    t'.adAt ns.reverse a = relay.tree.adAt ns.reverse a := by
  by_cases hk : t'.attached ns.reverse = true
  · rw [adAt_of_attached hk]
    exact he.adAt hforget h.balanced (.inr hk) a
  · rw [adAt_of_not_attached hk]
    rw [contentAt_of_not_attached hk] at hroutes
    exact (h.adAt_none hroutes.symm a).symm

end inv

theorem mem_subscribersOf {s : SessionRef × NamespaceSubscriberInfo} :
    s ∈ subscribersOf content ns ↔
      ∃ p, p <+: ns ∧ (content p.reverse).subscribers.lookup s.1 = some s.2 := by
  obtain ⟨subs, -, hmem, heq⟩ := @Directory.lists_subscribersOf
    ⟨fun p => content p.reverse, 0⟩ content (fun _ => rfl) ns
  rw [heq, mem_map]
  constructor
  · intro ⟨x, hx, hs⟩
    exact ⟨x.1, hs ▸ (hmem x.1 x.2.1 x.2.2).1 hx⟩
  · intro ⟨p, hp⟩
    exact ⟨(p, s.1, s.2), (hmem p s.1 s.2).2 hp, rfl⟩

theorem subscribersOf_nodup
    (hp : ∀ p : TrackNamespace, ∀ session info, (content p.reverse).subscribers.lookup session = some info →
      info.trackNamespacePrefix = p) (ns : TrackNamespace) :
    ((subscribersOf content ns).map fun s => (s.1, s.2.trackNamespacePrefix.length)).Nodup := by
  obtain ⟨subs, hnodup, hmem, heq⟩ := @Directory.lists_subscribersOf
    ⟨fun p => content p.reverse, 0⟩ content (fun _ => rfl) ns
  have hmap : (subscribersOf content ns).map (fun s => (s.1, s.2.trackNamespacePrefix.length)) =
      (subs.map fun x => (x.1, x.2.1)).map fun y => (y.2, y.1.length) := by
    rw [heq, map_map, map_map]
    refine map_congr_left fun x hx => ?_
    have hx' := hp x.1 x.2.1 x.2.2 ((hmem x.1 x.2.1 x.2.2).1 hx).2
    simp [hx']
  rw [hmap]
  refine hnodup.map_on fun x hx y hy hxy => ?_
  obtain ⟨x', hx', rfl⟩ := mem_map.1 hx
  obtain ⟨y', hy', rfl⟩ := mem_map.1 hy
  obtain ⟨hs, hl⟩ := Prod.mk.inj hxy
  have hpx := ((hmem x'.1 x'.2.1 x'.2.2).1 hx').1
  have hpy := ((hmem y'.1 y'.2.1 y'.2.2).1 hy').1
  have hprefix : x'.1 = y'.1 := by
    rw [prefix_iff_eq_take.1 hpx, prefix_iff_eq_take.1 hpy]
    exact congrArg (take · ns) hl
  exact Prod.ext hprefix hs

/-! ## 5. Routes come and go -/

section routes

variable (h : Inv cfg origin relay)

include h

theorem Inv.tracks (he : Edited relay.tree op t')
    (hforget : ∀ k a, op.forgets relay.tree k a = false)
    (hroutes : ∀ k, (t'.contentAt k).routes = (relay.tree.contentAt k).routes)
    (hsubs : ∀ k, (t'.contentAt k).subscribers = (relay.tree.contentAt k).subscribers)
    (hseq : t'.nextRouteSeq = relay.tree.nextRouteSeq) : Inv cfg origin { relay with tree := t' } := by
  have had : ∀ (ns : TrackNamespace) a, t'.adAt ns.reverse a = relay.tree.adAt ns.reverse a :=
    fun ns a => h.adAt_edited he hforget (hroutes _) a
  have hsub : ∀ p session, subscription { relay with tree := t' } p session = relay.subscription p session :=
    fun p session => by rw [subscription, hsubs]; rfl
  have hro : ∀ ns, routesOf { relay with tree := t' } ns = relay.routesOf ns := fun ns => hroutes _
  have hb := (he.counts h.balanced).1
  refine ⟨hb, fun ns r hr => ?_, fun p session info hs => ?_, fun ns a ha => ?_, fun p session info hs hh ns hp => ?_⟩
  · rw [hro] at hr
    show Stamped origin t'.nextRouteSeq _
    rw [hseq]
    exact h.stamped ns r hr
  · exact h.prefixes p session info (hsub p session ▸ hs)
  · obtain ⟨hle, info, hs, hh⟩ := h.owned ns a (had ns a ▸ ha)
    exact ⟨hle, info, (hsub _ _).trans hs, hh⟩
  · show Logged cfg origin t'.nextRouteSeq session (t'.adAt _ _) _ ∧ Current cfg session (t'.adAt _ _) _
    rw [hseq, had, hro]
    exact h.told p session info ((hsub p session).symm.trans hs) hh ns hp

/-- **A call that changes the routes of one namespace, and the reconciling that follows it.** -/
theorem Inv.reroute (he : Edited relay.tree op t')
    (hforget : ∀ k a, op.forgets relay.tree k a = false)
    (hkey : relay.tree.attached op.key = true ∨ t'.attached op.key = true)
    (hslot : (t'.node op.key).routes = (t'.contentAt op.key).routes)
    (hroutes : ∀ k, k ≠ op.key → (t'.contentAt k).routes = (relay.tree.contentAt k).routes)
    (hsubs : ∀ k, (t'.contentAt k).subscribers = (relay.tree.contentAt k).subscribers)
    {origin' : Nat → Option Nat} (hseq : relay.tree.nextRouteSeq ≤ t'.nextRouteSeq)
    (horigin : ∀ seq, seq ≤ relay.tree.nextRouteSeq → origin' seq = origin seq)
    (hstamped : ∀ r ∈ (t'.contentAt op.key).routes, Stamped origin' t'.nextRouteSeq r.advertisement) :
    Inv cfg origin' ({ relay with tree := t' }.reconcileAll cfg op.key
      (subscribersOf relay.tree.contentAt op.target)) := by
  have hrec := reconcileAll_spec cfg op.key (subscribersOf relay.tree.contentAt op.target)
    (subscribersOf_nodup (fun p session info hs => h.prefixes p session info hs) op.target)
    { relay with tree := t' }
  set relay' := { relay with tree := t' }.reconcileAll cfg op.key
    (subscribersOf relay.tree.contentAt op.target)
  have hrev : op.key.reverse = op.target := reverse_reverse _
  have hb := (he.counts h.balanced).1
  have hseq' : relay'.tree.nextRouteSeq = t'.nextRouteSeq := hrec.seq
  have hcontent : ∀ k, relay'.tree.contentAt k = t'.contentAt k := hrec.redressed.contentAt
  have hatt : ∀ k, relay'.tree.attached k = t'.attached k := hrec.redressed.attached
  have hsub : ∀ p session, relay'.subscription p session = relay.subscription p session :=
    fun p session => by rw [subscription, hcontent, hsubs]; rfl
  have hne : ∀ {ns : TrackNamespace}, ns ≠ op.target → ns.reverse ≠ op.key := fun hns e =>
    hns (reverse_injective e)
  have hro : ∀ ns, ns ≠ op.target → relay'.routesOf ns = relay.routesOf ns := fun ns hns => by
    rw [routesOf, hcontent, hroutes _ (hne hns)]
    rfl
  have had : ∀ (ns : TrackNamespace) a, ns ≠ op.target →
      relay'.tree.adAt ns.reverse a = relay.tree.adAt ns.reverse a := fun ns a hns => by
    rw [← h.adAt_edited he hforget (hroutes _ (hne hns)) a, adAt, adAt, hatt, hrec.node_ne _ (hne hns)]
  -- what the node had recorded, also if it is not in the tree any more
  have hslotAd : ∀ a, (t'.node op.key).advertisements.lookup a = relay.tree.adAt op.key a :=
    fun a => he.adAt hforget h.balanced hkey a
  have hmono : ∀ {session sent messages}, Logged cfg origin relay.tree.nextRouteSeq session sent messages →
      Logged cfg origin' relay'.tree.nextRouteSeq session sent messages :=
    fun hl => hl.mono (hseq'.symm ▸ hseq) horigin
  refine ⟨hrec.redressed.balanced hb, fun ns r hr => ?_, fun p session info hs => ?_, fun ns a ha => ?_,
    fun p session info hs hh ns hp => ?_⟩
  · rw [hseq']
    by_cases hns : ns = op.target
    · rw [routesOf, hcontent, hns] at hr
      exact hstamped r hr
    · rw [hro ns hns] at hr
      obtain ⟨hle, hstamp⟩ := h.stamped ns r hr
      exact ⟨hle.trans hseq, (horigin _ hle).trans hstamp⟩
  · exact h.prefixes p session info ((hsub p session).symm.trans hs)
  · suffices hs : relay.tree.adAt ns.reverse a ≠ none ∨ ∃ s ∈ subscribersOf relay.tree.contentAt op.target,
        ns = op.target ∧ s.2.namespacePublishHandle.isSome = true ∧ a = s.2.adKey s.1 by
      rcases hs with hs | ⟨s, hs, hns, hh, rfl⟩
      · obtain ⟨hle, info, hs, hh⟩ := h.owned ns a hs
        exact ⟨hle, info, (hsub _ _).trans hs, hh⟩
      · obtain ⟨p, hp, hl⟩ := mem_subscribersOf.1 hs
        have hpre := h.prefixes p s.1 s.2 hl
        rw [adKey, hpre, hns]
        refine ⟨hp.length_le, s.2, ?_, hh⟩
        rw [← prefix_iff_eq_take.1 hp, hsub]
        exact hl
    by_cases hns : ns = op.target
    · by_cases hs : ∃ s ∈ subscribersOf relay.tree.contentAt op.target,
          s.2.namespacePublishHandle.isSome = true ∧ a = s.2.adKey s.1
      · obtain ⟨s, hs, hh, hkey⟩ := hs
        exact .inr ⟨s, hs, hns, hh, hkey⟩
      · refine .inl fun hnone => ha ?_
        rw [hns] at hnone ⊢
        rw [adAt]
        split
        · refine (hrec.other_ad a fun s hs' hh e => hs ⟨s, hs', hh, e⟩).trans ?_
          exact (hslotAd a).trans hnone
        · rfl
    · exact .inl (had ns a hns ▸ ha)
  · rw [hsub] at hs
    obtain ⟨hlog, hcur⟩ := h.told p session info hs hh ns hp
    by_cases hns : ns = op.target
    · subst hns
      have hmem : (session, info) ∈ subscribersOf relay.tree.contentAt op.target :=
        mem_subscribersOf.2 ⟨p, hp, hs⟩
      obtain ⟨hlookup, hsent⟩ := hrec.told (session, info) hmem hh
      have hpre := h.prefixes p session info hs
      simp only [adKey, hpre, hslot, hslotAd, hrev] at hlookup hsent
      have hall := reconciled_logged (advertisableRoute cfg (t'.contentAt op.key).routes session info)
        (hmono hlog) fun r hr => by rw [hseq']; exact hstamped r (selectRoute_some hr).1
      have hadAt : relay'.tree.adAt op.key (session, p.length) =
          (reconciled cfg session (advertisableRoute cfg (t'.contentAt op.key).routes session info)
            (relay.tree.adAt op.key (session, p.length))).1 := by
        rw [adAt, hatt]
        split
        · subst hpre
          exact hlookup
        · rename_i hout
          rw [contentAt_of_not_attached hout]
          rfl
      have hroutes' : relay'.routesOf op.target = (t'.contentAt op.key).routes := by
        rw [routesOf, hcontent]
        rfl
      rw [hroutes', hsent]
      show Logged _ _ _ _ (relay'.tree.adAt op.key _) _ ∧ Current _ _ (relay'.tree.adAt op.key _) _
      rw [hadAt]
      exact hall
    · rw [had ns _ hns, hro ns hns, hrec.other_sent _ _ (.inl (by rw [hrev]; exact hns))]
      exact ⟨hmono hlog, hcur⟩

theorem Inv.routeCall (hop : op.isRouteCall = true) (he : Edited relay.tree op t')
    (hkey : relay.tree.attached op.key = true ∨ t'.attached op.key = true) :
    ∃ origin', Inv cfg origin' ({ relay with tree := t' }.reconcileAll cfg op.key
      (subscribersOf relay.tree.contentAt op.target)) := by
  have hcontent := he.contentAt h.balanced
  have hforget : ∀ k a, op.forgets relay.tree k a = false := by
    intro k a
    cases op with
    | removeNamespaceSubscriber => cases hop
    | _ => rfl
  have hold : ∀ r ∈ (relay.tree.contentAt op.key).routes,
      Stamped origin relay.tree.nextRouteSeq r.advertisement := h.stamped op.target
  obtain ⟨hle, x, hst⟩ := Content.apply_stamped hold hop
  rw [← he.seq] at hle hst
  refine ⟨update origin (relay.tree.nextRouteSeq + 1) x, h.reroute he hforget hkey
    (congrArg Content.routes (he.slot h.balanced hkey)) (fun k hk => ?_) (fun k => ?_) hle (fun seq hseq => ?_)
    fun r hr => ?_⟩
  · rw [hcontent, if_neg hk]
  · rw [hcontent]
    split
    · rename_i hk
      rw [Content.apply_subscribers hop, hk]
    · rfl
  · exact update_of_ne (by omega) _ _
  · rw [hcontent, if_pos rfl] at hr
    exact hst r hr

end routes

/-! ## 6. Subscriptions come and go -/

theorem suffix_of_inSubtree {k : NodeKey} (h : t.inSubtree key k = true) :
    key <:+ k := by
  induction k with
  | nil => rw [beq_iff_eq.1 h]
  | cons name up ih =>
    rw [inSubtree, Bool.or_eq_true, beq_iff_eq, Bool.and_eq_true] at h
    rcases h with h | h
    · rw [h]
    · exact (ih h.2).trans (suffix_cons name up)

theorem inSubtree_of_suffix {k : NodeKey} (h : key <:+ k) (ha : t.attached k = true) :
    t.inSubtree key k = true := by
  induction k with
  | nil => rw [suffix_nil.1 h]; rfl
  | cons name up ih =>
    obtain ⟨haup, hname⟩ := (attached_cons _ _ _).1 ha
    rw [inSubtree, Bool.or_eq_true, beq_iff_eq, Bool.and_eq_true, decide_eq_true_eq]
    exact (suffix_cons_iff.1 h).imp id fun h => ⟨hname, ih h haup⟩

theorem prefix_eq_of_length {q : TrackNamespace} (hp : p <+: ns) (hq : q <+: ns) (hl : p.length = q.length) :
    p = q := by
  rw [prefix_iff_eq_take.1 hp, prefix_iff_eq_take.1 hq, hl]

theorem Inv.unsubscribe (h : Inv cfg origin relay)
    (he : Edited relay.tree (.removeNamespaceSubscriber p session) t') :
    Inv cfg origin { relay with tree := t' } := by
  have hcontent := he.contentAt h.balanced
  have hseq := he.seq
  have hb := (he.counts h.balanced).1
  have hroutes : ∀ k, (t'.contentAt k).routes = (relay.tree.contentAt k).routes := fun k => by
    rw [hcontent]
    split
    · rename_i hk
      rw [hk]
      rfl
    · rfl
  have hsub : ∀ q s, (q, s) ≠ (p, session) →
      subscription { relay with tree := t' } q s = relay.subscription q s := by
    intro q s hne
    rw [subscription, hcontent]
    split
    · rename_i hq
      have hqp : q = p := reverse_injective hq
      have hs : s ≠ session := fun e => hne (by rw [hqp, e])
      rw [subscription, hq]
      exact AList.lookup_erase_ne hs
    · rfl
  have hgone : subscription { relay with tree := t' } p session = none := by
    rw [subscription, hcontent, show Op.key _ = p.reverse from rfl, if_pos rfl]
    exact AList.lookup_erase _ _
  rcases he.adAt_or h.balanced with heq | had
  · rw [heq]
    exact h
  -- the records of the subscription at the nodes under its prefix are gone, all others are as before
  have hforgets : ∀ {k a}, Op.forgets relay.tree (.removeNamespaceSubscriber p session) k a = true ↔
      relay.tree.inSubtree p.reverse k = true ∧ a = (session, p.length) := by
    intro k a
    rw [Op.forgets, Bool.and_eq_true, decide_eq_true_eq]
  have hkept : ∀ (ns : TrackNamespace) a,
      Op.forgets relay.tree (.removeNamespaceSubscriber p session) ns.reverse a = false →
      t'.adAt ns.reverse a = relay.tree.adAt ns.reverse a := by
    intro ns a hf
    by_cases hk : t'.attached ns.reverse = true
    · rw [adAt_of_attached hk]
      exact (had _ a (.inr hk)).trans (if_neg (by rw [hf]; exact Bool.false_ne_true))
    · rw [adAt_of_not_attached hk]
      have hr := hroutes ns.reverse
      rw [contentAt_of_not_attached hk] at hr
      exact (h.adAt_none hr.symm a).symm
  refine ⟨hb, fun ns r hr => ?_, fun q s info hs => ?_, fun ns a ha => ?_, fun q s info hs hh ns hq => ?_⟩
  · rw [routesOf, hroutes] at hr
    show Stamped origin t'.nextRouteSeq _
    rw [hseq]
    exact h.stamped ns r hr
  · have hne : (q, s) ≠ (p, session) := fun e => by
      obtain ⟨rfl, rfl⟩ := Prod.mk.inj e
      rw [hgone] at hs
      cases hs
    exact h.prefixes q s info ((hsub q s hne).symm.trans hs)
  · have hk : t'.attached ns.reverse = true := by
      by_contra hk
      exact ha (adAt_of_not_attached hk a)
    have hnot : Op.forgets relay.tree (.removeNamespaceSubscriber p session) ns.reverse a = false := by
      by_contra hf
      rw [Bool.not_eq_false] at hf
      refine ha ((adAt_of_attached hk a).trans ((had _ a (.inr hk)).trans (if_pos hf)))
    obtain ⟨hle, info, hs, hh⟩ := h.owned ns a (hkept ns a hnot ▸ ha)
    refine ⟨hle, info, (hsub _ _ fun e => ?_).trans hs, hh⟩
    obtain ⟨hp, hsession⟩ := Prod.mk.inj e
    have hpre : p.reverse <:+ ns.reverse := reverse_suffix.2 (hp ▸ take_prefix _ _)
    have hin := inSubtree_of_suffix hpre (he.attached_of rfl h.balanced hk)
    rw [hforgets.2 ⟨hin, Prod.ext hsession (by rw [← hp, length_take_of_le hle])⟩] at hnot
    cases hnot
  · have hne : (q, s) ≠ (p, session) := fun e => by
      obtain ⟨rfl, rfl⟩ := Prod.mk.inj e
      rw [hgone] at hs
      cases hs
    have hnot : Op.forgets relay.tree (.removeNamespaceSubscriber p session) ns.reverse (s, q.length) =
        false := by
      by_contra hf
      obtain ⟨hin, hkey⟩ := hforgets.1 (eq_true_of_ne_false hf)
      obtain ⟨hsession, hlen⟩ := Prod.mk.inj hkey
      have hp : p <+: ns := reverse_suffix.1 (suffix_of_inSubtree hin)
      exact hne (by rw [prefix_eq_of_length hq hp hlen, hsession])
    show Logged cfg origin t'.nextRouteSeq s (t'.adAt _ _) _ ∧ Current cfg s (t'.adAt _ _) _
    rw [hkept ns _ hnot, hseq, routesOf, hroutes]
    exact h.told q s info ((hsub q s hne).symm.trans hs) hh ns hq

/-- The nodes of a walk of the subtree that have a route for the subscription. -/
def walkHits (cfg : RelayConfig) (t : NamespaceTree) (p : TrackNamespace) (session : SessionRef)
    (info : NamespaceSubscriberInfo) (k : NodeKey) : Bool :=
  (t.findNode p false).isSome && t.inSubtree p.reverse k &&
    (advertisableRoute cfg (t.node k).routes session info).isSome

theorem walkHits_iff {info : NamespaceSubscriberInfo} :
    walkHits cfg t p session info ns.reverse = true ↔
      p <+: ns ∧ t.attached ns.reverse = true ∧
        (advertisableRoute cfg (t.contentAt ns.reverse).routes session info).isSome = true := by
  have hattached : ∀ {k}, t.inSubtree p.reverse k = true → t.attached p.reverse = true →
      t.attached k = true := by
    intro k
    induction k with
    | nil => exact fun _ _ => rfl
    | cons name up ih =>
      intro hin hp
      rw [inSubtree, Bool.or_eq_true, beq_iff_eq, Bool.and_eq_true, decide_eq_true_eq] at hin
      rcases hin with hin | hin
      · exact hin ▸ hp
      · exact (attached_cons _ _ _).2 ⟨ih hin.2 hp, hin.1⟩
  rw [walkHits, Bool.and_eq_true, Bool.and_eq_true]
  constructor
  · intro ⟨⟨hfind, hin⟩, hroute⟩
    have hp : t.attached p.reverse = true := by
      by_contra hout
      rw [findNode_missing hout] at hfind
      cases hfind
    have hk := hattached hin hp
    refine ⟨reverse_suffix.1 (suffix_of_inSubtree hin), hk, ?_⟩
    rw [contentAt_of_attached hk]
    exact hroute
  · intro ⟨hp, hk, hroute⟩
    have hsuffix := reverse_suffix.2 hp
    obtain ⟨above, hfind, -⟩ := findNode_found (attached_of_suffix hsuffix hk)
    refine ⟨⟨by rw [hfind]; rfl, inSubtree_of_suffix hsuffix hk⟩, ?_⟩
    rw [contentAt_of_attached hk] at hroute
    exact hroute

theorem addSubscriber_routes {info : NamespaceSubscriberInfo} (hb : Balanced (· ≤ ·) t)
    (he : Edited t (.addNamespaceSubscriber p session info) t') (k : NodeKey) :
    (t'.contentAt k).routes = (t.contentAt k).routes := by
  rw [he.contentAt hb]
  split
  · rename_i hk
    rw [hk, Content.apply]
    split <;> rfl
  · rfl

section replay

variable (cfg t relay p session) (info : NamespaceSubscriberInfo)

theorem replay_redressed :
    Redressed relay.tree (replay cfg t relay p session info).tree := by
  intro k
  show ∃ ads, (if walkHits cfg t p session info k then _ else relay.tree.node k) = _
  split
  · exact reconcileNode_redressed cfg (relay.tree.node k) session info
  · exact ⟨_, rfl⟩

theorem replay_sent (stream : SessionRef × TrackNamespace) (ns : TrackNamespace) :
    (replay cfg t relay p session info).sent stream ns = if stream = (session, p) then
      if walkHits cfg t p session info ns.reverse then (reconcileNode cfg (relay.tree.node ns.reverse) session info).2
      else [] else relay.sent stream ns := by
  show update relay.sent (session, p) _ stream ns = _
  split
  · rename_i h
    rw [h, update_self]
    rfl
  · rename_i h
    rw [update_of_ne h]

end replay

/-- **A new subscription**, told of all that there is under its prefix. -/
theorem Inv.subscribe (h : Inv cfg origin relay) {info : NamespaceSubscriberInfo}
    (hnew : relay.subscription p session = none) (hinfo : info.trackNamespacePrefix = p)
    (he : Edited relay.tree (.addNamespaceSubscriber p session info) t') :
    Inv cfg origin (replay cfg relay.tree { relay with tree := t' } p session info) := by
  have hforget : ∀ k a, Op.forgets relay.tree (.addNamespaceSubscriber p session info) k a = false :=
    fun _ _ => rfl
  have happly : (relay.tree.contentAt p.reverse).apply relay.tree.nextRouteSeq
      (.addNamespaceSubscriber p session info) = ({ relay.tree.contentAt p.reverse with
        subscribers := (relay.tree.contentAt p.reverse).subscribers.insert session info },
        relay.tree.nextRouteSeq) := by
    rw [Content.apply, if_neg]
    rw [show (relay.tree.contentAt p.reverse).subscribers.lookup session = none from hnew]
    exact Bool.false_ne_true
  have hcontent : ∀ k, t'.contentAt k = if k = p.reverse then { relay.tree.contentAt p.reverse with
      subscribers := (relay.tree.contentAt p.reverse).subscribers.insert session info }
      else relay.tree.contentAt k := fun k => by
    rw [he.contentAt h.balanced, show Op.key _ = p.reverse from rfl, happly]
  have hseq : t'.nextRouteSeq = relay.tree.nextRouteSeq := by
    rw [he.seq, show Op.key _ = p.reverse from rfl, happly]
  have hb := (he.counts h.balanced).1
  have hroutes := addSubscriber_routes h.balanced he
  have had : ∀ (ns : TrackNamespace) a, t'.adAt ns.reverse a = relay.tree.adAt ns.reverse a :=
    fun ns a => h.adAt_edited he hforget (hroutes _) a
  set relay' := replay cfg relay.tree { relay with tree := t' } p session info with hrelay'
  let told ns := reconciled cfg session (advertisableRoute cfg (relay.routesOf ns) session info) none
  have hnode : ∀ k, relay'.tree.node k = if walkHits cfg relay.tree p session info k then
      (reconcileNode cfg (t'.node k) session info).1 else t'.node k := fun _ => rfl
  have hredressed : Redressed t' relay'.tree := replay_redressed _ _ _ _ _ _
  have hsub : ∀ q s, relay'.subscription q s =
      if (q, s) = (p, session) then some info else relay.subscription q s := by
    intro q s
    rw [subscription, hredressed.contentAt, hcontent]
    by_cases hq : q = p
    · subst hq
      rw [if_pos rfl]
      by_cases hs : s = session
      · subst hs
        rw [if_pos rfl]
        exact AList.lookup_insert _
      · rw [if_neg fun e => hs (Prod.mk.inj e).2]
        exact AList.lookup_insert_ne hs
    · rw [if_neg fun e => hq (reverse_injective e), if_neg fun e => hq (Prod.mk.inj e).1]
      rfl
  have hro : ∀ ns, relay'.routesOf ns = relay.routesOf ns := fun ns => by
    rw [routesOf, hredressed.contentAt, hroutes]
    rfl
  -- a namespace that the walk finds has a node, with the routes of before and no record yet
  have hhit : ∀ ns : TrackNamespace, walkHits cfg relay.tree p session info ns.reverse = true →
      info.namespacePublishHandle.isSome = true → t'.attached ns.reverse = true ∧
      ∃ ads, reconcileNode cfg (t'.node ns.reverse) session info =
          ({ t'.node ns.reverse with advertisements := ads }, (told ns).2) ∧
        ads.lookup (session, p.length) = (told ns).1 ∧
        ∀ a, a ≠ (session, p.length) → ads.lookup a = (t'.node ns.reverse).advertisements.lookup a := by
    intro ns hw hh
    obtain ⟨hp, hk, hroute⟩ := walkHits_iff.1 hw
    have hr := hroutes ns.reverse
    have hk' : t'.attached ns.reverse = true := by
      by_contra hout
      rw [contentAt_of_not_attached hout] at hr
      rw [← hr] at hroute
      cases hroute
    rw [contentAt_of_attached hk'] at hr
    have hnone : (t'.node ns.reverse).advertisements.lookup (session, p.length) = none := by
      rw [he.adAt hforget h.balanced (.inr hk')]
      exact h.adAt_of_not_subscribed hp hnew
    have hspec := reconcileNode_spec cfg (t'.node ns.reverse) session hh
    rw [show info.adKey session = (session, p.length) by rw [adKey, hinfo], hnone] at hspec
    have htold : told ns = reconciled cfg session (advertisableRoute cfg (t'.node ns.reverse).routes session info) none :=
      congrArg (fun routes => reconciled cfg session (advertisableRoute cfg routes session info) none) hr.symm
    rw [htold]
    exact ⟨hk', hspec⟩
  have hadAt : ∀ (ns : TrackNamespace) a, relay'.tree.adAt ns.reverse a =
      if walkHits cfg relay.tree p session info ns.reverse = true ∧ info.namespacePublishHandle.isSome = true ∧
        a = (session, p.length) then (told ns).1 else relay.tree.adAt ns.reverse a := by
    intro ns a
    rw [← had, adAt, adAt, hredressed.attached, hnode]
    cases hw : walkHits cfg relay.tree p session info ns.reverse with
    | false => simp
    | true =>
      cases hh : info.namespacePublishHandle.isSome with
      | false => simp [reconcileNode_of_no_handle hh]
      | true =>
        obtain ⟨hk, ads, hres, hlookup, hother⟩ := hhit ns hw hh
        rw [if_pos hk, if_pos hk, if_pos rfl, hres]
        split
        · rename_i ha
          rw [ha.2.2]
          exact hlookup
        · rename_i ha
          exact hother a fun e => ha ⟨rfl, rfl, e⟩
  refine ⟨hredressed.balanced hb, fun ns r hr => ?_, fun q s i hs => ?_, fun ns a ha => ?_,
    fun q s i hs hh ns hq => ?_⟩
  · rw [hro] at hr
    show Stamped origin t'.nextRouteSeq _
    rw [hseq]
    exact h.stamped ns r hr
  · rw [hsub] at hs
    split at hs
    · rename_i hqs
      rw [← Option.some.inj hs, hinfo, (Prod.mk.inj hqs).1]
    · exact h.prefixes q s i hs
  · rw [hadAt] at ha
    split at ha
    · rename_i hmine
      obtain ⟨hw, hh, rfl⟩ := hmine
      obtain ⟨hp, -, -⟩ := walkHits_iff.1 hw
      refine ⟨hp.length_le, info, ?_, hh⟩
      rw [hsub, if_pos]
      rw [← prefix_iff_eq_take.1 hp]
    · obtain ⟨hle, i, hs, hh⟩ := h.owned ns a ha
      refine ⟨hle, i, ?_, hh⟩
      rw [hsub, if_neg, hs]
      intro e
      rw [(Prod.mk.inj e).1, (Prod.mk.inj e).2, hnew] at hs
      cases hs
  · show Logged cfg origin t'.nextRouteSeq s (relay'.tree.adAt _ _) _ ∧ _
    rw [hro, hseq]
    rw [hsub] at hs
    split at hs
    · -- the new subscription: a namespace found by the walk, or one without a route for it
      rename_i hqs
      obtain ⟨rfl, rfl⟩ := Prod.mk.inj hqs
      have hi := Option.some.inj hs
      subst hi
      rw [replay_sent, if_pos rfl, hadAt]
      cases hw : walkHits cfg relay.tree q s info ns.reverse with
      | true =>
        obtain ⟨-, ads, hres, -⟩ := hhit ns hw hh
        rw [if_pos ⟨rfl, hh, rfl⟩, if_pos rfl, hres]
        exact reconciled_logged _ (logged_nil cfg origin _ s) fun r hr =>
          h.stamped ns r (selectRoute_some hr).1
      | false =>
        rw [if_neg Bool.false_ne_true, if_neg fun e => Bool.false_ne_true e.1, h.adAt_of_not_subscribed hq hnew]
        refine ⟨logged_nil cfg origin _ s, ?_, fun _ _ ha => by cases ha⟩
        refine ⟨fun hsome => (by cases hsome), fun hsome => ?_⟩
        have hk : relay.tree.attached ns.reverse = true := by
          by_contra hout
          rw [routesOf, contentAt_of_not_attached hout] at hsome
          cases hsome
        rw [walkHits_iff.2 ⟨hq, hk, hsome⟩] at hw
        cases hw
    · rename_i hqs
      rw [replay_sent, if_neg fun e => hqs (by rw [(Prod.mk.inj e).1, (Prod.mk.inj e).2]), hadAt, if_neg]
      · exact h.told q s i hs hh ns hq
      · rintro ⟨hw, -, hkey⟩
        obtain ⟨hsession, hlen⟩ := Prod.mk.inj hkey
        exact hqs (by rw [prefix_eq_of_length hq (walkHits_iff.1 hw).1 hlen, hsession])

/-! ## 7. Runs -/

/-- A session subscribes to a prefix only while it has no subscription to it. -/
def Admissible (relay : NamespaceRelay) : Event → Prop
  | .subscribeNamespace ns session .. => relay.subscription ns session = none
  | _ => True

/-- The states of the relay, from a start without namespaces, by any events. -/
inductive Reachable (cfg : RelayConfig) : NamespaceRelay → Prop
  | start : Reachable cfg {}
  | event {relay relay' : NamespaceRelay} {e : Event} (h : Reachable cfg relay) (ha : relay.Admissible e)
    (hs : relay.step cfg e = some relay') : Reachable cfg relay'

theorem Content.apply_tracks {c : Content} {next : Nat}
    (hop : (∃ ftn session, op = .addPublish ftn session) ∨ ∃ ns trackName, op = .unpublishTrack ns trackName) :
    (c.apply next op).1.routes = c.routes ∧ (c.apply next op).1.subscribers = c.subscribers ∧
      (c.apply next op).2 = next := by
  rcases hop with ⟨ftn, session, rfl⟩ | ⟨ns, trackName, rfl⟩
  · exact ⟨rfl, rfl, rfl⟩
  · exact ⟨rfl, rfl, rfl⟩

theorem Inv.trackCall (h : Inv cfg origin relay)
    (hop : (∃ ftn session, op = .addPublish ftn session) ∨ ∃ ns trackName, op = .unpublishTrack ns trackName)
    (he : Edited relay.tree op t') : Inv cfg origin { relay with tree := t' } := by
  have hforget : ∀ k a, op.forgets relay.tree k a = false := by
    rcases hop with ⟨ftn, session, rfl⟩ | ⟨ns, trackName, rfl⟩
    · exact fun _ _ => rfl
    · exact fun _ _ => rfl
  obtain ⟨hr, hs, hseq⟩ := @Content.apply_tracks op (relay.tree.contentAt op.key) relay.tree.nextRouteSeq hop
  refine h.tracks he hforget (fun k => ?_) (fun k => ?_) (he.seq.trans hseq)
  · rw [he.contentAt h.balanced]
    split
    · rename_i hk
      rw [hr, hk]
    · rfl
  · rw [he.contentAt h.balanced]
    split
    · rename_i hk
      rw [hs, hk]
    · rfl

theorem Inv.step (h : Inv cfg origin relay) {e : Event} (ha : relay.Admissible e)
    (hs : relay.step cfg e = some relay') :
    ∃ origin', Inv cfg origin' relay' := by
  cases step_acts h.balanced hs with
  | nothing => exact ⟨origin, h⟩
  | reroutes hop he hk => exact h.routeCall hop.isRouteCall he hk
  | subscribes hinfo he => exact ⟨origin, h.subscribe ha hinfo he⟩
  | unsubscribes he => exact ⟨origin, h.unsubscribe he⟩
  | tracks hop he => exact ⟨origin, h.trackCall hop he⟩

theorem Reachable.inv (h : Reachable cfg relay) :
    ∃ origin, Inv cfg origin relay := by
  induction h with
  | start => exact ⟨_, inv_empty cfg⟩
  | event _ ha hs ih =>
    obtain ⟨origin, hinv⟩ := ih
    exact hinv.step ha hs

/-- **Advertisements match the routes.** For every subscription with a stream for NAMESPACE, and every
    namespace under its prefix, after every event: the last message it was sent is NAMESPACE if and only if
    some route of the namespace may be advertised to it; every NAMESPACE_DONE follows a NAMESPACE, and
    between the NAMESPACE of two publishers there is one (`WellSent`); and the last NAMESPACE to a
    subscriber that has negotiated MoQ Cluster has the path of the selected route followed by the relay's
    hop, and its cost. -/
theorem advertisements_match_routes {cfg : RelayConfig} {relay : NamespaceRelay} (h : Reachable cfg relay)
    {p : TrackNamespace} {session : SessionRef} {info : NamespaceSubscriberInfo}
    (hsub : relay.subscription p session = some info) (hhandle : info.namespacePublishHandle.isSome = true)
    {ns : TrackNamespace} (hp : p <+: ns) :
    ((∃ params about, (relay.sent (session, p) ns).getLast? = some (.namespaceMsg params about)) ↔
      ∃ r ∈ relay.routesOf ns, isAdvertisable cfg session info r = true) ∧
    WellSent (relay.sent (session, p) ns) ∧
    (cfg.relayHops session = true → ∀ params about,
      (relay.sent (session, p) ns).getLast? = some (.namespaceMsg params about) →
      ∃ r, advertisableRoute cfg (relay.routesOf ns) session info = some r ∧
        params = { hopPath := some (r.path ++ [cfg.relayHopID]), routeCost := some r.cost }) := by
  obtain ⟨origin, hinv⟩ := h.inv
  obtain ⟨hlog, hcurrent, hcluster⟩ := hinv.told p session info hsub hhandle ns hp
  have hlast : (∃ params about, (relay.sent (session, p) ns).getLast? = some (.namespaceMsg params about)) ↔
      (relay.tree.adAt ns.reverse (session, p.length)).isSome = true := by
    cases had : relay.tree.adAt ns.reverse (session, p.length) with
    | none =>
      refine ⟨fun ⟨params, about, hl⟩ => ?_, fun hsome => by cases hsome⟩
      rcases hlog.none_last had with hnil | hdone
      · rw [hnil] at hl
        cases hl
      · rw [hdone] at hl
        cases hl
    | some a => exact ⟨fun _ => rfl, fun _ => ⟨_, _, hlog.some_last a had⟩⟩
  refine ⟨hlast.trans (hcurrent.trans selectRoute_isSome), hlog.well, fun hhops params about hl => ?_⟩
  obtain ⟨a, had⟩ := Option.isSome_iff_exists.1 (hlast.1 ⟨params, about, hl⟩)
  obtain ⟨r, hr⟩ := Option.isSome_iff_exists.1 (hcurrent.1 (by rw [had]; rfl))
  obtain ⟨hpath, hcost⟩ := hcluster a r had hr hhops
  have hsent := hlog.some_last a had
  rw [hl] at hsent
  injection hsent with hsent
  injection hsent with hparams _
  refine ⟨r, hr, ?_⟩
  rw [hparams, setOutgoingHopPath, hhops, hpath, hcost]
  rfl

/-- A relay with hop 7, and a peer with hop 9 as session 2. -/
def exampleConfig : RelayConfig where
  relayHopID := 7
  allowedNamespacePrefix := []
  relayHops session := session == 2
  peerHopID session := if session = 2 then 9 else 0
  relayLinkCost _ := 3

/-- A plain session publishes a namespace, and the peer that subscribes to everything is told of it. -/
theorem advertisements_match_routes_peer : ∃ relay, Reachable exampleConfig relay ∧
    ∃ about, (relay.sent (2, []) [[120]]).getLast? =
      some (.namespaceMsg { hopPath := some [0, 7], routeCost := some 3 } about) := by
  have hpub : ∃ r, ({} : NamespaceRelay).step exampleConfig (.publishNamespace [[120]] 1 (some 0) [] 4 {}) =
      some r ∧ r.subscription [] 2 = none ∧ ∃ r', r.step exampleConfig
        (.subscribeNamespace [] 2 true .namespace (some 0) none [] false) = some r' ∧
        r'.subscription [] 2 = some ⟨true, .namespace, some 0, [], none, []⟩ ∧
        r'.routesOf [[120]] = [⟨1, some 0, [], 4, [0], 3, 1, false⟩] :=
    ⟨_, rfl, rfl, _, rfl, rfl, rfl⟩
  obtain ⟨r, hs, hnew, r', hs', hsub, hroutes⟩ := hpub
  have hreach : Reachable exampleConfig r' := .event (.event .start (by trivial) hs) (by exact hnew) hs'
  obtain ⟨hiff, -, hcluster⟩ := advertisements_match_routes hreach hsub rfl (List.nil_prefix (l := [[120]]))
  rw [hroutes] at hiff hcluster
  obtain ⟨params, about, hlast⟩ := hiff.2 ⟨_, mem_cons_self, by decide⟩
  obtain ⟨route, hroute, hparams⟩ := hcluster rfl params about hlast
  have hthis : advertisableRoute exampleConfig [⟨1, some 0, [], 4, [0], 3, 1, false⟩] 2
      ⟨true, .namespace, some 0, [], none, []⟩ = some ⟨1, some 0, [], 4, [0], 3, 1, false⟩ := by decide
  rw [hthis] at hroute
  rw [← Option.some.inj hroute] at hparams
  exact ⟨r', hreach, about, by rw [hlast, hparams]; rfl⟩

end NamespaceRelay

end Moqx

/-
  Subject: What the routes of one relay satisfy, and what its messages are about, event by event.

  * `step_outcome` -- both, for every event.
-/
import Moqx.Namespace.Told

namespace Moqx

open NamespaceTree List Function

variable {cfg : RelayConfig} {P : SessionRef → List Nat → Nat → Prop} {t' : NamespaceTree}

namespace NamespaceRelay

variable {path : List Nat} {cost : Nat} {info : NamespaceSubscriberInfo} {about : Advertisement} {op : Op}
  {callback : Option Nat} {peerID : Bytes}

/-! ## 1. The routes of one relay -/

/-- A property of the session, the path and the cost of every route; the rest says that a route is from
    the cluster if its session is. -/
def Holds (cfg : RelayConfig) (P : SessionRef → List Nat → Nat → Prop) (r : Route) : Prop :=
  r.fromCluster = cfg.relayHops r.session ∧ P r.session r.path r.cost

def Brings (cfg : RelayConfig) (P : SessionRef → List Nat → Nat → Prop) : Event → Prop
  | .publishNamespace _ session _ _ _ params =>
    ∀ route, ingestRoute cfg params session = some route → P session route.path route.cost
  | .requestUpdate _ session _ params =>
    ∀ read, readClusterParams cfg params (cfg.relayLinkCost session) = some read → ∀ route : Route,
      P session route.path route.cost →
      cfg.relayHops session = true ∨ (read.path = [] ∧ read.cost = none) →
      P session (updatedRoute route read).1 (updatedRoute route read).2
  | _ => True

section content

variable {c : Content} {next : Nat}

theorem revise_holds (h : ∀ r ∈ c.routes, Holds cfg P r) {named : Route → Bool}
    {change : Route → Route}
    (hchange : ∀ r, (change r).session = r.session ∧ (change r).fromCluster = r.fromCluster)
    (hnamed : ∀ r, c.routes.find? named = some r → P r.session path cost) :
    ∀ r ∈ (c.revise next named change path cost).1.routes, Holds cfg P r := by
  intro r hr
  rcases mem_updateFirst hr with hr | ⟨r₀, hfind, hmem, rfl⟩
  · exact h r hr
  · obtain ⟨hs, hf⟩ := hchange r₀
    refine ⟨?_, ?_⟩
    · show (change r₀).fromCluster = cfg.relayHops (change r₀).session
      rw [hs, hf]
      exact (h r₀ hmem).1
    · show P (change r₀).session path cost
      rw [hs]
      exact hnamed r₀ hfind

end content

structure Carries (cfg : RelayConfig) (P : SessionRef → List Nat → Nat → Prop) (t : NamespaceTree) : Prop where
  balanced : Balanced (· ≤ ·) t
  holds : ∀ k, ∀ r ∈ (t.contentAt k).routes, Holds cfg P r

theorem carries_empty (cfg : RelayConfig) (P : SessionRef → List Nat → Nat → Prop) : Carries cfg P {} := by
  refine ⟨empty_balanced countRel_le, fun k r hr => ?_⟩
  rw [NamespaceTree.contentAt] at hr
  split at hr
  · exact absurd hr not_mem_nil
  · exact absurd hr not_mem_nil

section carries

variable {t : NamespaceTree} (h : Carries cfg P t)

include h

theorem Carries.edited {op : Op} (he : Edited t op t')
    (hop : ∀ r ∈ ((t.contentAt op.key).apply t.nextRouteSeq op).1.routes, Holds cfg P r) : Carries cfg P t' := by
  refine ⟨(he.counts h.balanced).1, fun k r hr => ?_⟩
  rw [he.contentAt h.balanced] at hr
  split at hr
  · exact hop r hr
  · exact h.holds k r hr

theorem Carries.redressed (hr : Redressed t t') : Carries cfg P t' :=
  ⟨hr.balanced h.balanced, fun k r hmem => h.holds k r (hr.contentAt k ▸ hmem)⟩

end carries

theorem Redressed.trans {t t' t'' : NamespaceTree} (h : Redressed t t') (h' : Redressed t' t'') :
    Redressed t t'' := by
  intro k
  obtain ⟨ads, hn⟩ := h k
  obtain ⟨ads', hn'⟩ := h' k
  rw [hn] at hn'
  exact ⟨ads', hn'⟩

theorem reconcileAll_redressed (cfg : RelayConfig) (key : NodeKey) (subs : SessionSubscriberList)
    (relay : NamespaceRelay) : Redressed relay.tree (relay.reconcileAll cfg key subs).tree := by
  induction subs generalizing relay with
  | nil => exact fun _ => ⟨_, rfl⟩
  | cons s subs ih =>
    exact Redressed.trans (reconcileAdvertisement_spec cfg relay key s).redressed (ih _)

/-- A message of `reconcileNode` is about a route of the node that may be advertised. -/
theorem reconcileNode_sent {cfg : RelayConfig} {node : NamespaceNode} {subscriber : SessionRef}
    {params : RouteParams}
    (h : .namespaceMsg params about ∈ (reconcileNode cfg node subscriber info).2) :
    ∃ r ∈ node.routes, isAdvertisable cfg subscriber info r = true ∧
      params = setOutgoingHopPath cfg subscriber r.path r.cost := by
  cases hh : info.namespacePublishHandle.isSome with
  | false =>
    rw [reconcileNode_of_no_handle hh] at h
    exact absurd h not_mem_nil
  | true =>
    obtain ⟨ads, hres, -⟩ := reconcileNode_spec cfg node subscriber hh
    simp only [hres, reconciled] at h
    cases hroute : advertisableRoute cfg node.routes subscriber info with
    | none =>
      simp only [hroute] at h
      split at h
      · simp at h
      · exact absurd h not_mem_nil
    | some r =>
      obtain ⟨hmem, hadv⟩ := selectRoute_some hroute
      refine ⟨r, hmem, hadv, ?_⟩
      simp only [hroute] at h
      split at h
      · exact absurd h not_mem_nil
      · rcases mem_append.1 h with h | h
        · split at h
          · simp at h
          · exact absurd h not_mem_nil
        · injection mem_singleton.1 h

/-- A route that a NAMESPACE to a session may be about. -/
def MaySend (cfg : RelayConfig) (routes : List Route) (session : SessionRef) (params : RouteParams) : Prop :=
  ∃ r ∈ routes, ∃ info, isAdvertisable cfg session info r = true ∧
    params = setOutgoingHopPath cfg session r.path r.cost

theorem reconcileAll_sent (cfg : RelayConfig) (key : NodeKey) (subs : SessionSubscriberList)
    (relay : NamespaceRelay) {stream : SubscriptionKey} {ns : TrackNamespace} {params : RouteParams}
    (h : .namespaceMsg params about ∈ (relay.reconcileAll cfg key subs).sent stream ns) :
    .namespaceMsg params about ∈ relay.sent stream ns ∨
      (ns = key.reverse ∧ MaySend cfg (relay.tree.node key).routes stream.1 params) := by
  induction subs generalizing relay with
  | nil => exact .inl h
  | cons s subs ih =>
    have hone := reconcileAdvertisement_spec cfg relay key s
    rcases ih (relay.reconcileAdvertisement cfg key s.1 s.2) h with h | ⟨hns, h⟩
    · by_cases hsame : stream = (s.1, s.2.trackNamespacePrefix) ∧ ns = key.reverse
      · obtain ⟨rfl, rfl⟩ := hsame
        simp only [reconcileAdvertisement, update_self] at h
        rcases mem_append.1 h with h | h
        · exact .inl h
        · obtain ⟨r, hr, hadv, hparams⟩ := reconcileNode_sent h
          exact .inr ⟨rfl, r, hr, s.2, hadv, hparams⟩
      · rw [hone.other_sent stream ns] at h
        · exact .inl h
        · by_cases hns : ns = key.reverse
          · exact .inr fun s' hs' e => hsame ⟨mem_singleton.1 hs' ▸ e, hns⟩
          · exact .inl hns
    · rw [hone.routes] at h
      exact .inr ⟨hns, h⟩

/-! ## 2. The events of one relay -/

/-- The routes have the property after an event, and what was sent is what was sent before or is about
    one of the routes. -/
structure Outcome (cfg : RelayConfig) (P : SessionRef → List Nat → Nat → Prop) (relay relay' : NamespaceRelay) :
    Prop where
  carries : Carries cfg P relay'.tree
  sent : ∀ stream ns params about, .namespaceMsg params about ∈ relay'.sent stream ns →
    .namespaceMsg params about ∈ relay.sent stream ns ∨ MaySend cfg (relay'.routesOf ns) stream.1 params

section outcome

variable {relay : NamespaceRelay}

variable {session : SessionRef} {ns : TrackNamespace} {requestID : Nat} {params : RouteParams}
  {relay' : NamespaceRelay}

theorem Outcome.same (h : Carries cfg P relay.tree) : Outcome cfg P relay relay := ⟨h, fun _ _ _ _ h => .inl h⟩

theorem Outcome.tree (h : Carries cfg P relay.tree) (he : Edited relay.tree op t')
    (hop : ∀ r ∈ ((relay.tree.contentAt op.key).apply relay.tree.nextRouteSeq op).1.routes, Holds cfg P r) :
    Outcome cfg P relay { relay with tree := t' } := ⟨h.edited he hop, fun _ _ _ _ h => .inl h⟩

theorem Outcome.reconcile (h : Carries cfg P relay.tree) (he : Edited relay.tree op t')
    (hk : relay.tree.attached op.key = true ∨ t'.attached op.key = true)
    (hop : ∀ r ∈ ((relay.tree.contentAt op.key).apply relay.tree.nextRouteSeq op).1.routes, Holds cfg P r)
    (subs : SessionSubscriberList) :
    Outcome cfg P relay ({ relay with tree := t' }.reconcileAll cfg op.key subs) := by
  have hred := reconcileAll_redressed cfg op.key subs { relay with tree := t' }
  refine ⟨(h.edited he hop).redressed hred, fun stream ns params about hm => ?_⟩
  rcases reconcileAll_sent cfg op.key subs _ hm with hm | ⟨hns, hm⟩
  · exact .inl hm
  · refine .inr ?_
    rw [routesOf, hred.contentAt, hns, reverse_reverse, ← he.slot h.balanced hk]
    exact hm

theorem eraseP_holds {c : Content} (h : ∀ r ∈ c.routes, Holds cfg P r) (p : Route → Bool) :
    ∀ r ∈ c.routes.eraseP p, Holds cfg P r := fun r hr => h r (mem_of_mem_eraseP hr)

theorem setPublisher_holds {c : Content} {next : Nat} (h : ∀ r ∈ c.routes, Holds cfg P r)
    {fromCluster : Bool} (hf : fromCluster = cfg.relayHops session) (hP : P session path cost) :
    ∀ r ∈ (c.apply next (.setPublisher ns session callback peerID requestID path cost fromCluster)).1.routes,
      Holds cfg P r := by
  rw [Content.apply]
  split
  · rename_i hrep
    refine revise_holds h (fun _ => ⟨rfl, rfl⟩) fun r hr => ?_
    rw [hr, Option.any_some, repeatsNamespace, Bool.and_eq_true, Bool.and_eq_true, Bool.and_eq_true,
      beq_iff_eq] at hrep
    rw [hrep.1.1.1]
    exact hP
  · intro r hr
    rcases mem_append.1 hr with hr | hr
    · exact h r (mem_of_mem_eraseP hr)
    · rw [mem_singleton.1 hr]
      exact ⟨hf, hP⟩

theorem ingestRoute_fromCluster {route : IngestedRoute} (h : ingestRoute cfg params session = some route) :
    route.fromCluster = cfg.relayHops session := by
  rw [ingestRoute] at h
  split at h
  · rename_i hplain
    rw [← Option.some.inj h]
    simpa using hplain
  · rename_i hcluster
    obtain ⟨read, -, rfl⟩ := Option.map_eq_some_iff.1 h
    simpa using hcluster

theorem find?_and {p q : Route → Bool} {rs : List Route} {r : Route} (h : rs.find? p = some r)
    (hq : q r = true) : rs.find? (fun x => p x && q x) = some r := by
  induction rs with
  | nil => cases h
  | cons x rs ih =>
    rw [find?_cons] at h ⊢
    cases hx : p x with
    | true =>
      rw [hx] at h
      rw [Option.some.inj h, hq]
      rfl
    | false =>
      rw [hx] at h
      exact ih h

theorem reroutes_holds (h : Carries cfg P relay.tree) {e : Event} (hb : Brings cfg P e)
    (hop : Reroutes cfg relay.tree e op) :
    ∀ r ∈ ((relay.tree.contentAt op.key).apply relay.tree.nextRouteSeq op).1.routes, Holds cfg P r := by
  have hold := h.holds op.key
  cases hop with
  | withdrawn => exact eraseP_holds hold _
  | published hroute =>
    exact setPublisher_holds hold (ingestRoute_fromCluster hroute) (hb _ hroute)
  | @updated ns session requestID _ route read ha hroute hread hcheck =>
    -- the route found by its session is the one that the update names
    rw [Option.filter_eq_some_iff] at hroute
    obtain ⟨hroute, hid⟩ := hroute
    have hcontent : relay.tree.contentAt (Op.key (.updateRoute ns session requestID (updatedRoute route read).1
        (updatedRoute route read).2)) = (relay.tree.node ns.reverse).content := contentAt_of_attached ha
    have hmem : route ∈ (relay.tree.node ns.reverse).content.routes := mem_of_find?_eq_some hroute
    have hsession : route.session = session := by
      have := find?_some hroute
      exact beq_iff_eq.1 this
    rw [hcontent] at hold ⊢
    obtain ⟨hf, hP⟩ := hold route hmem
    refine revise_holds hold (fun _ => ⟨rfl, rfl⟩) fun r hr => ?_
    have hfirst := find?_and (q := fun r => r.requestID == requestID) hroute hid
    rw [show (relay.tree.node ns.reverse).content.routes = (relay.tree.node ns.reverse).routes from rfl,
      hfirst] at hr
    rw [← Option.some.inj hr, hsession]
    refine hb read hread route (hsession ▸ hP) ?_
    rw [Bool.or_eq_true, hf, hsession, Bool.and_eq_true, List.isEmpty_iff,
      Option.isNone_iff_eq_none] at hcheck
    exact hcheck

theorem subscribe_outcome (h : Carries cfg P relay.tree) {p : TrackNamespace}
    (he : Edited relay.tree (.addNamespaceSubscriber p session info) t') :
    Outcome cfg P relay (replay cfg relay.tree { relay with tree := t' } p session info) := by
  have hroutes := addSubscriber_routes h.balanced he
  have hcarries : Carries cfg P t' := h.edited he fun r hr => h.holds p.reverse r (by
    have := hroutes p.reverse
    rw [he.contentAt h.balanced, if_pos (rfl : p.reverse = Op.key _)] at this
    exact this ▸ hr)
  have hred : Redressed t' (replay cfg relay.tree { relay with tree := t' } p session info).tree :=
    replay_redressed _ _ _ _ _ _
  refine ⟨hcarries.redressed hred, fun stream ns params about hm => ?_⟩
  rw [replay_sent] at hm
  split at hm
  · rename_i hstream
    subst hstream
    split at hm
    · rename_i hw
      obtain ⟨-, -, hroute⟩ := walkHits_iff.1 hw
      have hk : t'.attached ns.reverse = true := by
        by_contra hout
        rw [← hroutes, contentAt_of_not_attached hout] at hroute
        cases hroute
      obtain ⟨r, hr, hadv, hparams⟩ := reconcileNode_sent hm
      refine .inr ⟨r, ?_, info, hadv, hparams⟩
      rw [routesOf, hred.contentAt, contentAt_of_attached hk]
      exact hr
    · exact absurd hm not_mem_nil
  · exact .inl hm

/-- **One event of one relay.** -/
theorem step_outcome (h : Carries cfg P relay.tree) {e : Event} (hb : Brings cfg P e)
    (hs : relay.step cfg e = some relay') : Outcome cfg P relay relay' := by
  cases step_acts h.balanced hs with
  | nothing => exact .same h
  | reroutes hop he hk => exact .reconcile h he hk (reroutes_holds h hb hop) _
  | subscribes _ he => exact subscribe_outcome h he
  | unsubscribes he => exact .tree h he (h.holds _)
  | tracks hop he => exact .tree h he (by rw [(Content.apply_tracks hop).1]; exact h.holds _)

end outcome

end NamespaceRelay

end Moqx

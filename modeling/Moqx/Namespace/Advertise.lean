/-
  Subject: The messages to one subscription about one namespace.

  * `selectRoute_some`, `selectRoute_isSome` -- there is a best route if there is an eligible one;
  * `WellSent` -- NAMESPACE_DONE follows a NAMESPACE, and stands between two publishers;
  * `reconciled_logged` -- reconciling keeps the messages in agreement with the routes;
  * `Content.apply_stamped` -- one generation has one first hop.
-/
import Moqx.Namespace.Directory
import Moqx.Namespace.Relay

namespace Moqx

open NamespaceTree List Function AList Option

variable {origin : Nat → Option Nat} {next : Nat}
variable {routes : List Route} {eligible : Route → Bool} {r : Route} {a : Advertisement} {b : List Nat}
  {next' : Nat} {op : Op}

/-! ## 1. The best route -/

theorem selectRoute_append (routes : List Route) (r : Route) (eligible : Route → Bool) :
    selectRoute (routes ++ [r]) eligible =
      if eligible r && (selectRoute routes eligible).all (betterRoute r) then some r
      else selectRoute routes eligible := by
  rw [selectRoute, foldl_append]
  rfl

theorem selectRoute_some (h : selectRoute routes eligible = some r) : r ∈ routes ∧ eligible r = true := by
  induction routes using reverseRecOn with
  | nil => cases h
  | append_singleton routes x ih =>
    rw [selectRoute_append] at h
    split at h
    · rename_i hx
      rw [Bool.and_eq_true] at hx
      obtain rfl := some.inj h
      exact ⟨mem_append_right _ mem_cons_self, hx.1⟩
    · exact ⟨mem_append_left _ (ih h).1, (ih h).2⟩

theorem selectRoute_isSome :
    (selectRoute routes eligible).isSome = true ↔ ∃ r ∈ routes, eligible r = true := by
  induction routes using reverseRecOn with
  | nil => simp [selectRoute]
  | append_singleton routes x ih =>
    rw [selectRoute_append]
    cases hx : eligible x with
    | false => simp [hx, ih]
    | true =>
      cases selectRoute routes eligible with
      | none => simp [hx]
      | some best => cases hb : betterRoute x best <;> simp [hx, hb]

/-! ## 2. Reconciling -/

def Route.advertisement (r : Route) : Advertisement := ⟨r.seq, r.path, r.cost⟩

/-- What a subscription has been told after reconciling, and the messages for it. -/
def reconciled (cfg : RelayConfig) (subscriber : SessionRef) (route : Option Route)
    (sent : Option Advertisement) : Option Advertisement × List NamespaceMessage :=
  let messages := if withdraws sent route then [NamespaceMessage.namespaceDoneMsg] else []
  match route with
  | none => (none, messages)
  | some r =>
    if !withdraws sent route && sent.any (upToDate cfg subscriber r) then (sent, [])
    else (some r.advertisement,
      messages ++ [.namespaceMsg (setOutgoingHopPath cfg subscriber r.path r.cost) r.advertisement])

/-- The key of what a subscription was told, at each node under its prefix. -/
def NamespaceSubscriberInfo.adKey (session : SessionRef) (info : NamespaceSubscriberInfo) : AdvertisementKey :=
  (session, info.trackNamespacePrefix.length)

theorem reconcileNode_of_no_handle {cfg : RelayConfig} {node : NamespaceNode} {subscriber : SessionRef}
    {info : NamespaceSubscriberInfo} (h : info.namespacePublishHandle.isSome = false) :
    reconcileNode cfg node subscriber info = (node, []) := by
  rw [reconcileNode, if_pos]
  simpa using h

/-- `reconcileNode` changes what its subscription was told, and nothing else. -/
theorem reconcileNode_spec (cfg : RelayConfig) (node : NamespaceNode) (subscriber : SessionRef)
    {info : NamespaceSubscriberInfo} (h : info.namespacePublishHandle.isSome = true) :
    let told := reconciled cfg subscriber (advertisableRoute cfg node.routes subscriber info)
      (node.advertisements.lookup (info.adKey subscriber))
    ∃ ads, (reconcileNode cfg node subscriber info) = ({ node with advertisements := ads }, told.2) ∧
      ads.lookup (info.adKey subscriber) = told.1 ∧
      ∀ a, a ≠ info.adKey subscriber → ads.lookup a = node.advertisements.lookup a := by
  have hhandle : ¬ info.namespacePublishHandle.isNone = true := by
    rw [isSome_iff_ne_none] at h
    simpa using h
  simp only [reconcileNode, if_neg hhandle, NamespaceSubscriberInfo.adKey, reconciled]
  have hcases : node.advertisements.lookup (subscriber, info.trackNamespacePrefix.length) = none ∨
      ∃ sent, node.advertisements.lookup (subscriber, info.trackNamespacePrefix.length) = some sent :=
    eq_none_or_eq_some _
  cases advertisableRoute cfg node.routes subscriber info with
  | none =>
    rcases hcases with hsent | ⟨sent, hsent⟩
    · simp only [hsent, withdraws]
      exact ⟨_, rfl, hsent, fun a _ => rfl⟩
    · simp only [hsent, withdraws, if_true]
      exact ⟨_, rfl, lookup_erase _ _, fun a ha => lookup_erase_ne ha⟩
  | some r =>
    rcases hcases with hsent | ⟨sent, hsent⟩
    · simp only [hsent, withdraws, Bool.not_false, any_none, Bool.and_false]
      exact ⟨_, rfl, lookup_insert _, fun a ha => lookup_insert_ne ha⟩
    · cases hsame : samePublisher sent r with
      | false =>
        simp only [hsent, withdraws, hsame, Bool.not_false, Bool.not_true, Bool.false_and, if_true]
        refine ⟨_, rfl, lookup_insert _, fun a ha => ?_⟩
        rw [lookup_insert_ne ha]
        exact lookup_erase_ne ha
      | true =>
        cases hup : upToDate cfg subscriber r sent with
        | true =>
          simp only [hsent, withdraws, hsame, hup, Bool.not_true, Bool.not_false, Bool.true_and,
            any_some, if_true]
          exact ⟨_, rfl, hsent, fun a _ => rfl⟩
        | false =>
          simp only [hsent, withdraws, hsame, hup, Bool.not_true, Bool.not_false, Bool.true_and,
            any_some]
          exact ⟨_, rfl, lookup_insert _, fun a ha => lookup_insert_ne ha⟩

theorem reconcileNode_redressed (cfg : RelayConfig) (node : NamespaceNode) (subscriber : SessionRef)
    (info : NamespaceSubscriberInfo) :
    ∃ ads, (reconcileNode cfg node subscriber info).1 = { node with advertisements := ads } := by
  cases hh : info.namespacePublishHandle.isSome with
  | false =>
    rw [reconcileNode_of_no_handle hh]
    exact ⟨_, rfl⟩
  | true =>
    obtain ⟨ads, hres, -⟩ := reconcileNode_spec cfg node subscriber hh
    exact ⟨ads, by rw [hres]⟩

/-! ## 3. The messages -/

/-- Two announcements are of one publisher: of one generation, or of one named first hop. -/
def SamePublisher (a b : Advertisement) : Prop :=
  a.routeSeq = b.routeSeq ∨
    ∃ hop, hop ≠ kMoQClusterAnonHopId ∧ a.path.head? = some hop ∧ b.path.head? = some hop

/-- What may be sent after `before`: NAMESPACE_DONE right after a NAMESPACE only, and a NAMESPACE of another
    publisher only with a NAMESPACE_DONE in between. -/
def MayFollow (before : List NamespaceMessage) : NamespaceMessage → Prop
  | .namespaceDoneMsg => ∃ params a, before.getLast? = some (.namespaceMsg params a)
  | .namespaceMsg _ b => ∀ first params a between,
      before = first ++ .namespaceMsg params a :: between → .namespaceDoneMsg ∉ between → SamePublisher a b

def WellSent (messages : List NamespaceMessage) : Prop :=
  ∀ before m after, messages = before ++ m :: after → MayFollow before m

theorem wellSent_nil : WellSent [] := by
  intro before m after h
  have := congrArg length h
  simp at this

theorem WellSent.append {messages : List NamespaceMessage} {m : NamespaceMessage} (h : WellSent messages)
    (hm : MayFollow messages m) : WellSent (messages ++ [m]) := by
  intro before m' after heq
  rcases eq_nil_or_concat after with rfl | ⟨after', x, rfl⟩
  · obtain ⟨hb, hm'⟩ := append_inj' heq rfl
    rw [← hb, ← (cons.inj hm').1]
    exact hm
  · rw [concat_eq_append, ← cons_append, ← append_assoc] at heq
    exact h before m' after' (append_inj' heq rfl).1

/-- The generation of an announcement was given out, to its first hop. -/
def Stamped (origin : Nat → Option Nat) (nextRouteSeq : Nat) (a : Advertisement) : Prop :=
  a.routeSeq ≤ nextRouteSeq ∧ origin a.routeSeq = a.path.head?

theorem samePublisher_trans {origin : Nat → Option Nat} {next : Nat} {b c : Advertisement}
    (ha : Stamped origin next a) (hb : Stamped origin next b) (hc : Stamped origin next c)
    (hab : SamePublisher a b) (hbc : SamePublisher b c) : SamePublisher a c := by
  rcases hab with hab | ⟨hop, hne, hpa, hpb⟩
  · rcases hbc with hbc | ⟨hop, hne, hpb, hpc⟩
    · exact .inl (hab.trans hbc)
    · exact .inr ⟨hop, hne, by rw [← ha.2, hab, hb.2, hpb], hpc⟩
  · rcases hbc with hbc | ⟨hop', hne', hpb', hpc⟩
    · exact .inr ⟨hop, hne, hpa, by rw [← hc.2, ← hbc, hb.2, hpb]⟩
    · exact .inr ⟨hop, hne, hpa, by rw [hpc, ← hpb', hpb]⟩

/-- The messages agree with what the node has recorded of them. -/
structure Logged (cfg : RelayConfig) (origin : Nat → Option Nat) (nextRouteSeq : Nat) (subscriber : SessionRef)
    (sent : Option Advertisement) (messages : List NamespaceMessage) : Prop where
  none_last : sent = none → messages = [] ∨ messages.getLast? = some .namespaceDoneMsg
  some_last : ∀ a, sent = some a →
    messages.getLast? = some (.namespaceMsg (setOutgoingHopPath cfg subscriber a.path a.cost) a)
  well : WellSent messages
  stamped : ∀ params a, .namespaceMsg params a ∈ messages → Stamped origin nextRouteSeq a

theorem logged_nil (cfg : RelayConfig) (origin : Nat → Option Nat) (next : Nat) (subscriber : SessionRef) :
    Logged cfg origin next subscriber none [] where
  none_last _ := .inl rfl
  some_last _ h := by cases h
  well := wellSent_nil
  stamped _ _ h := absurd h not_mem_nil

section logged

variable {cfg : RelayConfig} {subscriber : SessionRef} {sent : Option Advertisement}
  {messages : List NamespaceMessage}

theorem Logged.done (h : Logged cfg origin next subscriber (some a) messages) :
    Logged cfg origin next subscriber none (messages ++ [.namespaceDoneMsg]) where
  none_last _ := .inr (by simp)
  some_last _ h := by cases h
  well := h.well.append ⟨_, _, h.some_last a rfl⟩
  stamped params b hb := h.stamped params b (by simpa using hb)

theorem Logged.announce (h : Logged cfg origin next subscriber sent messages)
    (hr : Stamped origin next r.advertisement)
    (hsame : ∀ a, sent = some a → SamePublisher a r.advertisement) :
    Logged cfg origin next subscriber (some r.advertisement)
      (messages ++ [.namespaceMsg (setOutgoingHopPath cfg subscriber r.path r.cost) r.advertisement]) where
  none_last h := by cases h
  some_last a ha := by
    rw [← some.inj ha]
    simp [Route.advertisement]
  well := by
    refine h.well.append fun first params a between hsplit hbetween => ?_
    rcases eq_nil_or_concat between with rfl | ⟨between', m, rfl⟩
    · -- the last message is this NAMESPACE
      have hlast : messages.getLast? = some (.namespaceMsg params a) := by simp [hsplit]
      cases hsent : sent with
      | none =>
        rcases h.none_last hsent with hnil | hdone
        · rw [hnil] at hlast
          cases hlast
        · rw [hdone] at hlast
          cases hlast
      | some b =>
        have hb := h.some_last b hsent
        rw [hlast] at hb
        injection hb with hb
        injection hb with _ hb
        exact hb ▸ hsame b hsent
    · -- the last message is a NAMESPACE that no NAMESPACE_DONE separates from this one
      rw [concat_eq_append] at hsplit hbetween
      have hlast : messages.getLast? = some m := by
        rw [hsplit, ← cons_append, ← append_assoc, getLast?_append]
        rfl
      cases hsent : sent with
      | none =>
        rcases h.none_last hsent with hnil | hdone
        · rw [hnil] at hlast
          cases hlast
        · rw [hdone] at hlast
          exact absurd (by rw [some.inj hlast]; simp) hbetween
      | some b =>
        have hb := h.some_last b hsent
        rw [hlast] at hb
        have hm := some.inj hb
        have hab : SamePublisher a b := by
          have hfollow := h.well (first ++ .namespaceMsg params a :: between') m []
            (by rw [hsplit]; simp)
          rw [hm] at hfollow
          exact hfollow first params a between' rfl fun hmem => hbetween (mem_append_left _ hmem)
        refine samePublisher_trans (h.stamped params a ?_)
          (h.stamped (setOutgoingHopPath cfg subscriber b.path b.cost) b ?_) hr hab (hsame b hsent)
        · rw [hsplit]
          simp
        · rw [hsplit, hm]
          simp
  stamped params b hb := by
    rcases mem_append.1 hb with hb | hb
    · exact h.stamped params b hb
    · injection mem_singleton.1 hb with _ hb
      exact hb ▸ hr

/-- The record agrees with the best route: there is one if there is the other, and a subscriber that has
    negotiated MoQ Cluster knows its path and cost. -/
def Current (cfg : RelayConfig) (subscriber : SessionRef) (sent : Option Advertisement)
    (route : Option Route) : Prop :=
  (sent.isSome = true ↔ route.isSome = true) ∧
    ∀ a r, sent = some a → route = some r → cfg.relayHops subscriber = true → a.path = r.path ∧ a.cost = r.cost

theorem sameNamedOrigin_head {a : List Nat} (h : sameNamedOrigin a b = true) :
    ∃ hop, hop ≠ kMoQClusterAnonHopId ∧ a.head? = some hop ∧ b.head? = some hop := by
  cases a with
  | nil => cases h
  | cons x xs =>
    cases b with
    | nil => cases h
    | cons y ys =>
      simp only [sameNamedOrigin, Bool.and_eq_true, bne_iff_ne, ne_eq, beq_iff_eq] at h
      exact ⟨x, h.1, rfl, by rw [head?_cons, h.2]⟩

theorem samePublisher_of (h : samePublisher a r = true) :
    SamePublisher a r.advertisement := by
  rw [samePublisher, Bool.or_eq_true, beq_iff_eq] at h
  exact h.imp id sameNamedOrigin_head

/-- **Reconciling keeps the messages right, and brings them up to date.** -/
theorem reconciled_logged (route : Option Route) (h : Logged cfg origin next subscriber sent messages)
    (hr : ∀ r, route = some r → Stamped origin next r.advertisement) :
    Logged cfg origin next subscriber (reconciled cfg subscriber route sent).1
        (messages ++ (reconciled cfg subscriber route sent).2) ∧
      Current cfg subscriber (reconciled cfg subscriber route sent).1 route := by
  cases hroute : route with
  | none =>
    cases hsent : sent with
    | none =>
      rw [hsent] at h
      refine ⟨?_, Iff.rfl, fun _ _ h => by cases h⟩
      simpa [reconciled, withdraws] using h
    | some a =>
      rw [hsent] at h
      exact ⟨h.done, Iff.rfl, fun _ _ h => by cases h⟩
  | some r =>
    have hr' := hr r hroute
    have hcurrent : Current cfg subscriber (some r.advertisement) (some r) :=
      ⟨Iff.rfl, fun a r' ha hr _ => by rw [← some.inj ha, ← some.inj hr]; exact ⟨rfl, rfl⟩⟩
    cases hsent : sent with
    | none =>
      rw [hsent] at h
      exact ⟨h.announce hr' (fun _ h => by cases h), hcurrent⟩
    | some a =>
      rw [hsent] at h
      cases hsame : samePublisher a r with
      | false =>
        have hres : reconciled cfg subscriber (some r) (some a) = (some r.advertisement,
            [.namespaceDoneMsg] ++
              [.namespaceMsg (setOutgoingHopPath cfg subscriber r.path r.cost) r.advertisement]) := by
          simp [reconciled, withdraws, hsame]
        rw [hres, ← append_assoc]
        exact ⟨h.done.announce hr' (fun _ h => by cases h), hcurrent⟩
      | true =>
        cases hup : upToDate cfg subscriber r a with
        | true =>
          have hres : reconciled cfg subscriber (some r) (some a) = (some a, []) := by
            simp [reconciled, withdraws, hsame, hup]
          rw [hres, append_nil]
          refine ⟨h, Iff.rfl, fun a' r' ha hr hcluster => ?_⟩
          rw [← some.inj ha, ← some.inj hr]
          simpa [upToDate, hcluster] using hup
        | false =>
          have hres : reconciled cfg subscriber (some r) (some a) = (some r.advertisement,
              [.namespaceMsg (setOutgoingHopPath cfg subscriber r.path r.cost) r.advertisement]) := by
            simp [reconciled, withdraws, hsame, hup]
          rw [hres]
          refine ⟨h.announce hr' fun b hb => ?_, hcurrent⟩
          rw [← some.inj hb]
          exact samePublisher_of hsame

theorem Logged.mono {origin' : Nat → Option Nat}
    (h : Logged cfg origin next subscriber sent messages) (hnext : next ≤ next')
    (horigin : ∀ seq, seq ≤ next → origin' seq = origin seq) :
    Logged cfg origin' next' subscriber sent messages where
  none_last := h.none_last
  some_last := h.some_last
  well := h.well
  stamped params a ha := by
    obtain ⟨hle, hstamp⟩ := h.stamped params a ha
    exact ⟨hle.trans hnext, (horigin _ hle).trans hstamp⟩

end logged

variable {c : Content}

/-! ## 4. Generations -/

theorem mem_updateFirst {p : Route → Bool} {f : Route → Route} {rs : List Route}
    (h : r ∈ updateFirst p f rs) : r ∈ rs ∨ ∃ r₀, rs.find? p = some r₀ ∧ r₀ ∈ rs ∧ r = f r₀ := by
  induction rs with
  | nil => exact absurd h not_mem_nil
  | cons x rs ih =>
    rw [updateFirst] at h
    split at h
    · rename_i hx
      rcases mem_cons.1 h with rfl | h
      · exact .inr ⟨x, by rw [find?_cons, hx], mem_cons_self, rfl⟩
      · exact .inl (mem_cons_of_mem x h)
    · rename_i hx
      rcases mem_cons.1 h with rfl | h
      · exact .inl mem_cons_self
      · rcases ih h with h | ⟨r₀, hfind, hmem, hr⟩
        · exact .inl (mem_cons_of_mem x h)
        · refine .inr ⟨r₀, ?_, mem_cons_of_mem x hmem, hr⟩
          rw [find?_cons, eq_false_of_ne_true hx, hfind]

theorem sameOrigin_head {a : List Nat} (h : sameOrigin a b = true) : a.head? = b.head? := by
  cases a with
  | nil => cases h
  | cons x xs =>
    cases b with
    | nil => cases h
    | cons y ys =>
      rw [head?_cons, head?_cons, beq_iff_eq.1 h]

theorem Stamped.later (h : Stamped origin next a) (hle : next ≤ next') (x : Option Nat) :
    Stamped (Function.update origin (next + 1) x) next' a := by
  refine ⟨h.1.trans hle, ?_⟩
  rw [update_of_ne (by have := h.1; omega)]
  exact h.2

/-- Whether a call is about the routes of a namespace. -/
def NamespaceTree.Op.isRouteCall : Op → Bool
  | .setPublisher .. => true
  | .updateRoute .. => true
  | .unpublishNamespace .. => true
  | _ => false

theorem revise_stamped (h : ∀ r ∈ c.routes, Stamped origin next r.advertisement) (named : Route → Bool)
    (change : Route → Route) (hchange : ∀ r, (change r).advertisement = r.advertisement) (path : List Nat)
    (cost : Nat) :
    next ≤ (c.revise next named change path cost).2 ∧
      ∀ r ∈ (c.revise next named change path cost).1.routes,
        Stamped (Function.update origin (next + 1) path.head?) (c.revise next named change path cost).2
          r.advertisement := by
  have hle : next ≤ (c.revise next named change path cost).2 := by
    rw [Content.revise]
    split <;> omega
  refine ⟨hle, fun r hr => ?_⟩
  rcases mem_updateFirst hr with hr | ⟨r₀, hfind, hmem, rfl⟩
  · exact (h r hr).later hle _
  · have hseq : (change r₀).seq = r₀.seq := congrArg Advertisement.routeSeq (hchange r₀)
    have hpath : (change r₀).path = r₀.path := congrArg Advertisement.path (hchange r₀)
    cases hsame : sameOrigin r₀.path path with
    | true =>
      have hold := (h r₀ hmem).later hle path.head?
      refine ⟨?_, ?_⟩
      · simpa [reviseRoute, Route.advertisement, hpath, hsame, hseq] using hold.1
      · have := hold.2
        simp only [reviseRoute, Route.advertisement, hpath, hsame, hseq, if_true] at this ⊢
        rw [this]
        exact sameOrigin_head hsame
    | false =>
      have hnext : (c.revise next named change path cost).2 = next + 1 := by
        simp [Content.revise, hfind, hsame]
      rw [hnext]
      refine ⟨?_, ?_⟩
      · simp [reviseRoute, Route.advertisement, hpath, hsame]
      · simp [reviseRoute, Route.advertisement, hpath, hsame]

theorem Content.apply_stamped (h : ∀ r ∈ c.routes, Stamped origin next r.advertisement)
    (hop : op.isRouteCall = true) :
    next ≤ (c.apply next op).2 ∧ ∃ x, ∀ r ∈ (c.apply next op).1.routes,
      Stamped (Function.update origin (next + 1) x) (c.apply next op).2 r.advertisement := by
  cases op with
  | setPublisher ns session callback peerID requestID relayHopPath routeCost fromCluster =>
    by_cases hrep : (c.routes.find? (displaces session fromCluster)).any
        (repeatsNamespace session callback fromCluster) = true
    · rw [Content.apply, if_pos hrep]
      obtain ⟨hle, hst⟩ := revise_stamped h (displaces session fromCluster)
        (fun r => { r with peerID := peerID }) (fun _ => rfl) relayHopPath routeCost
      exact ⟨hle, _, hst⟩
    · rw [Content.apply, if_neg hrep]
      refine ⟨Nat.le_succ _, relayHopPath.head?, fun r hr => ?_⟩
      rcases mem_append.1 hr with hr | hr
      · exact (h r (mem_of_mem_eraseP hr)).later (Nat.le_succ _) _
      · rw [mem_singleton.1 hr]
        exact ⟨le_rfl, update_self _ _ _⟩
  | updateRoute ns session requestID path cost =>
    obtain ⟨hle, hst⟩ := revise_stamped h (fun r => r.session == session && r.requestID == requestID)
      id (fun _ => rfl) path cost
    exact ⟨hle, _, hst⟩
  | unpublishNamespace ns session requestID =>
    exact ⟨le_rfl, none, fun r hr => (h r (mem_of_mem_eraseP hr)).later le_rfl _⟩
  | _ => cases hop

theorem Content.apply_subscribers (hop : op.isRouteCall = true) :
    (c.apply next op).1.subscribers = c.subscribers := by
  cases op with
  | setPublisher =>
    rw [Content.apply]
    split <;> rfl
  | updateRoute => rfl
  | unpublishNamespace => rfl
  | _ => cases hop

theorem Content.apply_setPublisher_routes {ns : TrackNamespace} {session : SessionRef} {callback : Option Nat}
    {peerID : Bytes} {requestID : Nat} {relayHopPath : List Nat} {routeCost : Nat} {fromCluster : Bool} :
    (c.apply next (.setPublisher ns session callback peerID requestID relayHopPath routeCost
      fromCluster)).1.routes ≠ [] := by
  rw [Content.apply]
  split
  · rename_i hrep
    obtain ⟨r, hr, -⟩ := any_eq_true _ _ |>.1 hrep
    exact updateFirst_ne_nil (find?_ne_nil (by rw [hr]; rfl))
  · simp

end Moqx

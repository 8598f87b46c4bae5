/-
  Subject: A network of relays that advertise namespaces to each other.

  Every relay of the network runs `NamespaceRelay`. A message stays in flight once it was sent, and is
  delivered at any later time, in any order, more than once or never.

  * `Network`, `Network.Step`, `Network.Reachable` -- the network and its runs;
  * `cluster_paths_never_loop` -- the result.
-/
import Moqx.Namespace.Cluster

namespace Moqx

open NamespaceTree NamespaceRelay List Function Option

variable {costs : List Nat} {link hop : Nat} {read : ClusterParams}

/-! ## 1. The network -/

/-- Relays with hops that are not zero, and the sessions between them; that the hops are distinct is not
    needed. A session that is no relay's (`peer` is none) is a client's: a publisher or a subscriber. -/
structure Topology (ι : Type) where
  config : ι → RelayConfig
  /-- The other end of a session: a relay, and the session as that relay names it. -/
  peer : ι → SessionRef → Option (ι × SessionRef)
  hop_ne_zero : ∀ i, (config i).relayHopID ≠ 0
  peer_symm : ∀ i s j s', peer i s = some (j, s') → peer j s' = some (i, s)
  /-- MoQ Cluster is negotiated for both ends of a session, -/
  relayHops_peer : ∀ i s j s', peer i s = some (j, s') → (config i).relayHops s = (config j).relayHops s'
  /-- and its SETUP carries the hop of the other end. -/
  peerHop : ∀ i s j s', peer i s = some (j, s') → (config i).relayHops s = true →
    (config i).peerHopID s = (config j).relayHopID
  linkCost_le : ∀ i s, (config i).relayLinkCost s ≤ kMaxCost

/-- A NAMESPACE or NAMESPACE_DONE from a relay on one of its sessions. -/
structure ClusterMessage (ι : Type) where
  sender : ι
  session : SessionRef
  suffix : TrackNamespace
  body : NamespaceMessage

structure Network (ι : Type) where
  relays : ι → NamespaceRelay
  inFlight : Set (ClusterMessage ι)

/-- A path on which no hop repeats. The hop zero is anonymous, it may be on the path more than once. -/
def NoRepeat (path : List Nat) : Prop := (path.filter (· != kMoQClusterAnonHopId)).Nodup

structure RouteParams.Fair (params : RouteParams) : Prop where
  path : ∀ path ∈ params.hopPath, NoRepeat path
  cost : ∀ cost ∈ params.routeCost, cost ≤ kMaxCost

namespace Topology

/-- What happens at one relay without a message of another one. -/
def Client {ι : Type} (topo : Topology ι) (i : ι) : Event → Prop
  | .publishNamespace _ session _ _ _ params | .requestUpdate _ session _ params =>
    topo.peer i session = none ∧ ((topo.config i).relayHops session = true → params.Fair)
  | _ => True

end Topology

def ClusterMessage.event {ι : Type} (m : ClusterMessage ι) (session : SessionRef) (peerID : Bytes)
    (requestID : Nat) : Event :=
  match m.body with
  | .namespaceMsg params _ => .publishNamespace m.suffix session none peerID requestID params
  | .namespaceDoneMsg => .publishNamespaceDone m.suffix session none

namespace Network

variable {ι : Type} [DecidableEq ι]

def start : Network ι := ⟨fun _ => {}, ∅⟩

def sentBy (i : ι) (relay : NamespaceRelay) : Set (ClusterMessage ι) :=
  {m | m.sender = i ∧ ∃ p ns, m.body ∈ relay.sent (m.session, p) ns ∧ m.suffix = ns.drop p.length}

/-- A relay has done a step: what it has sent is in flight. -/
def record (net : Network ι) (i : ι) (relay : NamespaceRelay) : Network ι :=
  ⟨Function.update net.relays i relay, net.inFlight ∪ sentBy i relay⟩

inductive Step (topo : Topology ι) (net : Network ι) : Network ι → Prop
  | client {i : ι} {e : Event} {relay : NamespaceRelay} (hc : topo.Client i e)
    (hs : (net.relays i).step (topo.config i) e = some relay) : Step topo net (net.record i relay)
  | deliver {m : ClusterMessage ι} {i : ι} {session : SessionRef} {peerID : Bytes} {requestID : Nat}
    {relay : NamespaceRelay} (hm : m ∈ net.inFlight) (hp : topo.peer m.sender m.session = some (i, session))
    (hs : (net.relays i).step (topo.config i) (m.event session peerID requestID) = some relay) :
    Step topo net (net.record i relay)

inductive Reachable (topo : Topology ι) : Network ι → Prop
  | start : Reachable topo start
  | step {net net' : Network ι} (h : Reachable topo net) (hs : Step topo net net') : Reachable topo net'

end Network

/-! ## 2. Costs along a path -/

/-- The path and the costs that were added for it on the way to a relay's session: nothing is known of the
    way of a route that comes without a path; a client with a path of its own may name a cost for it; a
    relay appends its hop, and the relay that it tells adds the cost of the link. -/
inductive Carried {ι : Type} (topo : Topology ι) : ι → SessionRef → List Nat → List Nat → Prop
  | plain {i : ι} {session : SessionRef} (h : (topo.config i).relayHops session = false) :
    Carried topo i session [kMoQClusterAnonHopId] [(topo.config i).relayLinkCost session]
  | client {i : ι} {session : SessionRef} (hp : topo.peer i session = none)
    (h : (topo.config i).relayHops session = true) (path : List Nat) (cost : Option Nat) :
    Carried topo i session path (cost.toList ++ [(topo.config i).relayLinkCost session])
  | hop {i j : ι} {session from_ s : SessionRef} {path costs : List Nat}
    (hp : topo.peer i session = some (j, s)) (h : (topo.config i).relayHops session = true)
    (hj : Carried topo j from_ path costs) :
    Carried topo i session (path ++ [(topo.config j).relayHopID])
      (costs ++ [(topo.config i).relayLinkCost session])

/-- The sum of the costs, at most `kMaxCost`. -/
def saturatingSum (costs : List Nat) : Nat := min costs.sum kMaxCost

theorem clusterAddCost_saturatingSum (h : link ≤ kMaxCost) :
    clusterAddCost (saturatingSum costs) link = saturatingSum (costs ++ [link]) := by
  rw [clusterAddCost, saturatingSum, saturatingSum, sum_append, sum_singleton]
  split <;> omega

theorem saturatingSum_singleton {cost : Nat} (h : cost ≤ kMaxCost) : saturatingSum [cost] = cost := by
  rw [saturatingSum, sum_singleton]
  exact min_eq_left h

theorem NoRepeat.append {path : List Nat} (h : NoRepeat path) (hn : hop ∉ path) :
    NoRepeat (path ++ [hop]) := by
  rw [NoRepeat, filter_append, nodup_append]
  refine ⟨h, ?_, fun a ha b hb => ?_⟩
  · exact List.Nodup.filter _ (nodup_singleton hop)
  · intro hab
    have hb' : b = hop := mem_singleton.1 (mem_of_mem_filter hb)
    exact hn (hb' ▸ hab ▸ mem_of_mem_filter ha)

/-- What is known of the path and the cost of a route that a relay has of a session. -/
structure Sound {ι : Type} (topo : Topology ι) (i : ι) (session : SessionRef) (path : List Nat) (cost : Nat) :
    Prop where
  noRepeat : NoRepeat path
  not_own : (topo.config i).relayHopID ∉ path
  carried : ∃ costs, Carried topo i session path costs ∧ cost = saturatingSum costs

/-- What is known of a message: its path does not repeat and does not go through the relay it is for, and
    it has the cost of a route of the sender. -/
structure SoundMessage {ι : Type} (topo : Topology ι) (m : ClusterMessage ι) (params : RouteParams) : Prop where
  without : (topo.config m.sender).relayHops m.session = false → params = {}
  with_path : (topo.config m.sender).relayHops m.session = true → ∃ session path cost,
    Sound topo m.sender session path cost ∧
    params = { hopPath := some (path ++ [(topo.config m.sender).relayHopID]), routeCost := some cost } ∧
    ∀ i s, topo.peer m.sender m.session = some (i, s) →
      (topo.config i).relayHopID ∉ path ++ [(topo.config m.sender).relayHopID]

section sound

variable {ι : Type} {topo : Topology ι} {i : ι}

variable {params : RouteParams} {session : SessionRef}

theorem clusterPathContains_iff {path : List Nat} (h : hop ≠ 0) :
    clusterPathContains path hop = true ↔ hop ∈ path := by
  rw [clusterPathContains, Bool.and_eq_true, contains_iff_mem, bne_iff_ne]
  exact ⟨And.right, fun hm => ⟨h, hm⟩⟩

/-- What `readClusterParams` accepts does not go through the relay. -/
theorem readClusterParams_some (h : readClusterParams (topo.config i) params link = some read) :
    read.path = params.hopPath.getD [] ∧ read.cost = params.routeCost.map (clusterAddCost · link) ∧
      (topo.config i).relayHopID ∉ read.path := by
  rw [readClusterParams] at h
  split at h
  · cases h
  · rename_i hloop
    rw [← some.inj h]
    refine ⟨rfl, rfl, fun hm => hloop ?_⟩
    cases hpath : params.hopPath with
    | none =>
      rw [hpath] at hm
      exact absurd hm not_mem_nil
    | some path =>
      rw [hpath] at hm
      rw [any_some, clusterPathContains_iff (topo.hop_ne_zero i)]
      exact hm

theorem sound_plain (h : (topo.config i).relayHops session = false) :
    Sound topo i session [kMoQClusterAnonHopId] ((topo.config i).relayLinkCost session) where
  noRepeat := nodup_nil
  not_own := fun hm => topo.hop_ne_zero i (mem_singleton.1 hm)
  carried := ⟨_, .plain h, (saturatingSum_singleton (topo.linkCost_le i session)).symm⟩

theorem noRepeat_getD (h : params.Fair) : NoRepeat (params.hopPath.getD []) := by
  cases hp : params.hopPath with
  | none => exact nodup_nil
  | some path => exact h.path path hp

theorem client_cost (h : params.Fair) (link : Nat) (hlink : link ≤ kMaxCost) :
    (params.routeCost.map (clusterAddCost · link)).getD link =
      saturatingSum (params.routeCost.toList ++ [link]) := by
  cases hc : params.routeCost with
  | none => exact (saturatingSum_singleton hlink).symm
  | some cost =>
    rw [map_some, getD_some, ← clusterAddCost_saturatingSum hlink, toList_some,
      saturatingSum_singleton (h.cost cost hc)]

theorem client_publish_sound {route : IngestedRoute} (hp : topo.peer i session = none)
    (hf : (topo.config i).relayHops session = true → params.Fair)
    (h : ingestRoute (topo.config i) params session = some route) :
    Sound topo i session route.path route.cost := by
  rw [ingestRoute] at h
  cases hc : (topo.config i).relayHops session with
  | false =>
    rw [hc] at h
    rw [← some.inj h]
    exact sound_plain hc
  | true =>
    rw [hc] at h
    obtain ⟨read, hread, rfl⟩ := map_eq_some_iff.1 h
    obtain ⟨hpath, hcost, hown⟩ := readClusterParams_some hread
    refine ⟨?_, hown, _, .client hp hc read.path params.routeCost, ?_⟩
    · show NoRepeat read.path
      rw [hpath]
      exact noRepeat_getD (hf hc)
    · show read.cost.getD _ = _
      rw [hcost]
      exact client_cost (hf hc) _ (topo.linkCost_le i session)

theorem Carried.other_path {path : List Nat} (h : Carried topo i session path costs)
    (hp : topo.peer i session = none) (hc : (topo.config i).relayHops session = true)
    (path' : List Nat) :
    Carried topo i session path' costs := by
  cases h with
  | plain h =>
    rw [hc] at h
    cases h
  | client _ _ _ cost => exact .client hp hc path' cost
  | hop hpeer =>
    rw [hp] at hpeer
    cases hpeer

theorem client_update_sound {route : Route} (hp : topo.peer i session = none)
    (hf : (topo.config i).relayHops session = true → params.Fair)
    (hread : readClusterParams (topo.config i) params ((topo.config i).relayLinkCost session) = some read)
    (hr : Sound topo i session route.path route.cost)
    (hc : (topo.config i).relayHops session = true ∨ (read.path = [] ∧ read.cost = none)) :
    Sound topo i session (updatedRoute route read).1 (updatedRoute route read).2 := by
  rcases hc with hc | ⟨hpath, hcost⟩
  · obtain ⟨hpath, hcost, hown⟩ := readClusterParams_some hread
    obtain ⟨costs, hcarried, hsum⟩ := hr.carried
    have hpathSound : NoRepeat (updatedRoute route read).1 ∧
        (topo.config i).relayHopID ∉ (updatedRoute route read).1 := by
      rw [updatedRoute]
      split
      · exact ⟨hr.noRepeat, hr.not_own⟩
      · refine ⟨?_, hown⟩
        rw [hpath]
        exact noRepeat_getD (hf hc)
    refine ⟨hpathSound.1, hpathSound.2, ?_⟩
    cases hnew : params.routeCost with
    | none =>
      refine ⟨costs, hcarried.other_path hp hc _, ?_⟩
      rw [updatedRoute, hcost, hnew]
      exact hsum
    | some cost =>
      refine ⟨_, .client hp hc _ params.routeCost, ?_⟩
      rw [← client_cost (hf hc) _ (topo.linkCost_le i session), updatedRoute, hcost, hnew]
      rfl
  · have hsame : updatedRoute route read = (route.path, route.cost) := by
      rw [updatedRoute, hpath, hcost]
      rfl
    rw [hsame]
    exact hr

theorem deliver_sound {m : ClusterMessage ι} {route : IngestedRoute} (hm : SoundMessage topo m params)
    (hp : topo.peer m.sender m.session = some (i, session))
    (h : ingestRoute (topo.config i) params session = some route) :
    Sound topo i session route.path route.cost := by
  have hback := topo.peer_symm _ _ _ _ hp
  have hhops := topo.relayHops_peer _ _ _ _ hp
  rw [ingestRoute] at h
  cases hc : (topo.config i).relayHops session with
  | false =>
    rw [hc] at h
    rw [← some.inj h]
    exact sound_plain hc
  | true =>
    rw [hc] at h
    obtain ⟨read, hread, rfl⟩ := map_eq_some_iff.1 h
    obtain ⟨from_, path, cost, hsound, rfl, -⟩ := hm.with_path (hhops.trans hc)
    obtain ⟨hpath, hcost, hown⟩ := readClusterParams_some hread
    obtain ⟨costs, hcarried, hsum⟩ := hsound.carried
    refine ⟨?_, hown, costs ++ [(topo.config i).relayLinkCost session], ?_, ?_⟩
    · show NoRepeat read.path
      rw [hpath]
      exact hsound.noRepeat.append hsound.not_own
    · show Carried topo i session read.path _
      rw [hpath]
      exact .hop hback hc hcarried
    · show read.cost.getD _ = _
      rw [hcost, hsum]
      exact clusterAddCost_saturatingSum (topo.linkCost_le i session)

theorem maySend_sound {routes : List Route} {m : ClusterMessage ι}
    (hr : ∀ r ∈ routes, Sound topo m.sender r.session r.path r.cost)
    (h : MaySend (topo.config m.sender) routes m.session params) : SoundMessage topo m params := by
  obtain ⟨r, hmem, info, hadv, rfl⟩ := h
  refine ⟨fun hc => ?_, fun hc => ⟨r.session, r.path, r.cost, hr r hmem, ?_, fun i s hp => ?_⟩⟩
  · rw [setOutgoingHopPath, hc]
    rfl
  · rw [setOutgoingHopPath, hc]
    rfl
  · have hhop := topo.peerHop _ _ _ _ hp hc
    rw [isAdvertisable, shouldForwardNamespace, hhop] at hadv
    simp only [Bool.and_eq_true, Bool.not_eq_true', Bool.or_eq_true, beq_iff_eq, bne_iff_ne] at hadv
    obtain ⟨-, ⟨-, hthrough⟩, hself⟩ := hadv
    intro hmem
    rcases mem_append.1 hmem with hmem | hmem
    · rw [(clusterPathContains_iff (topo.hop_ne_zero i)).2 hmem] at hthrough
      cases hthrough
    · rcases hself with hself | hself
      · exact topo.hop_ne_zero i hself
      · exact hself (mem_singleton.1 hmem)

end sound

/-! ## 3. Runs -/

namespace Network

variable {ι : Type} {topo : Topology ι}
variable {net : Network ι}

/-- What holds of the relays and of the messages after every step. -/
structure Inv (topo : Topology ι) (net : Network ι) : Prop where
  routes : ∀ i, Carries (topo.config i) (Sound topo i) (net.relays i).tree
  sent : ∀ i stream ns params about, .namespaceMsg params about ∈ (net.relays i).sent stream ns →
    ⟨i, stream.1, ns.drop stream.2.length, .namespaceMsg params about⟩ ∈ net.inFlight
  inFlight : ∀ m ∈ net.inFlight, ∀ params about, m.body = .namespaceMsg params about →
    SoundMessage topo m params

theorem inv_start : Inv topo start where
  routes := fun _ => carries_empty _ _
  sent := fun _ _ _ _ _ hm => absurd hm not_mem_nil
  inFlight := fun _ hm => absurd hm (Set.notMem_empty _)

theorem client_brings {i : ι} {e : Event} (hc : topo.Client i e) : Brings (topo.config i) (Sound topo i) e := by
  cases e with
  | publishNamespace => exact fun route hroute => client_publish_sound hc.1 hc.2 hroute
  | requestUpdate => exact fun read hread route hr hcheck => client_update_sound hc.1 hc.2 hread hr hcheck
  | publishNamespaceDone => trivial
  | subscribeNamespace => trivial
  | unsubscribeNamespace => trivial
  | publish => trivial
  | publishDone => trivial

theorem deliver_brings {m : ClusterMessage ι} {i : ι} {session : SessionRef}
    (hm : ∀ params about, m.body = .namespaceMsg params about → SoundMessage topo m params)
    (hp : topo.peer m.sender m.session = some (i, session)) (peerID : Bytes) (requestID : Nat) :
    Brings (topo.config i) (Sound topo i) (m.event session peerID requestID) := by
  rw [ClusterMessage.event]
  cases hbody : m.body with
  | namespaceMsg params about => exact fun route hroute => deliver_sound (hm params about hbody) hp hroute
  | namespaceDoneMsg => trivial

variable [DecidableEq ι]

theorem Inv.record (h : Inv topo net) {i : ι} {relay : NamespaceRelay}
    (ho : NamespaceRelay.Outcome (topo.config i) (Sound topo i) (net.relays i) relay) : Inv topo (net.record i relay) := by
  refine ⟨fun j => ?_, fun j stream ns params about hm => ?_, fun m hm params about hbody => ?_⟩
  · by_cases hj : j = i
    · subst hj
      simp only [Network.record, update_self]
      exact ho.carries
    · simp only [Network.record, update_of_ne hj]
      exact h.routes j
  · by_cases hj : j = i
    · subst hj
      simp only [Network.record, update_self] at hm
      exact .inr ⟨rfl, stream.2, ns, hm, rfl⟩
    · simp only [Network.record, update_of_ne hj] at hm
      exact .inl (h.sent j stream ns params about hm)
  · rcases hm with hm | ⟨hsender, p, ns, hm, hsuffix⟩
    · exact h.inFlight m hm params about hbody
    · obtain ⟨sender, session, suffix, body⟩ := m
      simp only at hsender hbody hm hsuffix
      subst hsender hbody hsuffix
      rcases ho.sent (session, p) ns params about hm with hm | hm
      · exact h.inFlight _ (h.sent _ (session, p) ns params about hm) params about rfl
      · exact maySend_sound (fun r hr => (ho.carries.holds ns.reverse r hr).2) hm

theorem Inv.step {net' : Network ι} (h : Inv topo net) (hs : Step topo net net') : Inv topo net' := by
  cases hs with
  | client hc hs => exact h.record (step_outcome (h.routes _) (client_brings hc) hs)
  | deliver hm hp hs => exact h.record (step_outcome (h.routes _) (deliver_brings (h.inFlight _ hm) hp _ _) hs)

theorem Reachable.inv (h : Reachable topo net) : Inv topo net := by
  induction h with
  | start => exact inv_start
  | step _ hs ih => exact ih.step hs

/-- **Paths never loop.** In every run of every network, no path that a relay has repeats a hop or goes
    through the relay itself, and its cost is the saturating sum of the costs that were added along it; and
    no path in flight repeats a hop or goes through the relay it is sent to. -/
theorem cluster_paths_never_loop {net : Network ι} (h : Reachable topo net) :
    (∀ i ns, ∀ r ∈ (net.relays i).routesOf ns, NoRepeat r.path ∧ (topo.config i).relayHopID ∉ r.path ∧
      ∃ costs, Carried topo i r.session r.path costs ∧ r.cost = saturatingSum costs) ∧
    (∀ m ∈ net.inFlight, ∀ params about, m.body = .namespaceMsg params about → ∀ path ∈ params.hopPath,
      NoRepeat path ∧ ∀ j s, topo.peer m.sender m.session = some (j, s) →
        (topo.config j).relayHopID ∉ path) := by
  have hinv := h.inv
  refine ⟨fun i ns r hr => ?_, fun m hm params about hbody path hpath => ?_⟩
  · obtain ⟨-, hsound⟩ := (hinv.routes i).holds ns.reverse r hr
    exact ⟨hsound.noRepeat, hsound.not_own, hsound.carried⟩
  · have hmsg := hinv.inFlight m hm params about hbody
    cases hc : (topo.config m.sender).relayHops m.session with
    | false =>
      rw [hmsg.without hc] at hpath
      cases hpath
    | true =>
      obtain ⟨session, path', cost, hsound, rfl, hthrough⟩ := hmsg.with_path hc
      rw [← some.inj hpath]
      exact ⟨hsound.noRepeat.append hsound.not_own, hthrough⟩

def examplePeer : Bool → SessionRef → Option (Bool × SessionRef)
  | false, 2 => some (true, 5)
  | true, 5 => some (false, 2)
  | _, _ => none

/-- Two relays, with hops 7 and 8: session 2 of the first is session 5 of the second. -/
def exampleTopology : Topology Bool where
  config i := { relayHopID := if i then 8 else 7, allowedNamespacePrefix := [],
                relayHops := fun s => (examplePeer i s).isSome, peerHopID := fun _ => if i then 7 else 8,
                relayLinkCost := fun s => min s 10 }
  peer := examplePeer
  hop_ne_zero i := by cases i <;> decide
  peer_symm := by
    intro i s j s' h
    unfold examplePeer at h
    split at h
    · cases h
      rfl
    · cases h
      rfl
    · cases h
  relayHops_peer := by
    intro i s j s' h
    unfold examplePeer at h
    split at h
    · cases h
      rfl
    · cases h
      rfl
    · cases h
  peerHop := by
    intro i s j s' h _
    unfold examplePeer at h
    split at h
    · cases h
      rfl
    · cases h
      rfl
    · cases h
  linkCost_le _ s := (min_le_right s 10).trans (by decide)

theorem cluster_paths_never_loop_pair : ∃ net, Reachable exampleTopology net ∧
    ∃ r ∈ (net.relays true).routesOf [[120]], r.path = [0, 7] ∧ r.cost = 6 ∧ NoRepeat r.path := by
  have hfirst : ∃ r, ({} : NamespaceRelay).step (exampleTopology.config false)
      (.publishNamespace [[120]] 1 (some 0) [] 4 {}) = some r ∧ ∃ r', r.step (exampleTopology.config false)
        (.subscribeNamespace [] 2 true .namespace (some 0) none [] false) = some r' ∧
        .namespaceMsg { hopPath := some [0, 7], routeCost := some 1 } ⟨1, [0], 1⟩ ∈ r'.sent (2, []) [[120]] := by
    refine ⟨_, rfl, _, rfl, ?_⟩
    exact mem_singleton.2 rfl
  obtain ⟨r, hs, r', hs', hm⟩ := hfirst
  have hsecond : ∃ r'', ({} : NamespaceRelay).step (exampleTopology.config true)
      (.publishNamespace [[120]] 5 none [] 0 { hopPath := some [0, 7], routeCost := some 1 }) = some r'' ∧
      r''.routesOf [[120]] = [⟨5, none, [], 0, [0, 7], 6, 1, true⟩] := ⟨_, rfl, rfl⟩
  obtain ⟨r'', hs'', hroutes⟩ := hsecond
  have hnet : Reachable exampleTopology ((start.record false r).record false r') :=
    .step (.step .start (.client (by exact ⟨rfl, fun h => by cases h⟩) hs)) (.client (by trivial) hs')
  have hall : Reachable exampleTopology (((start.record false r).record false r').record true r'') :=
    .step hnet (.deliver (m := ⟨false, 2, [[120]], _⟩) (.inr ⟨rfl, [], _, hm, rfl⟩) rfl hs'')
  have hmem : ⟨5, none, [], 0, [0, 7], 6, 1, true⟩ ∈ r''.routesOf [[120]] := by
    rw [hroutes]
    exact mem_singleton_self _
  exact ⟨_, hall, _, hmem, rfl, rfl, ((cluster_paths_never_loop hall).1 true [[120]] _ hmem).1⟩

end Network

end Moqx

/-
  Subject: How the relay takes in routes of namespaces and advertises them to its subscribers.

  * `ingestRoute`, `readClusterParams` -- the route of a PUBLISH_NAMESPACE or NAMESPACE;
  * `advertisableRoute`, `reconcileNode` -- what a subscription is told about a namespace;
  * `NamespaceRelay` -- the tree and the messages sent, with one function for each kind of event.
-/
import Moqx.Namespace.Tree

namespace Moqx

open NamespaceTree

/-! ## 1. Routes that come in -/

/-- The part of the relay's configuration, and of its sessions', that namespaces depend on. -/
structure RelayConfig where
  relayHopID : Nat
  allowedNamespacePrefix : TrackNamespace
  /-- `negotiatedSetupExtension(RelayHops)`. -/
  relayHops : SessionRef → Bool
  peerHopID : SessionRef → Nat
  relayLinkCost : SessionRef → Nat

def kMaxCost : Nat := 2 ^ 64 - 1

def clusterAddCost (cost link : Nat) : Nat := if cost > kMaxCost - link then kMaxCost else cost + link

/-- The parameters of an announcement: HOP_PATH and ROUTE_COST. -/
structure RouteParams where
  hopPath : Option (List Nat) := none
  routeCost : Option Nat := none

structure ClusterParams where
  path : List Nat
  cost : Option Nat

/-- Nothing, if the path has come through this relay before. -/
def readClusterParams (cfg : RelayConfig) (params : RouteParams) (linkCost : Nat) : Option ClusterParams :=
  if params.hopPath.any (clusterPathContains · cfg.relayHopID) then none
  else some ⟨params.hopPath.getD [], params.routeCost.map (clusterAddCost · linkCost)⟩

structure IngestedRoute where
  path : List Nat
  cost : Nat
  fromCluster : Bool

def ingestRoute (cfg : RelayConfig) (params : RouteParams) (session : SessionRef) : Option IngestedRoute :=
  if !cfg.relayHops session then some ⟨[kMoQClusterAnonHopId], cfg.relayLinkCost session, false⟩
  else (readClusterParams cfg params (cfg.relayLinkCost session)).map fun read =>
    ⟨read.path, read.cost.getD (cfg.relayLinkCost session), true⟩

/-! ## 2. What a subscription is told -/

/-- HOP_PATH and ROUTE_COST of a NAMESPACE that goes out. -/
def setOutgoingHopPath (cfg : RelayConfig) (session : SessionRef) (incomingPath : List Nat)
    (routeCost : Nat) : RouteParams :=
  if !cfg.relayHops session then {}
  else { hopPath := some (incomingPath ++ [cfg.relayHopID]), routeCost := some routeCost }

/-- A peer must not be advertised a path that runs through it. -/
def shouldForwardNamespace (cfg : RelayConfig) (publisherSession subscriberSession : SessionRef)
    (options : SubscribeNamespaceOptions) (incomingPath : List Nat) : Bool :=
  let peerHop := cfg.peerHopID subscriberSession
  subscriberSession != publisherSession && (options == .namespace || options == .both) &&
    !clusterPathContains incomingPath peerHop &&
    (peerHop == kMoQClusterAnonHopId || peerHop != cfg.relayHopID)

/-- Whether a route may be advertised to a subscription. -/
def isAdvertisable (cfg : RelayConfig) (subscriber : SessionRef) (info : NamespaceSubscriberInfo) (r : Route) :
    Bool :=
  (info.peerID.isEmpty || r.peerID != info.peerID) &&
    shouldForwardNamespace cfg r.session subscriber info.options r.path

def advertisableRoute (cfg : RelayConfig) (routes : List Route) (subscriber : SessionRef)
    (info : NamespaceSubscriberInfo) : Option Route :=
  selectRoute routes (isAdvertisable cfg subscriber info)

/-- The same non-zero first hop. -/
def sameNamedOrigin (a b : List Nat) : Bool :=
  match a, b with
  | x :: _, y :: _ => x != kMoQClusterAnonHopId && x == y
  | _, _ => false

/-- The same advertisement, or the same non-zero origin, is the same publisher. -/
def samePublisher (sent : Advertisement) (route : Route) : Bool :=
  sent.routeSeq == route.seq || sameNamedOrigin sent.path route.path

/-- A message to a subscription about one namespace. With the NAMESPACE stands the route it is about, which
    is not part of the message. -/
inductive NamespaceMessage where
  | namespaceMsg (params : RouteParams) (about : Advertisement)
  | namespaceDoneMsg

/-- A subscription that was told of a route is told of its end if there is no route any more, or the
    best one is another publisher's. -/
def withdraws (sent : Option Advertisement) (route : Option Route) : Bool :=
  match sent, route with
  | none, _ => false
  | some _, none => true
  | some sent, some route => !samePublisher sent route

/-- Only subscribers that have negotiated MoQ Cluster are told of new paths and costs. -/
def upToDate (cfg : RelayConfig) (subscriber : SessionRef) (route : Route) (sent : Advertisement) : Bool :=
  !cfg.relayHops subscriber || (sent.path == route.path && sent.cost == route.cost)

def reconcileNode (cfg : RelayConfig) (node : NamespaceNode) (subscriber : SessionRef)
    (info : NamespaceSubscriberInfo) : NamespaceNode × List NamespaceMessage :=
  if info.namespacePublishHandle.isNone then (node, [])
  else
    let key : AdvertisementKey := (subscriber, info.trackNamespacePrefix.length)
    let route := advertisableRoute cfg node.routes subscriber info
    let sent := node.advertisements.lookup key
    let done := withdraws sent route
    let withdrawn := if done then { node with advertisements := node.advertisements.erase key } else node
    let messages := if done then [NamespaceMessage.namespaceDoneMsg] else []
    match route with
    | none => (withdrawn, messages)
    | some route =>
      if !done && sent.any (upToDate cfg subscriber route) then (withdrawn, messages)
      else
        let about : Advertisement := ⟨route.seq, route.path, route.cost⟩
        ({ withdrawn with advertisements := withdrawn.advertisements.insert key about },
          messages ++ [.namespaceMsg (setOutgoingHopPath cfg subscriber route.path route.cost) about])

/-! ## 3. The relay -/

/-- The stream of a subscription: its session and prefix. -/
abbrev SubscriptionKey := SessionRef × TrackNamespace

structure NamespaceRelay where
  tree : NamespaceTree := {}
  /-- What was sent to each subscription about each namespace, since it subscribed. -/
  sent : SubscriptionKey → TrackNamespace → List NamespaceMessage := fun _ _ => []

namespace NamespaceRelay

def reconcileAdvertisement (cfg : RelayConfig) (relay : NamespaceRelay) (key : NodeKey)
    (subscriber : SessionRef) (info : NamespaceSubscriberInfo) : NamespaceRelay :=
  let result := reconcileNode cfg (relay.tree.node key) subscriber info
  let stream : SubscriptionKey := (subscriber, info.trackNamespacePrefix)
  { tree := relay.tree.setNode key result.1
    sent := Function.update relay.sent stream
      (Function.update (relay.sent stream) key.reverse (relay.sent stream key.reverse ++ result.2)) }

def reconcileAll (cfg : RelayConfig) (relay : NamespaceRelay) (key : NodeKey)
    (subscribers : SessionSubscriberList) : NamespaceRelay :=
  subscribers.foldl (fun relay s => relay.reconcileAdvertisement cfg key s.1 s.2) relay

def doPublishNamespaceDone (cfg : RelayConfig) (relay : NamespaceRelay) (trackNamespace : TrackNamespace)
    (session : SessionRef) (requestID : Option Nat) : NamespaceRelay :=
  match relay.tree.unpublishNamespace trackNamespace session requestID with
  | .error _ => relay
  | .ok (result, tree) => { relay with tree := tree }.reconcileAll cfg result.node result.subscribers

/-- A PUBLISH_NAMESPACE, or a NAMESPACE if there is no callback. Nothing, if a check of the source
    fails. -/
def doPublishNamespace (cfg : RelayConfig) (relay : NamespaceRelay) (trackNamespace : TrackNamespace)
    (session : SessionRef) (callback : Option Nat) (peerID : Bytes) (requestID : Nat) (params : RouteParams) :
    Option NamespaceRelay :=
  match ingestRoute cfg params session with
  | none =>
    -- the route of a peer whose repeated NAMESPACE now loops goes
    if callback.isNone then some (relay.doPublishNamespaceDone cfg trackNamespace session none) else some relay
  | some route =>
    if route.path.isEmpty then none
    else if !cfg.allowedNamespacePrefix.isPrefixOf trackNamespace then some relay
    else (relay.tree.setPublisher trackNamespace session callback peerID requestID route.path route.cost
      route.fromCluster).map fun (result, tree) =>
        { relay with tree := tree }.reconcileAll cfg result.node result.subscribers

/-- The path and the cost that an update leaves: what it does not name stays. -/
def updatedRoute (route : Route) (read : ClusterParams) : List Nat × Nat :=
  (if read.path.isEmpty then route.path else read.path, read.cost.getD route.cost)

/-- A REQUEST_UPDATE of a PUBLISH_NAMESPACE. Nothing, if a check of the source fails. -/
def updatePublishNamespace (cfg : RelayConfig) (relay : NamespaceRelay) (trackNamespace : TrackNamespace)
    (session : SessionRef) (requestID : Nat) (params : RouteParams) : Option NamespaceRelay :=
  let found := (relay.tree.findNode trackNamespace false).bind fun r =>
    (findRoute (relay.tree.node r.1).routes session).filter (·.requestID == requestID)
  match found with
  | none => some relay
  | some route =>
    match readClusterParams cfg params (cfg.relayLinkCost session) with
    | none => some (relay.doPublishNamespaceDone cfg trackNamespace session (some requestID))
    | some read =>
      if !(route.fromCluster || (read.path.isEmpty && read.cost.isNone)) then none
      else
        let (path, cost) := updatedRoute route read
        match relay.tree.updateRoute trackNamespace session requestID path cost with
        | .error _ => none
        | .ok (result, tree) => some ({ relay with tree := tree }.reconcileAll cfg result.node result.subscribers)

/-- The nodes of the subtree that have a route for a new subscription are reconciled for it. -/
def replay (cfg : RelayConfig) (before : NamespaceTree) (relay : NamespaceRelay) (ns : TrackNamespace)
    (session : SessionRef) (info : NamespaceSubscriberInfo) : NamespaceRelay :=
  let hit : NodeKey → Bool := fun k => (before.findNode ns false).isSome &&
    before.inSubtree ns.reverse k && (advertisableRoute cfg (before.node k).routes session info).isSome
  let node : NodeKey → NamespaceNode := fun k =>
    if hit k then (reconcileNode cfg (relay.tree.node k) session info).1 else relay.tree.node k
  let messages : TrackNamespace → List NamespaceMessage := fun sub =>
    if hit sub.reverse then (reconcileNode cfg (relay.tree.node sub.reverse) session info).2 else []
  { tree := { relay.tree with node := node }, sent := Function.update relay.sent (session, ns) messages }

/-- A SUBSCRIBE_NAMESPACE. `tooLarge` says that the walk of the subtree found more matches than the limit
    allows: the request is refused then. -/
def subscribeNamespace (cfg : RelayConfig) (relay : NamespaceRelay) (ns : TrackNamespace) (session : SessionRef)
    (forward : Bool) (options : SubscribeNamespaceOptions) (handle : Option Nat)
    (trackFilter : Option TrackFilter) (peerID : Bytes) (tooLarge : Bool) : Option NamespaceRelay :=
  let info : NamespaceSubscriberInfo :=
    { forward := forward, options := options, namespacePublishHandle := handle, trackNamespacePrefix := ns,
      trackFilter := trackFilter, peerID := peerID }
  if tooLarge then some relay
  else (relay.tree.addNamespaceSubscriber ns session info).map fun r =>
    replay cfg relay.tree { relay with tree := r.2 } ns session info

def unsubscribeNamespace (relay : NamespaceRelay) (ns : TrackNamespace) (session : SessionRef) :
    NamespaceRelay :=
  { relay with tree := relay.tree.afterCall (relay.tree.removeNamespaceSubscriber ns session) }

/-! ## 4. Events -/

inductive Event where
  | publishNamespace (ns : TrackNamespace) (session : SessionRef) (callback : Option Nat) (peerID : Bytes)
      (requestID : Nat) (params : RouteParams)
  | requestUpdate (ns : TrackNamespace) (session : SessionRef) (requestID : Nat) (params : RouteParams)
  | publishNamespaceDone (ns : TrackNamespace) (session : SessionRef) (requestID : Option Nat)
  | subscribeNamespace (ns : TrackNamespace) (session : SessionRef) (forward : Bool)
      (options : SubscribeNamespaceOptions) (handle : Option Nat) (trackFilter : Option TrackFilter)
      (peerID : Bytes) (tooLarge : Bool)
  | unsubscribeNamespace (ns : TrackNamespace) (session : SessionRef)
  | publish (ftn : FullTrackName) (session : SessionRef)
  | publishDone (ns : TrackNamespace) (trackName : Bytes)

/-- The relay after an event; nothing if a check of the source fails. -/
def step (cfg : RelayConfig) (relay : NamespaceRelay) : Event → Option NamespaceRelay
  | .publishNamespace ns session callback peerID requestID params =>
    relay.doPublishNamespace cfg ns session callback peerID requestID params
  | .requestUpdate ns session requestID params => relay.updatePublishNamespace cfg ns session requestID params
  | .publishNamespaceDone ns session requestID => some (relay.doPublishNamespaceDone cfg ns session requestID)
  | .subscribeNamespace ns session forward options handle trackFilter peerID tooLarge =>
    relay.subscribeNamespace cfg ns session forward options handle trackFilter peerID tooLarge
  | .unsubscribeNamespace ns session => some (relay.unsubscribeNamespace ns session)
  | .publish ftn session => (relay.tree.addPublish ftn session).map fun r => { relay with tree := r.2 }
  | .publishDone ns trackName =>
    some { relay with tree := ((relay.tree.unpublishTrack ns trackName).toOption).getD relay.tree }

end NamespaceRelay

end Moqx

/-
  Subject: `NamespaceTree`: which sessions have published a namespace, and who has subscribed to it.

  A node is named by its namespace, last label first (`NodeKey`), so that the parent of a node is the tail
  of its key. A node that has been pruned stays where it was until a new one is made under its name: the
  caller of `unpublishNamespace` still works on it.

  * `Route`, `NamespaceSubscriberInfo`, `NamespaceNode`, `NamespaceTree` -- the state;
  * `incrementActiveChildren`, `tryPruneChild`, `withGuard` -- the count of active children and pruning;
  * `setPublisher`, `updateRoute`, `unpublishNamespace`, `addPublish`, `unpublishTrack`,
    `addNamespaceSubscriber`, `removeNamespaceSubscriber` -- the operations.
-/
import Mathlib.Data.Finset.Basic
import Moqx.Lib.Table
import Moqx.Types

namespace Moqx

abbrev TrackNamespace := List Bytes

/-! ## 1. Nodes -/

/-- An announcement of a namespace that the relay has received. -/
structure Route where
  session : SessionRef
  callback : Option Nat
  peerID : Bytes
  requestID : Nat
  path : List Nat
  cost : Nat
  /-- The generation of the route. -/
  seq : Nat
  fromCluster : Bool
  deriving DecidableEq

inductive SubscribeNamespaceOptions where
  | publish
  | «namespace»
  | both
  deriving DecidableEq

structure TrackFilter where
  propertyType : Nat
  maxSelected : Nat
  deriving DecidableEq

structure NamespaceSubscriberInfo where
  forward : Bool
  options : SubscribeNamespaceOptions
  /-- Where NAMESPACE and NAMESPACE_DONE are sent, if anywhere. -/
  namespacePublishHandle : Option Nat
  trackNamespacePrefix : TrackNamespace
  trackFilter : Option TrackFilter
  peerID : Bytes
  deriving DecidableEq

/-- What a subscription was last told about a namespace. -/
structure Advertisement where
  routeSeq : Nat
  path : List Nat
  cost : Nat
  deriving DecidableEq

/-- A subscriber's session and the length of its prefix. -/
abbrev AdvertisementKey := SessionRef × Nat

abbrev RankingRef := Nat

/-- A namespace, last label first. -/
abbrev NodeKey := List Bytes

structure NamespaceNode where
  activeChildCount : Nat := 0
  routes : List Route := []
  advertisements : AList (fun _ : AdvertisementKey => Advertisement) := ∅
  publishes : AList (fun _ : Bytes => SessionRef) := ∅
  subscribers : AList (fun _ : SessionRef => NamespaceSubscriberInfo) := ∅
  children : Finset Bytes := ∅
  rankings : AList (fun _ : Nat => RankingRef) := ∅

def NamespaceNode.hasContent (n : NamespaceNode) : Bool :=
  !n.publishes.entries.isEmpty || !n.subscribers.entries.isEmpty || !n.routes.isEmpty

def NamespaceNode.shouldKeep (n : NamespaceNode) : Bool := n.hasContent || decide (0 < n.activeChildCount)

structure NamespaceTree where
  node : NodeKey → NamespaceNode := fun _ => {}
  nextRouteSeq : Nat := 0
  /-- A count of active children was to be lowered at zero: the source checks that this does not
      happen. -/
  underflow : Bool := false

namespace NamespaceTree

def setNode (tree : NamespaceTree) (key : NodeKey) (n : NamespaceNode) : NamespaceTree :=
  { tree with node := Function.update tree.node key n }

/-! ## 2. Counts and pruning -/

/-- A child has become active. The parent is told if it was not counted itself. -/
def incrementActiveChildren : NodeKey → NamespaceTree → NamespaceTree
  | [], tree =>
    tree.setNode [] { tree.node [] with activeChildCount := (tree.node []).activeChildCount + 1 }
  | name :: up, tree =>
    let n := { tree.node (name :: up) with activeChildCount := (tree.node (name :: up)).activeChildCount + 1 }
    let tree := tree.setNode (name :: up) n
    if n.activeChildCount = 1 ∧ !n.hasContent then incrementActiveChildren up tree else tree

def decrementActiveChildren (tree : NamespaceTree) (key : NodeKey) : NamespaceTree :=
  { tree.setNode key { tree.node key with activeChildCount := (tree.node key).activeChildCount - 1 } with
    underflow := tree.underflow || (tree.node key).activeChildCount == 0 }

def removeChild (tree : NamespaceTree) (key : NodeKey) (name : Bytes) : NamespaceTree :=
  tree.setNode key { tree.node key with children := (tree.node key).children.erase name }

/-- The walk up from the parent of an empty node: lower the counts, and remove the highest ancestor that
    is empty then. -/
def pruneUp : NodeKey → Bytes → NamespaceTree → NamespaceTree
  | [], keyToRemove, tree => (tree.decrementActiveChildren []).removeChild [] keyToRemove
  | name :: up, keyToRemove, tree =>
    let tree := tree.decrementActiveChildren (name :: up)
    if (tree.node (name :: up)).shouldKeep then tree.removeChild (name :: up) keyToRemove
    else pruneUp up name tree

def tryPruneChild (tree : NamespaceTree) (parent : NodeKey) (childKey : Bytes) : NamespaceTree :=
  if childKey ∉ (tree.node parent).children then tree
  else if (tree.node (childKey :: parent)).shouldKeep then tree
  else pruneUp parent childKey tree

def notifyParentIfFirstContent (tree : NamespaceTree) (key : NodeKey) (wasEmpty : Bool) : NamespaceTree :=
  match key with
  | [] => tree
  | _ :: up => if wasEmpty && (tree.node key).hasContent then incrementActiveChildren up tree else tree

def tryPruneSelf (tree : NamespaceTree) (key : NodeKey) (hadContent : Bool) : NamespaceTree :=
  match key with
  | [] => tree
  | name :: up => if hadContent && !(tree.node key).shouldKeep then tree.tryPruneChild up name else tree

/-- A change of a node's content, bracketed by `NodeMutationGuard`. -/
def withGuard (tree : NamespaceTree) (key : NodeKey) (change : NamespaceNode → NamespaceNode) :
    NamespaceTree :=
  let hadContent := (tree.node key).hasContent
  let tree := tree.setNode key (change (tree.node key))
  (tree.notifyParentIfFirstContent key !hadContent).tryPruneSelf key hadContent

/-! ## 3. Walks -/

abbrev SessionSubscriberList := List (SessionRef × NamespaceSubscriberInfo)

def subscriberList (tree : NamespaceTree) (key : NodeKey) : SessionSubscriberList :=
  (tree.node key).subscribers.entries.map fun e => (e.1, e.2)

def addChild (tree : NamespaceTree) (key : NodeKey) (name : Bytes) : NamespaceTree :=
  (tree.setNode key { tree.node key with children := insert name (tree.node key).children }).setNode
    (name :: key) {}

/-- The walk of `findNode` from a node on, with the subscribers of the nodes before the last one. -/
def findNodeFrom (createMissingNodes : Bool) :
    NodeKey → TrackNamespace → NamespaceTree → Option (NodeKey × SessionSubscriberList × NamespaceTree)
  | key, [], tree => some (key, [], tree)
  | key, name :: rest, tree =>
    if name ∈ (tree.node key).children then
      (findNodeFrom createMissingNodes (name :: key) rest tree).map fun r =>
        (r.1, tree.subscriberList key ++ r.2.1, r.2.2)
    else if createMissingNodes then
      (findNodeFrom createMissingNodes (name :: key) rest (tree.addChild key name)).map fun r =>
        (r.1, tree.subscriberList key ++ r.2.1, r.2.2)
    else none

/-- The node of a namespace and the subscribers of its proper prefixes. -/
def findNode (tree : NamespaceTree) (ns : TrackNamespace) (createMissingNodes : Bool) :
    Option (NodeKey × SessionSubscriberList × NamespaceTree) :=
  findNodeFrom createMissingNodes [] ns tree

/-- The walk of `findRouteNode` below a node. -/
def findRouteNodeFrom (tree : NamespaceTree) :
    NodeKey → Option NodeKey → TrackNamespace → Option NodeKey
  | _, deepest, [] => deepest
  | key, deepest, name :: rest =>
    if name ∈ (tree.node key).children then
      findRouteNodeFrom tree (name :: key)
        (if (tree.node (name :: key)).routes.isEmpty then deepest else some (name :: key)) rest
    else deepest

/-- The deepest node covering `ns` that has routes. -/
def findRouteNode (tree : NamespaceTree) (ns : TrackNamespace) : Option NodeKey :=
  tree.findRouteNodeFrom [] (if (tree.node []).routes.isEmpty then none else some []) ns

/-! ## 4. Routes -/

/-- `kMoQClusterAnonHopId`: the hop of a sender that does not name itself. -/
def kMoQClusterAnonHopId : Nat := 0

def clusterPathContains (path : List Nat) (hop : Nat) : Bool := hop != 0 && path.contains hop

def hasAnon (r : Route) : Bool := r.path.contains kMoQClusterAnonHopId

/-- The lexicographic comparison: a path without 0, the lower cost, the shorter path, the newer one. -/
def betterRoute (a b : Route) : Bool :=
  if hasAnon a = hasAnon b then
    if a.cost = b.cost then
      if a.path.length = b.path.length then decide (b.seq < a.seq)
      else decide (a.path.length < b.path.length)
    else decide (a.cost < b.cost)
  else hasAnon b

/-- The best eligible route. -/
def selectRoute (routes : List Route) (eligible : Route → Bool) : Option Route :=
  routes.foldl (fun best route =>
    if eligible route && best.all (betterRoute route) then some route else best) none

def findRoute (routes : List Route) (session : SessionRef) : Option Route :=
  routes.find? fun r => r.session == session

structure RouteExclusion where
  session : Option SessionRef := none
  hop : Nat := kMoQClusterAnonHopId

def findPublisherSession (tree : NamespaceTree) (ns : TrackNamespace) (exclusion : RouteExclusion) :
    Option SessionRef := do
  let key ← tree.findRouteNode ns
  let route ← selectRoute (tree.node key).routes fun r =>
    exclusion.session.all (r.session != ·) && !clusterPathContains r.path exclusion.hop
  return route.session

/-- One advertisement keeps its first hop, even the anonymous one. -/
def sameOrigin (a b : List Nat) : Bool :=
  match a, b with
  | x :: _, y :: _ => x == y
  | _, _ => false

/-- A new path and cost; a new origin starts a new generation. -/
def reviseRoute (route : Route) (path : List Nat) (cost : Nat) (nextRouteSeq : Nat) : Route :=
  { route with
    path := path, cost := cost, seq := if sameOrigin route.path path then route.seq else nextRouteSeq + 1 }

def updateFirst (p : Route → Bool) (f : Route → Route) : List Route → List Route
  | [] => []
  | r :: rs => if p r then f r :: rs else r :: updateFirst p f rs

/-- The first route with the property `named` is revised. With the session the caller has to drop the
    subscriptions of. -/
def revise (tree : NamespaceTree) (key : NodeKey) (named : Route → Bool) (change : Route → Route)
    (path : List Nat) (cost : Nat) : Option SessionRef × NamespaceTree :=
  let changed := tree.setNode key { tree.node key with
    routes := updateFirst named (fun r => reviseRoute (change r) path cost tree.nextRouteSeq)
      (tree.node key).routes }
  match ((tree.node key).routes.find? named).filter fun r => !sameOrigin r.path path with
  | none => (none, changed)
  | some route => (some route.session, { changed with nextRouteSeq := tree.nextRouteSeq + 1 })

structure SetPublisherResult where
  node : NodeKey
  subscribers : SessionSubscriberList
  replacedSession : Option SessionRef
  /-- The callback that was told of its cancellation. -/
  cancelled : Option Nat

/-- The route that a new one displaces: the session's own, or the other one that is not from a
    cluster. -/
def displaces (session : SessionRef) (fromCluster : Bool) (r : Route) : Bool :=
  r.session == session || (!fromCluster && !r.fromCluster)

/-- A NAMESPACE, the only announcement without a callback, repeated by its session. -/
def repeatsNamespace (session : SessionRef) (callback : Option Nat) (fromCluster : Bool) (existing : Route) :
    Bool :=
  existing.session == session && fromCluster && existing.callback.isNone && callback.isNone

def setPublisher (tree : NamespaceTree) (ns : TrackNamespace) (session : SessionRef)
    (callback : Option Nat) (peerID : Bytes) (requestID : Nat) (relayHopPath : List Nat)
    (routeCost : Nat) (fromCluster : Bool) : Option (SetPublisherResult × NamespaceTree) := do
  let (key, above, tree) ← tree.findNode ns true
  let subscribers := above ++ tree.subscriberList key
  let existing := (tree.node key).routes.find? (displaces session fromCluster)
  if existing.any (repeatsNamespace session callback fromCluster) then
    let (replaced, tree) := tree.revise key (displaces session fromCluster)
      (fun r => { r with peerID := peerID }) relayHopPath routeCost
    return (⟨key, subscribers, replaced, none⟩, tree)
  else
    let route : Route :=
      { session := session, callback := callback, peerID := peerID, requestID := requestID,
        path := relayHopPath, cost := routeCost, seq := tree.nextRouteSeq + 1, fromCluster := fromCluster }
    let tree := { tree with nextRouteSeq := tree.nextRouteSeq + 1 }
    return (⟨key, subscribers, existing.map (·.session), existing.bind (·.callback)⟩,
      tree.withGuard key fun n =>
        { n with routes := n.routes.eraseP (displaces session fromCluster) ++ [route] })

inductive Error where
  | nodeNotFound
  | notOwner
  | notSubscribed
  deriving DecidableEq

def updateRoute (tree : NamespaceTree) (ns : TrackNamespace) (session : SessionRef) (requestID : Nat)
    (path : List Nat) (cost : Nat) : Except Error (SetPublisherResult × NamespaceTree) :=
  match tree.findNode ns false with
  | none => .error .nodeNotFound
  | some (key, above, _) =>
    let named : Route → Bool := fun r => r.session == session && r.requestID == requestID
    if (tree.node key).routes.any named then
      let (replaced, changed) := tree.revise key named id path cost
      .ok (⟨key, above ++ tree.subscriberList key, replaced, none⟩, changed)
    else .error .notOwner

structure UnpublishNamespaceResult where
  node : NodeKey
  subscribers : SessionSubscriberList
  removed : Route

def unpublishNamespace (tree : NamespaceTree) (ns : TrackNamespace) (session : SessionRef)
    (requestID : Option Nat) : Except Error (UnpublishNamespaceResult × NamespaceTree) :=
  match tree.findNode ns false with
  | none => .error .nodeNotFound
  | some (key, above, _) =>
    let named : Route → Bool := fun r => r.session == session && requestID.all (r.requestID == ·)
    match (tree.node key).routes.find? named with
    | none => .error .notOwner
    | some removed =>
      .ok (⟨key, above ++ tree.subscriberList key, { removed with callback := none }⟩,
        tree.withGuard key fun n => { n with routes := n.routes.eraseP named })

/-! ## 5. Tracks -/

def unpublishTrack (tree : NamespaceTree) (ns : TrackNamespace) (trackName : Bytes) :
    Except Error NamespaceTree :=
  match tree.findNode ns false with
  | none => .error .nodeNotFound
  | some (key, _, _) => .ok (tree.withGuard key fun n => { n with publishes := n.publishes.erase trackName })

structure AddPublishResult where
  node : NodeKey
  subscribers : SessionSubscriberList
  /-- The rankings `onRanking` is called with, from the node up to the root. -/
  rankings : List (Nat × RankingRef)

def rankingsUp (tree : NamespaceTree) : NodeKey → List (Nat × RankingRef)
  | [] => (tree.node []).rankings.entries.map fun e => (e.1, e.2)
  | name :: up => ((tree.node (name :: up)).rankings.entries.map fun e => (e.1, e.2)) ++ tree.rankingsUp up

def addPublish (tree : NamespaceTree) (ftn : FullTrackName) (session : SessionRef) :
    Option (AddPublishResult × NamespaceTree) := do
  let (key, above, tree) ← tree.findNode ftn.trackNamespace true
  let subscribers := above ++ tree.subscriberList key
  let tree := tree.withGuard key fun n => { n with publishes := n.publishes.insert ftn.trackName session }
  return (⟨key, subscribers, tree.rankingsUp key⟩, tree)

/-! ## 6. Subscribers -/

def addNamespaceSubscriber (tree : NamespaceTree) (ns : TrackNamespace) (session : SessionRef)
    (info : NamespaceSubscriberInfo) : Option (NodeKey × NamespaceTree) := do
  let (key, _, tree) ← tree.findNode ns true
  return (key, tree.withGuard key fun n =>
    if (n.subscribers.lookup session).isSome then n
    else { n with subscribers := n.subscribers.insert session info })

/-- Whether the walk from `key` down the children comes to `k`. -/
def inSubtree (tree : NamespaceTree) (key : NodeKey) : NodeKey → Bool
  | [] => key == []
  | name :: up => key == name :: up || (decide (name ∈ (tree.node up).children) && tree.inSubtree key up)

/-- What was told to a subscription is forgotten in its whole subtree. -/
def forgetAdvertisements (tree : NamespaceTree) (key : NodeKey) (adKey : AdvertisementKey) : NamespaceTree :=
  { tree with node := fun k =>
      if tree.inSubtree key k then
        { tree.node k with advertisements := (tree.node k).advertisements.erase adKey }
      else tree.node k }

/-- With the ranking the session is taken out of, and the size of the group, if its subscription had a
    filter. -/
def removeNamespaceSubscriber (tree : NamespaceTree) (ns : TrackNamespace) (session : SessionRef) :
    Except Error (Option (RankingRef × Nat) × NamespaceTree) :=
  match tree.findNode ns false with
  | none => .error .nodeNotFound
  | some (key, _, _) =>
    match (tree.node key).subscribers.lookup session with
    | none => .error .notSubscribed
    | some info =>
      let left := info.trackFilter.bind fun f =>
        ((tree.node key).rankings.lookup f.propertyType).map fun r => (r, f.maxSelected)
      .ok (left, (tree.forgetAdvertisements key (session, ns.length)).withGuard key fun n =>
        { n with subscribers := n.subscribers.erase session })

/-! ## 7. Runs -/

inductive Op where
  | setPublisher (ns : TrackNamespace) (session : SessionRef) (callback : Option Nat) (peerID : Bytes)
      (requestID : Nat) (relayHopPath : List Nat) (routeCost : Nat) (fromCluster : Bool)
  | updateRoute (ns : TrackNamespace) (session : SessionRef) (requestID : Nat) (path : List Nat) (cost : Nat)
  | unpublishNamespace (ns : TrackNamespace) (session : SessionRef) (requestID : Option Nat)
  | addPublish (ftn : FullTrackName) (session : SessionRef)
  | unpublishTrack (ns : TrackNamespace) (trackName : Bytes)
  | addNamespaceSubscriber (ns : TrackNamespace) (session : SessionRef) (info : NamespaceSubscriberInfo)
  | removeNamespaceSubscriber (ns : TrackNamespace) (session : SessionRef)

/-- The tree after a fallible call: a failed call leaves it as it was. -/
def afterCall {ε α : Type} (tree : NamespaceTree) (result : Except ε (α × NamespaceTree)) : NamespaceTree :=
  match result with
  | .ok (_, tree) => tree
  | .error _ => tree

def step (tree : NamespaceTree) : Op → NamespaceTree
  | .setPublisher ns session callback peerID requestID relayHopPath routeCost fromCluster =>
    ((tree.setPublisher ns session callback peerID requestID relayHopPath routeCost fromCluster).map
      (·.2)).getD tree
  | .updateRoute ns session requestID path cost =>
    tree.afterCall (tree.updateRoute ns session requestID path cost)
  | .unpublishNamespace ns session requestID => tree.afterCall (tree.unpublishNamespace ns session requestID)
  | .addPublish ftn session => ((tree.addPublish ftn session).map (·.2)).getD tree
  | .unpublishTrack ns trackName => ((tree.unpublishTrack ns trackName).toOption).getD tree
  | .addNamespaceSubscriber ns session info =>
    ((tree.addNamespaceSubscriber ns session info).map (·.2)).getD tree
  | .removeNamespaceSubscriber ns session => tree.afterCall (tree.removeNamespaceSubscriber ns session)

def run (ops : List Op) : NamespaceTree := ops.foldl step {}

end NamespaceTree

end Moqx

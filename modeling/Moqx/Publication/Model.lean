/-
  Subject: PUBLISHERS OF ONE TRACK, one after the other, and what the relay keeps of the last one.

  * `Relay` -- the subscription registry, the namespace tree, the rankings and all chains built so far;
  * `publishWithSession` -- a PUBLISH, which replaces the entry of an earlier one;
  * `Event`, `step`, `runFrom` -- a chain and its forwarder may report at any time, also after a replacement.

  The cache and the subscribers a publication is sent to are left out: they change none of this.
-/
import Moqx.Subscription.Own
import Moqx.TopN.Model

namespace Moqx.Publication

inductive Mode where
  | singleThread
  | relayExec
  | localForwarder
  deriving DecidableEq, Repr

structure PublishRequest where
  ftn : FullTrackName
  session : SessionRef
  requestID : Nat
  handle : Nat
  publisher : Nat
  extensions : Extensions

/-- The filter chain of one PUBLISH; its forwarder has the chain's number. -/
structure Chain where
  ftn : FullTrackName
  session : SessionRef
  topNFilter : TopNFilter := {}

structure Relay where
  registry : SubscriptionRegistry := {}
  tree : NamespaceTree := {}
  ranking : RankingRef → PropertyRanking := fun _ =>
    { maxDeselected := 0, idleTimeout := 0, sweepThrottle := 0 }
  chains : List Chain := []

inductive Effect where
  | unsubscribe (handle : Nat)
  /-- `publishDone` on a forwarder: in `localForwarder` mode the chain of that forwarder is one of its
      subscribers. -/
  | drain (forwarder : ForwarderRef)
  | forwardFalse (handle : Nat)
  deriving DecidableEq, Repr

namespace Relay

def modifyRanking (relay : Relay) (ref : RankingRef) (f : PropertyRanking → PropertyRanking) : Relay :=
  { relay with ranking := Function.update relay.ranking ref (f (relay.ranking ref)) }

/-! ## 1. A PUBLISH -/

/-- The callback of `addPublish`, for one ranking on the path. -/
def onRanking (pub : PublishRequest) (s : Relay × TopNFilter) (r : Nat × RankingRef) : Relay × TopNFilter :=
  (s.1.modifyRanking r.2 fun ranking =>
    (ranking.registerTrack pub.ftn (pub.extensions.getIntExtension r.1) pub.session).1,
    s.2.registerObserver r.1 r.2)

def forwarderRef (mode : Mode) (forwarder : Nat) : ForwarderRef :=
  if mode = .localForwarder then .remote forwarder else .owned forwarder

/-- The old publisher is unsubscribed from and its forwarder drained, if it has not ended before. -/
def evict : Option Evicted → List Effect
  | none => []
  | some evicted =>
    match evicted.handle with
    | none => []
    | some handle => [.unsubscribe handle, .drain evicted.forwarder]

def publishWithSession (mode : Mode) (relay : Relay) (pub : PublishRequest) : Relay × List Effect :=
  let chain := relay.chains.length
  let entry := relay.registry.createFromPublish chain pub.ftn
    { forwarder := forwarderRef mode chain
      session := pub.session
      publisher := pub.publisher
      requestID := pub.requestID
      handle := some pub.handle }
  let relay := { relay with registry := entry.1 }
  match relay.tree.addPublish pub.ftn pub.session with
  | none => (relay, evict entry.2)
  | some (result, tree) =>
    let registered := result.rankings.foldl (onRanking pub) ({ relay with tree }, {})
    ({ registered.1 with chains := relay.chains ++ [⟨pub.ftn, pub.session, registered.2⟩] }, evict entry.2)

/-! ## 2. The end of a source -/

/-- `onTrackEnded` of every observer of a chain. -/
def notifyTrackEnded (relay : Relay) (chain : Chain) : Relay :=
  chain.topNFilter.observers.entries.foldl
    (fun relay e => relay.modifyRanking e.2.observer fun r => (r.removeTrack chain.ftn).1) relay

/-- `empty` is what the forwarder of the entry answers. -/
def onPublishDone (mode : Mode) (relay : Relay) (ftn : FullTrackName) (empty : Bool) : Option Relay :=
  let tree :=
    match relay.registry.find ftn with
    | some entry =>
      if entry.isPublish then relay.tree.step (.unpublishTrack ftn.trackNamespace ftn.trackName) else relay.tree
    | none => relay.tree
  if mode = .localForwarder then some { relay with registry := relay.registry.remove ftn, tree }
  else (relay.registry.onPublisherTerminated ftn empty).map fun r => { relay with registry := r.1, tree }

/-- The source's `publishDone` goes through the chain: the rankings first, then the relay. -/
def publishDone (mode : Mode) (relay : Relay) (chain : Chain) (empty : Bool) : Option Relay :=
  (relay.notifyTrackEnded chain).onPublishDone mode chain.ftn empty

/-- `none`: the check for the publisher's executor fails. -/
def onEmptyImpl (relay : Relay) (ftn : FullTrackName) : Option (Relay × List Effect) :=
  match relay.registry.find ftn with
  | none => some (relay, [])
  | some entry =>
    match entry.handle with
    | none => some ({ relay with registry := relay.registry.remove ftn }, [])
    | some handle =>
      if entry.upstream.isNone then none
      else if entry.isPublish then some (relay, [.forwardFalse handle])
      else some ({ relay with registry := relay.registry.remove ftn }, [.unsubscribe handle])

end Relay

/-! ## 3. Events -/

inductive Event where
  | publish (pub : PublishRequest)
  | publishDone (chain : Nat) (empty : Bool)
  | trackEnded (chain : Nat)
  | forwarderEmpty (chain : Nat)

namespace Relay

/-- One event; `none` where a check stops the process. -/
def step (mode : Mode) (relay : Relay) : Event → Option (Relay × List Effect)
  | .publish pub => some (relay.publishWithSession mode pub)
  | .publishDone chain empty =>
    match relay.chains[chain]? with
    | none => some (relay, [])
    | some c => (relay.publishDone mode c empty).map fun relay => (relay, [])
  | .trackEnded chain =>
    match relay.chains[chain]? with
    | none => some (relay, [])
    | some c => some (relay.notifyTrackEnded c, [])
  | .forwarderEmpty chain =>
    match relay.chains[chain]? with
    | none => some (relay, [])
    | some c => relay.onEmptyImpl c.ftn

def runFrom (mode : Mode) (relay : Relay) : List Event → Option Relay
  | [] => some relay
  | event :: events => (relay.step mode event).bind fun r => runFrom mode r.1 events

end Relay

end Moqx.Publication

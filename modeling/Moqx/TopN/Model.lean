/-
  Subject: The filter that reads the properties of a track's objects, and the rankings it feeds.

  * `TopNFilter` -- the observers of a track, by property type;
  * `RankingRelay` -- the tree, the rankings that hang on its nodes and the filters of the tracks;
  * `checkProperties`, `notifyTrackEnded` -- what the filter tells its observers.

  What a ranking tells the relay in its turn, to forward a track or to stop, changes no ranking and is
  left out.
-/
import Moqx.Namespace.Tree
import Moqx.Ranking.Model

namespace Moqx

/-! ## 1. The filter of a track -/

/-- The observer of a property: the ranking its callbacks belong to, which are `updateSortValue`,
    `removeTrack` and `sweepIdle`. -/
structure ObserverEntry where
  lastSeenValue : Option Nat
  observer : RankingRef
  deriving DecidableEq

structure TopNFilter where
  observers : AList (fun _ : Nat => ObserverEntry) := ∅
  ended : Bool := false
  /-- The time `activityTarget_` points at, `lastObjectTime` of the track's subscription. -/
  activityTarget : Option TimePoint := none
  /-- In milliseconds. -/
  activityThreshold : Int := 0
  lastActivityNotify : Option TimePoint := none

/-- A second observer for the same type overwrites the first. -/
def TopNFilter.registerObserver (f : TopNFilter) (propertyType : Nat) (observer : RankingRef) : TopNFilter :=
  { f with observers := f.observers.insert propertyType ⟨none, observer⟩ }

def TopNFilter.activityThrottleAllows (f : TopNFilter) (now : TimePoint) : Bool :=
  decide (0 < f.activityThreshold) && f.lastActivityNotify.all fun last =>
    decide (int64 (f.activityThreshold * 1000000) ≤ int64 (now - last))

/-! ## 2. The rankings -/

structure RankingConfig where
  maxDeselected : Nat
  idleTimeout : Int
  activityThreshold : Int

structure RankingRelay where
  tree : NamespaceTree := {}
  /-- The rankings, by their addresses, and what each ranks by. -/
  ranking : RankingRef → PropertyRanking := fun _ =>
    { maxDeselected := 0, idleTimeout := 0, sweepThrottle := 0 }
  propertyType : RankingRef → Nat := fun _ => 0
  nextRanking : RankingRef := 0
  /-- The filter of a track, from its PUBLISH on. -/
  topNFilter : FullTrackName → Option TopNFilter := fun _ => none

namespace RankingRelay

def modifyRanking (relay : RankingRelay) (ref : RankingRef) (f : PropertyRanking → PropertyRanking) :
    RankingRelay :=
  { relay with ranking := Function.update relay.ranking ref (f (relay.ranking ref)) }

def modifyFilter (relay : RankingRelay) (ftn : FullTrackName) (f : TopNFilter → TopNFilter) : RankingRelay :=
  { relay with topNFilter := Function.update relay.topNFilter ftn ((relay.topNFilter ftn).map f) }

def observerFor (relay : RankingRelay) (ftn : FullTrackName) (propertyType : Nat) : Option ObserverEntry :=
  (relay.topNFilter ftn).bind (·.observers.lookup propertyType)

/-- What a ranking reads when it sweeps: the clock, and `lastObjectTime` of the tracks. -/
def activity (relay : RankingRelay) (now : TimePoint) : PropertyRanking.Activity where
  now := now
  getLastActivity := some fun ftn => ((relay.topNFilter ftn).bind (·.activityTarget)).getD 0

/-- The property of an observer is there: the activity time, and `onValueChanged` for a new value. -/
def noteValue (relay : RankingRelay) (ftn : FullTrackName) (propertyType : Nat) (entry : ObserverEntry)
    (value : Nat) (now : TimePoint) : RankingRelay :=
  let relay := relay.modifyFilter ftn fun f => { f with activityTarget := f.activityTarget.map fun _ => now }
  if entry.lastSeenValue = some value then relay
  else
    let relay := relay.modifyFilter ftn fun f =>
      { f with observers := f.observers.insert propertyType { entry with lastSeenValue := some value } }
    relay.modifyRanking entry.observer fun r => (r.updateSortValue ftn value (relay.activity now)).1

/-- One observer in the loop of `checkProperties`, with `firedAnyActivity`. -/
def checkProperty (ftn : FullTrackName) (extensions : Extensions) (now : TimePoint)
    (activityThrottleAllows : Bool) (s : RankingRelay × Bool) (propertyType : Nat) : RankingRelay × Bool :=
  match s.1.observerFor ftn propertyType, extensions.getIntExtension propertyType with
  | some entry, some value =>
    let relay := s.1.noteValue ftn propertyType entry value now
    if activityThrottleAllows then
      (relay.modifyRanking entry.observer fun r => (r.sweepIdle (relay.activity now)).1, true)
    else (relay, s.2)
  | _, _ => s

/-- The properties of an object, before it is forwarded. -/
def checkProperties (relay : RankingRelay) (ftn : FullTrackName) (extensions : Extensions) (now : TimePoint) :
    RankingRelay :=
  match relay.topNFilter ftn with
  | none => relay
  | some filter =>
    let checked := filter.observers.keys.foldl
      (checkProperty ftn extensions now (filter.activityThrottleAllows now)) (relay, false)
    if checked.2 then checked.1.modifyFilter ftn fun f => { f with lastActivityNotify := some now }
    else checked.1

def notifyTrackEnded (relay : RankingRelay) (ftn : FullTrackName) : RankingRelay :=
  match relay.topNFilter ftn with
  | none => relay
  | some filter => filter.observers.entries.foldl
      (fun relay e => relay.modifyRanking e.2.observer fun r => (r.removeTrack ftn).1) relay

/-- The filter's `publishDone`, and `onPublishDone` behind it. `kept` says that the subscription of the
    track stays, for its subscribers; else `lastObjectTime` goes with it. -/
def publishDone (relay : RankingRelay) (ftn : FullTrackName) (kept : Bool) : RankingRelay :=
  let relay := (relay.modifyFilter ftn fun f => { f with ended := true }).notifyTrackEnded ftn
  let relay := { relay with
    tree := ((relay.tree.unpublishTrack ftn.trackNamespace ftn.trackName).toOption).getD relay.tree }
  if kept then relay else relay.modifyFilter ftn fun f => { f with activityTarget := none }

/-- The callback of `addPublish` for one ranking on the path. -/
def onRanking (ftn : FullTrackName) (session : SessionRef) (extensions : Extensions) (relay : RankingRelay)
    (r : Nat × RankingRef) : RankingRelay :=
  (relay.modifyRanking r.2 fun ranking =>
    (ranking.registerTrack ftn (extensions.getIntExtension r.1) session).1).modifyFilter ftn
      (·.registerObserver r.1 r.2)

/-- A PUBLISH: a new filter for the track, and every ranking on the path is told. -/
def publish (cfg : RankingConfig) (relay : RankingRelay) (ftn : FullTrackName) (session : SessionRef)
    (extensions : Extensions) (now : TimePoint) : RankingRelay :=
  match relay.tree.addPublish ftn session with
  | none => relay
  | some (result, tree) =>
    let filter : TopNFilter := { activityTarget := some now, activityThreshold := cfg.activityThreshold }
    result.rankings.foldl (onRanking ftn session extensions)
      { relay with tree := tree, topNFilter := Function.update relay.topNFilter ftn (some filter) }

/-- A track that was published before a ranking came. -/
structure RetroTrack where
  ftn : FullTrackName
  publishSession : SessionRef
  initialPropertyValue : Option Nat
  deriving DecidableEq

def newRanking (cfg : RankingConfig) : PropertyRanking where
  maxDeselected := cfg.maxDeselected
  idleTimeout := cfg.idleTimeout
  sweepThrottle := 0

/-- `retroTracks` are the tracks of the node and its descendants, as the walk comes to them. -/
def getOrCreateRanking (cfg : RankingConfig) (relay : RankingRelay) (key : NodeKey) (propertyType : Nat)
    (retroTracks : List RetroTrack) : RankingRelay × RankingRef :=
  match (relay.tree.node key).rankings.lookup propertyType with
  | some ref => (relay, ref)
  | none =>
    let ref := relay.nextRanking
    let node := relay.tree.node key
    let relay : RankingRelay :=
      { relay with
        tree := relay.tree.setNode key { node with rankings := node.rankings.insert propertyType ref }
        ranking := Function.update relay.ranking ref (newRanking cfg)
        propertyType := Function.update relay.propertyType ref propertyType
        nextRanking := ref + 1 }
    let relay := retroTracks.foldl
      (fun relay t => relay.modifyFilter t.ftn (·.registerObserver propertyType ref)) relay
    (retroTracks.foldl
      (fun relay t => relay.modifyRanking ref fun r =>
        (r.registerTrack t.ftn t.initialPropertyValue t.publishSession).1) relay, ref)

/-- A SUBSCRIBE_NAMESPACE, with a TRACK_FILTER or without. -/
def subscribeNamespace (cfg : RankingConfig) (relay : RankingRelay) (ns : TrackNamespace)
    (session : SessionRef) (info : NamespaceSubscriberInfo) (retroTracks : List RetroTrack) : RankingRelay :=
  match relay.tree.addNamespaceSubscriber ns session info with
  | none => relay
  | some (key, tree) =>
    match info.trackFilter with
    | none => { relay with tree := tree }
    | some f =>
      let created := getOrCreateRanking cfg { relay with tree := tree } key f.propertyType retroTracks
      created.1.modifyRanking created.2 fun r => (r.addSessionToTopNGroup f.maxSelected session info.forward).1

def unsubscribeNamespace (relay : RankingRelay) (ns : TrackNamespace) (session : SessionRef) : RankingRelay :=
  match relay.tree.removeNamespaceSubscriber ns session with
  | .error _ => relay
  | .ok (none, tree) => { relay with tree := tree }
  | .ok (some (ref, maxSelected), tree) =>
    { relay with tree := tree }.modifyRanking ref fun r => r.removeSessionFromTopNGroup maxSelected session

/-! ## 3. Events -/

inductive Event where
  | publish (ftn : FullTrackName) (session : SessionRef) (extensions : Extensions) (now : TimePoint)
  | object (ftn : FullTrackName) (extensions : Extensions) (now : TimePoint)
  | publishDone (ftn : FullTrackName) (kept : Bool)
  | subscribeNamespace (ns : TrackNamespace) (session : SessionRef) (info : NamespaceSubscriberInfo)
      (retroTracks : List RetroTrack)
  | unsubscribeNamespace (ns : TrackNamespace) (session : SessionRef)
  /-- Another call on the tree. -/
  | tree (op : NamespaceTree.Op)

def step (cfg : RankingConfig) (relay : RankingRelay) : Event → RankingRelay
  | .publish ftn session extensions now => relay.publish cfg ftn session extensions now
  | .object ftn extensions now => relay.checkProperties ftn extensions now
  | .publishDone ftn kept => relay.publishDone ftn kept
  | .subscribeNamespace ns session info retroTracks => relay.subscribeNamespace cfg ns session info retroTracks
  | .unsubscribeNamespace ns session => relay.unsubscribeNamespace ns session
  | .tree op => { relay with tree := relay.tree.step op }

end RankingRelay

end Moqx

/-
  Subject: Live writers: a subscription's writeback and the writebacks of its subgroups.

  A writeback caches what passes through it and hands it on to its own consumer. The model keeps what
  it does to the cache; what it hands on is the call it was given.

  * `SubgroupWriteback` -- `object`, `beginObject`, `objectPayload`, `endOfGroup`,
    `endOfTrackAndGroup`, and its end;
  * `SubscribeWriteback` -- `beginSubgroup`, `objectStream`, `datagram`, and its end;
  * `getSubscribeWriteback`, `setTrackState` -- tracks by name.
-/
import Moqx.Cache.Write

namespace Moqx

/-- A call is handed on to the writeback's consumer, or refused, or has failed a check that stops the
    process. -/
inductive Outcome where
  | forwarded
  | rejected (e : MoQPublishError)
  | aborted
  deriving DecidableEq, Repr

def Outcome.ofReply : Reply → Outcome
  | .ok () => .forwarded
  | .error e => .rejected e

/-- Every position of the group is a known gap. -/
def isGroupNonExistent (gaps : LocationIntervalSet) (groupID : Nat) : Bool :=
  (gaps.findIntervalEnd ⟨groupID, 0⟩).any fun e =>
    decide (groupID < e.group ∨ e.group = groupID ∧ e.object = kLocationMax.object)

/-! ## 1. Subgroups -/

structure SubgroupWriteback where
  group : Nat
  subgroup : Nat
  track : TrackRef
  cacheGroup : GroupRef
  ftn : FullTrackName
  currentObject : Nat := 0
  /-- The length of the current object. -/
  currentLength : Nat := 0
  /-- How much of it has been received. -/
  currentOffset : Nat := 0
  /-- Decided when the object begins. -/
  cachingCurrentObject : Bool := false

namespace SubgroupWriteback

def write (w : SubgroupWriteback) (objectID : Nat) (status : ObjectStatus) (extensions : Extensions)
    (payload : Payload) (complete : Bool) (now : TimePoint) (offset : Nat) : ObjectWrite where
  groupID := w.group
  subgroup := w.subgroup
  objectID := objectID
  status := status
  extensions := extensions
  payload := payload
  complete := complete
  forwardingPreferenceIsDatagram := false
  now := now
  offset := offset

def cacheWhole (c : MoqxCache) (w : SubgroupWriteback) (objectID : Nat) (status : ObjectStatus)
    (extensions : Extensions) (payload : Payload) (now : TimePoint) : Outcome × MoqxCache :=
  if (c.track w.track).shouldSkipCaching then (.forwarded, c)
  else
    match (c.track w.track).updateLargest ⟨w.group, objectID⟩ (isEndOfTrack status) with
    | .error e => (.rejected e, c)
    | .ok tr =>
      let res := (c.setTrack w.track tr).cacheObjectAndUpdateBytes w.cacheGroup w.track
        (w.write objectID status extensions payload true now 0)
      (.ofReply res.1, res.2)

def object (c : MoqxCache) (w : SubgroupWriteback) (objID : Nat) (payload : Payload) (ext : Extensions)
    (now : TimePoint) : Outcome × MoqxCache :=
  w.cacheWhole c objID .normal ext payload now

def endOfGroup (c : MoqxCache) (w : SubgroupWriteback) (endOfGroupObjectID : Nat) (now : TimePoint) :
    Outcome × MoqxCache :=
  w.cacheWhole c endOfGroupObjectID .endOfGroup noExtensions none now

def endOfTrackAndGroup (c : MoqxCache) (w : SubgroupWriteback) (endOfTrackObjectID : Nat)
    (now : TimePoint) : Outcome × MoqxCache :=
  w.cacheWhole c endOfTrackObjectID .endOfTrack noExtensions none now

def beginObject (c : MoqxCache) (w : SubgroupWriteback) (objectID length : Nat)
    (initialPayload : Payload) (extensions : Extensions) (now : TimePoint) :
    Outcome × MoqxCache × SubgroupWriteback :=
  let w := { w with cachingCurrentObject := !(c.track w.track).shouldSkipCaching }
  if !w.cachingCurrentObject then (.forwarded, c, w)
  else
    match (c.track w.track).updateLargest ⟨w.group, objectID⟩ false with
    | .error e => (.rejected e, c, w)
    | .ok tr =>
      let c := c.setTrack w.track tr
      let initBytes := initialPayload.length
      if length < initBytes then (.aborted, c, w)
      else
        match c.cacheObjectAndUpdateBytes w.cacheGroup w.track
          (w.write objectID .normal extensions initialPayload (initBytes == length) now 0) with
        | (.error e, c) => (.rejected e, c, w)
        | (.ok (), c) =>
          (.forwarded, c,
            { w with currentObject := objectID, currentLength := length, currentOffset := initBytes })

/-- A change of the cache duration applies from the next object on, an eviction at once. The payload
    is dereferenced, so it is not null. -/
def objectPayload (c : MoqxCache) (w : SubgroupWriteback) (payload : Bytes) (now : TimePoint) :
    Outcome × MoqxCache × SubgroupWriteback :=
  if !w.cachingCurrentObject || (c.track w.track).evicted then (.forwarded, c, w)
  else
    let addedBytes := payload.length
    if w.currentLength < w.currentOffset + addedBytes then
      (.rejected ⟨.malformedTrack, "Payload past object length"⟩, c, w)
    else
      match c.cacheObjectAndUpdateBytes w.cacheGroup w.track
        (w.write w.currentObject .normal noExtensions (some payload)
          (w.currentOffset + addedBytes == w.currentLength) now w.currentOffset) with
      | (.error e, c) => (.rejected e, c, w)
      | (.ok (), c) => (.forwarded, c, { w with currentOffset := w.currentOffset + addedBytes })

/-- The destructor. -/
def close (c : MoqxCache) (w : SubgroupWriteback) : MoqxCache :=
  c.unpinGroup w.ftn w.group w.cacheGroup w.track

end SubgroupWriteback

/-! ## 2. Subscriptions -/

structure ObjectHeader where
  group : Nat
  subgroup : Nat
  id : Nat
  status : ObjectStatus
  extensions : Extensions

structure SubscribeWriteback where
  track : TrackRef
  ftn : FullTrackName

namespace SubscribeWriteback

/-- The constructor: the track is live, and no longer evictable. -/
def «open» (c : MoqxCache) (w : SubscribeWriteback) : MoqxCache :=
  let c := c.removeTrackFromLRU w.track
  c.setTrack w.track
    { c.track w.track with liveWritebackCount := (c.track w.track).liveWritebackCount + 1 }

/-- The destructor; the source checks the count. -/
def close (c : MoqxCache) (w : SubscribeWriteback) : MoqxCache :=
  let count := (c.track w.track).liveWritebackCount
  MoqxCache.onTrackBecameEvictable
    { c.setTrack w.track { c.track w.track with liveWritebackCount := count - 1 } with
      underflow := c.underflow || count == 0 } w.ftn

/-- `accepted` is the answer of the subscription's own consumer. Without caching its consumer is used
    as it is, and there is no writeback. -/
def beginSubgroup (c : MoqxCache) (w : SubscribeWriteback) (groupID subgroupID : Nat) (accepted : Bool) :
    Outcome × MoqxCache × Option SubgroupWriteback :=
  if isGroupNonExistent (c.track w.track).gaps groupID then
    (.rejected ⟨.malformedTrack, "Invalid status change"⟩, c, none)
  else if accepted && !(c.track w.track).shouldSkipCaching then
    let (r, c) := c.getOrCreateGroupWithEviction w.track groupID w.ftn
    (.forwarded, c.pinGroup r w.track,
      some { group := groupID, subgroup := subgroupID, track := w.track, cacheGroup := r, ftn := w.ftn })
  else (.forwarded, c, none)

def cacheHeader (c : MoqxCache) (w : SubscribeWriteback) (header : ObjectHeader) (payload : Payload)
    (forwardingPreferenceIsDatagram : Bool) (now : TimePoint) : Outcome × MoqxCache :=
  if (c.track w.track).shouldSkipCaching then (.forwarded, c)
  else
    match (c.track w.track).updateLargest ⟨header.group, header.id⟩ (isEndOfTrack header.status) with
    | .error e => (.rejected e, c)
    | .ok tr =>
      let (r, c) := (c.setTrack w.track tr).getOrCreateGroupWithEviction w.track header.group w.ftn
      let res := c.cacheObjectAndUpdateBytes r w.track
        { groupID := header.group, subgroup := header.subgroup, objectID := header.id,
          status := header.status, extensions := header.extensions, payload := payload,
          complete := true, forwardingPreferenceIsDatagram := forwardingPreferenceIsDatagram, now := now }
      (.ofReply res.1, res.2)

def objectStream (c : MoqxCache) (w : SubscribeWriteback) (header : ObjectHeader) (payload : Payload)
    (now : TimePoint) : Outcome × MoqxCache :=
  w.cacheHeader c header payload false now

def datagram (c : MoqxCache) (w : SubscribeWriteback) (header : ObjectHeader) (payload : Payload)
    (now : TimePoint) : Outcome × MoqxCache :=
  w.cacheHeader c header payload true now

end SubscribeWriteback

/-! ## 3. Tracks by name -/

namespace MoqxCache

/-- A new track under a name the cache does not hold. -/
def addTrack (c : MoqxCache) (ftn : FullTrackName) : MoqxCache :=
  { c.setTrack c.nextTrack {} with
    cache := c.cache.insert ftn c.nextTrack
    nextTrack := c.nextTrack + 1 }

/-- The track of a name and the cache with it; a new one makes room first. -/
def findOrAddTrack (c : MoqxCache) (ftn : FullTrackName) : TrackRef × MoqxCache :=
  match c.cache.lookup ftn with
  | some t => (t, c)
  | none =>
    let c := if c.maxCachedTracks ≤ c.size then c.evictOldestTrackIfNeeded.2 else c
    (c.nextTrack, c.addTrack ftn)

def getSubscribeWriteback (c : MoqxCache) (ftn : FullTrackName) : MoqxCache × SubscribeWriteback :=
  let (t, c) := c.findOrAddTrack ftn
  (SubscribeWriteback.open c ⟨t, ftn⟩, ⟨t, ftn⟩)

def getOrCreateTrack (c : MoqxCache) (ftn : FullTrackName) : TrackRef × MoqxCache :=
  match c.cache.lookup ftn with
  | some t => (t, c)
  | none => (c.nextTrack, (c.addTrack ftn).addTrackToLRU ftn c.nextTrack)

def setMaxCacheDuration (c : MoqxCache) (ftn : FullTrackName) (duration : Int) : MoqxCache :=
  let (t, c) := c.getOrCreateTrack ftn
  c.setTrack t { c.track t with maxCacheDuration := some duration }

def clearMaxCacheDuration (c : MoqxCache) (ftn : FullTrackName) : MoqxCache :=
  match c.cache.lookup ftn with
  | some t => c.setTrack t { c.track t with maxCacheDuration := none }
  | none => c

/-- The publisher's duration, a signed 64-bit count of milliseconds, under the cap; else the default. -/
def getEffectiveCacheDuration (c : MoqxCache) (extensions : Extensions) : Option Int :=
  match extensions.getIntExtension kMaxCacheDurationExtensionType with
  | some ms =>
    match c.maxAllowedCacheDuration with
    | some cap => some (min (int64 ms) cap)
    | none => some (int64 ms)
  | none => c.defaultMaxCacheDuration

/-- The effective duration is set, or an earlier one cleared. -/
def applyCacheDuration (c : MoqxCache) (ftn : FullTrackName) : Option Int → MoqxCache
  | some dur => c.setMaxCacheDuration ftn dur
  | none => c.clearMaxCacheDuration ftn

/-- Sets a track's properties and, if there is one, its largest location; one past a known end of track
    is ignored. -/
def setTrackState (c : MoqxCache) (ftn : FullTrackName) (largest : Option AbsoluteLocation)
    (extensions : Extensions) : MoqxCache :=
  let c := c.applyCacheDuration ftn (c.getEffectiveCacheDuration extensions)
  let (t, c) := c.getOrCreateTrack ftn
  let c := c.setTrack t { c.track t with extensions := extensions }
  match largest with
  | none => c
  | some largest =>
    match (c.track t).updateLargest largest false with
    | .ok tr => c.setTrack t tr
    | .error _ => c

def setDefaultMaxCacheDuration (c : MoqxCache) (duration : Option Int) : MoqxCache :=
  { c with defaultMaxCacheDuration := duration }

def setMaxAllowedCacheDuration (c : MoqxCache) (duration : Option Int) : MoqxCache :=
  { c with maxAllowedCacheDuration := duration }

end MoqxCache

end Moqx

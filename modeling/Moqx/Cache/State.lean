/-
  Subject: The state of the object cache.

  Groups and tracks are reached through shared pointers: a writeback or a fetch keeps the group and
  the track it works on alive after the cache has dropped them. The model has a store for each
  (`MoqxCache.group`, `MoqxCache.track`, read at a `GroupRef` or a `TrackRef`); what the cache still
  holds is what `cache` and the `groups` of a track name.

  * `CacheEntry`, `CacheGroup`, `CacheTrack` -- one cached object, one group, one track;
  * `insertGap`, `forgetRange`, `enforceGapLimit`, `updateLargest`, `fetchOkEnd` -- the operations of
    a track that read nothing outside it;
  * `MoqxCache` -- the whole cache.

  The lists of least recently used tracks and groups hold each name at most once, so an iterator
  into one of them is written as the name it points at.
-/
import Mathlib.Logic.Function.Basic
import Moqx.Location
import Moqx.Types

namespace Moqx

/-- Cap on prior-gap validation scans. -/
def kMaxGapValidation : Nat := 100

/-- Cap on gap intervals per track, which the byte budget does not count. -/
def kMaxGapIntervalsPerTrack : Nat := 256

def kPriorGroupIdGapExtensionType : Nat := 0x3C

def kPriorObjectIdGapExtensionType : Nat := 0x3E

def kMaxCacheDurationExtensionType : Nat := 0x04

abbrev GroupRef := Nat

abbrev TrackRef := Nat

abbrev WritebackId := Nat

structure CacheEntry where
  subgroup : Nat
  status : ObjectStatus
  extensions : Extensions
  payload : Payload
  payloadSize : Nat
  complete : Bool
  forwardingPreferenceIsDatagram : Bool
  cachedAt : TimePoint

structure CacheGroup where
  objects : AList (fun _ : Nat => CacheEntry) := ∅
  maxCachedObject : Nat := 0
  endOfGroup : Bool := false
  seenPriorGroupIdGap : Option Nat := none
  totalBytes : Nat := 0
  pinCount : Nat := 0
  lruIter : Option Nat := none
  globalLruIter : Option (FullTrackName × Nat) := none

structure FetchInProgressEntry where
  «end» : AbsoluteLocation
  progress : AbsoluteLocation
  writeback : WritebackId

structure FetchOkEnd where
  endLocation : AbsoluteLocation
  endOfTrack : Bool

structure CacheTrack where
  groups : AList (fun _ : Nat => GroupRef) := ∅
  gaps : LocationIntervalSet := .empty
  cachedContent : LocationIntervalSet := .empty
  liveWritebackCount : Nat := 0
  endOfTrack : Bool := false
  largestGroupAndObject : Option AbsoluteLocation := none
  /-- Ascending by key, entries of one key in the order they were added. -/
  fetchesInProgress : List (AbsoluteLocation × FetchInProgressEntry) := []
  lruIter : Option FullTrackName := none
  /-- Evictable groups, the oldest last. -/
  groupLRU : List Nat := []
  /-- In milliseconds. -/
  maxCacheDuration : Option Int := none
  extensions : Extensions := noExtensions
  evicted : Bool := false
  lastWrite : TimePoint := 0

/-! ## 1. One track -/

namespace CacheTrack

def enforceGapLimitLoop : Nat → CacheTrack → CacheTrack
  | 0, t => t
  | fuel + 1, t =>
    if kMaxGapIntervalsPerTrack < t.gaps.size then
      match t.gaps.popFront with
      | (some lowest, gaps) =>
        enforceGapLimitLoop fuel
          { t with gaps := gaps, cachedContent := t.cachedContent.remove lowest.1 lowest.2 }
      | (none, _) => t
    else t

def enforceGapLimit (t : CacheTrack) : CacheTrack := enforceGapLimitLoop t.gaps.size t

/-- Record a known non-existent range, bounds included. -/
def insertGap (t : CacheTrack) (start «end» : AbsoluteLocation) : CacheTrack :=
  enforceGapLimit
    { t with gaps := t.gaps.insert start «end», cachedContent := t.cachedContent.insert start «end» }

def forgetRange (t : CacheTrack) (start «end» : AbsoluteLocation) : CacheTrack :=
  enforceGapLimit
    { t with gaps := t.gaps.remove start «end», cachedContent := t.cachedContent.remove start «end» }

def canEvict (t : CacheTrack) : Bool := t.liveWritebackCount == 0 && t.fetchesInProgress.isEmpty

/-- The newest group of a live track, where a late subscriber's joining fetch lands. -/
def isJoinPoint (t : CacheTrack) (groupID : Nat) : Bool :=
  decide (0 < t.liveWritebackCount) &&
    match t.largestGroupAndObject with
    | some largest => largest.group == groupID
    | none => false

/-- Objects are forwarded without caching. -/
def shouldSkipCaching (t : CacheTrack) : Bool := t.evicted || t.maxCacheDuration == some 0

def updateLargest (t : CacheTrack) (current : AbsoluteLocation) (eot : Bool) :
    Except MoQPublishError CacheTrack :=
  if t.largestGroupAndObject.all (· < current) then
    if t.endOfTrack then .error ⟨.malformedTrack, "Malformed track"⟩
    else .ok { t with endOfTrack := eot, largestGroupAndObject := some current }
  else if eot then
    if t.largestGroupAndObject ≠ some current then .error ⟨.malformedTrack, "Malformed track"⟩
    else .ok { t with endOfTrack := true }
  else .ok t

/-- The requested end, clamped to one past the track's largest object but never below `start`. -/
def fetchOkEnd (t : CacheTrack) (start exclusiveEnd : AbsoluteLocation) : FetchOkEnd :=
  match t.largestGroupAndObject with
  | none => ⟨exclusiveEnd, false⟩
  | some largest =>
    let trackEnd := largest.next.getD kLocationMax
    if exclusiveEnd < trackEnd then ⟨exclusiveEnd, false⟩
    else if trackEnd ≤ start then ⟨start, false⟩
    else if !t.endOfTrack && t.liveWritebackCount == 0 then ⟨exclusiveEnd, false⟩
    else ⟨trackEnd, t.endOfTrack⟩

/-- The unprocessed fetch covering a location: the entries at keys up to `loc`, last one first. -/
def findFetchInProgress (t : CacheTrack) (loc : AbsoluteLocation) : Option WritebackId :=
  ((t.fetchesInProgress.filter fun e => e.1 ≤ loc).reverse.find? fun e =>
    decide (loc < e.2.end ∧ e.2.progress ≤ loc)).map fun e => e.2.writeback

/-- `multimap::emplace`: after the entries with the same key. -/
def emplaceFetch (t : CacheTrack) (key : AbsoluteLocation) (entry : FetchInProgressEntry) :
    CacheTrack :=
  { t with fetchesInProgress :=
      t.fetchesInProgress.takeWhile (fun e => e.1 ≤ key) ++ (key, entry) ::
        t.fetchesInProgress.dropWhile (fun e => e.1 ≤ key) }

/-- Erase the entry of a writeback, which has at most one. -/
def eraseFetch (t : CacheTrack) (w : WritebackId) : CacheTrack :=
  { t with fetchesInProgress := t.fetchesInProgress.filter fun e => e.2.writeback != w }

end CacheTrack

/-! ## 2. The cache -/

structure MoqxCache where
  /-- The store of groups, the ones the cache has dropped included. -/
  group : GroupRef → CacheGroup
  nextGroup : GroupRef
  /-- The store of tracks. -/
  track : TrackRef → CacheTrack
  nextTrack : TrackRef
  cache : AList (fun _ : FullTrackName => TrackRef)
  /-- Evictable tracks, the oldest last. -/
  trackLRU : List FullTrackName
  /-- Evictable groups across all tracks, the oldest last. -/
  globalGroupLRU : List (FullTrackName × Nat)
  maxCachedTracks : Nat
  maxCachedGroupsPerTrack : Nat
  maxCachedBytes : Nat
  minEvictionBytes : Nat
  totalCachedBytes : Nat
  /-- In milliseconds. -/
  defaultMaxCacheDuration : Option Int
  /-- In milliseconds: a cap on what a publisher may ask for. -/
  maxAllowedCacheDuration : Option Int
  /-- A subtraction of the source has gone below zero, or a check of it has failed: one that guards a
      subtraction, or one of the lists of evictable groups. -/
  underflow : Bool

namespace MoqxCache

def init (maxCachedTracks maxCachedGroupsPerTrack maxCachedBytes minEvictionBytes : Nat) :
    MoqxCache where
  group := fun _ => {}
  nextGroup := 0
  track := fun _ => {}
  nextTrack := 0
  cache := ∅
  trackLRU := []
  globalGroupLRU := []
  maxCachedTracks := maxCachedTracks
  maxCachedGroupsPerTrack := maxCachedGroupsPerTrack
  maxCachedBytes := maxCachedBytes
  minEvictionBytes := minEvictionBytes
  totalCachedBytes := 0
  defaultMaxCacheDuration := none
  maxAllowedCacheDuration := none
  underflow := false

def setGroup (c : MoqxCache) (r : GroupRef) (g : CacheGroup) : MoqxCache :=
  { c with group := Function.update c.group r g }

def setTrack (c : MoqxCache) (t : TrackRef) (tr : CacheTrack) : MoqxCache :=
  { c with track := Function.update c.track t tr }

/-- `group->totalBytes -= bytes`. -/
def subGroupBytes (c : MoqxCache) (r : GroupRef) (bytes : Nat) : MoqxCache :=
  { c with
    group := Function.update c.group r { c.group r with totalBytes := (c.group r).totalBytes - bytes }
    underflow := c.underflow || decide ((c.group r).totalBytes < bytes) }

def eraseObject (c : MoqxCache) (r : GroupRef) (object : Nat) : MoqxCache :=
  c.setGroup r { c.group r with objects := (c.group r).objects.erase object }

/-- `totalCachedBytes_ -= bytes`. -/
def subBytes (c : MoqxCache) (bytes : Nat) : MoqxCache :=
  { c with
    totalCachedBytes := c.totalCachedBytes - bytes
    underflow := c.underflow || decide (c.totalCachedBytes < bytes) }

end MoqxCache

end Moqx

/-
  Subject: Pins, the lists of least recently used tracks and groups, and eviction.

  * `addTrackToLRU`, `removeTrackFromLRU`, `onTrackBecameEvictable` -- the tracks nothing works on;
  * `addGroupToLRU`, `removeGroupFromLRU`, `pinGroup`, `unpinGroup` -- the groups nothing writes;
  * `evictGroup`, `evictTrack`, `purge` -- eviction;
  * `evictOldestTrackIfNeeded`, `evictOldestGroupsIfNeeded`, `evictForByteLimitIfNeeded` -- the three
    limits.
-/
import Moqx.Cache.State

namespace Moqx

namespace MoqxCache

/-! ## 1. Evictable tracks -/

def addTrackToLRU (c : MoqxCache) (ftn : FullTrackName) (t : TrackRef) : MoqxCache :=
  if (c.track t).lruIter.isSome then c
  else { c with trackLRU := ftn :: c.trackLRU }.setTrack t { c.track t with lruIter := some ftn }

def removeTrackFromLRU (c : MoqxCache) (t : TrackRef) : MoqxCache :=
  match (c.track t).lruIter with
  | none => c
  | some ftn =>
    { c with trackLRU := c.trackLRU.erase ftn }.setTrack t { c.track t with lruIter := none }

def onTrackBecameEvictable (c : MoqxCache) (ftn : FullTrackName) : MoqxCache :=
  match c.cache.lookup ftn with
  | none => c
  | some t => if (c.track t).canEvict then c.addTrackToLRU ftn t else c

/-! ## 2. Evictable groups -/

/-- A writeback outlives the eviction of the group it was writing: a group the track no longer
    holds is not listed. A group that is listed already stays where it is. -/
def addGroupToLRU (c : MoqxCache) (ftn : FullTrackName) (groupID : Nat) (r : GroupRef)
    (t : TrackRef) : MoqxCache :=
  if (c.group r).lruIter.isSome then { c with underflow := true }
  else if (c.track t).evicted || (c.track t).groups.lookup groupID != some r then c
  else
    ({ c with globalGroupLRU := (ftn, groupID) :: c.globalGroupLRU }.setTrack t
      { c.track t with groupLRU := groupID :: (c.track t).groupLRU }).setGroup r
        { c.group r with lruIter := some groupID, globalLruIter := some (ftn, groupID) }

def unlinkFromTrack (c : MoqxCache) (r : GroupRef) (t : TrackRef) : MoqxCache :=
  match (c.group r).lruIter with
  | none => c
  | some groupID =>
    (c.setTrack t { c.track t with groupLRU := (c.track t).groupLRU.erase groupID }).setGroup r
      { c.group r with lruIter := none }

/-- Erase the group's node in the list over all tracks. -/
def unlinkFromAll (c : MoqxCache) (r : GroupRef) : MoqxCache :=
  match (c.group r).globalLruIter with
  | none => c
  | some node =>
    { c with globalGroupLRU := c.globalGroupLRU.erase node }.setGroup r
      { c.group r with globalLruIter := none }

def removeGroupFromLRU (c : MoqxCache) (r : GroupRef) (t : TrackRef) : MoqxCache :=
  if (c.group r).lruIter.isNone then c else (c.unlinkFromTrack r t).unlinkFromAll r

/-- Claim a group for writing. -/
def pinGroup (c : MoqxCache) (r : GroupRef) (t : TrackRef) : MoqxCache :=
  let pinned := c.setGroup r { c.group r with pinCount := (c.group r).pinCount + 1 }
  if (c.group r).pinCount = 0 then pinned.removeGroupFromLRU r t else pinned

/-- Release a group; the source checks that it is pinned. -/
def unpinGroup (c : MoqxCache) (ftn : FullTrackName) (groupID : Nat) (r : GroupRef) (t : TrackRef) :
    MoqxCache :=
  let unpinned : MoqxCache :=
    { c.setGroup r { c.group r with pinCount := (c.group r).pinCount - 1 } with
      underflow := c.underflow || (c.group r).pinCount == 0 }
  if (c.group r).pinCount - 1 = 0 then unpinned.addGroupToLRU ftn groupID r t else unpinned

/-! ## 3. Eviction -/

/-- What the track knew about a group, and about the groups that its prior-group gap marks absent. -/
def forgetGroup (tr : CacheTrack) (groupID : Nat) (seenPriorGroupIdGap : Option Nat) : CacheTrack :=
  let tr := tr.forgetRange ⟨groupID, 0⟩ ⟨groupID, kLocationMax.object⟩
  if 0 < seenPriorGroupIdGap.getD 0 then
    tr.forgetRange ⟨groupID - seenPriorGroupIdGap.getD 0, 0⟩ ⟨groupID - 1, kLocationMax.object⟩
  else tr

def evictGroup (c : MoqxCache) (t : TrackRef) (groupID : Nat) : MoqxCache :=
  match (c.track t).groups.lookup groupID with
  | none => c
  | some r =>
    let c := (c.unlinkFromTrack r t).unlinkFromAll r
    let c := c.setTrack t (forgetGroup (c.track t) groupID (c.group r).seenPriorGroupIdGap)
    let c := c.subBytes (c.group r).totalBytes
    c.setTrack t { c.track t with groups := (c.track t).groups.erase groupID }

/-- The first part of `evictTrack`: the track is marked, and leaves the list of evictable ones. -/
def retireTrack (c : MoqxCache) (t : TrackRef) : MoqxCache :=
  (c.setTrack t { c.track t with evicted := true }).removeTrackFromLRU t

def evictTrack (c : MoqxCache) (ftn : FullTrackName) : MoqxCache :=
  match c.cache.lookup ftn with
  | none => c
  | some t =>
    let c := (c.track t).groups.keys.foldl (fun c groupID => c.evictGroup t groupID) (c.retireTrack t)
    { c with cache := c.cache.erase ftn }

/-- `purge` of one track: how many were found, which is one or none. -/
def purgeTrack (c : MoqxCache) (ftn : FullTrackName) : Nat × MoqxCache :=
  (if (c.cache.lookup ftn).isSome then 1 else 0, c.evictTrack ftn)

/-- `purge` of several tracks, by name. -/
def purgeAll (c : MoqxCache) (names : List FullTrackName) : Nat × MoqxCache :=
  names.foldl (fun s ftn => ((s.2.purgeTrack ftn).1 + s.1, (s.2.purgeTrack ftn).2)) (0, c)

def purgeNamespace (c : MoqxCache) (ns : List Bytes) : Nat × MoqxCache :=
  c.purgeAll (c.cache.keys.filter fun ftn => ftn.trackNamespace == ns)

def purge (c : MoqxCache) : Nat × MoqxCache := c.purgeAll c.cache.keys

/-! ## 4. Limits -/

def size (c : MoqxCache) : Nat := c.cache.keys.length

/-- `false` if every track is in use. -/
def evictOldestTrackIfNeeded (c : MoqxCache) : Bool × MoqxCache :=
  if c.maxCachedTracks = 0 ∨ c.size < c.maxCachedTracks then (true, c)
  else
    match c.trackLRU.getLast? with
    | none => (false, c)
    | some oldestTrack => (true, c.evictTrack oldestTrack)

/-- Every turn shortens the list of evictable groups or the table of groups. An entry for a group that
    is gone is reported, and stops a debug build. -/
def evictOldestGroupsLoop (t : TrackRef) : Nat → MoqxCache → MoqxCache
  | 0, c => c
  | fuel + 1, c =>
    if c.maxCachedGroupsPerTrack < (c.track t).groups.keys.length then
      match (c.track t).groupLRU.getLast? with
      | none => c
      | some oldestGroupID =>
        if (c.track t).groups.lookup oldestGroupID = none then
          evictOldestGroupsLoop t fuel
            { c.setTrack t { c.track t with groupLRU := (c.track t).groupLRU.dropLast } with
              underflow := true }
        else evictOldestGroupsLoop t fuel (c.evictGroup t oldestGroupID)
    else c

def evictOldestGroupsIfNeeded (c : MoqxCache) (t : TrackRef) : MoqxCache :=
  if c.maxCachedGroupsPerTrack = 0 then c
  else evictOldestGroupsLoop t ((c.track t).groups.keys.length + (c.track t).groupLRU.length) c

/-- The pass over the nodes from the oldest on; a turn erases its own node or passes over it, so the
    nodes still ahead stay as they are. -/
def evictForByteLimitLoop (targetBytes : Nat) : List (FullTrackName × Nat) → MoqxCache → MoqxCache
  | [], c => c
  | node :: ahead, c =>
    if targetBytes < c.totalCachedBytes then
      match c.cache.lookup node.1 with
      | none =>
        evictForByteLimitLoop targetBytes ahead
          { c with globalGroupLRU := c.globalGroupLRU.erase node, underflow := true }
      | some t =>
        if (c.track t).groups.lookup node.2 = none then
          evictForByteLimitLoop targetBytes ahead
            { c with globalGroupLRU := c.globalGroupLRU.erase node, underflow := true }
        else if (c.track t).isJoinPoint node.2 then evictForByteLimitLoop targetBytes ahead c
        else
          let c := c.evictGroup t node.2
          if (c.track t).groups.keys.isEmpty && (c.track t).canEvict then
            evictForByteLimitLoop targetBytes ahead (c.evictTrack node.1)
          else evictForByteLimitLoop targetBytes ahead c
    else c

/-- Evict down to the low watermark, the oldest groups first; `false` if the limit is still
    exceeded. -/
def evictForByteLimitIfNeeded (c : MoqxCache) : Bool × MoqxCache :=
  if c.maxCachedBytes = 0 ∨ c.totalCachedBytes ≤ c.maxCachedBytes then (true, c)
  else
    let targetBytes :=
      if c.minEvictionBytes < c.maxCachedBytes then c.maxCachedBytes - c.minEvictionBytes else 0
    let c := evictForByteLimitLoop targetBytes c.globalGroupLRU.reverse c
    (decide (c.totalCachedBytes ≤ c.maxCachedBytes), c)

/-! ## 5. Changing a limit -/

/-- Each turn evicts a track, so there are no more turns than tracks. -/
def setMaxCachedTracksLoop : Nat → MoqxCache → MoqxCache
  | 0, c => c
  | fuel + 1, c =>
    if 0 < c.maxCachedTracks ∧ c.maxCachedTracks < c.size ∧ c.trackLRU ≠ [] then
      setMaxCachedTracksLoop fuel c.evictOldestTrackIfNeeded.2
    else c

def setMaxCachedTracks (c : MoqxCache) (maxTracks : Nat) : MoqxCache :=
  setMaxCachedTracksLoop c.size { c with maxCachedTracks := maxTracks }

def setMaxCachedBytes (c : MoqxCache) (maxBytes : Nat) : MoqxCache :=
  { c with maxCachedBytes := maxBytes }.evictForByteLimitIfNeeded.2

def setMinEvictionBytes (c : MoqxCache) (minBytes : Nat) : MoqxCache :=
  { c with minEvictionBytes := minBytes }

def setMaxCachedGroupsPerTrack (c : MoqxCache) (maxGroups : Nat) : MoqxCache :=
  let limited := { c with maxCachedGroupsPerTrack := maxGroups }
  if maxGroups < c.maxCachedGroupsPerTrack then
    c.cache.entries.foldl (fun c e => c.evictOldestGroupsIfNeeded e.2) limited
  else limited

end MoqxCache

end Moqx

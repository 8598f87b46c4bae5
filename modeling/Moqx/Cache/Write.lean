/-
  Subject: Writing one object, or one chunk of it, into a group.

  * `getOrCreateGroup`, `getOrCreateGroupWithEviction` -- the group of an id;
  * `processGapExtensions` -- the gaps an object's properties announce before it;
  * `cacheObject`, `cacheObjectAndUpdateBytes`.

  A call may change the cache before it fails, so each returns its reply next to the new state.
-/
import Moqx.Cache.Evict

namespace Moqx

abbrev Reply := Except MoQPublishError Unit

/-- The arguments of one write: the chunk of an object that begins at `offset`; `complete` says that
    it is the writer's last one. -/
structure ObjectWrite where
  groupID : Nat
  subgroup : Nat
  objectID : Nat
  status : ObjectStatus
  extensions : Extensions
  payload : Payload
  complete : Bool
  forwardingPreferenceIsDatagram : Bool
  now : TimePoint
  offset : Nat := 0

def ObjectWrite.location (w : ObjectWrite) : AbsoluteLocation := ⟨w.groupID, w.objectID⟩

/-- One past the last byte of the chunk. -/
def ObjectWrite.end (w : ObjectWrite) : Nat := w.offset + w.payload.length

namespace MoqxCache

/-! ## 1. Groups -/

def addGroup (c : MoqxCache) (t : TrackRef) (groupID : Nat) : MoqxCache :=
  { (c.setGroup c.nextGroup {}).setTrack t
      { c.track t with groups := (c.track t).groups.insert groupID c.nextGroup } with
    nextGroup := c.nextGroup + 1 }

def getOrCreateGroup (c : MoqxCache) (t : TrackRef) (groupID : Nat) : GroupRef × MoqxCache :=
  match (c.track t).groups.lookup groupID with
  | some r => (r, c)
  | none => (c.nextGroup, c.addGroup t groupID)

/-- A new group is evictable at first. -/
def getOrCreateGroupWithEviction (c : MoqxCache) (t : TrackRef) (groupID : Nat) (ftn : FullTrackName) :
    GroupRef × MoqxCache :=
  match (c.track t).groups.lookup groupID with
  | some r => (r, c)
  | none =>
    let c := c.evictOldestGroupsIfNeeded t
    (c.nextGroup, (c.addGroup t groupID).addGroupToLRU ftn groupID c.nextGroup t)

/-! ## 2. Gap extensions -/

/-- Some group among the `count` ones below `groupID` has an object. -/
def coversGroup (c : MoqxCache) (t : TrackRef) (groupID count : Nat) : Bool :=
  (List.range' (groupID - count) count).any fun g =>
    match (c.track t).groups.lookup g with
    | some r => !(c.group r).objects.keys.isEmpty
    | none => false

/-- Some object among the `count` ones below `objectID` is in the group. -/
def coversObject (c : MoqxCache) (r : GroupRef) (objectID count : Nat) : Bool :=
  (List.range' (objectID - count) count).any fun o => ((c.group r).objects.lookup o).isSome

/-- The prior-group gap, which has to be the same for all objects of a group. -/
def processPriorGroupGap (c : MoqxCache) (t : TrackRef) (groupID gap : Nat) : Reply × MoqxCache :=
  if groupID < gap then (.error ⟨.malformedTrack, "Prior Group ID Gap larger than Group ID"⟩, c)
  else
    let (r, c) := c.getOrCreateGroup t groupID
    match (c.group r).seenPriorGroupIdGap with
    | some seen =>
      if seen ≠ gap then
        (.error ⟨.malformedTrack, "Inconsistent Prior Group ID Gap values in group"⟩, c)
      else (.ok (), c)
    | none =>
      let c := c.setGroup r { c.group r with seenPriorGroupIdGap := some gap }
      if 0 < gap then
        if c.coversGroup t groupID (min gap kMaxGapValidation) then
          (.error ⟨.malformedTrack, "Prior Group ID Gap covers existing object"⟩, c)
        else
          (.ok (), c.setTrack t
            ((c.track t).insertGap ⟨groupID - gap, 0⟩ ⟨groupID - 1, kLocationMax.object⟩))
      else (.ok (), c)

/-- The prior-object gap, which every object of a group sets for itself. -/
def processPriorObjectGap (c : MoqxCache) (t : TrackRef) (groupID objectID gap : Nat) :
    Reply × MoqxCache :=
  if objectID < gap then (.error ⟨.malformedTrack, "Prior Object ID Gap larger than Object ID"⟩, c)
  else if 0 < gap then
    let (r, c) := c.getOrCreateGroup t groupID
    if c.coversObject r objectID (min gap kMaxGapValidation) then
      (.error ⟨.malformedTrack, "Prior Object ID Gap covers existing object"⟩, c)
    else
      (.ok (), c.setTrack t
        ((c.track t).insertGap ⟨groupID, objectID - gap⟩ ⟨groupID, objectID - 1⟩))
  else (.ok (), c)

/-- An extension is processed if the object carries it. -/
def processIfPresent (gap : Option Nat) (f : Nat → MoqxCache → Reply × MoqxCache) (c : MoqxCache) :
    Reply × MoqxCache :=
  match gap with
  | some gap => f gap c
  | none => (.ok (), c)

def processGapExtensions (c : MoqxCache) (t : TrackRef) (groupID objectID : Nat)
    (objectExtensions : Extensions) : Reply × MoqxCache :=
  match processIfPresent (objectExtensions.getIntExtension kPriorGroupIdGapExtensionType)
    (fun gap c => c.processPriorGroupGap t groupID gap) c with
  | (.error e, c) => (.error e, c)
  | (.ok (), c) =>
    processIfPresent (objectExtensions.getIntExtension kPriorObjectIdGapExtensionType)
      (fun gap c => c.processPriorObjectGap t groupID objectID gap) c

end MoqxCache

/-! ## 3. The entry -/

namespace CacheEntry

/-- A new entry, which holds the chunk that was written. -/
def ofWrite (w : ObjectWrite) : CacheEntry where
  subgroup := w.subgroup
  status := w.status
  extensions := w.extensions
  payload := w.payload
  payloadSize := w.payload.length
  complete := w.complete
  forwardingPreferenceIsDatagram := w.forwardingPreferenceIsDatagram
  cachedAt := w.now

def conflict (e : CacheEntry) (w : ObjectWrite) : Option MoQPublishError :=
  if w.status ≠ e.status then some ⟨.malformedTrack, "Invalid status change"⟩
  else if w.status = .normal ∧ w.offset = 0 ∧ w.complete ∧ e.complete ∧
      (w.payload.isNone ∧ e.payload.isSome ∨ w.payload.isSome ∧ e.payload.isNone ∨
        w.payload.isSome ∧ e.payload.isSome ∧ w.payload.length ≠ e.payloadSize) then
    some ⟨.malformedTrack, "payload mismatch"⟩
  else if e.forwardingPreferenceIsDatagram ≠ w.forwardingPreferenceIsDatagram then
    some ⟨.malformedTrack, "forwardingPreference mismatch"⟩
  else none

/-- The most recent copy's properties win; a later chunk of a copy brings none. -/
def refresh (e : CacheEntry) (w : ObjectWrite) : CacheEntry :=
  if w.offset = 0 then { e with status := w.status, extensions := w.extensions, cachedAt := w.now }
  else { e with status := w.status }

/-- Append the part of the chunk past the cached frontier, if the chunk reaches it. -/
def extend (e : CacheEntry) (w : ObjectWrite) : CacheEntry :=
  if w.offset ≤ e.payloadSize ∧ e.payloadSize < w.end then
    { e with
      payload := some (e.payload.bytes ++ w.payload.bytes.drop (e.payloadSize - w.offset))
      payloadSize := w.end }
  else e

/-- The chunk ends its writer's copy, and the entry has all of it. -/
def finishes (e : CacheEntry) (w : ObjectWrite) : Bool := w.complete && e.payloadSize == w.end

end CacheEntry

namespace CacheGroup

/-- Replace or add an entry, and account for its bytes. -/
def store (g : CacheGroup) (objectID : Nat) (e : CacheEntry) (addedBytes : Nat) : CacheGroup :=
  { g with objects := g.objects.insert objectID e, totalBytes := g.totalBytes + addedBytes }

/-- Write the chunk into the group's entry. The second component says whether the write goes on to
    the index of complete objects. -/
def writeEntry (g : CacheGroup) (w : ObjectWrite) : Except MoQPublishError (CacheGroup × Bool) :=
  match g.objects.lookup w.objectID with
  | none =>
    -- the entry was dropped mid-object; a copy cannot resume at a hole
    if 0 < w.offset then .ok (g, false)
    else .ok (g.store w.objectID (.ofWrite w) w.payload.length, true)
  | some e =>
    match e.conflict w with
    | some err => .error err
    | none =>
      if e.complete then .ok (g.store w.objectID (e.refresh w) 0, false)
      else
        let e' := (e.refresh w).extend w
        if e'.finishes w then
          .ok (g.store w.objectID { e' with complete := true } (e'.payloadSize - e.payloadSize), true)
        else .ok (g.store w.objectID e' (e'.payloadSize - e.payloadSize), false)

end CacheGroup

/-! ## 4. The write -/

namespace MoqxCache

/-- `END_OF_GROUP` and `END_OF_TRACK` mark what lies behind them as gaps. -/
def markEnd (c : MoqxCache) (r : GroupRef) (t : TrackRef) (w : ObjectWrite) : MoqxCache :=
  if w.status = .endOfGroup ∨ w.status = .endOfTrack then
    let tr := c.track t
    let tr :=
      match w.location.nextInGroup with
      | some next => tr.insertGap next ⟨w.groupID, kLocationMax.object⟩
      | none => tr
    let tr :=
      if w.status = .endOfTrack then
        match (⟨w.groupID, 0⟩ : AbsoluteLocation).nextGroup with
        | some nextGrp => tr.insertGap nextGrp kLocationMax
        | none => tr
      else tr
    (c.setTrack t tr).setGroup r { c.group r with endOfGroup := true }
  else c

/-- Index a complete object, and remember the largest object of the group. -/
def index (c : MoqxCache) (r : GroupRef) (t : TrackRef) (w : ObjectWrite) : MoqxCache :=
  let c :=
    if w.complete then
      c.setTrack t
        { c.track t with cachedContent := (c.track t).cachedContent.insert w.location w.location }
    else c
  if (c.group r).maxCachedObject ≤ w.objectID then
    c.setGroup r { c.group r with maxCachedObject := w.objectID }
  else c

def cacheObject (c : MoqxCache) (r : GroupRef) (t : TrackRef) (w : ObjectWrite) : Reply × MoqxCache :=
  if (c.track t).gaps.contains w.location then
    (.error ⟨.malformedTrack, "Object in known gap"⟩, c)
  else
    match c.processGapExtensions t w.groupID w.objectID w.extensions with
    | (.error e, c) => (.error e, c)
    | (.ok (), c) =>
      let c := c.markEnd r t w
      match (c.group r).writeEntry w with
      | .error e => (.error e, c)
      | .ok (g, false) => (.ok (), c.setGroup r g)
      | .ok (g, true) => (.ok (), (c.setGroup r g).index r t w)

/-- The total follows the group's change; the source checks that it can. -/
def updateBytes (c : MoqxCache) (oldGroupBytes newGroupBytes : Nat) : MoqxCache :=
  if oldGroupBytes ≤ newGroupBytes then
    { c with totalCachedBytes := c.totalCachedBytes + (newGroupBytes - oldGroupBytes) }
  else c.subBytes (oldGroupBytes - newGroupBytes)

def cacheObjectAndUpdateBytes (c : MoqxCache) (r : GroupRef) (t : TrackRef) (w : ObjectWrite) :
    Reply × MoqxCache :=
  match c.cacheObject r t w with
  | (.error e, c') => (.error e, c')
  | (.ok (), c') =>
    let c' := c'.updateBytes (c.group r).totalBytes (c'.group r).totalBytes
    (.ok (), (c'.setTrack t { c'.track t with lastWrite := w.now }).evictForByteLimitIfNeeded.2)

end MoqxCache

end Moqx

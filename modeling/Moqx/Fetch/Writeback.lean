/-
  Subject: `FetchWriteback`, which caches what an upstream fetch delivers.

  A fetch is delivered in order, so whatever lies between two objects does not exist: the writeback
  follows the stream with a cursor and records what the cursor jumps over as gaps.

  * `FetchWriteback` -- its fields; `open` and `close` are its constructor and destructor;
  * `insertGap`, `markNonExistentTo`, `finishRange`, `cacheImpl` -- recording.

  A location the source takes out of an optional without a test is an `Option` here: `none` is the case
  in which the optional is empty.
-/
import Moqx.Cache.Iterator
import Moqx.Cache.Writeback

namespace Moqx

/-! ## 1. Gap ranges -/

/-- The ranges, bounds included, from `start` up to but not including `end` in the order of the
    fetch. -/
def getGapRanges (start «end» : AbsoluteLocation) (order : GroupOrder)
    (fetchStart fetchEnd : AbsoluteLocation) : Option (List (AbsoluteLocation × AbsoluteLocation)) :=
  let isEmpty :=
    if order ≠ .newestFirst then decide («end» ≤ start)
    else decide (start.group < «end».group ∨ start.group = «end».group ∧ «end».object ≤ start.object)
  if isEmpty then some []
  else if start.group = «end».group then
    match «end».prevInGroup with
    | some prev => some [(start, prev)]
    | none => some []
  else if order ≠ .newestFirst then «end».prev.map fun gapEnd => [(start, gapEnd)]
  else do
    -- the rest of the group the jump starts in
    let startGroupEnd ←
      if start.group = fetchEnd.group then fetchEnd.prevInGroup
      else some ⟨start.group, kLocationMax.object⟩
    -- the groups between
    let endNextGroup ← «end».nextGroup
    let startPrevGroupEnd ← start.prevGroupEnd
    let between :=
      if endNextGroup.group ≤ startPrevGroupEnd.group then [(endNextGroup, startPrevGroupEnd)] else []
    -- the part of the group it ends in
    let endGroupStart := if «end».group = fetchStart.group then fetchStart else ⟨«end».group, 0⟩
    if endGroupStart < «end» then
      let last ← «end».prevInGroup
      return (start, startGroupEnd) :: between ++ [(endGroupStart, last)]
    else return (start, startGroupEnd) :: between

/-! ## 2. The writeback -/

structure FetchWriteback where
  /-- Its address, by which waiting fetches know it. -/
  id : WritebackId
  /-- Whether the end of this stream ends the downstream fetch. -/
  proxyFin : Bool
  fetchRangeIt : FetchRangeIterator
  ftn : FullTrackName
  /-- Decided when the writeback is made. -/
  cachingEnabled : Bool
  /-- The key of its entry in the track's table of fetches in progress, if it has one. -/
  fetchInProgressIt : Option AbsoluteLocation := none
  pinnedGroup : Option GroupRef := none
  /-- The batons: posted or not. -/
  inProgress : Bool := false
  complete : Bool := false
  currentSubgroup : Nat := 0
  currentLength : Nat := 0
  currentOffset : Nat := 0
  beginObjectAccepted : Bool := false
  wasReset : Bool := false
  upstreamEnd : Option AbsoluteLocation := none
  largestReceived : Option AbsoluteLocation := none
  /-- Gaps held back until FETCH_OK says where the track ends. -/
  pendingGaps : List (AbsoluteLocation × AbsoluteLocation) := []

namespace FetchWriteback

abbrev track (w : FetchWriteback) : TrackRef := w.fetchRangeIt.track

def skipCaching (c : MoqxCache) (w : FetchWriteback) : Bool :=
  !w.cachingEnabled || (c.track w.track).evicted

/-- What the calls below work on: the cache and the writeback itself. -/
abbrev State := MoqxCache × FetchWriteback

/-! ## 3. The table of fetches in progress -/

/-- The group is made before any object lands in it, so that it can be pinned. -/
def emplaceAndPinGroup (s : State) (loc : AbsoluteLocation) (entry : FetchInProgressEntry) : State :=
  let (c, w) := s
  let c := c.setTrack w.track ((c.track w.track).emplaceFetch loc entry)
  let (r, c) :=
    match (c.track w.track).groups.lookup loc.group with
    | some r => (r, c)
    | none =>
      let c := c.evictOldestGroupsIfNeeded w.track
      (c.nextGroup, c.addGroup w.track loc.group)
  (c.pinGroup r w.track, { w with fetchInProgressIt := some loc, pinnedGroup := some r })

def eraseAndMakeGroupEvictable (s : State) : State :=
  let (c, w) := s
  match w.fetchInProgressIt with
  | none => (c, w)
  | some key =>
    let c := c.setTrack w.track ((c.track w.track).eraseFetch w.id)
    let w := { w with fetchInProgressIt := none }
    match w.pinnedGroup with
    | none => (c, w)
    | some r => (c.unpinGroup w.ftn key.group r w.track, { w with pinnedGroup := none })

def setProgress (tr : CacheTrack) (id : WritebackId) (progress : AbsoluteLocation) : CacheTrack :=
  { tr with
    fetchesInProgress := tr.fetchesInProgress.map fun e =>
      if e.2.writeback = id then (e.1, { e.2 with progress := progress }) else e }

/-- An entry moves to the cursor's group when the cursor goes up to it, so that the group being written
    is the pinned one. -/
def followCursor (s : State) : State :=
  let (c, w) := s
  match w.fetchInProgressIt with
  | none => (c, w)
  | some key =>
    let current := w.fetchRangeIt.current
    let c := c.setTrack w.track (setProgress (c.track w.track) w.id current)
    if key.group < current.group then
      if current < w.fetchRangeIt.maxLocation then
        emplaceAndPinGroup (eraseAndMakeGroupEvictable (c, w)) current
          ⟨w.fetchRangeIt.maxLocation, current, w.id⟩
      else eraseAndMakeGroupEvictable (c, w)
    else (c, w)

/-- Wakes the fetches that wait; while the cursor is valid they find the baton reset again. -/
def updateInProgress (s : State) : State :=
  if s.2.fetchRangeIt.isValid then
    let (c, w) := followCursor s
    (c, { w with inProgress := false })
  else
    let (c, w) := eraseAndMakeGroupEvictable s
    (c, { w with inProgress := true })

/-! ## 4. Constructor and destructor -/

/-- The writeback of a range, `end` excluded, before it is entered anywhere. -/
def make (c : MoqxCache) (id : WritebackId) (proxyFin : Bool) (ftn : FullTrackName) (t : TrackRef)
    (start «end» : AbsoluteLocation) (order : GroupOrder) : FetchWriteback where
  id := id
  proxyFin := proxyFin
  fetchRangeIt := .construct c.group (c.track t) start «end» order t
  ftn := ftn
  cachingEnabled := !(c.track t).shouldSkipCaching

/-- The constructor's body. Without caching no other fetch should wait on this one. -/
def «open» (s : State) : State :=
  let (c, w) := s
  let c := c.removeTrackFromLRU w.track
  if w.cachingEnabled then
    let start := w.fetchRangeIt.minLocation
    emplaceAndPinGroup (c, w) start ⟨w.fetchRangeIt.maxLocation, start, w.id⟩
  else (c, w)

/-- The destructor. -/
def close (s : State) : MoqxCache :=
  (eraseAndMakeGroupEvictable s).1.onTrackBecameEvictable s.2.ftn

/-! ## 5. Recording -/

def setCursor (w : FetchWriteback) (it : FetchRangeIterator) : FetchWriteback :=
  { w with fetchRangeIt := it }

def next (s : State) : State := (s.1, s.2.setCursor (s.2.fetchRangeIt.next s.1.group (s.1.track s.2.track)))

def advanceTo (s : State) (loc : AbsoluteLocation) : State :=
  (s.1, s.2.setCursor (s.2.fetchRangeIt.advanceTo s.1.group (s.1.track s.2.track) loc))

def invalidate (s : State) : State := (s.1, s.2.setCursor s.2.fetchRangeIt.invalidate)

def recordGap (s : State) (start «end» : AbsoluteLocation) : State :=
  (s.1.setTrack s.2.track ((s.1.track s.2.track).insertGap start «end»), s.2)

def holdGap (s : State) (start «end» : AbsoluteLocation) : State :=
  (s.1, { s.2 with pendingGaps := s.2.pendingGaps ++ [(start, «end»)] })

/-- Bounds included. Every object received is below the end of the track, so what is below one of them
    is recorded now, and the rest once FETCH_OK has said where the end is. -/
def insertGap (s : State) (start «end» : AbsoluteLocation) : Option State :=
  match s.2.upstreamEnd with
  | none =>
    match s.2.largestReceived.filter (start < ·) with
    | none => some (holdGap s start «end»)
    | some largestReceived => do
      let finalEnd := min «end» (← largestReceived.prev)
      let s := recordGap s start finalEnd
      if finalEnd = «end» then return s else return holdGap s (← finalEnd.next) «end»
  | some upstreamEnd =>
    if upstreamEnd ≤ start then some s
    else do return recordGap s start (min «end» (← upstreamEnd.prev))

def insertGaps (s : State) : List (AbsoluteLocation × AbsoluteLocation) → Option State
  | [] => some s
  | (start, «end») :: ranges => do insertGaps (← insertGap s start «end») ranges

/-- Record what lies between the cursor and `target`, and move there. -/
def markNonExistentTo (s : State) (target : AbsoluteLocation) : Option State :=
  let it := s.2.fetchRangeIt
  if it.current = target then some s
  else do
    let ranges ← getGapRanges it.current target it.order it.minLocation it.maxLocation
    let s ← insertGaps s ranges
    return advanceTo s target

/-- Record what is left of the range. The cursor of a descending fetch ends at the lowest position, so
    it is made invalid explicitly. -/
def finishRange (s : State) : Option State := do
  let (e, it) := s.2.fetchRangeIt.end s.1.group (s.1.track s.2.track)
  let s ← markNonExistentTo (s.1, s.2.setCursor it) e
  return invalidate s

/-- The stream has ended. The cursor of a fetch that is not cached never moved, so it proves nothing. -/
def onFetchStreamEnd (s : State) : Option State := do
  let s ← if s.2.skipCaching s.1 then some (invalidate s) else finishRange s
  let (c, w) := updateInProgress s
  return (c, { w with complete := true })

/-- `loc` becomes the largest location received if it is. -/
def receive (w : FetchWriteback) (loc : AbsoluteLocation) : FetchWriteback :=
  if w.largestReceived.all (· < loc) then { w with largestReceived := some loc } else w

def afterObject (s : State) (finFetch : Bool) : Option State := do
  let s := updateInProgress (next s)
  if finFetch then
    let s ← finishRange s
    let (c, w) := updateInProgress s
    return (c, { w with complete := true })
  else return s

def cacheImpl (s : State) (write : ObjectWrite) (finFetch : Bool) : Option (Reply × State) := do
  let (c, w) := s
  let (r, c) := c.getOrCreateGroupWithEviction w.track write.groupID w.ftn
  let (cacheRes, c) := c.cacheObjectAndUpdateBytes r w.track write
  let s ← markNonExistentTo (c, w.receive write.location) write.location
  match cacheRes with
  | .error e => return (.error e, updateInProgress s)
  | .ok () =>
    match (s.1.track s.2.track).updateLargest write.location (isEndOfTrack write.status) with
    | .error e => return (.error e, updateInProgress s)
    | .ok tr =>
      let s : State := (s.1.setTrack s.2.track tr, s.2)
      if write.complete then return (.ok (), ← afterObject s finFetch) else return (.ok (), s)

/-! ## 6. The calls of the stream -/

def inRange (w : FetchWriteback) (loc : AbsoluteLocation) : Bool :=
  decide (w.fetchRangeIt.minLocation ≤ loc ∧ loc < w.fetchRangeIt.maxLocation)

def outsideRange : MoQPublishError := ⟨.malformedTrack, "Object outside fetch range"⟩

/-- The state after a call, and how it was answered; an empty optional stops the process. -/
def answer (s : State) : Option (Reply × State) → Outcome × State
  | none => (.aborted, s)
  | some (reply, s) => (.ofReply reply, s)

/-- A call that is not cached, and ends the stream or not. -/
def passThrough (s : State) (fin : Bool) : Outcome × State :=
  answer s (if fin then (onFetchStreamEnd s).map fun s => (.ok (), s) else some (.ok (), s))

def cacheWhole (s : State) (write : ObjectWrite) (fin : Bool) : Outcome × State :=
  if !s.2.inRange write.location then (.rejected outsideRange, s)
  else if s.2.skipCaching s.1 then passThrough s fin
  else answer s (cacheImpl s write fin)

def object (s : State) (gID sgID objID : Nat) (payload : Payload) (ext : Extensions) (fin : Bool)
    (forwardingPreferenceIsDatagram : Bool) (now : TimePoint) : Outcome × State :=
  cacheWhole s
    { groupID := gID, subgroup := sgID, objectID := objID, status := .normal, extensions := ext,
      payload := payload, complete := true,
      forwardingPreferenceIsDatagram := forwardingPreferenceIsDatagram, now := now } fin

def endOfGroup (s : State) (gID sgID objID : Nat) (fin : Bool) (now : TimePoint) : Outcome × State :=
  cacheWhole s
    { groupID := gID, subgroup := sgID, objectID := objID, status := .endOfGroup,
      extensions := noExtensions, payload := none, complete := true,
      forwardingPreferenceIsDatagram := false, now := now } fin

def endOfTrackAndGroup (s : State) (gID sgID objID : Nat) (now : TimePoint) : Outcome × State :=
  cacheWhole s
    { groupID := gID, subgroup := sgID, objectID := objID, status := .endOfTrack,
      extensions := noExtensions, payload := none, complete := true,
      forwardingPreferenceIsDatagram := false, now := now } true

def beginObject (s : State) (gID sgID objID len : Nat) (initPayload : Payload) (ext : Extensions)
    (now : TimePoint) : Outcome × State :=
  let inRange := s.2.inRange ⟨gID, objID⟩
  let s : State := (s.1, { s.2 with beginObjectAccepted := inRange })
  if !inRange then (.rejected outsideRange, s)
  else if s.2.skipCaching s.1 then (.forwarded, s)
  else
    let initBytes := initPayload.length
    if len < initBytes then (.aborted, s)
    else
      answer s <| (cacheImpl s
        { groupID := gID, subgroup := sgID, objectID := objID, status := .normal, extensions := ext,
          payload := initPayload, complete := initBytes == len,
          forwardingPreferenceIsDatagram := false, now := now } false).map fun
        | (.error e, s) => (.error e, s)
        | (.ok (), (c, w)) =>
          (.ok (), (c,
            { w with currentSubgroup := sgID, currentLength := len, currentOffset := initBytes }))

def reset (s : State) : State :=
  updateInProgress (invalidate (s.1, { s.2 with wasReset := true, complete := true }))

/-- The chunk as it is written: at the cursor, which rests on the object in progress. -/
def chunk (w : FetchWriteback) (payload : Bytes) (now : TimePoint) : ObjectWrite where
  groupID := w.fetchRangeIt.current.group
  subgroup := w.currentSubgroup
  objectID := w.fetchRangeIt.current.object
  status := .normal
  extensions := noExtensions
  payload := some payload
  complete := w.currentOffset + payload.length == w.currentLength
  forwardingPreferenceIsDatagram := false
  now := now
  offset := w.currentOffset

/-- Write the chunk, unless the group was evicted under the object in progress. -/
def cacheChunk (s : State) (write : ObjectWrite) : Reply × State :=
  match (s.1.track s.2.track).groups.lookup write.groupID with
  | none => (.ok (), s)
  | some r =>
    let res := s.1.cacheObjectAndUpdateBytes r s.2.track write
    (res.1, (res.2, s.2))

/-- After a chunk: the cursor leaves a complete object, and the stream may end with it. -/
def afterChunk (s : State) (objectComplete finFetch : Bool) : Option State :=
  if objectComplete || finFetch then do
    let s := next s
    let s ← if finFetch then finishRange s else some s
    return updateInProgress s
  else some s

def objectPayload (s : State) (payload : Bytes) (finFetch : Bool) (now : TimePoint) : Outcome × State :=
  if !s.2.beginObjectAccepted then (.rejected ⟨.malformedTrack, "Payload without beginObject"⟩, s)
  else if s.2.skipCaching s.1 then passThrough s finFetch
  else if s.2.currentLength < s.2.currentOffset + payload.length then
    (.rejected ⟨.malformedTrack, "Payload past object length"⟩, reset s)
  else
    let write := s.2.chunk payload now
    match cacheChunk s write with
    | (.error e, s) => (.rejected e, s)
    | (.ok (), (c, w)) =>
      answer s <| (afterChunk (c, { w with currentOffset := w.currentOffset + payload.length })
        write.complete finFetch).map fun s => (.ok (), s)

def endOfFetch (s : State) : Outcome × State := passThrough s true

/-- Skip forward without marking anything as missing. -/
def endOfUnknownRange (s : State) (groupId objectId : Nat) (finFetch : Bool) : State :=
  let (c, w) := updateInProgress (next (advanceTo s ⟨groupId, objectId⟩))
  (c, { w with complete := w.complete || finFetch })

/-- FETCH_OK has come: the gaps held back are recorded up to the end it gives. -/
def setUpstreamEnd (s : State) («end» : AbsoluteLocation) : Option State :=
  insertGaps (s.1, { s.2 with upstreamEnd := some «end», pendingGaps := [] }) s.2.pendingGaps

end FetchWriteback

end Moqx

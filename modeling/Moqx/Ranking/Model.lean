/-
  Subject: The ranking of tracks by a property value, and its top-N groups.

  * `RankKey`, `RankedEntry`, `TopNGroup`, `PropertyRanking` -- the state;
  * `registerTrack`, `updateSortValue`, `removeTrack`, `addSessionToTopNGroup`,
    `removeSessionFromTopNGroup`, `updateSessionForward`, `sweepIdle` -- the operations;
  * `Callback` -- what an operation sends to the relay, tagged with the `N` of the sending group.

  Callbacks do not reenter the ranking, so the guard against changing the sessions while they are
  iterated is left out. Ranks, sequence numbers and thresholds count registered tracks and stay far
  below `2^64`; they are natural numbers.
-/
import Mathlib.Data.List.Sort
import Moqx.Lib.Table
import Moqx.Types

namespace Moqx

/-! ## 1. Ranks -/

structure RankKey where
  value : Nat
  arrivalSeq : Nat
  deriving DecidableEq, Repr

/-- The higher value ranks first, then the earlier arrival. -/
instance : LT RankKey where
  lt a b := if a.value ≠ b.value then a.value < b.value else b.arrivalSeq < a.arrivalSeq

instance : DecidableLT RankKey := fun a b =>
  inferInstanceAs
    (Decidable (if a.value ≠ b.value then a.value < b.value else b.arrivalSeq < a.arrivalSeq))

instance : LE RankKey where
  le a b := a < b ∨ a = b

instance : DecidableLE RankKey := fun a b => inferInstanceAs (Decidable (a < b ∨ a = b))

structure RankedEntry where
  ftn : FullTrackName
  publisherRaw : SessionRef
  deriving DecidableEq, Repr

abbrev RankedTracks := List (RankKey × RankedEntry)

namespace RankedTracks

/-- `std::map::emplace` in a map ordered by `std::greater`: the best key first, nothing if the key is
    there. -/
def emplace (key : RankKey) (entry : RankedEntry) : RankedTracks → RankedTracks
  | [] => [(key, entry)]
  | e :: rest =>
    if e.1 < key then (key, entry) :: e :: rest
    else if e.1 = key then e :: rest
    else e :: emplace key entry rest

def erase (key : RankKey) (ranked : RankedTracks) : RankedTracks := ranked.filter fun e => e.1 ≠ key

def at? (key : RankKey) (ranked : RankedTracks) : Option RankedEntry :=
  (ranked.find? fun e => e.1 = key).map (·.2)

def names (ranked : RankedTracks) : List FullTrackName := ranked.map fun e => e.2.ftn

end RankedTracks

def kUnranked : Nat := 2 ^ 64 - 1

/-- The iterator into the sorted map is written as the key it points at. -/
structure RankIndex where
  rankIter : RankKey
  cachedRank : Nat := kUnranked
  deriving DecidableEq, Repr

inductive TrackState where
  | selected
  | deselected
  deriving DecidableEq, Repr

structure SessionInfo where
  forward : Bool := true
  waterlineKey : Option RankKey := none
  selectedTracks : List FullTrackName := []

structure TopNGroup where
  maxSelected : Nat := 0
  sessions : AList (fun _ : SessionRef => SessionInfo) := ∅
  trackStates : AList (fun _ : FullTrackName => TrackState) := ∅
  deselectedQueue : List FullTrackName := []

structure PropertyRanking where
  maxDeselected : Nat
  /-- In milliseconds, as `sweepThrottle`. -/
  idleTimeout : Int
  sweepThrottle : Int
  lastSweepTime : Option TimePoint := none
  rankedTracks : RankedTracks := []
  trackIndexByName : AList (fun _ : FullTrackName => RankIndex) := ∅
  topNGroups : AList (fun _ : Nat => TopNGroup) := ∅
  publisherTrackCount : AList (fun _ : SessionRef => Nat) := ∅
  nextSeq : Nat := 0
  selectionThreshold : Nat := 0
  publisherExtendedThreshold : Nat := 0
  sortedThresholds : List Nat := []
  rankCacheValid : Bool := false

inductive Callback where
  | onSelected (ftn : FullTrackName) (session : SessionRef) (forward : Bool)
  | onBatchSelected (ftn : FullTrackName) (sessions : List (SessionRef × Bool))
  | onEvicted (ftn : FullTrackName) (session : SessionRef)
  deriving DecidableEq, Repr

namespace PropertyRanking

/-! ## 2. The rank cache -/

def rebuildLoop (index : AList fun _ : FullTrackName => RankIndex) :
    Nat → RankedTracks → AList fun _ : FullTrackName => RankIndex
  | _, [] => index
  | rank, e :: rest =>
    match index.lookup e.2.ftn with
    | some i => rebuildLoop (index.insert e.2.ftn { i with cachedRank := rank }) (rank + 1) rest
    | none => rebuildLoop index (rank + 1) rest

def rebuildRankCacheIfNeeded (r : PropertyRanking) : PropertyRanking :=
  if r.rankCacheValid then r
  else
    { r with trackIndexByName := rebuildLoop r.trackIndexByName 0 r.rankedTracks, rankCacheValid := true }

def getCachedRank (r : PropertyRanking) (ftn : FullTrackName) : PropertyRanking × Nat :=
  let r := r.rebuildRankCacheIfNeeded
  match r.trackIndexByName.lookup ftn with
  | none => (r, kUnranked)
  | some i => (r, i.cachedRank)

/-! ## 3. Thresholds -/

def isPublisher (r : PropertyRanking) (session : SessionRef) : Bool :=
  (r.publisherTrackCount.lookup session).isSome

def updateSelectionThreshold (r : PropertyRanking) : PropertyRanking :=
  { r with
    sortedThresholds := r.topNGroups.keys.insertionSort (· ≤ ·)
    selectionThreshold := r.topNGroups.keys.foldl max 0 + r.maxDeselected }

/-- `max(N + selfTrackCount)` over the sessions that publish, starting from `bound`. -/
def maxExtended (r : PropertyRanking) (bound : Nat) : Nat :=
  r.topNGroups.entries.foldl
    (fun m g => g.2.sessions.keys.foldl
      (fun m session =>
        match r.publisherTrackCount.lookup session with
        | some selfCount => max m (g.1 + selfCount)
        | none => m) m) bound

def updatePublisherExtendedThreshold (r : PropertyRanking) : PropertyRanking :=
  { r with publisherExtendedThreshold := r.maxExtended 0 + r.maxDeselected }

def crossesThreshold (r : PropertyRanking) (oldRank newRank : Nat) : Bool :=
  if r.topNGroups.keys.isEmpty then false
  else
    let effectiveThreshold := max r.selectionThreshold r.publisherExtendedThreshold
    if effectiveThreshold ≤ oldRank ∧ effectiveThreshold ≤ newRank then false
    else
      let minRank := min oldRank newRank
      let maxRank := max oldRank newRank
      if decide (oldRank < r.selectionThreshold) ≠ decide (newRank < r.selectionThreshold) then true
      -- `std::upper_bound` in the sorted thresholds
      else if (r.sortedThresholds.find? (minRank < ·)).any (· ≤ maxRank) then true
      else if r.publisherTrackCount.keys.isEmpty then false
      else
        let extended := r.maxExtended (r.topNGroups.keys.foldl max 0)
        decide (minRank < extended ∨ maxRank < extended)

/-! ## 4. Self-exclusion -/

/-- The key of the track that brings the count of tracks of other sessions to `maxSelected`. -/
def waterlineLoop (session : SessionRef) (maxSelected : Nat) : Nat → RankedTracks → Option RankKey
  | _, [] => none
  | nonSelfCount, (key, entry) :: rest =>
    if entry.publisherRaw ≠ session then
      if nonSelfCount + 1 = maxSelected then some key
      else waterlineLoop session maxSelected (nonSelfCount + 1) rest
    else waterlineLoop session maxSelected nonSelfCount rest

def computeWaterlineKey (r : PropertyRanking) (session : SessionRef) (maxSelected : Nat) :
    Option RankKey :=
  waterlineLoop session maxSelected 0 r.rankedTracks

/-- What should be delivered to a publishing session, given its waterline. -/
def nowSelected (r : PropertyRanking) (session : SessionRef) (waterlineKey : Option RankKey) :
    List FullTrackName :=
  (r.rankedTracks.filter fun e =>
    e.2.publisherRaw ≠ session ∧ waterlineKey.all (· ≤ e.1)).map fun e => e.2.ftn

def reconcilePublisherSelection (r : PropertyRanking) (info : SessionInfo) (maxSelected : Nat)
    (session : SessionRef) : SessionInfo × List Callback :=
  let waterlineKey := r.computeWaterlineKey session maxSelected
  let now := r.nowSelected session waterlineKey
  ({ info with waterlineKey := waterlineKey, selectedTracks := now },
    (info.selectedTracks.filter (· ∉ now)).map (.onEvicted · session) ++
      (now.filter (· ∉ info.selectedTracks)).map (.onSelected · session info.forward))

/-- Reconcile the sessions of a group that publish, except one. -/
def reconcileSessions (r : PropertyRanking) (except : Option SessionRef) (n : Nat)
    (sessions : AList fun _ : SessionRef => SessionInfo) :
    (AList fun _ : SessionRef => SessionInfo) × List Callback :=
  Table.visit
    (fun session info =>
      if r.isPublisher session ∧ some session ≠ except then
        r.reconcilePublisherSelection info n session
      else (info, []))
    sessions

def viewerBatch (r : PropertyRanking) (g : TopNGroup) : List (SessionRef × Bool) :=
  (g.sessions.entries.filter fun e => ¬r.isPublisher e.1).map fun e => (e.1, e.2.forward)

def batchSelected (ftn : FullTrackName) (batch : List (SessionRef × Bool)) : List Callback :=
  if batch.isEmpty then [] else [.onBatchSelected ftn batch]

def notifyTrackSelected (r : PropertyRanking) (ftn : FullTrackName) (g : TopNGroup) :
    TopNGroup × List Callback :=
  let sessions := r.reconcileSessions none g.maxSelected g.sessions
  ({ g with sessions := sessions.1 }, sessions.2 ++ batchSelected ftn (r.viewerBatch g))

/-- Whether the session already counts as a publisher in this group. -/
def wasPublisher (info : SessionInfo) : Bool :=
  !info.selectedTracks.isEmpty || info.waterlineKey.isSome

/-- A viewer that becomes a publisher starts from the shared top `n`. -/
def seeded (r : PropertyRanking) (info : SessionInfo) (n : Nat) : SessionInfo :=
  if wasPublisher info then info
  else
    let seeds := (r.rankedTracks.names.take n).foldl (fun acc ftn => acc.insert ftn) info.selectedTracks
    { info with selectedTracks := seeds }

def reconcilePublisherInGroup (r : PropertyRanking) (session : SessionRef) (n : Nat) (g : TopNGroup) :
    TopNGroup × List Callback :=
  match g.sessions.lookup session with
  | none => (g, [])
  | some info =>
    let reconciled := r.reconcilePublisherSelection (r.seeded info n) n session
    ({ g with sessions := g.sessions.insert session reconciled.1 }, reconciled.2)

/-! ## 5. The deselected queue -/

def trimLoop (maxDeselected : Nat) : List FullTrackName → TopNGroup → TopNGroup × List Callback
  | [], g => ({ g with deselectedQueue := [] }, [])
  | evicted :: rest, g =>
    if maxDeselected < (evicted :: rest).length then
      let trimmed := trimLoop maxDeselected rest { g with trackStates := g.trackStates.erase evicted }
      (trimmed.1, g.sessions.keys.map (.onEvicted evicted ·) ++ trimmed.2)
    else ({ g with deselectedQueue := evicted :: rest }, [])

def trimDeselectedQueue (r : PropertyRanking) (g : TopNGroup) : TopNGroup × List Callback :=
  trimLoop r.maxDeselected g.deselectedQueue g

def removeFromDeselectedQueue (g : TopNGroup) (ftn : FullTrackName) : TopNGroup :=
  { g with deselectedQueue := g.deselectedQueue.filter (· ≠ ftn) }

def demoteTrack (r : PropertyRanking) (g : TopNGroup) (ftn : FullTrackName) :
    TopNGroup × List Callback :=
  r.trimDeselectedQueue
    { g with
      trackStates := g.trackStates.insert ftn .deselected
      deselectedQueue := g.deselectedQueue ++ [ftn] }

def demoteTrackAtRank (r : PropertyRanking) (n : Nat) (g : TopNGroup) : TopNGroup × List Callback :=
  match r.rankedTracks.names[n]? with
  | some ftn => if g.trackStates.lookup ftn = some .selected then r.demoteTrack g ftn else (g, [])
  | none => (g, [])

def promoteTrack (r : PropertyRanking) (g : TopNGroup) (ftn : FullTrackName) :
    TopNGroup × List Callback :=
  r.notifyTrackSelected ftn
    (removeFromDeselectedQueue { g with trackStates := g.trackStates.insert ftn .selected } ftn)

/-- Promote the track at a rank unless it is selected. -/
def promoteTrackAtRank (r : PropertyRanking) (rank : Nat) (g : TopNGroup) :
    TopNGroup × List Callback :=
  match r.rankedTracks.names[rank]? with
  | some ftn => if g.trackStates.lookup ftn = some .selected then (g, []) else r.promoteTrack g ftn
  | none => (g, [])

def promoteNextAvailableTrack (r : PropertyRanking) (g : TopNGroup) (excludeFtn : FullTrackName) :
    TopNGroup × List Callback :=
  match r.rankedTracks.names.find? fun ftn =>
      ftn ≠ excludeFtn ∧ g.trackStates.lookup ftn ≠ some .selected with
  | some ftn => r.promoteTrack g ftn
  | none => (g, [])

/-! ## 6. The operations -/

/-- `for (auto& [n, topNGroup] : topNGroups_)`. -/
def forGroups (r : PropertyRanking) (f : Nat → TopNGroup → TopNGroup × List Callback) :
    PropertyRanking × List (Nat × Callback) :=
  let visited := Table.visit (fun n g => ((f n g).1, (f n g).2.map (n, ·))) r.topNGroups
  ({ r with topNGroups := visited.1 }, visited.2)

def reconcilePublisherInAllGroups (r : PropertyRanking) (session : SessionRef) :
    PropertyRanking × List (Nat × Callback) :=
  r.forGroups (r.reconcilePublisherInGroup session)

/-- One group of `registerTrack`, for a new track at `rank`. -/
def registerInGroup (r : PropertyRanking) (ftn : FullTrackName) (rank n : Nat) (g : TopNGroup) :
    TopNGroup × List Callback :=
  if rank < n then
    let notified := r.notifyTrackSelected ftn { g with trackStates := g.trackStates.insert ftn .selected }
    let demoted := r.demoteTrackAtRank n notified.1
    (demoted.1, notified.2 ++ demoted.2)
  else
    let sessions := r.reconcileSessions none n g.sessions
    ({ g with sessions := sessions.1 }, sessions.2)

/-- The sorted map and its index with a new track in them. -/
def withTrack (r : PropertyRanking) (key : RankKey) (entry : RankedEntry) : PropertyRanking :=
  { r with
    rankedTracks := r.rankedTracks.emplace key entry
    trackIndexByName := r.trackIndexByName.insert entry.ftn { rankIter := key }
    rankCacheValid := false }

def countTrack (r : PropertyRanking) (publisher : SessionRef) : PropertyRanking :=
  { r with
    publisherTrackCount :=
      r.publisherTrackCount.insert publisher ((r.publisherTrackCount.lookup publisher).getD 0 + 1) }

/-- `registerTrack` up to the sorted map: the new track is counted, then ranked. -/
def enterTrack (r : PropertyRanking) (ftn : FullTrackName) (value : Nat) (publisher : SessionRef) :
    PropertyRanking :=
  let key : RankKey := ⟨value, r.nextSeq⟩
  let r := { r with nextSeq := r.nextSeq + 1 }
  (r.countTrack publisher).updatePublisherExtendedThreshold.withTrack key ⟨ftn, publisher⟩

def registerTrack (r : PropertyRanking) (ftn : FullTrackName) (initialPropertyValue : Option Nat)
    (publisher : SessionRef) : PropertyRanking × List (Nat × Callback) :=
  if (r.trackIndexByName.lookup ftn).isSome then (r, [])
  else
    let ranked := (r.enterTrack ftn (initialPropertyValue.getD 0) publisher).getCachedRank ftn
    let reconciled := ranked.1.reconcilePublisherInAllGroups publisher
    let registered := reconciled.1.forGroups (reconciled.1.registerInGroup ftn ranked.2)
    (registered.1, reconciled.2 ++ registered.2)

/-- One group of `recomputeTopNGroups`. -/
def recomputeGroup (r : PropertyRanking) (ftn : FullTrackName) (oldRank newRank n : Nat)
    (g : TopNGroup) : TopNGroup × List Callback :=
  let wasInTopN := decide (oldRank < n)
  let nowInTopN := decide (newRank < n)
  let shared : TopNGroup × List Callback :=
    if wasInTopN ≠ nowInTopN then
      if nowInTopN then
        (removeFromDeselectedQueue { g with trackStates := g.trackStates.insert ftn .selected } ftn, [])
      else r.demoteTrack g ftn
    else (g, [])
  let ftnPublisher :=
    ((r.trackIndexByName.lookup ftn).bind fun i => r.rankedTracks.at? i.rankIter).map
      (·.publisherRaw)
  let sessions := r.reconcileSessions ftnPublisher n shared.1.sessions
  let batch := if !wasInTopN && nowInTopN then batchSelected ftn (r.viewerBatch shared.1) else []
  let g : TopNGroup := { shared.1 with sessions := sessions.1 }
  let displaced : TopNGroup × List Callback :=
    if !wasInTopN && nowInTopN then r.demoteTrackAtRank n g else (g, [])
  let promoted : TopNGroup × List Callback :=
    if wasInTopN && !nowInTopN then r.promoteTrackAtRank (n - 1) displaced.1 else (displaced.1, [])
  (promoted.1, shared.2 ++ sessions.2 ++ batch ++ displaced.2 ++ promoted.2)

/-- What the ranking reads from outside while it sweeps: the clock and the activity times, if it was
    given a way to read them. A track that never published has the time zero. -/
structure Activity where
  now : TimePoint
  getLastActivity : Option (FullTrackName → TimePoint)

def isIdle (r : PropertyRanking) (now lastActivity : TimePoint) : Bool :=
  decide (lastActivity = 0) || ageExceeds now lastActivity r.idleTimeout

def sweepGroup (r : PropertyRanking) (now : TimePoint) (getLastActivity : FullTrackName → TimePoint) :
    List FullTrackName → TopNGroup → TopNGroup × List Callback
  | [], g => (g, [])
  | ftn :: rest, g =>
    if r.isIdle now (getLastActivity ftn) then
      let demoted := r.demoteTrack g ftn
      let promoted := r.promoteNextAvailableTrack demoted.1 ftn
      let swept := r.sweepGroup now getLastActivity rest promoted.1
      (swept.1, demoted.2 ++ promoted.2 ++ swept.2)
    else r.sweepGroup now getLastActivity rest g

/-- The selected tracks of a group, before a sweep changes them. -/
def selectedTracks (g : TopNGroup) : List FullTrackName :=
  (g.trackStates.entries.filter fun e => e.2 = .selected).map (·.1)

def sweepIdle (r : PropertyRanking) (activity : Activity) : PropertyRanking × List (Nat × Callback) :=
  match activity.getLastActivity with
  | none => (r, [])
  | some getLastActivity =>
    if r.idleTimeout = 0 then (r, [])
    else if 0 < r.sweepThrottle ∧ r.lastSweepTime.any fun last =>
        decide (int64 (activity.now - last) < int64 (r.sweepThrottle * 1000000)) then (r, [])
    else
      let r := { r with lastSweepTime := some activity.now }
      r.forGroups fun _ g => r.sweepGroup activity.now getLastActivity (selectedTracks g) g

/-- The sorted map and its index with a track moved from one key to another. -/
def moveTrack (r : PropertyRanking) (ftn : FullTrackName) (oldKey newKey : RankKey)
    (entry : RankedEntry) : PropertyRanking :=
  { r with
    rankedTracks := (r.rankedTracks.erase oldKey).emplace newKey entry
    trackIndexByName :=
      match r.trackIndexByName.lookup ftn with
      | some i => r.trackIndexByName.insert ftn { i with rankIter := newKey }
      | none => r.trackIndexByName
    rankCacheValid := false }

def updateSortValue (r : PropertyRanking) (ftn : FullTrackName) (value : Nat) (activity : Activity) :
    PropertyRanking × List (Nat × Callback) :=
  match r.trackIndexByName.lookup ftn with
  | none => (r, [])
  | some entry =>
    let oldKey := entry.rankIter
    if oldKey.value = value then (r, [])
    else
      let newKey : RankKey := ⟨value, oldKey.arrivalSeq⟩
      let old := r.getCachedRank ftn
      match old.1.rankedTracks.at? oldKey with
      | none => (old.1, [])
      | some rankedEntry =>
        let new := (old.1.moveTrack ftn oldKey newKey rankedEntry).getCachedRank ftn
        if new.1.crossesThreshold old.2 new.2 then
          let recomputed := new.1.forGroups (new.1.recomputeGroup ftn old.2 new.2)
          let swept := recomputed.1.sweepIdle activity
          (swept.1, recomputed.2 ++ swept.2)
        else (new.1, [])

/-- One group of `removeTrack`. -/
def removeInGroup (r : PropertyRanking) (ftn : FullTrackName) (g : TopNGroup) :
    TopNGroup × List Callback :=
  match g.trackStates.lookup ftn with
  | none => (g, [])
  | some state =>
    let g := removeFromDeselectedQueue { g with trackStates := g.trackStates.erase ftn } ftn
    if state = .selected then
      match g.deselectedQueue with
      | promoted :: rest =>
        r.notifyTrackSelected promoted
          { g with
            deselectedQueue := rest
            trackStates := g.trackStates.insert promoted .selected }
      | [] => r.promoteNextAvailableTrack g ftn
    else (g, [])

def uncountTrack (r : PropertyRanking) (publisher : SessionRef) : PropertyRanking :=
  match r.publisherTrackCount.lookup publisher with
  | some count =>
    updatePublisherExtendedThreshold
      { r with
        publisherTrackCount :=
          if count - 1 = 0 then r.publisherTrackCount.erase publisher
          else r.publisherTrackCount.insert publisher (count - 1) }
  | none => r

def withoutTrack (r : PropertyRanking) (key : RankKey) (ftn : FullTrackName) : PropertyRanking :=
  { r with
    rankedTracks := r.rankedTracks.erase key
    trackIndexByName := r.trackIndexByName.erase ftn
    rankCacheValid := false }

/-- `removeTrack` up to the sorted map. -/
def dropTrack (r : PropertyRanking) (ftn : FullTrackName) (key : RankKey) : PropertyRanking :=
  match r.rankedTracks.at? key with
  | some rankedEntry => (r.uncountTrack rankedEntry.publisherRaw).withoutTrack key ftn
  | none => r.withoutTrack key ftn

def removeTrack (r : PropertyRanking) (ftn : FullTrackName) :
    PropertyRanking × List (Nat × Callback) :=
  match r.trackIndexByName.lookup ftn with
  | none => (r, [])
  | some entry =>
    let r := (r.getCachedRank ftn).1.dropTrack ftn entry.rankIter
    r.forGroups fun _ g => r.removeInGroup ftn g

/-- A new group starts with the first `maxSelected` tracks selected. -/
def newGroup (r : PropertyRanking) (maxSelected : Nat) : TopNGroup where
  maxSelected := maxSelected
  trackStates :=
    (r.rankedTracks.names.take maxSelected).foldl (fun states ftn => states.insert ftn .selected) ∅

def getOrCreateTopNGroup (r : PropertyRanking) (maxSelected : Nat) : PropertyRanking × TopNGroup :=
  match r.topNGroups.lookup maxSelected with
  | some g => (r, g)
  | none =>
    let g := r.newGroup maxSelected
    (updateSelectionThreshold { r with topNGroups := r.topNGroups.insert maxSelected g }, g)

/-- `topNGroup.sessions[session] = info`, for a group of the ranking. -/
def setSession (r : PropertyRanking) (maxSelected : Nat) (g : TopNGroup) (session : SessionRef)
    (info : SessionInfo) : PropertyRanking :=
  { r with
    topNGroups := r.topNGroups.insert maxSelected
      { g with sessions := g.sessions.insert session info } }

def addSessionToTopNGroup (r : PropertyRanking) (maxSelected : Nat) (session : SessionRef)
    (forward : Bool) : PropertyRanking × List (Nat × Callback) :=
  let created := r.getOrCreateTopNGroup maxSelected
  let info : SessionInfo := { forward := forward }
  let r := created.1.setSession maxSelected created.2 session info
  if r.isPublisher session then
    let r := r.updatePublisherExtendedThreshold
    let reconciled := r.reconcilePublisherSelection info maxSelected session
    (r.setSession maxSelected created.2 session reconciled.1, reconciled.2.map (maxSelected, ·))
  else
    (r, (r.rankedTracks.names.take maxSelected).map fun ftn =>
      (maxSelected, .onSelected ftn session forward))

def removeTopNGroup (r : PropertyRanking) (maxSelected : Nat) : PropertyRanking :=
  updateSelectionThreshold { r with topNGroups := r.topNGroups.erase maxSelected }

def removeSessionFromTopNGroup (r : PropertyRanking) (maxSelected : Nat) (session : SessionRef) :
    PropertyRanking :=
  match r.topNGroups.lookup maxSelected with
  | none => r
  | some g =>
    let wasPublisher := r.isPublisher session
    let g := { g with sessions := g.sessions.erase session }
    let r := { r with topNGroups := r.topNGroups.insert maxSelected g }
    let r := if g.sessions.keys.isEmpty then r.removeTopNGroup maxSelected else r
    if wasPublisher then r.updatePublisherExtendedThreshold else r

def updateSessionForward (r : PropertyRanking) (maxSelected : Nat) (session : SessionRef)
    (forward : Bool) : PropertyRanking :=
  match r.topNGroups.lookup maxSelected with
  | none => r
  | some g =>
    match g.sessions.lookup session with
    | none => r
    | some info => r.setSession maxSelected g session { info with forward := forward }

end PropertyRanking

end Moqx

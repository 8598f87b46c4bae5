/-
  Subject: The cache together with everything that works on it.

  The state holds the cache, the open writebacks, and the fetches that are being served. A fetch that is
  being served holds its track: it may look locations up at any time and open upstream fetches; which
  ones it chooses is not restricted here.

  * `System.Does`, `step_does` -- everything an event can do.
-/
import Moqx.Fetch.Plan
import Moqx.Fetch.Writeback

namespace Moqx

/-- On the wire an end object of 0 asks for all of the end group; inside the cache ends are plainly
    excluded. -/
def toExclusiveEnd (wireEnd : AbsoluteLocation) : AbsoluteLocation :=
  if wireEnd.object ≠ 0 then wireEnd else wireEnd.nextGroup.getD kLocationMax

structure FetchOk where
  endOfTrack : Bool
  endLocation : AbsoluteLocation
  extensions : Extensions

namespace MoqxCache

/-- A FETCH_OK may say that the track ends inside the range; a contradiction is ignored. -/
def recordUpstreamEndOfTrack (c : MoqxCache) (t : TrackRef) (fetchOk : FetchOk) : MoqxCache :=
  if !fetchOk.endOfTrack then c
  else
    match fetchOk.endLocation.prev with
    | none => c
    | some last =>
      match (c.track t).updateLargest last true with
      | .ok tr => c.setTrack t tr
      | .error _ => c

/-- The track of a fetch that is not cached yet: it is entered first, and then makes room. -/
def addFetchedTrack (c : MoqxCache) (ftn : FullTrackName) : TrackRef × MoqxCache :=
  let t := c.nextTrack
  let c := c.addTrack ftn
  let c := if c.maxCachedTracks ≤ c.size then c.evictOldestTrackIfNeeded.2 else c
  (t, c.addTrackToLRU ftn t)

end MoqxCache

/-! ## 1. Events -/

inductive SubgroupCall where
  | object (objID : Nat) (payload : Payload) (ext : Extensions)
  | beginObject (objectID length : Nat) (initialPayload : Payload) (extensions : Extensions)
  | objectPayload (payload : Bytes)
  | endOfGroup (endOfGroupObjectID : Nat)
  | endOfTrackAndGroup (endOfTrackObjectID : Nat)

/-- A call of an upstream fetch stream on its writeback. -/
inductive FetchCall where
  | object (gID sgID objID : Nat) (payload : Payload) (ext : Extensions) (fin datagram : Bool)
  | beginObject (gID sgID objID len : Nat) (initPayload : Payload) (ext : Extensions)
  | objectPayload (payload : Bytes) (finFetch : Bool)
  | endOfGroup (gID sgID objID : Nat) (fin : Bool)
  | endOfTrackAndGroup (gID sgID objID : Nat)
  | endOfFetch
  | reset
  | endOfUnknownRange (groupId objectId : Nat) (finFetch : Bool)

namespace SubgroupWriteback

def call (c : MoqxCache) (w : SubgroupWriteback) (now : TimePoint) :
    SubgroupCall → Outcome × MoqxCache × SubgroupWriteback
  | .object objID payload ext =>
    let (o, c) := w.object c objID payload ext now
    (o, c, w)
  | .beginObject objectID length initialPayload extensions =>
    w.beginObject c objectID length initialPayload extensions now
  | .objectPayload payload => w.objectPayload c payload now
  | .endOfGroup endOfGroupObjectID =>
    let (o, c) := w.endOfGroup c endOfGroupObjectID now
    (o, c, w)
  | .endOfTrackAndGroup endOfTrackObjectID =>
    let (o, c) := w.endOfTrackAndGroup c endOfTrackObjectID now
    (o, c, w)

end SubgroupWriteback

namespace FetchWriteback

def call (s : State) (now : TimePoint) : FetchCall → Outcome × State
  | .object gID sgID objID payload ext fin datagram => object s gID sgID objID payload ext fin datagram now
  | .beginObject gID sgID objID len initPayload ext => beginObject s gID sgID objID len initPayload ext now
  | .objectPayload payload finFetch => objectPayload s payload finFetch now
  | .endOfGroup gID sgID objID fin => endOfGroup s gID sgID objID fin now
  | .endOfTrackAndGroup gID sgID objID => endOfTrackAndGroup s gID sgID objID now
  | .endOfFetch => endOfFetch s
  | .reset => (.forwarded, reset s)
  | .endOfUnknownRange groupId objectId finFetch => (.forwarded, endOfUnknownRange s groupId objectId finFetch)

end FetchWriteback

/-- A fetch that is being served: it keeps its track alive. -/
structure RunningFetch where
  ftn : FullTrackName
  track : TrackRef

/-- What can happen. Writebacks and running fetches are named by the number they were given. -/
inductive CacheOp where
  | getSubscribeWriteback (ftn : FullTrackName)
  | beginSubgroup (w groupID subgroupID : Nat) (accepted : Bool)
  | objectStream (w : Nat) (header : ObjectHeader) (payload : Payload) (now : TimePoint)
  | datagram (w : Nat) (header : ObjectHeader) (payload : Payload) (now : TimePoint)
  | closeSubscribe (w : Nat)
  | subgroup (w : Nat) (call : SubgroupCall) (now : TimePoint)
  | closeSubgroup (w : Nat)
  | fetch (ftn : FullTrackName) (start «end» : AbsoluteLocation) (order : GroupOrder)
  | lookup (f : Nat) (current : AbsoluteLocation) (now : TimePoint)
  | fetchUpstream (f : Nat) (lastObject : Bool) (start «end» : AbsoluteLocation) (order : GroupOrder)
  | closeFetch (f : Nat)
  | writeback (w : Nat) (call : FetchCall) (now : TimePoint)
  /-- `fetchUpstream` also takes over the track's properties. -/
  | fetchOk (w : Nat) (fetchOk : FetchOk) (setExtensions : Bool)
  | closeWriteback (w : Nat)
  | hasCachedObject (ftn : FullTrackName) (obj : AbsoluteLocation) (now : TimePoint)
  | setTrackState (ftn : FullTrackName) (largest : Option AbsoluteLocation) (extensions : Extensions)
  | purgeTrack (ftn : FullTrackName)
  | purgeNamespace (ns : List Bytes)
  | purge
  | setMaxCachedTracks (maxTracks : Nat)
  | setMaxCachedBytes (maxBytes : Nat)
  | setMinEvictionBytes (minBytes : Nat)
  | setMaxCachedGroupsPerTrack (maxGroups : Nat)
  | setDefaultMaxCacheDuration (duration : Option Int)
  | setMaxAllowedCacheDuration (duration : Option Int)

/-! ## 2. Runs -/

structure System where
  cache : MoqxCache
  subscribes : AList (fun _ : Nat => SubscribeWriteback) := ∅
  subgroups : AList (fun _ : Nat => SubgroupWriteback) := ∅
  fetches : AList (fun _ : Nat => RunningFetch) := ∅
  writebacks : AList (fun _ : Nat => FetchWriteback) := ∅
  /-- The next number to give. -/
  next : Nat := 0

namespace System

def init (maxCachedTracks maxCachedGroupsPerTrack maxCachedBytes minEvictionBytes : Nat) : System where
  cache := .init maxCachedTracks maxCachedGroupsPerTrack maxCachedBytes minEvictionBytes

def setCache (s : System) (c : MoqxCache) : System := { s with cache := c }

/-- The result of a call that a writeback may have stopped the process in. -/
def unlessAborted (o : Outcome) (s : System) : Option System := if o = .aborted then none else some s

def openWriteback (s : System) (f : RunningFetch) (proxyFin : Bool) (start «end» : AbsoluteLocation)
    (order : GroupOrder) : System :=
  let (c, w) := FetchWriteback.open
    (s.cache, .make s.cache s.next proxyFin f.ftn f.track start «end» order)
  { s with cache := c, writebacks := s.writebacks.insert s.next w, next := s.next + 1 }

/-- A fetch of a track that is not cached goes upstream at once; others are served. -/
def fetch (s : System) (ftn : FullTrackName) (start «end» : AbsoluteLocation) (order : GroupOrder) :
    System :=
  match s.cache.cache.lookup ftn with
  | some t => { s with fetches := s.fetches.insert s.next ⟨ftn, t⟩, next := s.next + 1 }
  | none =>
    let (t, c) := s.cache.addFetchedTrack ftn
    (s.setCache c).openWriteback ⟨ftn, t⟩ true start (toExclusiveEnd «end») order

def fetchOk (s : System) (id : Nat) (w : FetchWriteback) (ok : FetchOk) (setExtensions : Bool) :
    Option System := do
  let (c, w) ← FetchWriteback.setUpstreamEnd (s.cache, w) ok.endLocation
  let c :=
    if setExtensions then c.setTrack w.track { c.track w.track with extensions := ok.extensions } else c
  return { s with
    cache := c.recordUpstreamEndOfTrack w.track ok
    writebacks := s.writebacks.insert id w }

def cacheStep (c : MoqxCache) : CacheOp → MoqxCache
  | .hasCachedObject ftn obj now =>
    match c.cache.lookup ftn with
    | some t => (c.getCachedObjectMaybe t obj now).2
    | none => c
  | .setTrackState ftn largest extensions => c.setTrackState ftn largest extensions
  | .purgeTrack ftn => (c.purgeTrack ftn).2
  | .purgeNamespace ns => (c.purgeNamespace ns).2
  | .purge => c.purge.2
  | .setMaxCachedTracks maxTracks => c.setMaxCachedTracks maxTracks
  | .setMaxCachedBytes maxBytes => c.setMaxCachedBytes maxBytes
  | .setMinEvictionBytes minBytes => c.setMinEvictionBytes minBytes
  | .setMaxCachedGroupsPerTrack maxGroups => c.setMaxCachedGroupsPerTrack maxGroups
  | .setDefaultMaxCacheDuration duration => c.setDefaultMaxCacheDuration duration
  | .setMaxAllowedCacheDuration duration => c.setMaxAllowedCacheDuration duration
  | _ => c

/-- One event; nothing if it stops the process, or names something that does not exist. -/
def step (s : System) (op : CacheOp) : Option System :=
  match op with
  | .getSubscribeWriteback ftn =>
    let (c, w) := s.cache.getSubscribeWriteback ftn
    some { s with cache := c, subscribes := s.subscribes.insert s.next w, next := s.next + 1 }
  | .beginSubgroup id groupID subgroupID accepted => do
    let w ← s.subscribes.lookup id
    match w.beginSubgroup s.cache groupID subgroupID accepted with
    | (_, c, some sub) =>
      some { s with cache := c, subgroups := s.subgroups.insert s.next sub, next := s.next + 1 }
    | (_, c, none) => some (s.setCache c)
  | .objectStream id header payload now => do
    let w ← s.subscribes.lookup id
    some (s.setCache (w.objectStream s.cache header payload now).2)
  | .datagram id header payload now => do
    let w ← s.subscribes.lookup id
    some (s.setCache (w.datagram s.cache header payload now).2)
  | .closeSubscribe id => do
    let w ← s.subscribes.lookup id
    some { s with cache := w.close s.cache, subscribes := s.subscribes.erase id }
  | .subgroup id call now => do
    let w ← s.subgroups.lookup id
    let (o, c, w) := w.call s.cache now call
    unlessAborted o { s with cache := c, subgroups := s.subgroups.insert id w }
  | .closeSubgroup id => do
    let w ← s.subgroups.lookup id
    some { s with cache := w.close s.cache, subgroups := s.subgroups.erase id }
  | .fetch ftn start «end» order => some (s.fetch ftn start «end» order)
  | .lookup id current now => do
    let f ← s.fetches.lookup id
    some (s.setCache (s.cache.getCachedObjectMaybe f.track current now).2)
  | .fetchUpstream id lastObject start «end» order => do
    let f ← s.fetches.lookup id
    some (s.openWriteback f lastObject start «end» order)
  | .closeFetch id => some { s with fetches := s.fetches.erase id }
  | .writeback id call now => do
    let w ← s.writebacks.lookup id
    let (o, c, w) := FetchWriteback.call (s.cache, w) now call
    unlessAborted o { s with cache := c, writebacks := s.writebacks.insert id w }
  | .fetchOk id ok setExtensions => do
    let w ← s.writebacks.lookup id
    s.fetchOk id w ok setExtensions
  | .closeWriteback id => do
    let w ← s.writebacks.lookup id
    some { s with
      cache := FetchWriteback.close (s.cache, w)
      writebacks := s.writebacks.erase id }
  | op => some (s.setCache (cacheStep s.cache op))

/-- The states of all runs from an empty cache, whose events all meet a condition `ok`. -/
inductive Reachable (ok : System → CacheOp → Prop) (start : System) : System → Prop where
  | start : Reachable ok start start
  | step {s s' : System} {op : CacheOp} : Reachable ok start s → ok s op → s.step op = some s' →
      Reachable ok start s'

theorem Reachable.next {ok : System → CacheOp → Prop} {start s s' : System} (h : Reachable ok start s)
    (op : CacheOp) (hok : ok s op) (hs : s.step op = some s') : Reachable ok start s' := .step h hok hs

/-! ## 3. What an event can do -/

/-- The state after an event, and what the event looked up on the way. -/
inductive Does (s : System) : CacheOp → System → Prop where
  | subscribe {ftn : FullTrackName} : Does s (.getSubscribeWriteback ftn)
      { s with
        cache := (s.cache.getSubscribeWriteback ftn).1
        subscribes := s.subscribes.insert s.next (s.cache.getSubscribeWriteback ftn).2
        next := s.next + 1 }
  /-- A subgroup that is refused, or not cached. -/
  | refused {id groupID subgroupID accepted} : Does s (.beginSubgroup id groupID subgroupID accepted) s
  | begun {id groupID subgroupID accepted w r c} (hw : s.subscribes.lookup id = some w)
      (hskip : (s.cache.track w.track).shouldSkipCaching = false)
      (hgroup : s.cache.getOrCreateGroupWithEviction w.track groupID w.ftn = (r, c)) :
      Does s (.beginSubgroup id groupID subgroupID accepted)
        { s with
          cache := c.pinGroup r w.track
          subgroups := s.subgroups.insert s.next
            { group := groupID, subgroup := subgroupID, track := w.track, cacheGroup := r, ftn := w.ftn }
          next := s.next + 1 }
  /-- Both kinds of objects that come with their headers. -/
  | header {op id header payload datagram now w} (hw : s.subscribes.lookup id = some w)
      (hop : op = if datagram then .datagram id header payload now else .objectStream id header payload now) :
      Does s op (s.setCache (w.cacheHeader s.cache header payload datagram now).2)
  | closeSubscribe {id w} (hw : s.subscribes.lookup id = some w) : Does s (.closeSubscribe id)
      { s with cache := w.close s.cache, subscribes := s.subscribes.erase id }
  | subgroup {id call now w} (hw : s.subgroups.lookup id = some w) (ho : (w.call s.cache now call).1 ≠ .aborted) :
      Does s (.subgroup id call now)
        { s with
          cache := (w.call s.cache now call).2.1
          subgroups := s.subgroups.insert id (w.call s.cache now call).2.2 }
  | closeSubgroup {id w} (hw : s.subgroups.lookup id = some w) : Does s (.closeSubgroup id)
      { s with cache := w.close s.cache, subgroups := s.subgroups.erase id }
  | serve {ftn start «end» order t} (ht : s.cache.cache.lookup ftn = some t) : Does s (.fetch ftn start «end» order)
      { s with fetches := s.fetches.insert s.next ⟨ftn, t⟩, next := s.next + 1 }
  | fetch {ftn start «end» order} (ht : s.cache.cache.lookup ftn = none) : Does s (.fetch ftn start «end» order)
      ((s.setCache (s.cache.addFetchedTrack ftn).2).openWriteback ⟨ftn, (s.cache.addFetchedTrack ftn).1⟩ true start
        (toExclusiveEnd «end») order)
  | lookup {id current now f} (hf : s.fetches.lookup id = some f) : Does s (.lookup id current now)
      (s.setCache (s.cache.getCachedObjectMaybe f.track current now).2)
  | fetchUpstream {id lastObject start «end» order f} (hf : s.fetches.lookup id = some f) :
      Does s (.fetchUpstream id lastObject start «end» order) (s.openWriteback f lastObject start «end» order)
  | closeFetch {id} : Does s (.closeFetch id) { s with fetches := s.fetches.erase id }
  | writeback {id call now w} (hw : s.writebacks.lookup id = some w)
      (ho : (FetchWriteback.call (s.cache, w) now call).1 ≠ .aborted) : Does s (.writeback id call now)
        { s with
          cache := (FetchWriteback.call (s.cache, w) now call).2.1
          writebacks := s.writebacks.insert id (FetchWriteback.call (s.cache, w) now call).2.2 }
  | fetchOk {id ok setExtensions w s'} (hw : s.writebacks.lookup id = some w)
      (hs : s.fetchOk id w ok setExtensions = some s') : Does s (.fetchOk id ok setExtensions) s'
  | closeWriteback {id w} (hw : s.writebacks.lookup id = some w) : Does s (.closeWriteback id)
      { s with cache := FetchWriteback.close (s.cache, w), writebacks := s.writebacks.erase id }
  /-- The events that only concern the cache. -/
  | cache {op} (hop : ∀ id call now, op ≠ .writeback id call now) : Does s op (s.setCache (cacheStep s.cache op))

theorem unlessAborted_some {s' d : System} {o : Outcome} (h : unlessAborted o d = some s') :
    o ≠ .aborted ∧ d = s' := by
  unfold unlessAborted at h
  split at h
  · cases h
  · rename_i ho
    exact ⟨ho, Option.some.inj h⟩

theorem step_does {s s' : System} {op : CacheOp} (hs : s.step op = some s') : Does s op s' := by
  cases op with
  | getSubscribeWriteback ftn =>
    cases hs
    exact .subscribe
  | beginSubgroup id groupID subgroupID accepted =>
    obtain ⟨w, hw, hs⟩ := Option.bind_eq_some_iff.mp hs
    unfold SubscribeWriteback.beginSubgroup at hs
    by_cases hgone : isGroupNonExistent (s.cache.track w.track).gaps groupID
    · rw [if_pos hgone] at hs
      cases hs
      exact .refused
    · rw [if_neg hgone] at hs
      by_cases hcaching : accepted && !(s.cache.track w.track).shouldSkipCaching
      · rw [if_pos hcaching] at hs
        cases hs
        exact .begun hw ((Bool.not_eq_true' _).mp (Bool.and_eq_true_iff.mp hcaching).2) rfl
      · rw [if_neg hcaching] at hs
        cases hs
        exact .refused
  | objectStream id header payload now =>
    obtain ⟨w, hw, hs⟩ := Option.bind_eq_some_iff.mp hs
    cases hs
    exact @Does.header s _ id header payload false now w hw rfl
  | datagram id header payload now =>
    obtain ⟨w, hw, hs⟩ := Option.bind_eq_some_iff.mp hs
    cases hs
    exact @Does.header s _ id header payload true now w hw rfl
  | subgroup =>
    obtain ⟨w, hw, hs⟩ := Option.bind_eq_some_iff.mp hs
    obtain ⟨ho, rfl⟩ := unlessAborted_some hs
    exact .subgroup hw ho
  | fetch ftn start stop order =>
    cases hs
    unfold System.fetch
    split
    · exact .serve ‹_›
    · exact .fetch ‹_›
  | writeback =>
    obtain ⟨w, hw, hs⟩ := Option.bind_eq_some_iff.mp hs
    obtain ⟨ho, rfl⟩ := unlessAborted_some hs
    exact .writeback hw ho
  | fetchOk =>
    obtain ⟨w, hw, hs⟩ := Option.bind_eq_some_iff.mp hs
    exact .fetchOk hw hs
  | closeFetch =>
    cases hs
    exact .closeFetch
  | closeSubscribe | closeSubgroup | lookup | fetchUpstream | closeWriteback =>
    obtain ⟨w, hw, hs⟩ := Option.bind_eq_some_iff.mp hs
    cases hs
    constructor
    exact hw
  | _ =>
    cases hs
    exact .cache nofun

end System

end Moqx

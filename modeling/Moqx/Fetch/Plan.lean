/-
  Subject: What `fetchImpl` serves from the cache and what it asks upstream for.

  * `FetchRun.turn` -- one turn of the loop when nothing else runs: every upstream request is
    answered before the loop goes on, by a parameter `answer` that says what the answer leaves in
    the cache.
-/
import Moqx.Cache.Iterator
import Moqx.Lib.Loop

namespace Moqx

/-! ## 1. Upstream requests -/

/-- Splits one contiguous run of misses into intervals, their ends excluded. Ascending fetches
    need no split. -/
def getFetchIntervals (start «end» missLocation hitLocation : AbsoluteLocation) (order : GroupOrder)
    (isTail : Bool) : List (AbsoluteLocation × AbsoluteLocation) :=
  if order ≠ .newestFirst then
    if !isTail then [(missLocation, hitLocation)] else [(missLocation, «end»)]
  else if missLocation.group = hitLocation.group then
    if !isTail then [(missLocation, hitLocation)]
    else [(missLocation, missLocation.nextGroup.getD «end»)]
  else
    let intervalEnd :=
      if missLocation.group = «end».group then «end» else missLocation.nextGroup.getD «end»
    let numIntermediateGroups := subU64 (subU64 missLocation.group hitLocation.group) 1
    let middle :=
      if 0 < numIntermediateGroups then
        if missLocation.object = 0 then
          -- coalesced with the first interval, clamped to `start` because the hit may be the
          -- sentinel `{0, 0}` of `skipUncached`
          [(max start ⟨subU64 missLocation.group numIntermediateGroups, 0⟩, intervalEnd)]
        else
          [(missLocation, intervalEnd),
            (⟨hitLocation.group + 1, if start.group = hitLocation.group + 1 then start.object else 0⟩,
              ⟨missLocation.group, 0⟩)]
      else [(missLocation, intervalEnd)]
    let lastStart := if start.group = hitLocation.group then start else ⟨hitLocation.group, 0⟩
    middle ++
      (if hitLocation.object ≠ 0 ∧ lastStart < hitLocation then [(lastStart, hitLocation)] else [])

/-! ## 2. The lookup -/

/-- The entry at a location if it is complete and not expired. An expired entry is dropped. -/
def MoqxCache.getCachedObjectMaybe (c : MoqxCache) (tr : TrackRef) (current : AbsoluteLocation)
    (now : TimePoint) : Option CacheEntry × MoqxCache :=
  let track := c.track tr
  match track.groups.lookup current.group with
  | none => (none, c)
  | some r =>
    let group := c.group r
    match group.objects.lookup current.object with
    | none => (none, c)
    | some entry =>
      let effectiveDuration := track.maxCacheDuration.or c.defaultMaxCacheDuration
      if effectiveDuration.any (ageExceeds now entry.cachedAt) then
        (none,
          (((c.subGroupBytes r entry.payloadSize).subBytes entry.payloadSize).setTrack tr
            { track with cachedContent := track.cachedContent.remove current current }).eraseObject r
              current.object)
      else if !entry.complete then (none, c)
      else (some entry, c)

/-! ## 3. The loop's body -/

/-- The local variables of `fetchImpl`. -/
structure FetchVars where
  it : FetchRangeIterator
  fetchStart : Option AbsoluteLocation := none
  lastObject : Bool := false
  servedOneObject : Bool := false

/-- What ends a run of misses: another fetch in progress there, a known gap, or a cached object. -/
inductive Boundary where
  | inProgress
  | gap
  | hit (object : CacheEntry)

namespace FetchVars

/-- The loop's condition, which recomputes the end: whether the loop is over. -/
def atEnd (c : MoqxCache) (v : FetchVars) : Bool × FetchVars :=
  let (e, it) := v.it.end c.group (c.track v.it.track)
  (decide (v.it.current = e), { v with it := it })

/-- The first half of the body: look the location up. A miss opens or prolongs a run of misses and
    jumps to the next known location; otherwise the location is a boundary. -/
def visit (c : MoqxCache) (v : FetchVars) (flushBeforeWait : Bool) (cachedNow : TimePoint) :
    Option Boundary × MoqxCache × FetchVars :=
  if flushBeforeWait then (some .inProgress, c, v)
  else
    match c.getCachedObjectMaybe v.it.track v.it.current cachedNow with
    | (some object, c) => (some (.hit object), c, v)
    | (none, c) =>
      if (c.track v.it.track).gaps.contains v.it.current then (some .gap, c, v)
      else
        (none, c,
          { v with
            fetchStart := some (v.fetchStart.getD v.it.current)
            it := v.it.skipUncached (c.track v.it.track) })

/-- The upstream requests of the pending misses, at a boundary or (`isTail`) behind the loop. -/
def pendingIntervals (v : FetchVars) (isTail : Bool) : List (AbsoluteLocation × AbsoluteLocation) :=
  match v.fetchStart with
  | none => []
  | some missLocation =>
    getFetchIntervals v.it.minLocation v.it.maxLocation missLocation v.it.current v.it.order isTail

/-- The second half, after the flush: step over the boundary. For a cached object the new value of
    `lastObject` is what it is published with. -/
def afterBoundary (c : MoqxCache) (v : FetchVars) (b : Boundary) : FetchVars :=
  let v := { v with fetchStart := none }
  match b with
  | .inProgress => v
  | .gap => { v with it := v.it.skipGaps c.group (c.track v.it.track) }
  | .hit _ =>
    let v := { v with it := v.it.next c.group (c.track v.it.track) }
    let (done, v) := v.atEnd c
    { v with lastObject := done }

end FetchVars

/-! ## 4. A run with nothing else going on -/

/-- What a fetch sends: a cached object to its consumer, or a request upstream. -/
inductive Sent where
  | hit (location : AbsoluteLocation) (object : CacheEntry) (fin : Bool)
  | upstream (start «end» : AbsoluteLocation)

def Sent.covers : Sent → AbsoluteLocation → Prop
  | .hit location _ _, l => l = location
  | .upstream start «end», l => start ≤ l ∧ l < «end» ∧ l.object ≤ kEightByteLimit

instance (e : Sent) (l : AbsoluteLocation) : Decidable (e.covers l) :=
  match e with
  | .hit location _ _ => inferInstanceAs (Decidable (l = location))
  | .upstream start «end» =>
    inferInstanceAs (Decidable (start ≤ l ∧ l < «end» ∧ l.object ≤ kEightByteLimit))

structure FetchRun where
  cache : MoqxCache
  vars : FetchVars
  sent : List Sent := []

namespace FetchRun

/-- What the answer to an upstream request leaves in the cache. -/
abbrev Answer := AbsoluteLocation × AbsoluteLocation → MoqxCache → MoqxCache

def start (c : MoqxCache) (tr : TrackRef) (start «end» : AbsoluteLocation) (order : GroupOrder) :
    FetchRun where
  cache := c
  vars := { it := .construct c.group (c.track tr) start «end» order tr }

def turn (answer : Answer) (now : TimePoint) (s : FetchRun) : Option FetchRun :=
  let (done, v) := s.vars.atEnd s.cache
  if done then none
  else
    match v.visit s.cache false now with
    | (none, c, v) => some { s with cache := c, vars := v }
    | (some b, c, v) =>
      let requests := v.pendingIntervals false
      let c := requests.foldl (fun c r => answer r c) c
      let v' := v.afterBoundary c b
      some
        { cache := c
          vars := { v' with servedOneObject := v'.servedOneObject || b matches .hit _ }
          sent := s.sent ++ requests.map (fun r => .upstream r.1 r.2) ++
            match b with
            | .hit object => [.hit v.it.current object v'.lastObject]
            | _ => [] }

/-- What the fetch has sent once it has requested the misses still pending behind the loop. -/
def total (s : FetchRun) : List Sent :=
  s.sent ++ (s.vars.pendingIntervals true).map fun r => .upstream r.1 r.2

end FetchRun

end Moqx

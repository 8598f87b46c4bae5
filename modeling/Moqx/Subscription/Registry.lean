/-
  Subject: THE SUBSCRIPTION REGISTRY: one entry for each track that is subscribed upstream or published.

  * `SubscriptionRegistry` -- the map, and the counter of epochs;
  * `createFromPublish` -- a publisher puts an entry of its own in place;
  * `onPublisherTerminated`, `remove`, `removeIf` -- entries end;
  * `System`, `step`, `run` -- the registry with the pending handles and the waiting coroutines around it.

  The epoch counter is taken not to wrap. What an entry keeps for the filter chain (top-N filter, chain
  head, ingest counters, time of the last object) decides nothing here and is left out.
-/
import Moqx.Lib.Table
import Moqx.Types

namespace Moqx

/-! ## 1. Entries -/

abbrev EntryEpoch := Nat

/-- A reference to a forwarder: nothing, one of this executor, or one that lives on another executor. -/
inductive ForwarderRef where
  | empty
  | owned (forwarder : Nat)
  | remote (forwarder : Nat)
  deriving DecidableEq, Repr

/-- `folly::coro::SharedPromise<folly::Unit>`, and the state a future of it shows. -/
inductive SharedPromise where
  | pending
  | value
  | exception
  deriving DecidableEq, Repr

def SharedPromise.isFulfilled (promise : SharedPromise) : Bool := promise ≠ .pending

structure RelaySubscription where
  /-- Which object this is: the number of the call that made it. No function looks at it. -/
  id : Nat
  forwarder : ForwarderRef
  epoch : EntryEpoch
  upstream : Option SessionRef := none
  publisher : Option Nat := none
  requestID : Nat := 0
  handle : Option Nat := none
  promise : SharedPromise := .pending
  isPublish : Bool := false
  deriving DecidableEq, Repr

structure SubscriptionRegistry where
  subscriptions : AList (fun _ : FullTrackName => RelaySubscription) := ∅
  epochCounter : Nat := 0

/-- What the first subscriber holds until the upstream subscribe is answered. -/
structure UpstreamSubscribePending where
  /-- The call that returned it. -/
  id : Nat
  ftn : FullTrackName
  epoch : EntryEpoch
  active : Bool := true
  deriving DecidableEq, Repr

/-- What `complete` is given. -/
structure Completion where
  handle : Nat
  requestID : Nat
  upstreamSession : SessionRef
  publisher : Nat

/-- What `createFromPublish` is given. -/
structure Publication where
  forwarder : ForwarderRef
  session : SessionRef
  publisher : Nat
  requestID : Nat
  handle : Option Nat

/-- What `removeIf` shows to its predicate. -/
structure EntryView where
  ftn : FullTrackName
  forwarder : ForwarderRef
  upstream : Option SessionRef
  isPublish : Bool

structure Evicted where
  forwarder : ForwarderRef
  handle : Option Nat
  deriving DecidableEq, Repr

inductive SubscribeResult where
  | firstSubscriber (pending : UpstreamSubscribePending)
  | awaitSubsequent (future : RelaySubscription)
  | noPublisher

namespace SubscriptionRegistry

def find (registry : SubscriptionRegistry) (ftn : FullTrackName) : Option RelaySubscription :=
  registry.subscriptions.lookup ftn

def put (ftn : FullTrackName) (entry : RelaySubscription) (registry : SubscriptionRegistry) :
    SubscriptionRegistry :=
  { registry with subscriptions := registry.subscriptions.insert ftn entry }

def erase (ftn : FullTrackName) (registry : SubscriptionRegistry) : SubscriptionRegistry :=
  { registry with subscriptions := registry.subscriptions.erase ftn }

/-- `nextEpoch()`. -/
def nextEpoch (registry : SubscriptionRegistry) : SubscriptionRegistry × EntryEpoch :=
  ({ registry with epochCounter := registry.epochCounter + 1 }, registry.epochCounter + 1)

/-! ## 2. The subscribe path -/

/-- `ref` is what `refMaker` answers for a new forwarder. The later subscribers get a future of the entry's
    promise. -/
def getOrCreateFromSubscribe (call : Nat) (ftn : FullTrackName) (ref : Option ForwarderRef)
    (registry : SubscriptionRegistry) : SubscriptionRegistry × SubscribeResult :=
  match registry.find ftn with
  | none =>
    match ref with
    | none => (registry, .noPublisher)
    | some forwarder =>
      let (registry, epoch) := registry.nextEpoch
      (registry.put ftn { id := call, forwarder, epoch }, .firstSubscriber { id := call, ftn, epoch })
  | some entry => (registry, .awaitSubsequent entry)

/-- The answer is missing where `setValue` throws because the promise is already satisfied. -/
def completeSubscription (ftn : FullTrackName) (epoch : EntryEpoch) (completion : Completion)
    (registry : SubscriptionRegistry) : SubscriptionRegistry × Option Bool :=
  match registry.find ftn with
  | none => (registry, some false)
  | some rsub =>
    if rsub.epoch ≠ epoch then (registry, some false)
    else
      let rsub := { rsub with
        handle := some completion.handle
        requestID := completion.requestID
        upstream := some completion.upstreamSession
        publisher := some completion.publisher }
      if rsub.promise.isFulfilled then (registry.put ftn rsub, none)
      else (registry.put ftn { rsub with promise := .value }, some true)

/-- `none`: `setException` throws, out of a destructor. -/
def failAndRemove (ftn : FullTrackName) (epoch : EntryEpoch) (registry : SubscriptionRegistry) :
    Option SubscriptionRegistry :=
  match registry.find ftn with
  | none => some registry
  | some rsub =>
    if rsub.epoch = epoch then
      if rsub.promise.isFulfilled then none else some (registry.erase ftn)
    else some registry

/-- The object that these two find, if they find one. -/
def settled (registry : SubscriptionRegistry) (pending : UpstreamSubscribePending) : List Nat :=
  (((registry.find pending.ftn).filter (·.epoch = pending.epoch)).map (·.id)).toList

/-! ## 3. The publish path -/

def createFromPublish (call : Nat) (ftn : FullTrackName) (publication : Publication)
    (registry : SubscriptionRegistry) : SubscriptionRegistry × Option Evicted :=
  let evicted := (registry.find ftn).map fun old => { forwarder := old.forwarder, handle := old.handle }
  let (registry, epoch) := (registry.erase ftn).nextEpoch
  (registry.put ftn
    { id := call
      forwarder := publication.forwarder
      epoch
      upstream := some publication.session
      publisher := some publication.publisher
      requestID := publication.requestID
      handle := publication.handle
      promise := .value
      isPublish := true },
    evicted)

/-! ## 4. Ends -/

/-- `empty` is what the forwarder answers. `none`: the check that the forwarder is owned fails, and the
    process stops. -/
def onPublisherTerminated (ftn : FullTrackName) (empty : Bool) (registry : SubscriptionRegistry) :
    Option (SubscriptionRegistry × ForwarderRef) :=
  match registry.find ftn with
  | none => some (registry, .empty)
  | some rsub =>
    match rsub.forwarder with
    | .owned forwarder =>
      if empty then some (registry.erase ftn, .empty)
      else some
        (registry.put ftn { rsub with handle := none, upstream := none, publisher := none }, .owned forwarder)
    | _ => none

def remove (ftn : FullTrackName) (registry : SubscriptionRegistry) : SubscriptionRegistry := registry.erase ftn

def view (ftn : FullTrackName) (rsub : RelaySubscription) : EntryView :=
  { ftn, forwarder := rsub.forwarder, upstream := rsub.upstream, isPublish := rsub.isPublish }

def removeIf (predicate : EntryView → Bool) (registry : SubscriptionRegistry) : SubscriptionRegistry :=
  { registry with
    subscriptions := Table.keepIf (fun ftn rsub => !predicate (view ftn rsub)) registry.subscriptions }

end SubscriptionRegistry

/-! ## 5. The registry with its callers -/

/-- A coroutine `awaitSubsequent`: the entry whose promise it waits for, and what its future shows. -/
structure AwaitSubsequent where
  ftn : FullTrackName
  entry : Nat
  future : SharedPromise
  deriving DecidableEq, Repr

namespace Subscription

structure System where
  registry : SubscriptionRegistry := {}
  /-- The handles that still exist, by the call that returned them. -/
  handles : AList (fun _ : Nat => UpstreamSubscribePending) := ∅
  /-- The coroutines that have not returned yet, by the call that started them. -/
  waiting : AList (fun _ : Nat => AwaitSubsequent) := ∅
  calls : Nat := 0

inductive Op where
  | subscribe (ftn : FullTrackName) (ref : Option ForwarderRef)
  | complete (pending : Nat) (completion : Completion)
  | drop (pending : Nat)
  | createFromPublish (ftn : FullTrackName) (publication : Publication)
  | terminate (ftn : FullTrackName) (empty : Bool)
  | remove (ftn : FullTrackName)
  | removeIf (predicate : EntryView → Bool)
  | resume (waiter : Nat)

inductive Reply where
  | done
  | first
  | waits
  | noPublisher
  /-- `complete` returned. -/
  | completed (result : Bool)
  /-- `complete` threw `PromiseAlreadySatisfied`. -/
  | satisfied
  /-- The coroutine returned a `SubsequentSubscriber` made from this entry. -/
  | subsequent (entry : RelaySubscription)
  /-- The coroutine threw. -/
  | failed
  deriving DecidableEq, Repr

structure Result where
  system : System
  reply : Reply := .done
  /-- The entries whose promise was fulfilled by the call. -/
  fulfilled : List Nat := []

abbrev Waiting := AList (fun _ : Nat => AwaitSubsequent)

/-- The promises of these entries are settled, and the futures that wait for them show it: `value` and
    `exception` where they are fulfilled, `exception` also where they are destroyed before that. -/
def notify (entries : List Nat) (outcome : SharedPromise) (waiting : Waiting) : Waiting :=
  Table.mapValues (fun _ waiter =>
    if waiter.entry ∈ entries ∧ waiter.future = .pending then { waiter with future := outcome } else waiter)
    waiting

/-- The objects that stand in a map and no longer in another. -/
def destroyed (before after : SubscriptionRegistry) : List Nat :=
  (before.subscriptions.entries.filter fun e => (after.find e.1).map (·.id) ≠ some e.2.id).map (·.2.id)

namespace System

/-- The registry is replaced; the entries that are gone have broken their promises. -/
def withRegistry (s : System) (registry : SubscriptionRegistry) : System :=
  { s with registry, waiting := notify (destroyed s.registry registry) .exception s.waiting }

def subscribe (s : System) (ftn : FullTrackName) (ref : Option ForwarderRef) : Result :=
  match s.registry.getOrCreateFromSubscribe s.calls ftn ref with
  | (registry, .firstSubscriber pending) =>
    { system := { s with registry, handles := s.handles.insert s.calls pending }, reply := .first }
  | (registry, .awaitSubsequent entry) =>
    { system := { s with
        registry
        waiting := s.waiting.insert s.calls { ftn, entry := entry.id, future := entry.promise } }
      reply := .waits }
  | (registry, .noPublisher) => { system := { s with registry }, reply := .noPublisher }

/-- `UpstreamSubscribePending::complete`. -/
def complete (s : System) (pending : Nat) (completion : Completion) : Result :=
  match s.handles.lookup pending with
  | none => { system := s }
  | some handle =>
    let handles := s.handles.insert pending { handle with active := false }
    match s.registry.completeSubscription handle.ftn handle.epoch completion with
    | (registry, none) => { system := { s with registry, handles }, reply := .satisfied }
    | (registry, some false) => { system := { s with registry, handles }, reply := .completed false }
    | (registry, some true) =>
      let entry := s.registry.settled handle
      { system := { s with registry, handles, waiting := notify entry .value s.waiting }
        reply := .completed true
        fulfilled := entry }

/-- `~UpstreamSubscribePending`. -/
def drop (s : System) (pending : Nat) : Option Result :=
  match s.handles.lookup pending with
  | none => some { system := s }
  | some handle =>
    let s := { s with handles := s.handles.erase pending }
    if handle.active then
      (s.registry.failAndRemove handle.ftn handle.epoch).map fun registry =>
        { system := s.withRegistry registry, fulfilled := s.registry.settled handle }
    else some { system := s }

/-- The rest of `awaitSubsequent`, once its future is there: it looks the entry up again. -/
def resume (s : System) (waiter : Nat) : Result :=
  match s.waiting.lookup waiter with
  | none => { system := s }
  | some await =>
    let returned := { s with waiting := s.waiting.erase waiter }
    match await.future with
    | .pending => { system := s, reply := .waits }
    | .exception => { system := returned, reply := .failed }
    | .value =>
      match s.registry.find await.ftn with
      | none => { system := returned, reply := .failed }
      | some entry => { system := returned, reply := .subsequent entry }

def act (s : System) : Op → Option Result
  | .subscribe ftn ref => some (s.subscribe ftn ref)
  | .complete pending completion => some (s.complete pending completion)
  | .drop pending => s.drop pending
  | .createFromPublish ftn publication =>
    some { system := s.withRegistry (s.registry.createFromPublish s.calls ftn publication).1
           fulfilled := [s.calls] }
  | .terminate ftn empty =>
    (s.registry.onPublisherTerminated ftn empty).map fun r => { system := s.withRegistry r.1 }
  | .remove ftn => some { system := s.withRegistry (s.registry.remove ftn) }
  | .removeIf predicate => some { system := s.withRegistry (s.registry.removeIf predicate) }
  | .resume waiter => some (s.resume waiter)

/-- One call; `none` where the process stops. -/
def step (s : System) (op : Op) : Option Result :=
  (s.act op).map fun r => { r with system := { r.system with calls := s.calls + 1 } }

/-- The calls one after the other: the state, and the entries whose promise was fulfilled, in order. -/
def runFrom (s : System) (log : List Nat) : List Op → Option (System × List Nat)
  | [] => some (s, log)
  | op :: ops => (s.step op).bind fun r => runFrom r.system (log ++ r.fulfilled) ops

def run (ops : List Op) : Option (System × List Nat) := runFrom {} [] ops

end System

end Subscription

end Moqx

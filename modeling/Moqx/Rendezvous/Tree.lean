/-
  Subject: SUBSCRIBEs THAT WAIT for a track nobody publishes yet, kept by namespace.

  * `PendingRendezvousTree` -- a trie of namespaces, with the waiters of each track at its namespace;
  * `addWaiter`, `eraseWaiter` -- one waiter comes and goes;
  * `wakeForTrack`, `wakeUnderNamespace` -- a PUBLISH or a PUBLISH_NAMESPACE signals those it is for;
  * `Op`, `step`, `run` -- the calls, one after the other.

  A signalled waiter may run at once and call `eraseWaiter` while the others are still being signalled.
-/
import Moqx.Lib.Trie
import Moqx.Types

namespace Moqx

/-- Waiters are compared by the address of their baton. -/
abbrev Waiter := Nat

abbrev WaitersByTrack := AList (fun _ : Bytes => List Waiter)

abbrev PendingRendezvousTree := Trie Bytes WaitersByTrack

namespace PendingRendezvousTree

/-- `waitersByTrack.empty()`. -/
def noWaiters (waitersByTrack : WaitersByTrack) : Bool := waitersByTrack.entries.isEmpty

def newTree : PendingRendezvousTree := ⟨∅, .none⟩

def addWaiter (ftn : FullTrackName) (waiter : Waiter) (tree : PendingRendezvousTree) : PendingRendezvousTree :=
  tree.create ∅ (fun waitersByTrack =>
    waitersByTrack.insert ftn.trackName ((waitersByTrack.lookup ftn.trackName).getD [] ++ [waiter]))
    ftn.trackNamespace

/-- Walks down to the node of a namespace, and prunes on the way back up. -/
def applyAtNamespaceNode (ns : List Bytes)
    (onNode : PendingRendezvousTree → PendingRendezvousTree × List Waiter) (tree : PendingRendezvousTree) :
    PendingRendezvousTree × List Waiter :=
  tree.apply noWaiters onNode ns

def eraseAt (trackName : Bytes) (waiter : Waiter) (node : PendingRendezvousTree) :
    PendingRendezvousTree × List Waiter :=
  match node.val.lookup trackName with
  | none => (node, [])
  | some waiters =>
    let waiters := waiters.filter (· ≠ waiter)
    ({ node with val :=
        if waiters.isEmpty then node.val.erase trackName else node.val.insert trackName waiters }, [])

def eraseWaiter (ftn : FullTrackName) (waiter : Waiter) (tree : PendingRendezvousTree) :
    PendingRendezvousTree :=
  (tree.applyAtNamespaceNode ftn.trackNamespace (eraseAt ftn.trackName waiter)).1

/-- All waiters of the node, then those of its children; the node is left empty. -/
def collectSubtree (node : PendingRendezvousTree) : PendingRendezvousTree × List Waiter :=
  (newTree, node.toList.flatMap fun x => x.2.entries.flatMap (·.2))

def takeTrack (trackName : Bytes) (node : PendingRendezvousTree) : PendingRendezvousTree × List Waiter :=
  match node.val.lookup trackName with
  | none => (node, [])
  | some waiters => ({ node with val := node.val.erase trackName }, waiters)

/-- Signals the waiters one by one. `erases` is the call of `eraseWaiter` that a waiter makes at once,
    if it makes one. -/
def signalAll (erases : Waiter → Option FullTrackName) (toWake : List Waiter) (tree : PendingRendezvousTree) :
    PendingRendezvousTree :=
  toWake.foldl (fun tree waiter =>
    match erases waiter with
    | none => tree
    | some ftn => eraseWaiter ftn waiter tree) tree

/-- The tree afterwards, and the waiters in the order in which they were signalled. -/
def wakeForTrack (ftn : FullTrackName) (erases : Waiter → Option FullTrackName) (tree : PendingRendezvousTree) :
    PendingRendezvousTree × List Waiter :=
  let result := tree.applyAtNamespaceNode ftn.trackNamespace (takeTrack ftn.trackName)
  (signalAll erases result.2 result.1, result.2)

def wakeUnderNamespace (ns : List Bytes) (erases : Waiter → Option FullTrackName)
    (tree : PendingRendezvousTree) : PendingRendezvousTree × List Waiter :=
  let result := tree.applyAtNamespaceNode ns collectSubtree
  (signalAll erases result.2 result.1, result.2)

inductive Op where
  | addWaiter (ftn : FullTrackName) (waiter : Waiter)
  | eraseWaiter (ftn : FullTrackName) (waiter : Waiter)
  | wakeForTrack (ftn : FullTrackName) (erases : Waiter → Option FullTrackName)
  | wakeUnderNamespace (ns : List Bytes) (erases : Waiter → Option FullTrackName)

/-- The tree after a call, and the waiters it signalled. -/
def step (tree : PendingRendezvousTree) : Op → PendingRendezvousTree × List Waiter
  | .addWaiter ftn waiter => (tree.addWaiter ftn waiter, [])
  | .eraseWaiter ftn waiter => (tree.eraseWaiter ftn waiter, [])
  | .wakeForTrack ftn erases => tree.wakeForTrack ftn erases
  | .wakeUnderNamespace ns erases => tree.wakeUnderNamespace ns erases

def run (ops : List Op) : PendingRendezvousTree := ops.foldl (fun tree op => (tree.step op).1) newTree

end PendingRendezvousTree

end Moqx

/-
  Subject: THE FORWARDERS OF ONE THREAD, by track: absent, pending or ready.

  * `LocalForwarderRegistry` -- the entries, and the forwarders that were displaced and parked;
  * `join`, `replace`, `replaceAndPark` -- a forwarder is installed, pending, and a `Claim` owes its resolution;
  * `markReady`, `fail`, `remove` -- an entry is resolved or vacated, and the promise of it fulfilled;
  * `takeDisplaced` -- a parked forwarder is released;
  * `System`, `step`, `run` -- the registry with the claims, tickets and futures that are out;
  * `Does`, `step_does` -- what one call can do to all of these.

  A promise is a number; to fulfil it is to append it to a log. The checks that stop the process end a run.
-/
import Moqx.Lib.Table
import Moqx.Types

namespace Moqx

open Option

/-! ## 1. The registry -/

/-- `ready` is the promise of a pending entry. -/
structure LocalForwarderEntry where
  forwarder : Nat
  ready : Option Nat := none
  deriving DecidableEq, Repr

inductive Fulfilment where
  | value
  | exception (what : String)
  deriving DecidableEq, Repr

structure LocalForwarderRegistry where
  forwarders : AList (fun _ : FullTrackName => LocalForwarderEntry) := ∅
  displaced : AList (fun _ : FullTrackName => List Nat) := ∅

structure Claim where
  ftn : FullTrackName
  forwarder : Nat
  initialStateSet : Bool := false
  deriving DecidableEq, Repr

inductive Park where
  | no
  | yes
  deriving DecidableEq, Repr

inductive JoinResult where
  | claim (claim : Claim)
  | pending (ready : Nat)
  | ready (forwarder : Nat)

namespace LocalForwarderRegistry

def parked (registry : LocalForwarderRegistry) (ftn : FullTrackName) : List Nat :=
  (registry.displaced.lookup ftn).getD []

/-- The new entry, the claim for it, and the key of the ticket for the forwarder it displaced. -/
def makePending (ftn : FullTrackName) (forwarder : Nat) (park : Park) (ready : Nat)
    (registry : LocalForwarderRegistry) : LocalForwarderRegistry × Claim × Option Nat :=
  let displaced := (registry.forwarders.lookup ftn).map (·.forwarder)
  let entry := registry.forwarders.insert ftn { forwarder, ready := some ready }
  match park, displaced with
  | .yes, some old =>
    ({ forwarders := entry, displaced := registry.displaced.insert ftn (registry.parked ftn ++ [old]) },
      { ftn, forwarder }, some old)
  | _, _ => ({ registry with forwarders := entry }, { ftn, forwarder }, none)

/-- `fresh` is the promise that is made if the entry is not pending already. `none`: the check that the
    forwarder does not hold the entry already fails. -/
def replaceImpl (ftn : FullTrackName) (forwarder : Nat) (park : Park) (fresh : Nat)
    (registry : LocalForwarderRegistry) : Option (LocalForwarderRegistry × Claim × Option Nat) :=
  match registry.forwarders.lookup ftn with
  | some entry =>
    if entry.forwarder = forwarder then none
    else some (registry.makePending ftn forwarder park (entry.ready.getD fresh))
  | none => some (registry.makePending ftn forwarder park fresh)

/-- `factory` is the forwarder that the factory would make. -/
def join (ftn : FullTrackName) (factory : Nat) (fresh : Nat) (registry : LocalForwarderRegistry) :
    LocalForwarderRegistry × JoinResult :=
  match registry.forwarders.lookup ftn with
  | some entry =>
    match entry.ready with
    | some ready => (registry, .pending ready)
    | none => (registry, .ready entry.forwarder)
  | none =>
    let (registry, claim, _) := registry.makePending ftn factory .no fresh
    (registry, .claim claim)

/-- The promise of the track's entry if that is pending and still holds `owner`. -/
def findPendingOwnedBy (ftn : FullTrackName) (owner : Nat) (registry : LocalForwarderRegistry) : Option Nat :=
  match registry.forwarders.lookup ftn with
  | some entry => if entry.forwarder = owner then entry.ready else none
  | none => none

def markReady (ftn : FullTrackName) (owner : Nat) (registry : LocalForwarderRegistry) :
    LocalForwarderRegistry × List (Nat × Fulfilment) :=
  match registry.findPendingOwnedBy ftn owner with
  | none => (registry, [])
  | some ready =>
    ({ registry with forwarders := registry.forwarders.insert ftn { forwarder := owner } }, [(ready, .value)])

def fail (ftn : FullTrackName) (owner : Nat) (ew : String) (registry : LocalForwarderRegistry) :
    LocalForwarderRegistry × List (Nat × Fulfilment) :=
  match registry.findPendingOwnedBy ftn owner with
  | none => (registry, [])
  | some ready => ({ registry with forwarders := registry.forwarders.erase ftn }, [(ready, .exception ew)])

/-- Also the vacated forwarder. -/
def remove (ftn : FullTrackName) (expected : Nat) (registry : LocalForwarderRegistry) :
    LocalForwarderRegistry × Option Nat × List (Nat × Fulfilment) :=
  match registry.forwarders.lookup ftn with
  | some entry =>
    if entry.forwarder = expected then
      ({ registry with forwarders := registry.forwarders.erase ftn }, some entry.forwarder,
        entry.ready.toList.map fun ready => (ready, .exception "local forwarder removed"))
    else (registry, none, [])
  | none => (registry, none, [])

def takeDisplaced (ftn : FullTrackName) (ticket : Option Nat) (registry : LocalForwarderRegistry) :
    LocalForwarderRegistry × Option Nat :=
  match ticket with
  | none => (registry, none)
  | some expected =>
    match registry.displaced.lookup ftn with
    | none => (registry, none)
    | some parked =>
      if expected ∈ parked then
        let rest := parked.erase expected
        ({ registry with displaced :=
            if rest.isEmpty then registry.displaced.erase ftn else registry.displaced.insert ftn rest },
          some expected)
      else (registry, none)

end LocalForwarderRegistry

/-! ## 2. The registry with what is out -/

namespace LocalForwarder

structure System where
  registry : LocalForwarderRegistry := {}
  /-- The engaged claims, by the variable that holds them. -/
  claims : AList (fun _ : Nat => Claim) := ∅
  /-- The tickets that are not redeemed, each with the track it was given for. -/
  tickets : AList (fun _ : Nat => FullTrackName × Nat) := ∅
  /-- The ready futures handed out, with the track they were asked for. -/
  futures : List (FullTrackName × Nat) := []
  /-- The promises fulfilled so far, in order. -/
  fulfilled : List (Nat × Fulfilment) := []
  /-- The forwarders installed so far. -/
  installed : List Nat := []
  /-- A number for new promises, variables and tickets. -/
  next : Nat := 0

inductive Op where
  | join (ftn : FullTrackName) (factory : Nat)
  | lookup (ftn : FullTrackName)
  | replace (ftn : FullTrackName) (forwarder : Nat)
  | replaceAndPark (ftn : FullTrackName) (forwarder : Nat)
  | setInitialState (claim : Nat)
  | markReady (claim : Nat)
  | fail (claim : Nat) (ew : String)
  | move (source target : Nat)
  | drop (claim : Nat)
  | remove (ftn : FullTrackName) (expected : Nat)
  | takeDisplaced (ticket : Nat)

namespace System

/-- A forwarder was installed: its claim goes into a new variable, a ticket for the displaced one into
    another. -/
def installing (s : System) (ftn : FullTrackName) (forwarder : Nat)
    (made : LocalForwarderRegistry × Claim × Option Nat) : System :=
  { s with
    registry := made.1
    claims := s.claims.insert s.next made.2.1
    tickets := match made.2.2 with
      | none => s.tickets
      | some key => s.tickets.insert s.next (ftn, key)
    installed := forwarder :: s.installed
    next := s.next + 1 }

/-- `Claim::markReady()`, once its check has passed. -/
def resolveReady (s : System) (slot : Nat) (claim : Claim) : System :=
  let (registry, done) := s.registry.markReady claim.ftn claim.forwarder
  { s with registry, claims := s.claims.erase slot, fulfilled := s.fulfilled ++ done }

/-- `Claim::fail` and `resolveIfEngaged`. -/
def resolveFailed (s : System) (slot : Nat) (ew : String) : System :=
  match s.claims.lookup slot with
  | none => s
  | some claim =>
    let (registry, done) := s.registry.fail claim.ftn claim.forwarder ew
    { s with registry, claims := s.claims.erase slot, fulfilled := s.fulfilled ++ done }

/-- `Claim::operator=`: the target's own claim is failed, then it takes over the source's. -/
def move (s : System) (source target : Nat) : System :=
  if source = target then s
  else
    let s := s.resolveFailed target "local forwarder claim overwritten"
    match s.claims.lookup source with
    | none => s
    | some claim =>
      { s with claims := (s.claims.erase source).insert target claim, next := max s.next (target + 1) }

/-- The state after a call, and the forwarder it returned; `none` where a check stops the process. -/
def step (s : System) : Op → Option (System × Option Nat)
  | .join ftn factory =>
    match s.registry.join ftn factory s.next with
    | (registry, .claim claim) => some (s.installing ftn factory (registry, claim, none), none)
    | (_, .pending ready) => some ({ s with futures := (ftn, ready) :: s.futures }, none)
    | (_, .ready forwarder) => some (s, some forwarder)
  | .lookup ftn =>
    match s.registry.forwarders.lookup ftn with
    | none => some (s, none)
    | some entry =>
      match entry.ready with
      | some ready => some ({ s with futures := (ftn, ready) :: s.futures }, none)
      | none => some (s, some entry.forwarder)
  | .replace ftn forwarder =>
    (s.registry.replaceImpl ftn forwarder .no s.next).map fun made => (s.installing ftn forwarder made, none)
  | .replaceAndPark ftn forwarder =>
    (s.registry.replaceImpl ftn forwarder .yes s.next).map fun made => (s.installing ftn forwarder made, none)
  | .setInitialState slot =>
    match s.claims.lookup slot with
    | none => none
    | some claim =>
      some ({ s with claims := s.claims.insert slot { claim with initialStateSet := true } }, none)
  | .markReady slot =>
    match s.claims.lookup slot with
    | none => some (s, none)
    | some claim => if claim.initialStateSet then some (s.resolveReady slot claim, none) else none
  | .fail slot ew => some (s.resolveFailed slot ew, none)
  | .move source target => some (s.move source target, none)
  | .drop slot => some (s.resolveFailed slot "local forwarder claim dropped", none)
  | .remove ftn expected =>
    let (registry, vacated, done) := s.registry.remove ftn expected
    some ({ s with registry, fulfilled := s.fulfilled ++ done }, vacated)
  | .takeDisplaced ticket =>
    match s.tickets.lookup ticket with
    | none => some (s, none)
    | some (ftn, key) =>
      let (registry, forwarder) := s.registry.takeDisplaced ftn (some key)
      some ({ s with registry, tickets := s.tickets.erase ticket }, forwarder)

/-- The forwarder that a call installs, if it installs one. -/
def installs (s : System) : Op → Option Nat
  | .join ftn factory => if (s.registry.forwarders.lookup ftn).isNone then some factory else none
  | .replace _ forwarder => some forwarder
  | .replaceAndPark _ forwarder => some forwarder
  | _ => none

def runFrom (s : System) : List Op → Option System
  | [] => some s
  | op :: ops => (s.step op).bind fun r => runFrom r.1 ops

def run (ops : List Op) : Option System := runFrom {} ops

/-- No call installs a forwarder that was installed before. -/
def InstalledOnce (s : System) : List Op → Prop
  | [] => True
  | op :: ops => (∀ f, s.installs op = some f → f ∉ s.installed) ∧
    ∀ r, s.step op = some r → InstalledOnce r.1 ops

/-! ## 3. What a call can do -/

/-- `p` is the promise of the track's entry if that is pending, and a new one if it is not. -/
def Inherits (s : System) (ftn : FullTrackName) (p : Nat) : Prop :=
  (∃ e, s.registry.forwarders.lookup ftn = some e ∧ e.ready = some p) ∨
    (p = s.next ∧ ∀ e, s.registry.forwarders.lookup ftn = some e → e.ready = none)

inductive Does (s : System) : System → Prop
  | same : Does s s
  | hand {ftn : FullTrackName} {e : LocalForwarderEntry} {p : Nat}
      (he : s.registry.forwarders.lookup ftn = some e) (hready : e.ready = some p) :
      Does s { s with futures := (ftn, p) :: s.futures }
  | install {ftn : FullTrackName} {f p : Nat} (park : Park) (hf : f ∉ s.installed) (hp : s.Inherits ftn p) :
      Does s (s.installing ftn f (s.registry.makePending ftn f park p))
  | setInitialState {i : Nat} {c : Claim} (hc : s.claims.lookup i = some c) :
      Does s { s with claims := s.claims.insert i { c with initialStateSet := true } }
  | markReady {i : Nat} {c : Claim} (hc : s.claims.lookup i = some c) : Does s (s.resolveReady i c)
  | fail {i : Nat} (ew : String) : Does s (s.resolveFailed i ew)
  | move (source target : Nat) : Does s (s.move source target)
  | remove (ftn : FullTrackName) (expected : Nat) :
      Does s { s with
        registry := (s.registry.remove ftn expected).1
        fulfilled := s.fulfilled ++ (s.registry.remove ftn expected).2.2 }
  | takeDisplaced {t : Nat} {ftn : FullTrackName} {key : Nat} (ht : s.tickets.lookup t = some (ftn, key)) :
      Does s { s with
        registry := (s.registry.takeDisplaced ftn (some key)).1
        tickets := s.tickets.erase t }

variable {s : System} {ftn : FullTrackName} {f p : Nat}

theorem makePending_forwarders {registry : LocalForwarderRegistry} {park : Park} :
    (registry.makePending ftn f park p).1.forwarders = registry.forwarders.insert ftn ⟨f, some p⟩ ∧
    (registry.makePending ftn f park p).2.1 = ⟨ftn, f, false⟩ := by
  cases park with
  | no => exact ⟨rfl, rfl⟩
  | yes =>
    simp only [LocalForwarderRegistry.makePending]
    cases registry.forwarders.lookup ftn with
    | none => exact ⟨rfl, rfl⟩
    | some e => exact ⟨rfl, rfl⟩

theorem inherits_next (he : s.registry.forwarders.lookup ftn = none) : s.Inherits ftn s.next := by
  refine .inr ⟨rfl, fun e he' => ?_⟩
  rw [he] at he'
  cases he'

theorem replaceImpl_does {park : Park} {made : LocalForwarderRegistry × Claim × Option Nat}
    (hf : f ∉ s.installed) (hmade : s.registry.replaceImpl ftn f park s.next = some made) :
    Does s (s.installing ftn f made) := by
  rw [LocalForwarderRegistry.replaceImpl] at hmade
  cases he : s.registry.forwarders.lookup ftn with
  | none =>
    simp only [he, some.injEq] at hmade
    rw [← hmade]
    exact .install park hf (inherits_next he)
  | some e =>
    simp only [he] at hmade
    split at hmade
    · cases hmade
    · cases hmade
      refine .install park hf ?_
      cases hready : e.ready with
      | none =>
        refine .inr ⟨rfl, fun e' he' => ?_⟩
        rw [he] at he'
        cases he'
        exact hready
      | some p => exact .inl ⟨e, he, hready⟩

theorem found_does {e : LocalForwarderEntry} (he : s.registry.forwarders.lookup ftn = some e)
    {r : System × Option Nat}
    (hr : (match e.ready with
      | some ready => some ({ s with futures := (ftn, ready) :: s.futures }, none)
      | none => some (s, some e.forwarder)) = some r) : Does s r.1 := by
  cases hready : e.ready with
  | none =>
    simp only [hready, some.injEq] at hr
    rw [← hr]
    exact .same
  | some p =>
    simp only [hready, some.injEq] at hr
    rw [← hr]
    exact .hand he hready

theorem step_does {op : Op} {r : System × Option Nat}
    (hnew : ∀ f, s.installs op = some f → f ∉ s.installed) (hr : s.step op = some r) : Does s r.1 := by
  cases op with
  | join ftn factory =>
    simp only [System.step, LocalForwarderRegistry.join] at hr
    cases he : s.registry.forwarders.lookup ftn with
    | none =>
      simp only [he, some.injEq] at hr
      rw [← hr]
      refine .install .no (hnew factory ?_) (inherits_next he)
      simp only [installs, he, isNone_none, if_true]
    | some e =>
      refine found_does he ?_
      cases hready : e.ready with
      | none => simpa only [he, hready] using hr
      | some p => simpa only [he, hready] using hr
  | lookup ftn =>
    simp only [System.step] at hr
    cases he : s.registry.forwarders.lookup ftn with
    | none =>
      simp only [he, some.injEq] at hr
      rw [← hr]
      exact .same
    | some e =>
      simp only [he] at hr
      exact found_does he hr
  | replace ftn forwarder =>
    obtain ⟨made, hmade, hr⟩ := map_eq_some_iff.mp hr
    rw [← hr]
    exact replaceImpl_does (hnew forwarder rfl) hmade
  | replaceAndPark ftn forwarder =>
    obtain ⟨made, hmade, hr⟩ := map_eq_some_iff.mp hr
    rw [← hr]
    exact replaceImpl_does (hnew forwarder rfl) hmade
  | setInitialState claim =>
    simp only [System.step] at hr
    cases hc : s.claims.lookup claim with
    | none =>
      simp only [hc] at hr
      cases hr
    | some c =>
      simp only [hc, some.injEq] at hr
      rw [← hr]
      exact .setInitialState hc
  | markReady claim =>
    simp only [System.step] at hr
    cases hc : s.claims.lookup claim with
    | none =>
      simp only [hc, some.injEq] at hr
      rw [← hr]
      exact .same
    | some c =>
      simp only [hc] at hr
      split at hr
      · cases hr
        exact .markReady hc
      · cases hr
  | fail claim ew =>
    cases hr
    exact .fail ew
  | move source target =>
    cases hr
    exact .move source target
  | drop claim =>
    cases hr
    exact .fail _
  | remove ftn expected =>
    cases hr
    exact .remove ftn expected
  | takeDisplaced ticket =>
    simp only [System.step] at hr
    cases ht : s.tickets.lookup ticket with
    | none =>
      simp only [ht, some.injEq] at hr
      rw [← hr]
      exact .same
    | some t =>
      simp only [ht, some.injEq] at hr
      rw [← hr]
      exact .takeDisplaced ht

end System

end LocalForwarder

end Moqx

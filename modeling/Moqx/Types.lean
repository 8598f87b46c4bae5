/-
  Subject: What the relay's components share with the transport library.

  * `Bytes`, `Payload` -- byte strings and possibly null buffers;
  * `FullTrackName`, `SessionRef` -- the names of tracks and the identities of sessions;
  * `Extensions`, `ObjectStatus`, `MoQPublishError` -- what an object carries, and how a call fails.
-/
import Mathlib.Data.List.AList
import Mathlib.Tactic.Ring

namespace Moqx

abbrev Bytes := List UInt8

/-- A payload is a possibly null buffer chain. -/
abbrev Payload := Option Bytes

/-- The bytes of a buffer chain, none for a null one. -/
def Payload.bytes (p : Payload) : Bytes := p.getD []

/-- `payload ? payload->computeChainDataLength() : 0`. -/
def Payload.length (p : Payload) : Nat := p.bytes.length

structure FullTrackName where
  trackNamespace : List Bytes
  trackName : Bytes
  deriving DecidableEq, Repr

/-- Sessions are compared by address. -/
abbrev SessionRef := Nat

/-- Integer-valued object or track properties, by type. -/
structure Extensions where
  ints : List (Nat × Nat)
  deriving DecidableEq, Repr

def Extensions.getIntExtension (e : Extensions) (type : Nat) : Option Nat :=
  (e.ints.find? fun x => x.1 == type).map (·.2)

def noExtensions : Extensions := ⟨[]⟩

inductive ObjectStatus where
  | normal
  | endOfGroup
  | endOfTrack
  deriving DecidableEq, Repr

def isEndOfTrack (status : ObjectStatus) : Bool := status == .endOfTrack

/-- What a write or a publish call answers when it fails. -/
inductive ErrorCode where
  | malformedTrack
  | apiError
  | blocked
  | cancelled
  | other
  deriving DecidableEq, Repr

structure MoQPublishError where
  code : ErrorCode
  msg : String
  deriving DecidableEq, Repr

/-- A reading of the steady clock, in nanoseconds. -/
abbrev TimePoint := Int

/-- The value of a signed 64-bit computation. -/
def int64 (x : Int) : Int := x.bmod (2 ^ 64)

def Int64Range (x : Int) : Prop := -2 ^ 63 ≤ x ∧ x < 2 ^ 63

theorem int64_of_range {x : Int} (h : Int64Range x) : int64 x = x := by
  obtain ⟨hlow, hhigh⟩ := h
  exact Int.bmod_eq_of_le (by omega) (by omega)

theorem int64_milliseconds (m : Int) : -2 ^ 63 ≤ int64 (m * 1000000) ∧ int64 (m * 1000000) < 2 ^ 63 - 1 := by
  unfold int64
  rw [Int.bmod_def]
  split
  · omega
  · omega

/-- `now - cachedAt > duration`, compared as nanosecond counts; the duration is in milliseconds. -/
def ageExceeds (now cachedAt : TimePoint) (duration : Int) : Bool :=
  decide (int64 (duration * 1000000) < int64 (now - cachedAt))

end Moqx

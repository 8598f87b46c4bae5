/-
  Subject: A SUBGROUP HANDED TO ANOTHER EXECUTOR: what arrives there, and how long the filter lives.

  The source calls the filter on its own thread. The filter queues a task for each call on the target executor
  and answers at once; an error of the downstream reaches the source with one of its later calls.

  * `CrossExecSubgroupFilter` -- the filter with its tasks; `call`, `reset`, `run` -- what the two threads do;
  * `Step`, `Reachable` -- all interleavings; `Inv`, `Inv.step` -- what they keep;
  * **`stream_handed_on`** -- the downstream receives the accepted calls in order, up to its first error;
  * **`tasks_find_filter`** -- no task runs on a filter that is gone.
-/
import Moqx.Types

namespace Moqx.CrossExec

open List

/-! ## 1. The filter and its two threads -/

inductive Call where
  | object (objectID : Nat) (payload : Payload) (extensions : Extensions) (finSubgroup : Bool)
  | beginObject (objectID length : Nat) (initialPayload : Payload) (extensions : Extensions)
  | objectPayload (payload : Payload) (finSubgroup : Bool)
  | endOfGroup (endOfGroupObjectID : Nat)
  | endOfTrackAndGroup (endOfTrackObjectID : Nat)
  | endOfSubgroup
  | checkpoint
  | reset (error : Nat)

/-- The task of the call ends with `deactivate`. -/
def Call.terminal : Call → Bool
  | object _ _ _ finSubgroup | objectPayload _ finSubgroup => finSubgroup
  | endOfGroup _ | endOfTrackAndGroup _ | endOfSubgroup | reset _ => true
  | beginObject .. | checkpoint => false

/-- An error closes the filter; one of the last call is only logged. -/
def Call.closes : Call → Bool
  | object .. | beginObject .. | objectPayload .. => true
  | _ => false

def Call.isReset : Call → Bool
  | reset _ => true
  | _ => false

/-- A task on the target executor: a call, or `[guard = std::move(selfGuard_)]() {}`. -/
inductive Task where
  | call (c : Call)
  | guard

/-- The task keeps the filter alive; the others have a plain pointer to it. -/
def Task.holds : Task → Bool
  | call c => c.isReset
  | guard => true

def Task.call? : Task → Option Call
  | call c => some c
  | guard => none

structure CrossExecSubgroupFilter where
  deferredError : Option ErrorCode := none
  /-- Whether the task of `CrossExecFilter::beginSubgroup` has run, which is before all tasks of the queue. It
      keeps the filter alive. -/
  begun : Bool := false
  /-- Whether `downstream_` is set. -/
  downstream : Bool := false
  selfGuard : Bool := true
  /-- What `payloadTracker_` has left of the object. -/
  remaining : Nat := 0
  /-- Whether the source has its reference. -/
  held : Bool := true
  queue : List Task := []
  /-- The calls that were not refused, and those the downstream was given, with its answers. -/
  accepted : List Call := []
  received : List (Call × Option ErrorCode) := []

inductive ObjectPublishStatus where
  | done
  | inProgress

namespace CrossExecSubgroupFilter

def enqueueDeactivate (f : CrossExecSubgroupFilter) : CrossExecSubgroupFilter :=
  if f.selfGuard then { f with selfGuard := false, queue := f.queue ++ [.guard] } else f

def enqueue (f : CrossExecSubgroupFilter) (c : Call) : CrossExecSubgroupFilter :=
  { f with queue := f.queue ++ [.call c], accepted := f.accepted ++ [c] }

def track (remaining : Nat) : Call → Nat
  | .beginObject _ length initialPayload _ => length - initialPayload.length
  | .objectPayload payload _ => remaining - payload.length
  | _ => remaining

/-- Every call but the two below. Only `objectPayload` returns the status. -/
def call (f : CrossExecSubgroupFilter) (c : Call) :
    Except ErrorCode ObjectPublishStatus × CrossExecSubgroupFilter :=
  match f.deferredError with
  | some err => (.error err, f.enqueueDeactivate)
  | none =>
    let remaining := track f.remaining c
    (.ok (if remaining = 0 then .done else .inProgress), { f.enqueue c with remaining := remaining })

def reset (f : CrossExecSubgroupFilter) (error : Nat) : CrossExecSubgroupFilter :=
  { f.enqueue (.reset error) with deferredError := some .cancelled }

/-- Ready, unless an error is known. -/
def awaitReadyToConsume (f : CrossExecSubgroupFilter) : Option ErrorCode × CrossExecSubgroupFilter :=
  match f.deferredError with
  | some err => (some err, f.enqueueDeactivate)
  | none => (none, f)

def closed (c : Call) (answer : Option ErrorCode) : Bool := c.closes && answer.isSome

/-- The task of a call, if the downstream gives this answer. -/
def handOn (f : CrossExecSubgroupFilter) (c : Call) (answer : Option ErrorCode) : CrossExecSubgroupFilter :=
  let f : CrossExecSubgroupFilter :=
    if f.downstream then
      { f with
        received := f.received ++ [(c, answer)]
        deferredError := if closed c answer then answer else f.deferredError
        downstream := !closed c answer }
    else f
  { f with selfGuard := f.selfGuard && !c.terminal }

/-- The target executor runs its first task. -/
def run (f : CrossExecSubgroupFilter) (answer : Option ErrorCode) : CrossExecSubgroupFilter :=
  if !f.begun then
    match answer with
    | none => { f with begun := true, downstream := true }
    | some err => { f with begun := true, deferredError := some err }
  else
    match f.queue with
    | [] => f
    | .call c :: queue => { f with queue := queue }.handOn c answer
    | .guard :: queue => { f with queue := queue }

/-- One step of either thread. The source needs its reference, and makes no call but `reset` after one that
    has ended the subgroup. -/
inductive Step (f : CrossExecSubgroupFilter) : CrossExecSubgroupFilter → Prop where
  | call (c : Call) : c.isReset = false → f.held = true → (∀ d ∈ f.accepted, d.terminal = d.isReset) →
      Step f (f.call c).2
  | reset (error : Nat) : f.held = true → Step f (f.reset error)
  | awaitReadyToConsume : f.held = true → Step f f.awaitReadyToConsume.2
  | drop : Step f { f with held := false }
  | run (answer : Option ErrorCode) : Step f (f.run answer)

inductive Reachable : CrossExecSubgroupFilter → Prop where
  | create : Reachable {}
  | step {f f' : CrossExecSubgroupFilter} : Reachable f → Step f f' → Reachable f'

/-- Somebody has a reference: the source, the filter itself, or a task. -/
def alive (f : CrossExecSubgroupFilter) : Bool := f.held || f.selfGuard || !f.begun || f.queue.any Task.holds

/-! ## 2. What every interleaving keeps -/

/-- All tasks of a queue find the filter, whatever the source does. -/
def Safe : Bool → List Task → Prop
  | _, [] => True
  | selfGuard, t :: queue =>
    (t.holds || selfGuard || queue.any Task.holds) = true ∧ Safe (selfGuard && !t.call?.any Call.terminal) queue

/-- The calls in `lost` were dropped behind an error. -/
structure Inv (f : CrossExecSubgroupFilter) (lost : List Call) : Prop where
  accepted : f.accepted = f.received.map (·.1) ++ (lost ++ f.queue.filterMap Task.call?)
  fresh : f.begun = false → f.downstream = false ∧ f.received = [] ∧ lost = []
  opened : f.deferredError = none → f.downstream = f.begun ∧ (∀ c ∈ f.accepted, c.isReset = false) ∧
    ((∀ c ∈ f.accepted, c.terminal = false) → f.selfGuard = true)
  resets : f.accepted.Pairwise fun a b => a.isReset = true → b.isReset = true
  handed : f.downstream = true → lost = [] ∧ ∀ p ∈ f.received, closed p.1 p.2 = false
  upTo : ∀ p ∈ f.received.dropLast, closed p.1 p.2 = false
  safe : Safe f.selfGuard f.queue
  pending : f.selfGuard = true → ∀ c ∈ f.accepted, c.terminal = true → .call c ∈ f.queue

variable {f f' : CrossExecSubgroupFilter} {lost : List Call} {c : Call} {queue : List Task} {selfGuard : Bool}

/-- A task that keeps the filter alive does so for all tasks before it. -/
theorem Safe.append_holds {t : Task} (ht : t.holds = true) : Safe selfGuard (queue ++ [t]) := by
  induction queue generalizing selfGuard with
  | nil => exact ⟨by simp [ht], trivial⟩
  | cons t' queue ih => exact ⟨by simp [ht], ih⟩

/-- A call is made behind tasks that do not let the filter go. -/
theorem Safe.append (hq : ∀ c, .call c ∈ queue → c.terminal = false) : Safe true (queue ++ [.call c]) := by
  induction queue with
  | nil => exact ⟨by simp, trivial⟩
  | cons t queue ih =>
    have ht : t.call?.any Call.terminal = false := by
      cases t with
      | call d => exact hq d mem_cons_self
      | guard => rfl
    refine ⟨by simp, ?_⟩
    rw [ht]
    exact ih fun d hd => hq d (mem_cons_of_mem _ hd)

theorem mem_filterMap_call? : c ∈ queue.filterMap Task.call? ↔ .call c ∈ queue := by
  rw [mem_filterMap]
  constructor
  · rintro ⟨t, ht, hc⟩
    cases t with
    | call d =>
      cases hc
      exact ht
    | guard => cases hc
  · exact fun h => ⟨_, h, rfl⟩

theorem Inv.enqueueDeactivate (h : Inv f lost) {err : ErrorCode} (he : f.deferredError = some err) :
    Inv f.enqueueDeactivate lost := by
  unfold CrossExecSubgroupFilter.enqueueDeactivate
  split
  · exact
      { h with
        accepted := by simp [h.accepted, Task.call?]
        opened := fun hn => by cases he.symm.trans hn
        safe := Safe.append_holds rfl, pending := nofun }
  · exact h

theorem Inv.enqueue (h : Inv f lost) (hsafe : Safe f.selfGuard (f.queue ++ [.call c])) {e : Option ErrorCode}
    {n : Nat} (hr : ∀ d ∈ f.accepted, d.isReset = true → c.isReset = true)
    (he : e = none → f.deferredError = none ∧ f.selfGuard = true ∧ c.isReset = false) :
    Inv { f.enqueue c with deferredError := e, remaining := n } lost where
  accepted := by simp [CrossExecSubgroupFilter.enqueue, h.accepted, Task.call?]
  fresh := h.fresh
  opened hn := by
    obtain ⟨hnone, hguard, hc⟩ := he hn
    obtain ⟨hd, hall, -⟩ := h.opened hnone
    exact ⟨hd, forall_mem_append.mpr ⟨hall, by simpa using hc⟩, fun _ => hguard⟩
  resets := pairwise_append.mpr ⟨h.resets, pairwise_singleton _ _, fun d hd b hb => mem_singleton.mp hb ▸ hr d hd⟩
  handed := h.handed
  upTo := h.upTo
  safe := hsafe
  pending hs d hd ht := by
    rcases mem_append.mp hd with hd | hd
    · exact mem_append_left _ (h.pending hs d hd ht)
    · rw [mem_singleton.mp hd]
      exact mem_append_right _ mem_cons_self

theorem Inv.call (h : Inv f lost) (hreset : c.isReset = false) (hc : ∀ d ∈ f.accepted, d.terminal = d.isReset) :
    Inv (f.call c).2 lost := by
  unfold CrossExecSubgroupFilter.call
  split
  · exact h.enqueueDeactivate ‹_›
  · rename_i he
    obtain ⟨-, hnone, hguard⟩ := h.opened he
    have hall : ∀ d ∈ f.accepted, d.terminal = false := fun d hd => (hc d hd).trans (hnone d hd)
    have hs := hguard hall
    refine h.enqueue ?_ (fun d hd hr => ?_) fun he => ⟨he, hs, hreset⟩
    · rw [hs]
      exact Safe.append fun d hd => hall d (by simp [h.accepted, mem_filterMap_call?.mpr hd])
    · rw [hnone d hd] at hr
      cases hr

theorem Inv.handOn (h : Inv f lost) (hb : f.begun = true) (hq : f.queue = .call c :: queue)
    (answer : Option ErrorCode) : ∃ lost', Inv ({ f with queue := queue }.handOn c answer) lost' := by
  have hacc := h.accepted
  have hsafe := h.safe
  rw [hq] at hacc hsafe
  have hpending : (f.selfGuard && !c.terminal) = true → ∀ d ∈ f.accepted, d.terminal = true → .call d ∈ queue := by
    intro hs d hd ht
    obtain ⟨hs, hc⟩ := Bool.and_eq_true_iff.mp hs
    have hmem := h.pending hs d hd ht
    rw [hq] at hmem
    rcases mem_cons.mp hmem with heq | hmem
    · cases heq
      rw [ht] at hc
      cases hc
    · exact hmem
  have hkept : f.deferredError = none → (∀ d ∈ f.accepted, d.terminal = false) →
      (f.selfGuard && !c.terminal) = true := by
    intro he hall
    rw [(h.opened he).2.2 hall, hall c (by simp [hacc, Task.call?])]
    rfl
  unfold CrossExecSubgroupFilter.handOn
  by_cases hd : f.downstream = true
  · obtain ⟨rfl, hclean⟩ := h.handed hd
    rw [if_pos hd]
    refine ⟨[], by simp [hacc, Task.call?], fun hb' => ?_, fun he => ?_, h.resets, fun hn => ⟨rfl, fun p hp => ?_⟩,
      ?_, hsafe.2, hpending⟩
    · cases hb.symm.trans hb'
    · dsimp only at he ⊢
      split at he
      · rename_i hc
        rw [he] at hc
        simp [closed] at hc
      · rename_i hc
        exact ⟨by simp [hb, hc], (h.opened he).2.1, hkept he⟩
    · rcases mem_append.mp hp with hp | hp
      · exact hclean p hp
      · rw [mem_singleton.mp hp]
        simpa using hn
    · simpa using hclean
  · rw [if_neg hd]
    refine ⟨lost ++ [c], { h with accepted := ?_, fresh := ?_, opened := ?_, handed := ?_, safe := hsafe.2, pending := hpending }⟩
    · simp [hacc, Task.call?]
    · exact fun hb' => by cases hb.symm.trans hb'
    · exact fun he => absurd ((h.opened he).1.trans hb) hd
    · exact fun hn => absurd hn hd

theorem Inv.run (h : Inv f lost) (answer : Option ErrorCode) : ∃ lost', Inv (f.run answer) lost' := by
  unfold CrossExecSubgroupFilter.run
  split
  · rename_i hb
    obtain ⟨hd, hr, rfl⟩ := h.fresh (by simpa using hb)
    refine ⟨[], ?_⟩
    cases answer with
    | none =>
      exact
        { h with
          fresh := nofun, handed := fun _ => ⟨rfl, by simp [hr]⟩, opened := fun he => ⟨rfl, (h.opened he).2⟩ }
    | some err => exact { h with fresh := nofun, opened := nofun }
  · rename_i hb
    split
    · exact ⟨lost, h⟩
    · exact h.handOn (by simpa using hb) ‹_› answer
    · rename_i hq
      have hacc := h.accepted
      have hsafe := h.safe
      have hpending := h.pending
      rw [hq] at hacc hsafe hpending
      refine ⟨lost, { h with accepted := hacc, safe := ?_, pending := fun hs d hd ht => ?_ }⟩
      · simpa [Task.call?] using hsafe.2
      · simpa using hpending hs d hd ht

/-- **One step** of either thread. -/
theorem Inv.step (h : Inv f lost) (hs : Step f f') : ∃ lost', Inv f' lost' := by
  cases hs with
  | call c hreset _ hc => exact ⟨lost, h.call hreset hc⟩
  | reset error => exact ⟨lost, h.enqueue (Safe.append_holds rfl) (fun _ _ _ => rfl) nofun⟩
  | awaitReadyToConsume =>
    unfold awaitReadyToConsume
    split
    · exact ⟨lost, h.enqueueDeactivate ‹_›⟩
    · exact ⟨lost, h⟩
  | drop => exact ⟨lost, { h with }⟩
  | run answer => exact h.run answer

theorem Reachable.inv (h : Reachable f) : ∃ lost, Inv f lost := by
  induction h with
  | create =>
    exact ⟨[], rfl, fun _ => ⟨rfl, rfl, rfl⟩, fun _ => ⟨rfl, nofun, fun _ => rfl⟩, .nil, nofun, nofun, trivial, nofun⟩
  | step _ hs ih => exact ih.elim fun _ h => h.step hs

/-! ## 3. The stream and the filter -/

/-- **The downstream receives what was accepted**, in every interleaving: the calls in their order, none twice and
    none left out, up to the first one that it answers with an error that closes the filter; behind a reset
    there are only resets. All have arrived when the queue is empty and the source has not been told of an error. -/
theorem stream_handed_on (h : Reachable f) :
    f.received.map (·.1) <+: f.accepted ∧ (∀ p ∈ f.received.dropLast, closed p.1 p.2 = false) ∧
      f.accepted.Pairwise (fun a b => a.isReset = true → b.isReset = true) ∧
      (f.begun = true → f.queue = [] → f.deferredError = none → f.received.map (·.1) = f.accepted) := by
  obtain ⟨lost, h⟩ := h.inv
  refine ⟨⟨_, h.accepted.symm⟩, h.upTo, h.resets, fun hb hq he => ?_⟩
  obtain ⟨rfl, -⟩ := h.handed ((h.opened he).1.trans hb)
  simp [h.accepted, hq]

/-- The second of three calls is answered with an error. -/
theorem stream_handed_on_error : ∃ f, Reachable f ∧ f.accepted.length = 3 ∧ f.received.length = 2 ∧
    f.received.map (·.1) <+: f.accepted := by
  have h := Reachable.create.step (.call .checkpoint rfl rfl nofun)
  have h := h.step (.call (.object 0 none noExtensions false) rfl rfl (by decide))
  have h := h.step (.call .endOfSubgroup rfl rfl (by decide))
  have h := (((h.step (.run none)).step (.run none)).step (.run (some .cancelled))).step (.run none)
  exact ⟨_, h, rfl, rfl, (stream_handed_on h).1⟩

/-- **No task runs on a filter that is gone**, however early the source drops its reference. And a filter is not
    kept for ever: when the source has ended the subgroup and dropped its reference, and all tasks have run,
    nobody has a reference. -/
theorem tasks_find_filter (h : Reachable f) :
    (f.queue ≠ [] → f.alive = true) ∧
      ((∃ c ∈ f.accepted, c.terminal = true) → f.held = false → f.begun = true → f.queue = [] → f.alive = false) := by
  obtain ⟨lost, h⟩ := h.inv
  have hsafe := h.safe
  refine ⟨fun hne => ?_, fun ⟨c, hc, ht⟩ hheld hb hq => ?_⟩
  · cases hq : f.queue with
    | nil => exact absurd hq hne
    | cons t queue =>
      rw [hq] at hsafe
      have := hsafe.1
      simp only [Bool.or_eq_true] at this
      rcases this with (h | h) | h <;> simp [alive, hq, h]
  · cases hs : f.selfGuard with
    | true =>
      have := h.pending hs c hc ht
      rw [hq] at this
      cases this
    | false => simp [alive, hheld, hs, hb, hq]

/-- The source drops its reference behind its last call. -/
theorem tasks_find_filter_dropped : ∃ f, Reachable f ∧ f.held = false ∧ f.queue ≠ [] ∧ f.alive = true := by
  have h := (Reachable.create.step (.call .endOfSubgroup rfl rfl nofun)).step .drop
  have h := h.step (.run none)
  exact ⟨_, h, rfl, nofun, (tasks_find_filter h).1 nofun⟩

end CrossExecSubgroupFilter

end Moqx.CrossExec

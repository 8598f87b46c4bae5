/-
  Subject: THE LATER SUBSCRIBERS OF A TRACK wait for the first one, and look its entry up again by name.

  * `Ready.change` -- what a call may do to the map and the waiters without harm;
  * `later_subscriber_joins_ready_entry` -- with that, a later subscriber never joins a pending entry;
  * `later_subscriber_joins_pending_entry` -- and without it, it does.
-/
import Moqx.Subscription.Own

namespace Moqx.Subscription

open SubscriptionRegistry AList Option

variable {s : System} {registry : SubscriptionRegistry} {waiting : Waiting} {ftn : FullTrackName}
  {e : RelaySubscription} {calls : Nat} {log : List Nat}
variable {entries : List Nat} {registry' : SubscriptionRegistry} {waiting' : Waiting}

variable {j : Nat} {w : AwaitSubsequent}

/-! ## 1. Futures -/

theorem lookup_notify {outcome : SharedPromise}
    (h : (notify entries outcome waiting).lookup j = some w) :
    ∃ w₀, waiting.lookup j = some w₀ ∧ w.ftn = w₀.ftn ∧ w.entry = w₀.entry ∧
      (w.future = w₀.future ∨ (w₀.entry ∈ entries ∧ w.future = outcome)) := by
  rw [notify, Table.lookup_mapValues, map_eq_some_iff] at h
  obtain ⟨w₀, hw₀, hw⟩ := h
  refine ⟨w₀, hw₀, ?_⟩
  split at hw
  · rename_i hcond
    rw [← hw]
    exact ⟨rfl, rfl, .inr ⟨hcond.1, rfl⟩⟩
  · rw [← hw]
    exact ⟨rfl, rfl, .inl rfl⟩

/-! ## 2. The invariant -/

/-- The entry a coroutine waits for stands under its own track, and a coroutine whose future has its value
    finds an entry there whose promise has. -/
structure Ready (registry : SubscriptionRegistry) (waiting : Waiting) (calls : Nat) : Prop where
  waits_lt : ∀ j w, waiting.lookup j = some w → w.entry < calls
  place : ∀ j w ftn e, waiting.lookup j = some w → registry.find ftn = some e → e.id = w.entry → ftn = w.ftn
  ready : ∀ j w e, waiting.lookup j = some w → w.future = .value → registry.find w.ftn = some e →
    e.promise = .value

theorem Ready.empty : Ready {} ∅ 0 := by
  have hwaiting : ∀ j w, (∅ : Waiting).lookup j ≠ some w := by
    intro j w hw
    cases (lookup_empty j).symm.trans hw
  exact ⟨fun j w hw => absurd hw (hwaiting j w), fun j w _ _ hw => absurd hw (hwaiting j w),
    fun j w _ hw => absurd hw (hwaiting j w)⟩

/-- A coroutine of the new state that is one of the old state, told nothing new but perhaps a failure. -/
def Same (waiting : Waiting) (j : Nat) (w : AwaitSubsequent) : Prop :=
  ∃ w₀, waiting.lookup j = some w₀ ∧ w.ftn = w₀.ftn ∧ w.entry = w₀.entry ∧
    (w.future = .value → w₀.future = .value)

theorem Same.refl (h : waiting.lookup j = some w) : Same waiting j w :=
  ⟨w, h, rfl, rfl, id⟩

theorem same_of_notify (h : (notify entries .exception waiting).lookup j = some w) :
    Same waiting j w := by
  obtain ⟨w₀, hw₀, hftn, hentry, hfuture⟩ := lookup_notify h
  refine ⟨w₀, hw₀, hftn, hentry, fun hvalue => ?_⟩
  rcases hfuture with hfuture | ⟨_, hfuture⟩
  · rw [← hfuture, hvalue]
  · rw [hfuture] at hvalue
    cases hvalue

section

variable (h : Ready registry waiting calls) (hwaiting : ∀ j w, waiting'.lookup j = some w → Same waiting j w)

include h hwaiting

/-- **What does no harm.** No coroutine is told a value, and every entry is an old one, its promise at least
    as ready as before, or a new one that is ready or that no coroutine told a value would find. -/
theorem Ready.change (hentries : ∀ g d, registry'.find g = some d →
      (∃ d₀, registry.find g = some d₀ ∧ d.id = d₀.id ∧ (d₀.promise = .value → d.promise = .value)) ∨
      (d.id = calls ∧
        (d.promise = .value ∨ ∀ j w, waiting.lookup j = some w → w.ftn = g → w.future ≠ .value))) :
    Ready registry' waiting' calls where
  waits_lt := by
    intro j w hw
    obtain ⟨w₀, hw₀, _, hentry, _⟩ := hwaiting j w hw
    rw [hentry]
    exact h.waits_lt j w₀ hw₀
  place := by
    intro j w g d hw hd hid
    obtain ⟨w₀, hw₀, hftn, hentry, _⟩ := hwaiting j w hw
    rw [hftn]
    rcases hentries g d hd with ⟨d₀, hd₀, hdid, _⟩ | ⟨hnew, _⟩
    · exact h.place j w₀ g d₀ hw₀ hd₀ (by rw [← hdid, hid, hentry])
    · have hlt := h.waits_lt j w₀ hw₀
      rw [← hentry, ← hid, hnew] at hlt
      exact absurd hlt (Nat.lt_irrefl _)
  ready := by
    intro j w d hw hvalue hd
    obtain ⟨w₀, hw₀, hftn, _, hfuture⟩ := hwaiting j w hw
    rw [hftn] at hd
    rcases hentries _ d hd with ⟨d₀, hd₀, _, hpromise⟩ | ⟨_, hready | hnone⟩
    · exact hpromise (h.ready j w₀ d₀ hw₀ (hfuture hvalue) hd₀)
    · exact hready
    · exact absurd (hfuture hvalue) (hnone j w₀ hw₀ rfl)

theorem Ready.shrink (hentries : ∀ g d, registry'.find g = some d → registry.find g = some d) :
    Ready registry' waiting' calls :=
  h.change hwaiting fun g d hd => .inl ⟨d, hentries g d hd, rfl, id⟩

end

theorem Ready.next (h : Ready registry waiting calls) : Ready registry waiting (calls + 1) :=
  { h with waits_lt := fun j w hw => Nat.lt_succ_of_lt (h.waits_lt j w hw) }

/-! ## 3. One call -/

/-- A track that has no entry is subscribed again only when no coroutine of that track that was told its
    entry is ready is still to return. -/
def Op.NobodyLate (s : System) : Op → Prop
  | .subscribe ftn (some _) => s.registry.find ftn = none →
    ∀ j w, s.waiting.lookup j = some w → w.ftn = ftn → w.future ≠ .value
  | _ => True

namespace System

variable {r : Result}

structure Waits (s : System) (log : List Nat) : Prop where
  good : s.Good log
  ready : Ready s.registry s.waiting s.calls

section events

variable (h : s.Waits log)

include h

theorem Waits.subscribe {ref : Option ForwarderRef} (hlate : Op.NobodyLate s (.subscribe ftn ref)) :
    Ready (s.subscribe ftn ref).system.registry (s.subscribe ftn ref).system.waiting (s.calls + 1) := by
  simp only [System.subscribe, getOrCreateFromSubscribe]
  cases he : s.registry.find ftn with
  | some e =>
    have hnew : ∀ j w, (s.waiting.insert s.calls ⟨ftn, e.id, e.promise⟩).lookup j = some w →
        w = ⟨ftn, e.id, e.promise⟩ ∨ s.waiting.lookup j = some w := by
      intro j w hw
      by_cases hj : j = s.calls
      · rw [hj, lookup_insert] at hw
        exact .inl (some.inj hw).symm
      · rw [lookup_insert_ne hj] at hw
        exact .inr hw
    refine ⟨fun j w hw => ?_, fun j w g d hw hd hid => ?_, fun j w d hw hvalue hd => ?_⟩
    · rcases hnew j w hw with hw | hw
      · rw [hw]
        exact Nat.lt_succ_of_lt (h.good.entry_lt ftn e he).1
      · exact Nat.lt_succ_of_lt (h.ready.waits_lt j w hw)
    · rcases hnew j w hw with hw | hw
      · rw [hw] at hid ⊢
        exact h.good.entry_inj g ftn d e hd he hid
      · exact h.ready.place j w g d hw hd hid
    · rcases hnew j w hw with hw | hw
      · rw [hw] at hvalue hd
        cases he.symm.trans hd
        exact hvalue
      · exact h.ready.ready j w d hw hvalue hd
  | none =>
    cases ref with
    | none => exact h.ready.next
    | some forwarder =>
      refine Ready.next (h.ready.change (fun j w hw => Same.refl hw) fun g d hd => ?_)
      rw [find_put] at hd
      split at hd
      · rename_i hg
        cases hd
        exact .inr ⟨rfl, .inr fun j w hw hftn => hlate he j w hw (hftn.trans hg)⟩
      · exact .inl ⟨d, hd, rfl, id⟩

theorem Waits.complete (pending : Nat) (completion : Completion) :
    Ready (s.complete pending completion).system.registry (s.complete pending completion).system.waiting
      s.calls := by
  rw [System.complete]
  cases hp : s.handles.lookup pending with
  | none => exact h.ready
  | some p =>
    rcases s.registry.completeSubscription_cases p.ftn p.epoch completion with
      ⟨_, heq⟩ | ⟨e, he, _, _, heq⟩ | ⟨e, he, hepoch, _, heq⟩
    · simp only [heq]
      exact h.ready
    · simp only [heq]
      refine h.ready.change (fun j w hw => Same.refl hw) fun g d hd => .inl ?_
      rw [find_put] at hd
      split at hd
      · rename_i hg
        cases hd
        exact ⟨e, hg ▸ he, rfl, id⟩
      · exact ⟨d, hd, rfl, id⟩
    · simp only [heq, settled_of_find he hepoch]
      -- the entry becomes ready first; then whoever waits for it is told
      have hmap : Ready (s.registry.put p.ftn { filled completion e with promise := .value })
          s.waiting s.calls := by
        refine h.ready.change (fun j w hw => Same.refl hw) fun g d hd => .inl ?_
        rw [find_put] at hd
        split at hd
        · rename_i hg
          cases hd
          exact ⟨e, hg ▸ he, rfl, fun _ => rfl⟩
        · exact ⟨d, hd, rfl, id⟩
      refine ⟨fun j w hw => ?_, fun j w g d hw hd hid => ?_, fun j w d hw hvalue hd => ?_⟩
      · obtain ⟨w₀, hw₀, _, hentry, _⟩ := lookup_notify hw
        rw [hentry]
        exact hmap.waits_lt j w₀ hw₀
      · obtain ⟨w₀, hw₀, hftn, hentry, _⟩ := lookup_notify hw
        rw [hftn]
        exact hmap.place j w₀ g d hw₀ hd (hid.trans hentry)
      · obtain ⟨w₀, hw₀, hftn, hentry, hfuture⟩ := lookup_notify hw
        rw [hftn] at hd
        rcases hfuture with hfuture | ⟨hmem, _⟩
        · exact hmap.ready j w₀ d hw₀ (hfuture ▸ hvalue) hd
        · have hplace : p.ftn = w₀.ftn :=
            h.ready.place j w₀ p.ftn e hw₀ he (List.mem_singleton.mp hmem).symm
          rw [find_put, if_pos hplace.symm] at hd
          cases hd
          rfl

theorem Waits.drop {pending : Nat} (hr : s.drop pending = some r) :
    Ready r.system.registry r.system.waiting s.calls := by
  rw [System.drop] at hr
  cases hp : s.handles.lookup pending with
  | none =>
    simp only [hp, some.injEq] at hr
    rw [← hr]
    exact h.ready
  | some p =>
    simp only [hp] at hr
    split at hr
    · rcases s.registry.failAndRemove_cases p.ftn p.epoch with ⟨_, heq⟩ | ⟨e, _, _, _, heq⟩ | ⟨e, _, _, _, heq⟩
      · simp only [heq, map_some, some.injEq] at hr
        rw [← hr]
        exact h.ready.shrink (fun _ _ => same_of_notify) fun _ _ hd => hd
      · simp only [heq, map_none] at hr
        cases hr
      · simp only [heq, map_some, some.injEq] at hr
        rw [← hr]
        exact h.ready.shrink (fun _ _ => same_of_notify) fun _ _ => find_of_erase
    · simp only [some.injEq] at hr
      rw [← hr]
      exact h.ready

theorem Waits.createFromPublish (publication : Publication) :
    Ready (s.registry.createFromPublish s.calls ftn publication).1
      (s.withRegistry (s.registry.createFromPublish s.calls ftn publication).1).waiting s.calls := by
  refine h.ready.change (fun _ _ => same_of_notify) fun g d hd => ?_
  rw [SubscriptionRegistry.createFromPublish, SubscriptionRegistry.find_put] at hd
  split at hd
  · cases hd
    exact .inr ⟨rfl, .inl rfl⟩
  · exact .inl ⟨d, find_of_erase hd, rfl, id⟩

theorem Waits.terminate {empty : Bool} {r : SubscriptionRegistry × ForwarderRef}
    (hr : s.registry.onPublisherTerminated ftn empty = some r) :
    Ready r.1 (s.withRegistry r.1).waiting s.calls := by
  refine h.ready.change (fun _ _ => same_of_notify) fun g d hd => .inl ?_
  simp only [onPublisherTerminated] at hr
  cases he : s.registry.find ftn with
  | none =>
    simp only [he, some.injEq] at hr
    rw [← hr] at hd
    exact ⟨d, hd, rfl, id⟩
  | some e =>
    simp only [he] at hr
    split at hr
    · split at hr
      · cases hr
        exact ⟨d, find_of_erase hd, rfl, id⟩
      · cases hr
        rw [find_put] at hd
        split at hd
        · rename_i hg
          cases hd
          exact ⟨e, hg ▸ he, rfl, id⟩
        · exact ⟨d, hd, rfl, id⟩
    · cases hr

theorem Waits.resume (waiter : Nat) :
    Ready (s.resume waiter).system.registry (s.resume waiter).system.waiting s.calls := by
  have hreturned : Ready s.registry (s.waiting.erase waiter) s.calls :=
    h.ready.shrink (fun _ _ hw => Same.refl (Table.lookup_erase_iff.mp hw).2) fun _ _ hd => hd
  rw [System.resume]
  split
  · exact h.ready
  · split
    · exact h.ready
    · exact hreturned
    · split
      · exact hreturned
      · exact hreturned

/-- **One call**, made when nobody is late. -/
theorem Waits.step {op : Op} (hlate : op.NobodyLate s) (hr : s.step op = some r) : r.system.Waits (log ++ r.fulfilled) := by
  refine ⟨h.good.step hr, ?_⟩
  rw [System.step, map_eq_some_iff] at hr
  obtain ⟨r₀, hact, hr⟩ := hr
  rw [← hr]
  cases op with
  | subscribe ftn ref =>
    cases hact
    exact h.subscribe hlate
  | complete pending completion =>
    cases hact
    exact (h.complete pending completion).next
  | drop pending =>
    have hdrop : s.drop pending = some r₀ := hact
    have hkept := h.drop hdrop
    exact hkept.next
  | createFromPublish ftn publication =>
    cases hact
    exact (h.createFromPublish publication).next
  | terminate ftn empty =>
    obtain ⟨r₁, hterm, hact⟩ := map_eq_some_iff.mp hact
    rw [← hact]
    exact (h.terminate hterm).next
  | remove ftn =>
    cases hact
    exact (h.ready.shrink (fun _ _ => same_of_notify) fun _ _ => find_of_erase).next
  | removeIf predicate =>
    cases hact
    exact (h.ready.shrink (fun _ _ => same_of_notify) fun _ _ => find_of_removeIf).next
  | resume waiter =>
    cases hact
    exact (h.resume waiter).next

end events

/-! ## 4. Every sequence of calls -/

/-- Every call of a sequence is made when nobody is late. -/
def NobodyLate (s : System) : List Op → Prop
  | [] => True
  | op :: ops => op.NobodyLate s ∧ ∀ r, s.step op = some r → NobodyLate r.system ops

theorem Waits.runFrom {ops : List Op} {s' : System} {log' : List Nat} (h : s.Waits log)
    (hlate : s.NobodyLate ops) (hrun : s.runFrom log ops = some (s', log')) : s'.Waits log' := by
  induction ops generalizing s log with
  | nil =>
    cases hrun
    exact h
  | cons op ops ih =>
    obtain ⟨r, hr, hrun⟩ := bind_eq_some_iff.mp hrun
    exact ih (h.step hlate.1 hr) (hlate.2 r hr) hrun

theorem resume_subsequent {waiter : Nat} (hr : (s.resume waiter).reply = .subsequent e) :
    ∃ w, s.waiting.lookup waiter = some w ∧ w.future = .value ∧ s.registry.find w.ftn = some e := by
  rw [System.resume] at hr
  cases hw : s.waiting.lookup waiter with
  | none =>
    simp only [hw] at hr
    cases hr
  | some w =>
    simp only [hw] at hr
    cases hf : w.future with
    | pending =>
      simp only [hf] at hr
      cases hr
    | exception =>
      simp only [hf] at hr
      cases hr
    | value =>
      simp only [hf] at hr
      cases hfind : s.registry.find w.ftn with
      | none =>
        simp only [hfind] at hr
        cases hr
      | some d =>
        simp only [hfind] at hr
        cases hr
        exact ⟨w, rfl, hf, hfind⟩

/-- **A later subscriber joins an entry that is ready**, whichever it finds, in every sequence of calls in
    which no track is subscribed anew while a later subscriber of it that was told so has not returned. -/
theorem later_subscriber_joins_ready_entry {ops : List Op} {log : List Nat} {waiter : Nat} {r : Result}
    (hlate : NobodyLate {} ops) (hrun : run ops = some (s, log))
    (hstep : s.step (.resume waiter) = some r) (hreply : r.reply = .subsequent e) : e.promise = .value := by
  have hstart : Waits {} [] := ⟨good_start, Ready.empty⟩
  have h : s.Waits log := hstart.runFrom hlate hrun
  cases hstep
  obtain ⟨w, hw, hvalue, hfind⟩ := resume_subsequent hreply
  exact h.ready.ready waiter w e hw hvalue hfind

/-- Two subscribers, the first completes, the second returns. -/
theorem later_subscriber_joins_first :
    ∃ s log r e, run [.subscribe ⟨[], []⟩ (some (.owned 0)), .subscribe ⟨[], []⟩ none, .complete 0 ⟨3, 4, 5, 6⟩] =
        some (s, log) ∧ s.step (.resume 1) = some r ∧ r.reply = .subsequent e ∧ e.promise = .value := by
  have hrun : run [.subscribe ⟨[], []⟩ (some (.owned 0)), .subscribe ⟨[], []⟩ none, .complete 0 ⟨3, 4, 5, 6⟩] =
      some (_, _) := rfl
  have hlate : NobodyLate {} [.subscribe ⟨[], []⟩ (some (.owned 0)), .subscribe ⟨[], []⟩ none,
      .complete 0 ⟨3, 4, 5, 6⟩] := by
    refine ⟨fun _ j w hw => ?_, fun _ _ => ⟨trivial, fun _ _ => ⟨trivial, fun _ _ => trivial⟩⟩⟩
    cases (lookup_empty j).symm.trans hw
  have hjoin := fun r e => @later_subscriber_joins_ready_entry _ e _ _ 1 r hlate hrun
  exact ⟨_, _, _, _, hrun, rfl, rfl, hjoin _ ⟨0, .owned 0, 1, some 5, some 6, 4, some 3, .value, false⟩ rfl rfl⟩

/-- **A later subscriber joins a pending entry.** The first subscriber completes, the entry is removed, and
    another one subscribes the track before the second subscriber returns: that one gets the new entry, whose
    upstream subscribe has not been answered. -/
theorem later_subscriber_joins_pending_entry :
    ∃ s log r e, run [.subscribe ⟨[], []⟩ (some (.owned 0)), .subscribe ⟨[], []⟩ none,
        .complete 0 ⟨3, 4, 5, 6⟩, .remove ⟨[], []⟩, .subscribe ⟨[], []⟩ (some (.owned 1))] = some (s, log) ∧
      s.step (.resume 1) = some r ∧ r.reply = .subsequent e ∧ e.id = 4 ∧ e.promise = .pending :=
  ⟨_, _, _, _, rfl, rfl, rfl, rfl, rfl⟩

end System

end Moqx.Subscription

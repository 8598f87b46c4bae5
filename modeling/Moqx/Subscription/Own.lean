/-
  Subject: A FIRST SUBSCRIBER SETTLES ITS OWN ENTRY, and no promise is fulfilled twice.

  * `Inv.shrink`, `Inv.update`, `Inv.fulfil` (all by `Inv.rewrite`), `Inv.create` -- the four things a call
    does to the map;
  * `Good.step`, `Good.runFrom` -- one call, and every sequence of calls;
  * `first_subscriber_settles_own_entry` -- what `complete` and the destructor of a handle touch.
-/
import Moqx.Subscription.Registry

namespace Moqx

open SubscriptionRegistry List AList Option

namespace SubscriptionRegistry

variable {registry : SubscriptionRegistry} {ftn g : FullTrackName} {e e' : RelaySubscription}

theorem find_put : (registry.put ftn e).find g = if g = ftn then some e else registry.find g := by
  split
  · rename_i hg
    rw [hg]
    exact lookup_insert _
  · rename_i hg
    exact lookup_insert_ne hg

theorem find_erase : (registry.erase ftn).find g = if g = ftn then none else registry.find g := by
  split
  · rename_i hg
    rw [hg]
    exact lookup_erase _ _
  · rename_i hg
    exact lookup_erase_ne hg

theorem find_of_erase (h : (registry.erase ftn).find g = some e) : registry.find g = some e := by
  rw [find_erase] at h
  split at h
  · cases h
  · exact h

theorem find_of_removeIf {predicate : EntryView → Bool} (h : (registry.removeIf predicate).find g = some e) :
    registry.find g = some e :=
  (Table.lookup_keepIf.mp h).1

/-- What `complete` writes into an entry, the promise apart. -/
def filled (completion : Completion) (rsub : RelaySubscription) : RelaySubscription :=
  { rsub with
    handle := some completion.handle
    requestID := completion.requestID
    upstream := some completion.upstreamSession
    publisher := some completion.publisher }

theorem completeSubscription_cases (registry : SubscriptionRegistry) (ftn : FullTrackName) (epoch : EntryEpoch)
    (completion : Completion) :
    ((∀ e, registry.find ftn = some e → e.epoch ≠ epoch) ∧
      registry.completeSubscription ftn epoch completion = (registry, some false)) ∨
    (∃ e, registry.find ftn = some e ∧ e.epoch = epoch ∧ e.promise ≠ .pending ∧
      registry.completeSubscription ftn epoch completion = (registry.put ftn (filled completion e), none)) ∨
    ∃ e, registry.find ftn = some e ∧ e.epoch = epoch ∧ e.promise = .pending ∧
      registry.completeSubscription ftn epoch completion =
        (registry.put ftn { filled completion e with promise := .value }, some true) := by
  simp only [completeSubscription]
  cases he : registry.find ftn with
  | none => exact .inl ⟨nofun, rfl⟩
  | some e =>
    by_cases hepoch : e.epoch = epoch
    · right
      by_cases hpending : e.promise = .pending
      · right
        refine ⟨e, rfl, hepoch, hpending, ?_⟩
        subst hepoch
        simp only [hpending, SharedPromise.isFulfilled, ne_eq, not_true_eq_false, if_false,
          decide_false, Bool.false_eq_true]
        rfl
      · left
        refine ⟨e, rfl, hepoch, hpending, ?_⟩
        subst hepoch
        simp only [hpending, SharedPromise.isFulfilled, ne_eq, not_true_eq_false, if_false,
          not_false_eq_true, decide_true, if_true]
        rfl
    · left
      refine ⟨fun e' he' => ?_, ?_⟩
      · cases he'
        exact hepoch
      · simp only [hepoch, ne_eq, not_false_eq_true, if_true]

theorem failAndRemove_cases (registry : SubscriptionRegistry) (ftn : FullTrackName) (epoch : EntryEpoch) :
    ((∀ e, registry.find ftn = some e → e.epoch ≠ epoch) ∧
      registry.failAndRemove ftn epoch = some registry) ∨
    (∃ e, registry.find ftn = some e ∧ e.epoch = epoch ∧ e.promise ≠ .pending ∧
      registry.failAndRemove ftn epoch = none) ∨
    ∃ e, registry.find ftn = some e ∧ e.epoch = epoch ∧ e.promise = .pending ∧
      registry.failAndRemove ftn epoch = some (registry.erase ftn) := by
  simp only [failAndRemove]
  cases he : registry.find ftn with
  | none => exact .inl ⟨nofun, rfl⟩
  | some e =>
    by_cases hepoch : e.epoch = epoch
    · right
      by_cases hpending : e.promise = .pending
      · right
        refine ⟨e, rfl, hepoch, hpending, ?_⟩
        simp only [hepoch, hpending, SharedPromise.isFulfilled, ne_eq, not_true_eq_false, if_false,
          decide_false, Bool.false_eq_true, if_true]
      · left
        refine ⟨e, rfl, hepoch, hpending, ?_⟩
        simp only [hepoch, hpending, SharedPromise.isFulfilled, ne_eq, not_false_eq_true, decide_true, if_true]
    · left
      refine ⟨fun e' he' => ?_, ?_⟩
      · cases he'
        exact hepoch
      · simp only [hepoch, if_false]

theorem settled_of_find {p : UpstreamSubscribePending} (he : registry.find p.ftn = some e)
    (hepoch : e.epoch = p.epoch) : registry.settled p = [e.id] := by
  rw [settled, he, filter_some, if_pos (decide_eq_true hepoch)]
  rfl

theorem settled_of_none {p : UpstreamSubscribePending}
    (hnone : ∀ e, registry.find p.ftn = some e → e.epoch ≠ p.epoch) : registry.settled p = [] := by
  rw [settled]
  cases he : registry.find p.ftn with
  | none => rfl
  | some e =>
    rw [filter_some, if_neg (fun h => hnone e he (of_decide_eq_true h))]
    rfl

end SubscriptionRegistry

namespace Subscription

abbrev Handles := AList (fun _ : Nat => UpstreamSubscribePending)

variable {registry r : SubscriptionRegistry} {handles hs : Handles} {calls : Nat} {log : List Nat}
  {ftn : FullTrackName} {e e' : RelaySubscription}

/-! ## 1. The invariant -/

/-- An entry and the handle of the call that made it have one epoch, and no other two have; an open handle's
    entry is pending; and the promises fulfilled so far are those of different entries, none of them pending
    now. -/
structure Inv (registry : SubscriptionRegistry) (handles : Handles) (calls : Nat) (log : List Nat) : Prop where
  entry_lt : ∀ ftn e, registry.find ftn = some e → e.id < calls ∧ e.epoch ≤ registry.epochCounter
  handle_lt : ∀ i h, handles.lookup i = some h → i < calls ∧ h.epoch ≤ registry.epochCounter
  entry_inj : ∀ ftn ftn' e e', registry.find ftn = some e → registry.find ftn' = some e' → e.id = e'.id →
    ftn = ftn'
  own : ∀ ftn e i h, registry.find ftn = some e → handles.lookup i = some h →
    (e.epoch = h.epoch ↔ e.id = i) ∧ (e.id = i → ftn = h.ftn)
  open_pending : ∀ ftn e i h, registry.find ftn = some e → handles.lookup i = some h → h.active = true →
    e.id = i → e.promise = .pending
  log_lt : ∀ n ∈ log, n < calls
  log_nodup : log.Nodup
  unlogged : ∀ ftn e, registry.find ftn = some e → e.promise = .pending → e.id ∉ log

theorem Inv.empty : Inv {} ∅ 0 [] := by
  have hfind : ∀ ftn e, ({} : SubscriptionRegistry).find ftn ≠ some e := by
    intro ftn e he
    cases (lookup_empty ftn).symm.trans he
  have hhandles : ∀ i p, (∅ : Handles).lookup i ≠ some p := by
    intro i p hp
    cases (lookup_empty i).symm.trans hp
  exact
    { entry_lt := fun ftn e he => absurd he (hfind ftn e)
      handle_lt := fun i p hp => absurd hp (hhandles i p)
      entry_inj := fun ftn _ e _ he => absurd he (hfind ftn e)
      own := fun ftn e _ _ he => absurd he (hfind ftn e)
      open_pending := fun ftn e _ _ he => absurd he (hfind ftn e)
      log_lt := fun _ hn => absurd hn not_mem_nil
      log_nodup := nodup_nil
      unlogged := fun ftn e he => absurd he (hfind ftn e) }

section kept

variable (h : Inv registry handles calls log)

include h

theorem Inv.next : Inv registry handles (calls + 1) log :=
  { h with
    entry_lt := fun ftn e he => ⟨Nat.lt_succ_of_lt (h.entry_lt ftn e he).1, (h.entry_lt ftn e he).2⟩
    handle_lt := fun i p hp => ⟨Nat.lt_succ_of_lt (h.handle_lt i p hp).1, (h.handle_lt i p hp).2⟩
    log_lt := fun n hn => Nat.lt_succ_of_lt (h.log_lt n hn) }

/-! ## 2. What a call does to the map -/

/-- Handles go, and every entry left stands for one of before: the same object, with the same epoch, and
    pending as long as it has an open handle. -/
theorem Inv.rewrite (hcounter : r.epochCounter = registry.epochCounter)
    (hhandles : ∀ i p, hs.lookup i = some p → handles.lookup i = some p)
    (hold : ∀ g d, r.find g = some d → ∃ d', registry.find g = some d' ∧ d.id = d'.id ∧ d.epoch = d'.epoch ∧
      (d.promise = .pending → d'.promise = .pending) ∧
      (d'.promise = .pending → d.promise = .pending ∨ ∀ p, hs.lookup d.id = some p → p.active = false)) :
    Inv r hs calls log where
  entry_lt := by
    intro g d hd
    obtain ⟨d', hd', hi, hep, _⟩ := hold g d hd
    rw [hi, hep, hcounter]
    exact h.entry_lt g d' hd'
  handle_lt := by
    intro i p hp
    rw [hcounter]
    exact h.handle_lt i p (hhandles i p hp)
  entry_inj := by
    intro g g' d d₁ hd hd₁ heq
    obtain ⟨d', hd', hi, _⟩ := hold g d hd
    obtain ⟨d₁', hd₁', hi₁, _⟩ := hold g' d₁ hd₁
    exact h.entry_inj g g' d' d₁' hd' hd₁' (by rw [← hi, ← hi₁, heq])
  own := by
    intro g d i p hd hp
    obtain ⟨d', hd', hi, hep, _⟩ := hold g d hd
    rw [hi, hep]
    exact h.own g d' i p hd' (hhandles i p hp)
  open_pending := by
    intro g d i p hd hp hactive heq
    obtain ⟨d', hd', hi, _, _, hopen⟩ := hold g d hd
    refine (hopen (h.open_pending g d' i p hd' (hhandles i p hp) hactive (hi ▸ heq))).resolve_right fun hcl => ?_
    rw [hcl p (heq ▸ hp)] at hactive
    cases hactive
  log_lt := h.log_lt
  log_nodup := h.log_nodup
  unlogged := by
    intro g d hd hpending
    obtain ⟨d', hd', hi, _, hpr, _⟩ := hold g d hd
    rw [hi]
    exact h.unlogged g d' hd' (hpr hpending)

theorem Inv.shrink (hentries : ∀ ftn e, r.find ftn = some e → registry.find ftn = some e)
    (hcounter : r.epochCounter = registry.epochCounter)
    (hhandles : ∀ i p, hs.lookup i = some p → handles.lookup i = some p) : Inv r hs calls log :=
  h.rewrite hcounter hhandles fun g d hd => ⟨d, hentries g d hd, rfl, rfl, id, .inl⟩

theorem Inv.update (he : registry.find ftn = some e)
    (hid : e'.id = e.id) (hepoch : e'.epoch = e.epoch) (hpromise : e'.promise = e.promise) :
    Inv (registry.put ftn e') handles calls log := by
  refine h.rewrite rfl (fun _ _ => id) fun g d hd => ?_
  rw [find_put] at hd
  split at hd
  · rename_i hg
    cases hd
    exact ⟨e, hg ▸ he, hid, hepoch, hpromise ▸ id, fun hp => .inl (hpromise ▸ hp)⟩
  · exact ⟨d, hd, rfl, rfl, id, .inl⟩

theorem Inv.logged {n : Nat} (hn : n < calls) (hnew : n ∉ log)
    (hnone : ∀ ftn e, registry.find ftn = some e → e.promise = .pending → e.id ≠ n) :
    Inv registry handles calls (log ++ [n]) :=
  { h with
    log_lt := by
      intro m hm
      rcases mem_append.mp hm with hm | hm
      · exact h.log_lt m hm
      · rw [mem_singleton.mp hm]
        exact hn
    log_nodup := by
      refine nodup_append.mpr ⟨h.log_nodup, nodup_singleton _, fun a ha b hb hab => ?_⟩
      rw [mem_singleton.mp hb] at hab
      exact hnew (hab ▸ ha)
    unlogged := by
      intro ftn e he hpending hmem
      rcases mem_append.mp hmem with hmem | hmem
      · exact h.unlogged ftn e he hpending hmem
      · exact hnone ftn e he hpending (mem_singleton.mp hmem) }

theorem Inv.close {i : Nat} {p : UpstreamSubscribePending} (hp : handles.lookup i = some p) :
    Inv registry (handles.insert i { p with active := false }) calls log := by
  have hold : ∀ j q, (handles.insert i { p with active := false }).lookup j = some q →
      ∃ q', handles.lookup j = some q' ∧ q.epoch = q'.epoch ∧ q.ftn = q'.ftn ∧
        (q.active = true → q'.active = true) := by
    intro j q hq
    by_cases hj : j = i
    · rw [hj, lookup_insert] at hq
      cases hq
      exact ⟨p, hj ▸ hp, rfl, rfl, nofun⟩
    · rw [lookup_insert_ne hj] at hq
      exact ⟨q, hq, rfl, rfl, id⟩
  exact
    { h with
      handle_lt := by
        intro j q hq
        obtain ⟨q', hq', hep, _, _⟩ := hold j q hq
        rw [hep]
        exact h.handle_lt j q' hq'
      own := by
        intro g d j q hd hq
        obtain ⟨q', hq', hep, hftn, _⟩ := hold j q hq
        rw [hep, hftn]
        exact h.own g d j q' hd hq'
      open_pending := by
        intro g d j q hd hq hactive
        obtain ⟨q', hq', _, _, hact⟩ := hold j q hq
        exact h.open_pending g d j q' hd hq' (hact hactive) }

theorem Inv.fulfil (he : registry.find ftn = some e)
    (hpending : e.promise = .pending) (hclosed : ∀ p, handles.lookup e.id = some p → p.active = false)
    (hid : e'.id = e.id) (hepoch : e'.epoch = e.epoch) (hvalue : e'.promise = .value) :
    Inv (registry.put ftn e') handles calls (log ++ [e.id]) := by
  have hmap : Inv (registry.put ftn e') handles calls log := by
    refine h.rewrite rfl (fun _ _ => id) fun g d hd => ?_
    rw [find_put] at hd
    split at hd
    · rename_i hg
      cases hd
      exact ⟨e, hg ▸ he, hid, hepoch, fun _ => hpending, fun _ => .inr (hid ▸ hclosed)⟩
    · exact ⟨d, hd, rfl, rfl, id, .inl⟩
  refine hmap.logged (h.entry_lt ftn e he).1 (h.unlogged ftn e he hpending) ?_
  intro g d hd hpend hde
  rw [find_put] at hd
  split at hd
  · cases hd
    rw [hvalue] at hpend
    cases hpend
  · rename_i hg
    exact hg (h.entry_inj g ftn d e hd he hde)

theorem Inv.create (hid : e.id = calls) (hepoch : e.epoch = registry.epochCounter + 1)
    (hhandles : ∀ i p, hs.lookup i = some p →
      handles.lookup i = some p ∨ (i = calls ∧ p.ftn = ftn ∧ p.epoch = e.epoch ∧ e.promise = .pending)) :
    Inv (({ registry with epochCounter := registry.epochCounter + 1 } : SubscriptionRegistry).put ftn e) hs
      (calls + 1) log := by
  have hold : ∀ g d, (({ registry with epochCounter := registry.epochCounter + 1 } :
      SubscriptionRegistry).put ftn e).find g = some d → (g = ftn ∧ d = e) ∨ (g ≠ ftn ∧ registry.find g = some d) := by
    intro g d hd
    rw [find_put] at hd
    split at hd
    · rename_i hg
      cases hd
      exact .inl ⟨hg, rfl⟩
    · rename_i hg
      exact .inr ⟨hg, hd⟩
  refine ⟨?_, ?_, ?_, ?_, ?_, ?_, h.log_nodup, ?_⟩
  · intro g d hd
    rcases hold g d hd with ⟨_, hde⟩ | ⟨_, hd⟩
    · rw [hde, hid, hepoch]
      exact ⟨Nat.lt_succ_self _, Nat.le_refl _⟩
    · exact ⟨Nat.lt_succ_of_lt (h.entry_lt g d hd).1, Nat.le_succ_of_le (h.entry_lt g d hd).2⟩
  · intro i p hp
    rcases hhandles i p hp with hp | ⟨hi, _, hpe, _⟩
    · exact ⟨Nat.lt_succ_of_lt (h.handle_lt i p hp).1, Nat.le_succ_of_le (h.handle_lt i p hp).2⟩
    · rw [hi, hpe, hepoch]
      exact ⟨Nat.lt_succ_self _, Nat.le_refl _⟩
  · intro g g' d d' hd hd' heq
    rcases hold g d hd with ⟨hg, hde⟩ | ⟨_, hd⟩
    · rcases hold g' d' hd' with ⟨hg', _⟩ | ⟨_, hd'⟩
      · rw [hg, hg']
      · have := (h.entry_lt g' d' hd').1
        rw [hde, hid] at heq
        omega
    · rcases hold g' d' hd' with ⟨_, hde'⟩ | ⟨_, hd'⟩
      · have := (h.entry_lt g d hd).1
        rw [hde', hid] at heq
        omega
      · exact h.entry_inj g g' d d' hd hd' heq
  · intro g d i p hd hp
    rcases hold g d hd with ⟨hg, hde⟩ | ⟨_, hd⟩
    · rcases hhandles i p hp with hp | ⟨hi, hpf, hpe, _⟩
      · have hlt := h.handle_lt i p hp
        rw [hde, hid, hepoch]
        refine ⟨⟨fun hep => absurd hep (Nat.ne_of_gt (Nat.lt_succ_of_le hlt.2)), fun hci => ?_⟩, fun hci => ?_⟩
        · omega
        · omega
      · rw [hde, hid, hpe, hi, hg, hpf]
        exact ⟨⟨fun _ => rfl, fun _ => rfl⟩, fun _ => rfl⟩
    · rcases hhandles i p hp with hp | ⟨hi, hpf, hpe, _⟩
      · exact h.own g d i p hd hp
      · have hlt := h.entry_lt g d hd
        rw [hpe, hi, hepoch]
        refine ⟨⟨fun hep => absurd hep (Nat.ne_of_lt (Nat.lt_succ_of_le hlt.2)), fun hci => ?_⟩, fun hci => ?_⟩
        · omega
        · omega
  · intro g d i p hd hp hactive heq
    rcases hold g d hd with ⟨_, hde⟩ | ⟨_, hd⟩
    · rcases hhandles i p hp with hp | ⟨_, _, _, hpend⟩
      · have hlt := (h.handle_lt i p hp).1
        rw [hde, hid] at heq
        omega
      · rw [hde]
        exact hpend
    · rcases hhandles i p hp with hp | ⟨hi, _, _, _⟩
      · exact h.open_pending g d i p hd hp hactive heq
      · have hlt := (h.entry_lt g d hd).1
        omega
  · intro n hn
    exact Nat.lt_succ_of_lt (h.log_lt n hn)
  · intro g d hd hpend hmem
    rcases hold g d hd with ⟨_, hde⟩ | ⟨_, hd⟩
    · have hlt := h.log_lt _ hmem
      rw [hde, hid] at hlt
      omega
    · exact h.unlogged g d hd hpend hmem

end kept

/-! ## 3. One call -/

namespace System

variable {s : System}

variable {i : Nat} {p : UpstreamSubscribePending} {s' : System}

/-- The invariant of a state. -/
def Good (s : System) (log : List Nat) : Prop := Inv s.registry s.handles s.calls log

theorem good_start : Good {} [] := Inv.empty

section events

variable (h : s.Good log)

include h

theorem Good.subscribe (ref : Option ForwarderRef) :
    Inv (s.subscribe ftn ref).system.registry (s.subscribe ftn ref).system.handles (s.calls + 1)
      (log ++ (s.subscribe ftn ref).fulfilled) := by
  simp only [System.subscribe, getOrCreateFromSubscribe]
  cases s.registry.find ftn with
  | some e =>
    rw [append_nil]
    exact Inv.next h
  | none =>
    cases ref with
    | none =>
      rw [append_nil]
      exact Inv.next h
    | some forwarder =>
      rw [append_nil]
      refine Inv.create h rfl rfl fun i p hp => ?_
      by_cases hi : i = s.calls
      · rw [hi, lookup_insert] at hp
        cases hp
        exact .inr ⟨hi, rfl, rfl, rfl⟩
      · rw [lookup_insert_ne hi] at hp
        exact .inl hp

theorem Good.found (hp : s.handles.lookup i = some p) (he : s.registry.find p.ftn = some e)
    (hepoch : e.epoch = p.epoch) :
    e.id = i ∧ (p.active = true → e.promise = .pending) := by
  have hid := (h.own p.ftn e i p he hp).1.mp hepoch
  exact ⟨hid, fun hactive => h.open_pending p.ftn e i p he hp hactive hid⟩

theorem Good.complete (pending : Nat) (completion : Completion) :
    Inv (s.complete pending completion).system.registry (s.complete pending completion).system.handles
      s.calls (log ++ (s.complete pending completion).fulfilled) := by
  rw [System.complete]
  cases hp : s.handles.lookup pending with
  | none =>
    rw [append_nil]
    exact h
  | some p =>
    have hclosed : Inv s.registry (s.handles.insert pending { p with active := false }) s.calls log :=
      Inv.close h hp
    rcases s.registry.completeSubscription_cases p.ftn p.epoch completion with
      ⟨_, heq⟩ | ⟨e, he, hepoch, _, heq⟩ | ⟨e, he, hepoch, hpending, heq⟩
    · simp only [heq, append_nil]
      exact hclosed
    · simp only [heq, append_nil]
      exact hclosed.update he rfl rfl rfl
    · simp only [heq, settled_of_find he hepoch]
      refine hclosed.fulfil he hpending (fun q hq => ?_) rfl rfl rfl
      rw [(h.found hp he hepoch).1, lookup_insert] at hq
      cases hq
      rfl

theorem Good.drop {pending : Nat} {r : Result} (hr : s.drop pending = some r) :
    Inv r.system.registry r.system.handles s.calls (log ++ r.fulfilled) := by
  rw [System.drop] at hr
  cases hp : s.handles.lookup pending with
  | none =>
    simp only [hp, some.injEq] at hr
    rw [← hr, append_nil]
    exact h
  | some p =>
    have hhandles : ∀ i q, (s.handles.erase pending).lookup i = some q → s.handles.lookup i = some q :=
      fun i q hq => (Table.lookup_erase_iff.mp hq).2
    simp only [hp] at hr
    split at hr
    · rcases s.registry.failAndRemove_cases p.ftn p.epoch with
        ⟨hnone, heq⟩ | ⟨e, he, hepoch, _, heq⟩ | ⟨e, he, hepoch, hpending, heq⟩
      · simp only [heq, map_some, some.injEq] at hr
        rw [← hr, settled_of_none hnone, append_nil]
        exact Inv.shrink h (fun _ _ hd => hd) rfl hhandles
      · simp only [heq, map_none] at hr
        cases hr
      · simp only [heq, map_some, some.injEq] at hr
        rw [← hr, settled_of_find he hepoch]
        have hgone : Inv (s.registry.erase p.ftn) (s.handles.erase pending) s.calls log :=
          Inv.shrink h (fun _ _ => find_of_erase) rfl hhandles
        refine hgone.logged (h.entry_lt p.ftn e he).1 (h.unlogged p.ftn e he hpending) fun g d hd _ hid => ?_
        have hg := h.entry_inj g p.ftn d e (find_of_erase hd) he hid
        rw [find_erase, if_pos hg] at hd
        cases hd
    · simp only [some.injEq] at hr
      rw [← hr, append_nil]
      exact Inv.shrink h (fun _ _ hd => hd) rfl hhandles

theorem Good.createFromPublish (publication : Publication) :
    Inv (s.registry.createFromPublish s.calls ftn publication).1 s.handles (s.calls + 1) (log ++ [s.calls]) := by
  have herased : Inv (s.registry.erase ftn) s.handles s.calls log :=
    Inv.shrink h (fun _ _ => find_of_erase) rfl fun _ _ hp => hp
  refine (Inv.create herased rfl rfl fun i p hp => .inl hp).logged (Nat.lt_succ_self _)
    (fun hmem => Nat.lt_irrefl _ (h.log_lt _ hmem)) fun g d hd hpending hid => ?_
  rw [find_put] at hd
  split at hd
  · cases hd
    cases hpending
  · have := (h.entry_lt g d (find_of_erase hd)).1
    omega

theorem Good.terminate {empty : Bool} {r : SubscriptionRegistry × ForwarderRef}
    (hr : s.registry.onPublisherTerminated ftn empty = some r) : Inv r.1 s.handles s.calls log := by
  simp only [onPublisherTerminated] at hr
  cases he : s.registry.find ftn with
  | none =>
    simp only [he, some.injEq] at hr
    rw [← hr]
    exact h
  | some e =>
    simp only [he] at hr
    split at hr
    · split at hr
      · cases hr
        exact Inv.shrink h (fun _ _ => find_of_erase) rfl fun _ _ hp => hp
      · cases hr
        exact Inv.update h he rfl rfl rfl
    · cases hr

theorem Good.resume (waiter : Nat) :
    Inv (s.resume waiter).system.registry (s.resume waiter).system.handles s.calls
      (log ++ (s.resume waiter).fulfilled) := by
  rw [System.resume]
  split
  · rw [append_nil]
    exact h
  · split
    · rw [append_nil]
      exact h
    · rw [append_nil]
      exact h
    · split
      · rw [append_nil]
        exact h
      · rw [append_nil]
        exact h

/-- **One call** keeps the invariant. -/
theorem Good.step {op : Op} {r : Result} (hr : s.step op = some r) :
    r.system.Good (log ++ r.fulfilled) := by
  rw [System.step, map_eq_some_iff] at hr
  obtain ⟨r₀, hact, hr⟩ := hr
  rw [← hr]
  cases op with
  | subscribe ftn ref =>
    cases hact
    exact h.subscribe ref
  | complete pending completion =>
    cases hact
    exact Inv.next (h.complete pending completion)
  | drop pending =>
    have hdrop : s.drop pending = some r₀ := hact
    have hkept := h.drop hdrop
    exact Inv.next hkept
  | createFromPublish ftn publication =>
    cases hact
    exact h.createFromPublish publication
  | terminate ftn empty =>
    obtain ⟨r₁, hterm, hact⟩ := map_eq_some_iff.mp hact
    rw [← hact, append_nil]
    exact Inv.next (h.terminate hterm)
  | remove ftn =>
    cases hact
    rw [append_nil]
    exact Inv.next (Inv.shrink h (fun _ _ => find_of_erase) rfl fun _ _ hp => hp)
  | removeIf predicate =>
    cases hact
    rw [append_nil]
    exact Inv.next (Inv.shrink h (fun _ _ => find_of_removeIf) rfl fun _ _ hp => hp)
  | resume waiter =>
    cases hact
    exact Inv.next (h.resume waiter)

/-- **Every sequence of calls.** -/
theorem Good.runFrom {ops : List Op} {log' : List Nat}
    (hrun : s.runFrom log ops = some (s', log')) : s'.Good log' := by
  induction ops generalizing s log with
  | nil =>
    cases hrun
    exact h
  | cons op ops ih =>
    obtain ⟨r, hr, hrun⟩ := bind_eq_some_iff.mp hrun
    exact ih (h.step hr) hrun

end events

/-! ## 4. The entry of one's own -/

def Present (s : System) (call : Nat) : Prop := ∃ ftn e, s.registry.find ftn = some e ∧ e.id = call

/-- Nothing but the entry that a call made is different. -/
def OnlyOwn (call : Nat) (s s' : System) : Prop :=
  ∀ ftn e, e.id ≠ call → (s'.registry.find ftn = some e ↔ s.registry.find ftn = some e)

theorem onlyOwn_put {call : Nat} (hs' : s'.registry = s.registry.put ftn e')
    (he : s.registry.find ftn = some e) (hid : e.id = call) (hid' : e'.id = call) : OnlyOwn call s s' := by
  intro g d hd
  rw [hs', find_put]
  split
  · rename_i hg
    rw [hg, he]
    constructor
    · intro heq
      cases heq
      exact absurd hid' hd
    · intro heq
      cases heq
      exact absurd hid hd
  · exact Iff.rfl

theorem onlyOwn_erase {call : Nat} (hs' : s'.registry = s.registry.erase ftn)
    (he : s.registry.find ftn = some e) (hid : e.id = call) : OnlyOwn call s s' := by
  intro g d hd
  rw [hs', find_erase]
  split
  · rename_i hg
    rw [hg, he]
    constructor
    · nofun
    · intro heq
      cases heq
      exact absurd hid hd
  · exact Iff.rfl

section

variable (h : s.Good log) (hp : s.handles.lookup i = some p)

include h hp

theorem Good.present_iff :
    s.Present i ↔ ∃ e, s.registry.find p.ftn = some e ∧ e.epoch = p.epoch := by
  constructor
  · intro hpresent
    obtain ⟨ftn, e, he, hid⟩ := hpresent
    obtain ⟨hepoch, hftn⟩ := h.own ftn e i p he hp
    exact ⟨e, hftn hid ▸ he, hepoch.mpr hid⟩
  · intro hfound
    obtain ⟨e, he, hepoch⟩ := hfound
    exact ⟨p.ftn, e, he, (h.found hp he hepoch).1⟩

theorem Good.complete_own (completion : Completion) :
    OnlyOwn i s (s.complete i completion).system ∧
    (∀ b, (s.complete i completion).reply = .completed b → (b = true ↔ s.Present i)) ∧
    (p.active = true → ∃ b, (s.complete i completion).reply = .completed b) := by
  rw [h.present_iff hp, System.complete, hp]
  rcases s.registry.completeSubscription_cases p.ftn p.epoch completion with
    ⟨hnone, heq⟩ | ⟨e, he, hepoch, hfulfilled, heq⟩ | ⟨e, he, hepoch, _, heq⟩
  · simp only [heq]
    refine ⟨fun _ _ _ => Iff.rfl, fun b hb => ?_, fun _ => ⟨false, rfl⟩⟩
    cases hb
    constructor
    · nofun
    · intro hfound
      obtain ⟨e, he, hepoch⟩ := hfound
      exact absurd hepoch (hnone e he)
  · have hfound := h.found hp he hepoch
    simp only [heq]
    exact ⟨onlyOwn_put rfl he hfound.1 hfound.1, nofun, fun hactive => absurd (hfound.2 hactive) hfulfilled⟩
  · have hfound := h.found hp he hepoch
    simp only [heq]
    refine ⟨onlyOwn_put rfl he hfound.1 hfound.1, fun b hb => ?_, fun _ => ⟨true, rfl⟩⟩
    cases hb
    exact ⟨fun _ => ⟨e, he, hepoch⟩, fun _ => rfl⟩

theorem Good.drop_own :
    ∃ r, s.drop i = some r ∧ OnlyOwn i s r.system := by
  rw [System.drop, hp]
  cases hactive : p.active with
  | false =>
    simp only [hactive, Bool.false_eq_true, if_false, some.injEq, exists_eq_left']
    exact fun _ _ _ => Iff.rfl
  | true =>
    rcases s.registry.failAndRemove_cases p.ftn p.epoch with
      ⟨_, heq⟩ | ⟨e, he, hepoch, hfulfilled, heq⟩ | ⟨e, he, hepoch, _, heq⟩
    · simp only [heq, hactive, if_true, map_some, some.injEq, exists_eq_left']
      exact fun _ _ _ => Iff.rfl
    · exact absurd ((h.found hp he hepoch).2 hactive) hfulfilled
    · simp only [heq, hactive, if_true, map_some, some.injEq, exists_eq_left']
      exact onlyOwn_erase rfl he (h.found hp he hepoch).1

end

/-- **A first subscriber settles its own entry only.** After every sequence of calls, a handle that a call of
    subscribe returned changes nothing but the entry that this call made, by `complete` as by its destructor;
    what `complete` returns says whether that entry is still there, and it does return if the handle is open;
    the destructor never throws; and no promise was ever fulfilled twice. -/
theorem first_subscriber_settles_own_entry {ops : List Op} {log : List Nat} (hrun : run ops = some (s, log)) :
    (∀ i p, s.handles.lookup i = some p →
      (∀ completion, ∃ r, s.step (.complete i completion) = some r ∧ OnlyOwn i s r.system ∧
        (∀ b, r.reply = .completed b → (b = true ↔ s.Present i)) ∧
        (p.active = true → ∃ b, r.reply = .completed b)) ∧
      ∃ r, s.step (.drop i) = some r ∧ OnlyOwn i s r.system) ∧
    log.Nodup := by
  have h : s.Good log := Good.runFrom good_start hrun
  refine ⟨fun i p hp => ⟨fun completion => ?_, ?_⟩, h.log_nodup⟩
  · exact ⟨_, rfl, h.complete_own hp completion⟩
  · obtain ⟨r, hr, hown⟩ := h.drop_own hp
    exact ⟨{ r with system := { r.system with calls := s.calls + 1 } }, by rw [step, act, hr]; rfl, hown⟩

/-- A publisher takes the place of a pending subscription: two promises, each fulfilled once, and the handle
    of the subscription is told that its entry is gone. -/
theorem first_subscriber_finds_publisher :
    ∃ s log r, run [.subscribe ⟨[], []⟩ (some (.owned 0)),
        .createFromPublish ⟨[], []⟩ ⟨.owned 1, 7, 8, 2, some 9⟩] = some (s, log) ∧ log = [1] ∧
      s.step (.complete 0 ⟨3, 4, 5, 6⟩) = some r ∧ r.reply = .completed false ∧ ¬ s.Present 0 := by
  have hrun : run [.subscribe ⟨[], []⟩ (some (.owned 0)),
      .createFromPublish ⟨[], []⟩ ⟨.owned 1, 7, 8, 2, some 9⟩] = some (_, _) := rfl
  refine ⟨_, _, _, hrun, rfl, rfl, rfl, ?_⟩
  obtain ⟨r, hr, _, hreply, _⟩ := ((first_subscriber_settles_own_entry hrun).1 0 _ rfl).1 ⟨3, 4, 5, 6⟩
  cases hr
  exact fun hpresent => Bool.noConfusion ((hreply false rfl).mpr hpresent)

end System

end Subscription

end Moqx

/-
  Subject: A TICKET FOR EVERY PARKED FORWARDER, and what the registry guarantees over whole runs.

  * `Parked.keep`, `Parked.install`, `Parked.park`, `Parked.take` -- what a call does to them;
  * `ParkedIn.step` -- one call;
  * `local_forwarders_resolve_once` -- claims, futures and tickets after every sequence of calls.
-/
import Moqx.LocalForwarder.Claims

namespace Moqx.LocalForwarder

open Table List AList Option LocalForwarderRegistry

abbrev Tickets := AList (fun _ : Nat => FullTrackName × Nat)

variable {entries entries' : Entries} {parked : FullTrackName → List Nat} {tickets : Tickets} {installed : List Nat}
  {next : Nat} {ftn : FullTrackName} {f : Nat}

/-! ## 1. The invariant -/

/-- The outstanding tickets are the parked forwarders, each once, and none of these is in an entry. -/
structure Parked (entries : Entries) (parked : FullTrackName → List Nat) (tickets : Tickets)
    (installed : List Nat) (next : Nat) : Prop where
  parked_iff : ∀ ftn f, f ∈ parked ftn ↔ ∃ t, tickets.lookup t = some (ftn, f)
  nodup : ∀ ftn, (parked ftn).Nodup
  ticket_inj : ∀ t t' g g' f, tickets.lookup t = some (g, f) → tickets.lookup t' = some (g', f) → t = t'
  ticket_in : ∀ t g f, tickets.lookup t = some (g, f) → f ∈ installed ∧ t < next
  away : ∀ t g f g' e, tickets.lookup t = some (g, f) → entries.lookup g' = some e → e.forwarder ≠ f
  entry_in : ∀ g e, entries.lookup g = some e → e.forwarder ∈ installed
  entry_inj : ∀ g g' e e', entries.lookup g = some e → entries.lookup g' = some e' →
    e.forwarder = e'.forwarder → g = g'

theorem Parked.empty : Parked ∅ (fun _ => []) ∅ [] 0 := by
  have hentries : ∀ ftn e, (∅ : Entries).lookup ftn ≠ some e := by
    intro ftn e he
    cases (lookup_empty ftn).symm.trans he
  have htickets : ∀ t x, (∅ : Tickets).lookup t ≠ some x := by
    intro t x hx
    cases (lookup_empty t).symm.trans hx
  exact
    { parked_iff := fun ftn f => ⟨fun h => absurd h not_mem_nil, fun ⟨t, ht⟩ => absurd ht (htickets t _)⟩
      nodup := fun _ => nodup_nil
      ticket_inj := fun t _ g _ f ht => absurd ht (htickets t (g, f))
      ticket_in := fun t g f ht => absurd ht (htickets t (g, f))
      away := fun t g f _ _ ht => absurd ht (htickets t (g, f))
      entry_in := fun g e he => absurd he (hentries g e)
      entry_inj := fun g _ e _ he => absurd he (hentries g e) }

/-! ## 2. What a call does -/

section parked

variable (h : Parked entries parked tickets installed next)

include h

theorem Parked.keep {next' : Nat} (hentries : ∀ g e, entries'.lookup g = some e →
      ∃ e₀, entries.lookup g = some e₀ ∧ e.forwarder = e₀.forwarder)
    (hnext : next ≤ next') : Parked entries' parked tickets installed next' :=
  { h with
    ticket_in := fun t g f ht => ⟨(h.ticket_in t g f ht).1, Nat.lt_of_lt_of_le (h.ticket_in t g f ht).2 hnext⟩
    away := by
      intro t g f g' e ht he
      obtain ⟨e₀, he₀, hfwd⟩ := hentries g' e he
      rw [hfwd]
      exact h.away t g f g' e₀ ht he₀
    entry_in := by
      intro g e he
      obtain ⟨e₀, he₀, hfwd⟩ := hentries g e he
      rw [hfwd]
      exact h.entry_in g e₀ he₀
    entry_inj := by
      intro g g' e e' he he' heq
      obtain ⟨e₀, he₀, hfwd⟩ := hentries g e he
      obtain ⟨e₁, he₁, hfwd₁⟩ := hentries g' e' he'
      exact h.entry_inj g g' e₀ e₁ he₀ he₁ (by rw [← hfwd, ← hfwd₁, heq]) }

theorem Parked.install (hf : f ∉ installed)
    {ready : Option Nat} : Parked (entries.insert ftn ⟨f, ready⟩) parked tickets (f :: installed) (next + 1) := by
  have hlookup : ∀ g e, (entries.insert ftn ⟨f, ready⟩).lookup g = some e →
      (g = ftn ∧ e.forwarder = f) ∨ (g ≠ ftn ∧ entries.lookup g = some e) := by
    intro g e he
    exact (lookup_insert_cases he).imp_left fun ⟨hg, hee⟩ => ⟨hg, by rw [hee]⟩
  exact
    { h with
      ticket_in := fun t g x ht =>
        ⟨mem_cons_of_mem _ (h.ticket_in t g x ht).1, Nat.lt_succ_of_lt (h.ticket_in t g x ht).2⟩
      away := by
        intro t g x g' e ht he
        rcases hlookup g' e he with ⟨_, hfwd⟩ | ⟨_, he⟩
        · rw [hfwd]
          exact fun hfx => hf (hfx ▸ (h.ticket_in t g x ht).1)
        · exact h.away t g x g' e ht he
      entry_in := by
        intro g e he
        rcases hlookup g e he with ⟨_, hfwd⟩ | ⟨_, he⟩
        · rw [hfwd]
          exact mem_cons_self
        · exact mem_cons_of_mem _ (h.entry_in g e he)
      entry_inj := by
        intro g g' e e' he he' heq
        rcases hlookup g e he with ⟨hg, hfwd⟩ | ⟨_, he⟩
        · rcases hlookup g' e' he' with ⟨hg', _⟩ | ⟨_, he'⟩
          · rw [hg, hg']
          · rw [← heq.symm.trans hfwd] at hf
            exact absurd (h.entry_in g' e' he') hf
        · rcases hlookup g' e' he' with ⟨_, hfwd'⟩ | ⟨_, he'⟩
          · rw [← heq.trans hfwd'] at hf
            exact absurd (h.entry_in g e he) hf
          · exact h.entry_inj g g' e e' he he' heq }

theorem Parked.park (hf : f ∉ installed)
    {e : LocalForwarderEntry} (he : entries.lookup ftn = some e) {ready : Option Nat}
    {parked' : FullTrackName → List Nat}
    (hparked : ∀ g, parked' g = if g = ftn then parked ftn ++ [e.forwarder] else parked g) :
    Parked (entries.insert ftn ⟨f, ready⟩) parked' (tickets.insert next (ftn, e.forwarder)) (f :: installed)
      (next + 1) := by
  have hinstall : Parked (entries.insert ftn ⟨f, ready⟩) parked tickets (f :: installed) (next + 1) :=
    h.install hf
  have hkeep : ∀ t x, tickets.lookup t = some x →
      (tickets.insert next (ftn, e.forwarder)).lookup t = some x := by
    intro t x hx
    have ht : t ≠ next := fun ht => Nat.lt_irrefl _ (ht ▸ (h.ticket_in t x.1 x.2 hx).2)
    exact (lookup_insert_ne ht).trans hx
  refine ⟨fun g x => ?_, fun g => ?_, fun t t' g g' x ht ht' => ?_, fun t g x ht => ?_, fun t g x g' d ht hd => ?_,
    hinstall.entry_in, hinstall.entry_inj⟩
  · rw [hparked]
    constructor
    · intro hx
      split at hx
      · rename_i hg
        rcases mem_append.mp hx with hx | hx
        · obtain ⟨t, ht⟩ := (h.parked_iff ftn x).mp hx
          exact ⟨t, hkeep t _ (hg ▸ ht)⟩
        · rw [mem_singleton.mp hx, hg]
          exact ⟨next, lookup_insert _⟩
      · obtain ⟨t, ht⟩ := (h.parked_iff g x).mp hx
        exact ⟨t, hkeep t _ ht⟩
    · intro hx
      obtain ⟨t, ht⟩ := hx
      rcases lookup_insert_cases ht with ⟨_, heq⟩ | ⟨_, ht⟩
      · cases heq
        rw [if_pos rfl]
        exact mem_append_right _ mem_cons_self
      · have hx := (h.parked_iff g x).mpr ⟨t, ht⟩
        split
        · rename_i hg
          exact mem_append_left _ (hg ▸ hx)
        · exact hx
  · rw [hparked]
    split
    · refine nodup_append.mpr ⟨h.nodup ftn, nodup_singleton _, fun a ha b hb hab => ?_⟩
      rw [mem_singleton.mp hb] at hab
      obtain ⟨t, ht⟩ := (h.parked_iff ftn a).mp ha
      exact h.away t ftn a ftn e ht he hab.symm
    · exact h.nodup g
  · rcases lookup_insert_cases ht with ⟨htn, heq⟩ | ⟨_, ht⟩
    · rcases lookup_insert_cases ht' with ⟨htn', _⟩ | ⟨_, ht'⟩
      · rw [htn, htn']
      · cases heq
        exact absurd rfl (h.away t' g' e.forwarder ftn e ht' he)
    · rcases lookup_insert_cases ht' with ⟨_, heq⟩ | ⟨_, ht'⟩
      · cases heq
        exact absurd rfl (h.away t g e.forwarder ftn e ht he)
      · exact h.ticket_inj t t' g g' x ht ht'
  · rcases lookup_insert_cases ht with ⟨htn, heq⟩ | ⟨_, ht⟩
    · cases heq
      rw [htn]
      exact ⟨mem_cons_of_mem _ (h.entry_in ftn e he), Nat.lt_succ_self _⟩
    · exact hinstall.ticket_in t g x ht
  · rcases lookup_insert_cases ht with ⟨_, heq⟩ | ⟨_, ht⟩
    · cases heq
      -- the displaced forwarder is in no entry any more
      rcases lookup_insert_cases hd with ⟨_, hdd⟩ | ⟨hg, hd⟩
      · rw [hdd]
        exact fun hfe : f = e.forwarder => hf (hfe ▸ h.entry_in ftn e he)
      · exact fun hde => hg (h.entry_inj g' ftn d e hd he hde)
    · exact hinstall.away t g x g' d ht hd

theorem Parked.take {t : Nat}
    (ht : tickets.lookup t = some (ftn, f)) {parked' : FullTrackName → List Nat}
    (hparked : ∀ g, parked' g = if g = ftn then (parked ftn).erase f else parked g) :
    Parked entries parked' (tickets.erase t) installed next :=
  { h with
    parked_iff := by
      intro g x
      rw [hparked]
      constructor
      · intro hx
        split at hx
        · rename_i hg
          have hxf := ((h.nodup ftn).mem_erase_iff.mp hx)
          obtain ⟨t', ht'⟩ := (h.parked_iff ftn x).mp hxf.2
          refine ⟨t', lookup_erase_iff.mpr ⟨fun htt => ?_, hg ▸ ht'⟩⟩
          rw [htt, ht] at ht'
          cases ht'
          exact hxf.1 rfl
        · rename_i hg
          obtain ⟨t', ht'⟩ := (h.parked_iff g x).mp hx
          refine ⟨t', lookup_erase_iff.mpr ⟨fun htt => ?_, ht'⟩⟩
          rw [htt, ht] at ht'
          cases ht'
          exact hg rfl
      · intro hx
        obtain ⟨t', ht'⟩ := hx
        obtain ⟨htt, ht'⟩ := lookup_erase_iff.mp ht'
        have hmem := (h.parked_iff g x).mpr ⟨t', ht'⟩
        split
        · rename_i hg
          refine (h.nodup ftn).mem_erase_iff.mpr ⟨fun hxf => ?_, hg ▸ hmem⟩
          exact htt (h.ticket_inj t' t g ftn x ht' (hxf ▸ ht))
        · exact hmem
    nodup := by
      intro g
      rw [hparked]
      split
      · exact (h.nodup ftn).erase _
      · exact h.nodup g
    ticket_inj := fun t₁ t₂ g g' x h₁ h₂ =>
      h.ticket_inj t₁ t₂ g g' x (lookup_erase_iff.mp h₁).2 (lookup_erase_iff.mp h₂).2
    ticket_in := fun t₁ g x h₁ => h.ticket_in t₁ g x (lookup_erase_iff.mp h₁).2
    away := fun t₁ g x g' e h₁ => h.away t₁ g x g' e (lookup_erase_iff.mp h₁).2 }

end parked

/-! ## 3. One call -/

namespace System

variable {s : System}

variable {registry : LocalForwarderRegistry} {p : Nat} {r : System × Option Nat}

def ParkedIn (s : System) : Prop :=
  Parked s.registry.forwarders s.registry.parked s.tickets s.installed s.next

theorem parked_takeDisplaced (hmem : f ∈ registry.parked ftn) :
    (registry.takeDisplaced ftn (some f)).2 = some f ∧
    (registry.takeDisplaced ftn (some f)).1.forwarders = registry.forwarders ∧
    ∀ g, (registry.takeDisplaced ftn (some f)).1.parked g =
      if g = ftn then (registry.parked ftn).erase f else registry.parked g := by
  have hparked : ∀ g, registry.parked g = (registry.displaced.lookup g).getD [] := fun _ => rfl
  cases hd : registry.displaced.lookup ftn with
  | none =>
    rw [hparked, hd] at hmem
    cases hmem
  | some l =>
    rw [hparked, hd] at hmem
    have hl : f ∈ l := hmem
    simp only [takeDisplaced, hd, hl, if_true, true_and]
    intro g
    simp only [parked, hd, getD_some]
    by_cases hempty : (l.erase f).isEmpty = true
    · rw [if_pos hempty]
      by_cases hg : g = ftn
      · rw [if_pos hg, hg, lookup_erase, isEmpty_iff.mp hempty]
        rfl
      · rw [if_neg hg, lookup_erase_ne hg]
    · rw [if_neg hempty]
      by_cases hg : g = ftn
      · rw [if_pos hg, hg, lookup_insert]
        rfl
      · rw [if_neg hg, lookup_insert_ne hg]

theorem makePending_parked {park : Park} :
    ((registry.makePending ftn f park p).2.2 = none ∧
      (registry.makePending ftn f park p).1.parked = registry.parked) ∨
    ∃ e, registry.forwarders.lookup ftn = some e ∧
      (registry.makePending ftn f park p).2.2 = some e.forwarder ∧
      ∀ g, (registry.makePending ftn f park p).1.parked g =
        if g = ftn then registry.parked ftn ++ [e.forwarder] else registry.parked g := by
  cases park with
  | no => exact .inl ⟨rfl, rfl⟩
  | yes =>
    cases he : registry.forwarders.lookup ftn with
    | none =>
      left
      simp only [makePending, he, map_none, true_and]
      rfl
    | some e =>
      right
      refine ⟨e, rfl, ?_, fun g => ?_⟩
      · simp only [makePending, he, map_some]
      · simp only [makePending, he, map_some]
        by_cases hg : g = ftn
        · rw [if_pos hg, parked, hg, lookup_insert]
          rfl
        · rw [if_neg hg, parked, lookup_insert_ne hg]
          rfl

section

variable (h : s.ParkedIn)

include h

theorem ParkedIn.makePending (hf : f ∉ s.installed) {park : Park} :
    (s.installing ftn f (s.registry.makePending ftn f park p)).ParkedIn := by
  rcases @makePending_parked ftn f s.registry p park with ⟨hkey, hparked⟩ | ⟨e, he, hkey, hparked⟩
  · simp only [ParkedIn, installing, makePending_forwarders, hkey, hparked]
    exact Parked.install h hf
  · simp only [ParkedIn, installing, makePending_forwarders, hkey]
    exact Parked.park h hf he hparked

theorem ParkedIn.resolveReady (i : Nat) (c : Claim) : (s.resolveReady i c).ParkedIn := by
  rw [System.resolveReady, markReady]
  cases hfind : s.registry.findPendingOwnedBy c.ftn c.forwarder with
  | none => exact h
  | some p =>
    refine Parked.keep h (fun g e he => ?_) (Nat.le_refl _)
    rcases lookup_insert_cases he with ⟨hg, hee⟩ | ⟨_, he⟩
    · exact ⟨⟨c.forwarder, some p⟩, hg ▸ findPendingOwnedBy_some hfind, by rw [hee]⟩
    · exact ⟨e, he, rfl⟩

theorem ParkedIn.resolveFailed (i : Nat) (ew : String) : (s.resolveFailed i ew).ParkedIn := by
  rw [System.resolveFailed]
  cases hc : s.claims.lookup i with
  | none => exact h
  | some c =>
    simp only [fail]
    cases hfind : s.registry.findPendingOwnedBy c.ftn c.forwarder with
    | none => exact h
    | some p => exact Parked.keep h (fun g e he => ⟨e, (lookup_erase_iff.mp he).2, rfl⟩) (Nat.le_refl _)

theorem ParkedIn.move (source target : Nat) : (s.move source target).ParkedIn := by
  rw [System.move]
  split
  · exact h
  · have hr := h.resolveFailed target "local forwarder claim overwritten"
    generalize s.resolveFailed target "local forwarder claim overwritten" = r at hr
    cases hc : r.claims.lookup source with
    | none =>
      simp only [hc]
      exact hr
    | some c =>
      simp only [hc]
      exact Parked.keep hr (fun g e he => ⟨e, he, rfl⟩) (Nat.le_max_left _ _)

theorem ParkedIn.remove (ftn : FullTrackName) (expected : Nat) :
    Parked (s.registry.remove ftn expected).1.forwarders (s.registry.remove ftn expected).1.parked s.tickets
      s.installed s.next := by
  rw [LocalForwarderRegistry.remove]
  cases he : s.registry.forwarders.lookup ftn with
  | none => exact h
  | some e =>
    by_cases hf : e.forwarder = expected
    · simp only [hf, if_true]
      exact Parked.keep h (fun g d hd => ⟨d, (lookup_erase_iff.mp hd).2, rfl⟩) (Nat.le_refl _)
    · simp only [hf, if_false]
      exact h

/-- **One call** keeps tickets and parked forwarders together. -/
theorem ParkedIn.step {op : Op} (hnew : ∀ f, s.installs op = some f → f ∉ s.installed)
    (hr : s.step op = some r) : r.1.ParkedIn := by
  have hdoes := step_does hnew hr
  generalize r.1 = s' at hdoes
  cases hdoes with
  | same => exact h
  | hand he hready => exact h
  | install park hf hp => exact h.makePending hf
  | setInitialState hc => exact h
  | markReady hc => exact h.resolveReady _ _
  | fail ew => exact h.resolveFailed _ ew
  | move source target => exact h.move source target
  | remove ftn expected => exact h.remove ftn expected
  | @takeDisplaced t ftn key ht =>
    obtain ⟨_, hforwarders, hparked⟩ := parked_takeDisplaced ((h.parked_iff ftn key).mpr ⟨t, ht⟩)
    simp only [ParkedIn, hforwarders]
    exact Parked.take h ht hparked

end

/-! ## 4. Every sequence of calls -/

theorem both_runFrom {ops : List Op} {s' : System} (howned : s.OwnedIn) (hparked : s.ParkedIn)
    (honce : s.InstalledOnce ops) (hrun : s.runFrom ops = some s') : s'.OwnedIn ∧ s'.ParkedIn := by
  induction ops generalizing s with
  | nil =>
    cases hrun
    exact ⟨howned, hparked⟩
  | cons op ops ih =>
    obtain ⟨r, hr, hrun⟩ := bind_eq_some_iff.mp hrun
    exact ih (howned.step honce.1 hr) (hparked.step honce.1 hr) (honce.2 r hr) hrun

/-- The track's entry is pending, and this is its promise. -/
def Pending (s : System) (ftn : FullTrackName) (ready : Nat) : Prop :=
  ∃ e, s.registry.forwarders.lookup ftn = some e ∧ e.ready = some ready

def SameButClaims (s s' : System) : Prop :=
  s'.registry = s.registry ∧ s'.fulfilled = s.fulfilled ∧ s'.futures = s.futures ∧ s'.tickets = s.tickets

/-- The claim that a call resolves, or that it overwrites. -/
def resolves : Op → Option Nat
  | .markReady claim => some claim
  | .fail claim _ => some claim
  | .drop claim => some claim
  | .move _ target => some target
  | _ => none

theorem OwnedIn.future_once (h : s.OwnedIn) (hfuture : (ftn, p) ∈ s.futures) :
    (s.settled.count p = 0 ∧ s.Pending ftn p) ∨ (s.settled.count p = 1 ∧ ¬ s.Pending ftn p) := by
  by_cases hlog : p ∈ s.settled
  · refine .inr ⟨count_eq_one_of_mem h.log_nodup hlog, fun hpending => ?_⟩
    obtain ⟨e, he, hready⟩ := hpending
    exact (h.promise_open ftn e p he hready).2 hlog
  · rcases h.future ftn p hfuture with hmem | hpending
    · exact absurd hmem hlog
    · exact .inl ⟨count_eq_zero_of_not_mem hlog, hpending⟩

theorem findPendingOwnedBy_stale (hstale : ∀ e, registry.forwarders.lookup ftn = some e → e.forwarder ≠ f) :
    registry.findPendingOwnedBy ftn f = none := by
  cases hfind : registry.findPendingOwnedBy ftn f with
  | none => rfl
  | some p => exact absurd rfl (hstale _ (findPendingOwnedBy_some hfind))

theorem resolveFailed_stale {i : Nat} {c : Claim} (hc : s.claims.lookup i = some c)
    (hstale : ∀ e, s.registry.forwarders.lookup c.ftn = some e → e.forwarder ≠ c.forwarder) (ew : String) :
    SameButClaims s (s.resolveFailed i ew) := by
  simp only [System.resolveFailed, hc, fail, findPendingOwnedBy_stale hstale,
    append_nil]
  exact ⟨rfl, rfl, rfl, rfl⟩

theorem stale_claim_harmless {i : Nat} {c : Claim} {op : Op} (hc : s.claims.lookup i = some c)
    (hstale : ∀ e, s.registry.forwarders.lookup c.ftn = some e → e.forwarder ≠ c.forwarder)
    (hop : resolves op = some i) (hr : s.step op = some r) : SameButClaims s r.1 := by
  cases op with
  | markReady claim =>
    cases hop
    simp only [System.step, hc] at hr
    split at hr
    · cases hr
      simp only [System.resolveReady, markReady, findPendingOwnedBy_stale hstale,
        append_nil]
      exact ⟨rfl, rfl, rfl, rfl⟩
    · cases hr
  | fail claim ew =>
    cases hop
    cases hr
    exact resolveFailed_stale hc hstale ew
  | drop claim =>
    cases hop
    cases hr
    exact resolveFailed_stale hc hstale _
  | move source target =>
    cases hop
    cases hr
    have hfailed := resolveFailed_stale hc hstale "local forwarder claim overwritten"
    simp only [System.move]
    split
    · exact ⟨rfl, rfl, rfl, rfl⟩
    · split
      · exact hfailed
      · exact hfailed
  | join ftn factory => cases hop
  | lookup ftn => cases hop
  | replace ftn forwarder => cases hop
  | replaceAndPark ftn forwarder => cases hop
  | setInitialState claim => cases hop
  | remove ftn expected => cases hop
  | takeDisplaced ticket => cases hop

theorem stale_remove_harmless
    (hstale : ∀ e, s.registry.forwarders.lookup ftn = some e → e.forwarder ≠ f) :
    s.step (.remove ftn f) = some (s, none) := by
  simp only [System.step, remove]
  cases he : s.registry.forwarders.lookup ftn with
  | none => simp only [append_nil]
  | some e => simp only [hstale e he, if_false, append_nil]

theorem replaceAndPark_ticket {e : LocalForwarderEntry} (he : s.registry.forwarders.lookup ftn = some e)
    (hr : s.step (.replaceAndPark ftn f) = some r) :
    r.1.tickets = s.tickets.insert s.next (ftn, e.forwarder) := by
  obtain ⟨made, hmade, hr⟩ := map_eq_some_iff.mp hr
  rw [← hr]
  simp only [replaceImpl, he] at hmade
  split at hmade
  · cases hmade
  · cases hmade
    simp only [installing, makePending, he, map_some]

theorem ParkedIn.takeDisplaced_own (h : s.ParkedIn) {t : Nat} (ht : s.tickets.lookup t = some (ftn, f)) :
    ∃ s', s.step (.takeDisplaced t) = some (s', some f) ∧ s'.tickets = s.tickets.erase t ∧
      s'.registry.parked ftn = (s.registry.parked ftn).erase f := by
  obtain ⟨hreturns, _, hparked⟩ := parked_takeDisplaced ((h.parked_iff ftn f).mpr ⟨t, ht⟩)
  refine ⟨{ s with
    registry := (s.registry.takeDisplaced ftn (some f)).1
    tickets := s.tickets.erase t }, ?_, rfl, ?_⟩
  · simp only [System.step, ht, hreturns]
  · exact (hparked ftn).trans (if_pos rfl)

/-- **Every waiter is resolved once.** After every sequence of calls that installs no forwarder twice: an
    entry is pending exactly if one engaged claim names its track and forwarder; a ready future handed out is
    unfulfilled, and then its track's entry is pending with its promise, or it was fulfilled exactly once; a
    claim or a remove of a forwarder that is no longer in its entry changes nothing; the parked forwarders are
    those of the outstanding tickets, one each, and a ticket gives back the forwarder that it displaced. -/
theorem local_forwarders_resolve_once {ops : List Op} (honce : InstalledOnce {} ops) (hrun : run ops = some s) :
    (∀ ftn e, s.registry.forwarders.lookup ftn = some e →
      (e.ready.isSome = true ↔
        ∃! i, ∃ c, s.claims.lookup i = some c ∧ c.ftn = ftn ∧ c.forwarder = e.forwarder)) ∧
    (∀ ftn p, (ftn, p) ∈ s.futures →
      (s.settled.count p = 0 ∧ s.Pending ftn p) ∨ (s.settled.count p = 1 ∧ ¬ s.Pending ftn p)) ∧
    (∀ i c, s.claims.lookup i = some c →
      (∀ e, s.registry.forwarders.lookup c.ftn = some e → e.forwarder ≠ c.forwarder) →
      ∀ op r, resolves op = some i → s.step op = some r → SameButClaims s r.1) ∧
    (∀ ftn f, (∀ e, s.registry.forwarders.lookup ftn = some e → e.forwarder ≠ f) →
      s.step (.remove ftn f) = some (s, none)) ∧
    (∀ ftn, (s.registry.parked ftn).Nodup ∧
      ∀ f, f ∈ s.registry.parked ftn ↔ ∃! t, s.tickets.lookup t = some (ftn, f)) ∧
    (∀ t ftn f, s.tickets.lookup t = some (ftn, f) →
      ∃ s', s.step (.takeDisplaced t) = some (s', some f) ∧ s'.tickets = s.tickets.erase t ∧
        s'.registry.parked ftn = (s.registry.parked ftn).erase f) ∧
    ∀ ftn f e r, s.registry.forwarders.lookup ftn = some e → s.step (.replaceAndPark ftn f) = some r →
      r.1.tickets = s.tickets.insert s.next (ftn, e.forwarder) := by
  have hstart : OwnedIn {} ∧ ParkedIn {} := ⟨Owned.empty, Parked.empty⟩
  obtain ⟨howned, hparked⟩ := both_runFrom hstart.1 hstart.2 honce hrun
  refine ⟨fun ftn e he => ?_, fun ftn p => howned.future_once, fun i c hc hstale op r => stale_claim_harmless hc hstale,
    fun ftn f => stale_remove_harmless, fun ftn => ⟨hparked.nodup ftn, fun f => ?_⟩,
    fun t ftn f => hparked.takeDisplaced_own, fun ftn f e r => replaceAndPark_ticket⟩
  · rw [howned.owner ftn e he]
    constructor
    · intro hnames
      obtain ⟨i, c, hc, hftn, hfwd⟩ := hnames
      refine ⟨i, ⟨c, hc, hftn, hfwd⟩, fun j hj => ?_⟩
      obtain ⟨d, hd, _, hdf⟩ := hj
      exact howned.claim_inj j i d c hd hc (hdf.trans hfwd.symm)
    · intro hnames
      obtain ⟨i, ⟨c, hc, hftn, hfwd⟩, _⟩ := hnames
      exact ⟨i, c, hc, hftn, hfwd⟩
  · rw [hparked.parked_iff ftn f]
    constructor
    · intro hticket
      obtain ⟨t, ht⟩ := hticket
      exact ⟨t, ht, fun t' ht' => hparked.ticket_inj t' t ftn ftn f ht' ht⟩
    · intro hticket
      obtain ⟨t, ht, _⟩ := hticket
      exact ⟨t, ht⟩

/-- A pending forwarder with a waiter is displaced and parked: the waiter is carried over to the new one, and
    the ticket gives the old one back. -/
theorem local_forwarder_displaced_pending :
    ∃ s, run [.join ⟨[], []⟩ 1, .join ⟨[], []⟩ 9, .replaceAndPark ⟨[], []⟩ 2] = some s ∧
      s.settled.count 0 = 0 ∧ s.Pending ⟨[], []⟩ 0 ∧
      ∃ s', s.step (.takeDisplaced 1) = some (s', some 1) := by
  have hrun : run [.join ⟨[], []⟩ 1, .join ⟨[], []⟩ 9, .replaceAndPark ⟨[], []⟩ 2] = some _ := rfl
  have honce : InstalledOnce {} [.join ⟨[], []⟩ 1, .join ⟨[], []⟩ 9, .replaceAndPark ⟨[], []⟩ 2] := by
    refine ⟨fun f _ => not_mem_nil, fun r hr => ?_⟩
    cases hr
    refine ⟨fun f hf => ?_, fun r hr => ?_⟩
    · cases hf
    · cases hr
      refine ⟨fun f hf => ?_, fun _ _ => trivial⟩
      cases hf
      decide
  obtain ⟨_, hfutures, _, _, _, htickets, _⟩ := local_forwarders_resolve_once honce hrun
  refine ⟨_, hrun, ?_⟩
  rcases hfutures ⟨[], []⟩ 0 mem_cons_self with ⟨hcount, hpending⟩ | ⟨hcount, _⟩
  · obtain ⟨s', hs', _⟩ := htickets 1 ⟨[], []⟩ 1 rfl
    exact ⟨hcount, hpending, s', hs'⟩
  · cases hcount

end System

end Moqx.LocalForwarder

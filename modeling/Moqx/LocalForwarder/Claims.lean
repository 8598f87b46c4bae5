/-
  Subject: EVERY PENDING ENTRY HAS ITS CLAIM, and every promise is fulfilled once.

  * `Owned.install`, `Owned.markReady`, `Owned.vacateReady`, `Owned.discard`, `Owned.rename`, `Owned.hand` -- what a
    call does to them;
  * `OwnedIn.step` -- one call.
-/
import Moqx.LocalForwarder.Registry

namespace Moqx.LocalForwarder

open Table List AList Option LocalForwarderRegistry

variable {e : LocalForwarderEntry}
variable {g : FullTrackName} {registry : LocalForwarderRegistry}

abbrev Entries := AList (fun _ : FullTrackName => LocalForwarderEntry)

abbrev Claims := AList (fun _ : Nat => Claim)

variable {entries : Entries} {claims claims' : Claims} {futures : List (FullTrackName × Nat)} {log : List Nat}
  {installed : List Nat} {next : Nat} {ftn : FullTrackName} {f p i : Nat} {c : Claim}

/-! ## 1. The invariant -/

/-- A claim names an entry. -/
def Names (claims : Claims) (ftn : FullTrackName) (forwarder : Nat) : Prop :=
  ∃ i c, claims.lookup i = some c ∧ c.ftn = ftn ∧ c.forwarder = forwarder

/-- An entry is pending exactly if a claim names it; no two claims name one forwarder; the promises of
    pending entries are all different and none of them is fulfilled; and a future handed out is fulfilled or
    is the one of its track's entry. -/
structure Owned (entries : Entries) (claims : Claims) (futures : List (FullTrackName × Nat)) (log : List Nat)
    (installed : List Nat) (next : Nat) : Prop where
  owner : ∀ ftn e, entries.lookup ftn = some e → (e.ready.isSome = true ↔ Names claims ftn e.forwarder)
  claim_inj : ∀ i j c d, claims.lookup i = some c → claims.lookup j = some d → c.forwarder = d.forwarder → i = j
  claim_in : ∀ i c, claims.lookup i = some c → c.forwarder ∈ installed ∧ i < next
  promise_open : ∀ ftn e p, entries.lookup ftn = some e → e.ready = some p → p < next ∧ p ∉ log
  promise_inj : ∀ ftn ftn' e e' p, entries.lookup ftn = some e → entries.lookup ftn' = some e' →
    e.ready = some p → e'.ready = some p → ftn = ftn'
  future : ∀ ftn p, (ftn, p) ∈ futures → p ∈ log ∨ ∃ e, entries.lookup ftn = some e ∧ e.ready = some p
  log_lt : ∀ p ∈ log, p < next
  log_nodup : log.Nodup

theorem Owned.empty : Owned ∅ ∅ [] [] [] 0 := by
  have hentries : ∀ ftn e, (∅ : Entries).lookup ftn ≠ some e := by
    intro ftn e he
    cases (lookup_empty ftn).symm.trans he
  have hclaims : ∀ i c, (∅ : Claims).lookup i ≠ some c := by
    intro i c hc
    cases (lookup_empty i).symm.trans hc
  exact
    { owner := fun ftn e he => absurd he (hentries ftn e)
      claim_inj := fun i _ c _ hc => absurd hc (hclaims i c)
      claim_in := fun i c hc => absurd hc (hclaims i c)
      promise_open := fun ftn e _ he => absurd he (hentries ftn e)
      promise_inj := fun ftn _ e _ _ he => absurd he (hentries ftn e)
      future := fun _ _ h => absurd h not_mem_nil
      log_lt := fun _ h => absurd h not_mem_nil
      log_nodup := nodup_nil }

/-! ## 2. What a call does -/

theorem names_insert (hnew : ∀ d, claims.lookup i ≠ some d) {e : Nat} :
    Names (claims.insert i c) g e ↔ (c.ftn = g ∧ c.forwarder = e) ∨ Names claims g e := by
  constructor
  · intro h
    obtain ⟨j, d, hd, hnames⟩ := h
    rcases lookup_insert_cases hd with ⟨_, hdc⟩ | ⟨_, hd⟩
    · exact .inl (hdc ▸ hnames)
    · exact .inr ⟨j, d, hd, hnames⟩
  · intro h
    rcases h with ⟨hftn, hfwd⟩ | ⟨j, d, hd, hftn, hfwd⟩
    · exact ⟨i, c, lookup_insert _, hftn, hfwd⟩
    · have hj : j ≠ i := fun h => hnew d (h ▸ hd)
      exact ⟨j, d, (lookup_insert_ne hj).trans hd, hftn, hfwd⟩

theorem Owned.install (h : Owned entries claims futures log installed next) (hf : f ∉ installed)
    (hp : (∃ e, entries.lookup ftn = some e ∧ e.ready = some p) ∨
      (p = next ∧ ∀ e, entries.lookup ftn = some e → e.ready = none)) :
    Owned (entries.insert ftn ⟨f, some p⟩) (claims.insert next ⟨ftn, f, false⟩) futures log (f :: installed)
      (next + 1) := by
  have hnew : ∀ d, claims.lookup next ≠ some d := fun d hd => Nat.lt_irrefl _ (h.claim_in next d hd).2
  -- the promise is open, and no other entry has it
  have hopen : p < next + 1 ∧ p ∉ log := by
    rcases hp with ⟨e, he, hready⟩ | ⟨hp, _⟩
    · exact ⟨Nat.lt_succ_of_lt (h.promise_open ftn e p he hready).1, (h.promise_open ftn e p he hready).2⟩
    · rw [hp]
      exact ⟨Nat.lt_succ_self _, fun hmem => Nat.lt_irrefl _ (h.log_lt next hmem)⟩
  have hother : ∀ g e, entries.lookup g = some e → e.ready = some p → g = ftn := by
    intro g e he hready
    rcases hp with ⟨e', he', hready'⟩ | ⟨hp, _⟩
    · exact h.promise_inj g ftn e e' p he he' hready hready'
    · have := (h.promise_open g e p he hready).1
      omega
  refine ⟨?_, ?_, ?_, ?_, ?_, ?_, fun q hq => Nat.lt_succ_of_lt (h.log_lt q hq), h.log_nodup⟩
  · intro g e he
    rw [names_insert hnew]
    rcases lookup_insert_cases he with ⟨hg, hee⟩ | ⟨hg, he⟩
    · rw [hee]
      exact ⟨fun _ => .inl ⟨hg.symm, rfl⟩, fun _ => rfl⟩
    · rw [h.owner g e he]
      exact ⟨.inr, fun hn => hn.elim (fun hn => absurd hn.1.symm hg) id⟩
  · intro i j c d hc hd hfwd
    rcases lookup_insert_cases hc with ⟨hi, hcc⟩ | ⟨_, hc⟩
    · rcases lookup_insert_cases hd with ⟨hj, _⟩ | ⟨_, hd⟩
      · rw [hi, hj]
      · rw [hcc] at hfwd
        have := (h.claim_in j d hd).1
        rw [← hfwd] at this
        exact absurd this hf
    · rcases lookup_insert_cases hd with ⟨_, hdd⟩ | ⟨_, hd⟩
      · rw [hdd] at hfwd
        have := (h.claim_in i c hc).1
        rw [hfwd] at this
        exact absurd this hf
      · exact h.claim_inj i j c d hc hd hfwd
  · intro i c hc
    rcases lookup_insert_cases hc with ⟨hi, hcc⟩ | ⟨_, hc⟩
    · rw [hi, hcc]
      exact ⟨mem_cons_self, Nat.lt_succ_self _⟩
    · exact ⟨mem_cons_of_mem _ (h.claim_in i c hc).1, Nat.lt_succ_of_lt (h.claim_in i c hc).2⟩
  · intro g e q he hready
    rcases lookup_insert_cases he with ⟨_, hee⟩ | ⟨_, he⟩
    · rw [hee] at hready
      cases hready
      exact hopen
    · exact ⟨Nat.lt_succ_of_lt (h.promise_open g e q he hready).1, (h.promise_open g e q he hready).2⟩
  · intro g g' e e' q he he' hready hready'
    rcases lookup_insert_cases he with ⟨hg, hee⟩ | ⟨_, he⟩
    · rcases lookup_insert_cases he' with ⟨hg', _⟩ | ⟨_, he'⟩
      · rw [hg, hg']
      · rw [hee] at hready
        cases hready
        rw [hg, hother g' e' he' hready']
    · rcases lookup_insert_cases he' with ⟨hg', hee'⟩ | ⟨_, he'⟩
      · rw [hee'] at hready'
        cases hready'
        rw [hg', hother g e he hready]
      · exact h.promise_inj g g' e e' q he he' hready hready'
  · intro g q hq
    rcases h.future g q hq with hlog | ⟨e, he, hready⟩
    · exact .inl hlog
    · right
      by_cases hg : g = ftn
      · rcases hp with ⟨e', he', hready'⟩ | ⟨_, hnone⟩
        · rw [hg, he'] at he
          cases he
          rw [hready'] at hready
          cases hready
          exact ⟨⟨f, some p⟩, hg ▸ lookup_insert _, rfl⟩
        · rw [hnone e (hg ▸ he)] at hready
          cases hready
      · exact ⟨e, (lookup_insert_ne hg).trans he, hready⟩

theorem Owned.fulfil (h : Owned entries claims futures log installed next) (he : entries.lookup ftn = some e)
    (hready : e.ready = some p) {entries' : Entries} (hentries : ∀ g d, entries'.lookup g = some d →
      (g = ftn ∧ d.ready = none) ∨ (g ≠ ftn ∧ entries.lookup g = some d))
    (hkept : ∀ g d, g ≠ ftn → entries.lookup g = some d → entries'.lookup g = some d)
    (howner : ∀ g d, entries'.lookup g = some d → (d.ready.isSome = true ↔ Names claims' g d.forwarder))
    (hclaims : ∀ i c, claims'.lookup i = some c → claims.lookup i = some c) :
    Owned entries' claims' futures (log ++ [p]) installed next where
  owner := howner
  claim_inj := fun i j c d hc hd => h.claim_inj i j c d (hclaims i c hc) (hclaims j d hd)
  claim_in := fun i c hc => h.claim_in i c (hclaims i c hc)
  promise_open := by
    intro g d q hd hq
    rcases hentries g d hd with ⟨_, hnone⟩ | ⟨hg, hd⟩
    · rw [hnone] at hq
      cases hq
    · refine ⟨(h.promise_open g d q hd hq).1, fun hmem => ?_⟩
      rcases mem_append.mp hmem with hmem | hmem
      · exact (h.promise_open g d q hd hq).2 hmem
      · rw [mem_singleton.mp hmem] at hq
        exact hg (h.promise_inj g ftn d e p hd he hq hready)
  promise_inj := by
    intro g g' d d' q hd hd' hq hq'
    rcases hentries g d hd with ⟨_, hnone⟩ | ⟨_, hd⟩
    · rw [hnone] at hq
      cases hq
    · rcases hentries g' d' hd' with ⟨_, hnone⟩ | ⟨_, hd'⟩
      · rw [hnone] at hq'
        cases hq'
      · exact h.promise_inj g g' d d' q hd hd' hq hq'
  future := by
    intro g q hq
    rcases h.future g q hq with hlog | ⟨d, hd, hdq⟩
    · exact .inl (mem_append_left _ hlog)
    · by_cases hg : g = ftn
      · rw [hg, he] at hd
        cases hd
        rw [hready] at hdq
        cases hdq
        exact .inl (mem_append_right _ mem_cons_self)
      · exact .inr ⟨d, hkept g d hg hd, hdq⟩
  log_lt := by
    intro q hq
    rcases mem_append.mp hq with hq | hq
    · exact h.log_lt q hq
    · rw [mem_singleton.mp hq]
      exact (h.promise_open ftn e p he hready).1
  log_nodup := by
    refine nodup_append.mpr ⟨h.log_nodup, nodup_singleton _, fun a ha b hb hab => ?_⟩
    rw [mem_singleton.mp hb] at hab
    exact (h.promise_open ftn e p he hready).2 (hab ▸ ha)

theorem names_erase {e : Nat} (hc : claims.lookup i = some c) (hne : c.ftn = g → c.forwarder ≠ e) : Names (claims.erase i) g e ↔ Names claims g e := by
  constructor
  · intro h
    obtain ⟨j, d, hd, hnames⟩ := h
    exact ⟨j, d, (lookup_erase_iff.mp hd).2, hnames⟩
  · intro h
    obtain ⟨j, d, hd, hftn, hfwd⟩ := h
    refine ⟨j, d, lookup_erase_iff.mpr ⟨fun hj => ?_, hd⟩, hftn, hfwd⟩
    rw [hj, hc] at hd
    cases hd
    exact hne hftn hfwd

section owned

variable (h : Owned entries claims futures log installed next)

include h

theorem Owned.markReady (hc : claims.lookup i = some c)
    (he : entries.lookup c.ftn = some ⟨c.forwarder, some p⟩) :
    Owned (entries.insert c.ftn ⟨c.forwarder, none⟩) (claims.erase i) futures (log ++ [p]) installed next := by
  refine h.fulfil he rfl (fun g d hd => ?_) (fun g d hg hd => (lookup_insert_ne hg).trans hd)
    (fun g d hd => ?_) fun j d hd => (lookup_erase_iff.mp hd).2
  · rcases lookup_insert_cases hd with ⟨hg, hdd⟩ | hold
    · exact .inl ⟨hg, by rw [hdd]⟩
    · exact .inr hold
  · rcases lookup_insert_cases hd with ⟨hg, hdd⟩ | ⟨hg, hd⟩
    · rw [hdd, hg]
      constructor
      · nofun
      · intro hnames
        obtain ⟨j, d', hd', _, hfwd⟩ := hnames
        obtain ⟨hj, hd'⟩ := lookup_erase_iff.mp hd'
        exact absurd (h.claim_inj j i d' c hd' hc hfwd) hj
    · rw [names_erase hc fun hftn => absurd hftn.symm hg]
      exact h.owner g d hd

theorem Owned.vacatePending (he : entries.lookup ftn = some e) (hready : e.ready = some p)
    (hclaims : ∀ j d, claims'.lookup j = some d → claims.lookup j = some d)
    (hothers : ∀ j d, claims.lookup j = some d → d.ftn ≠ ftn → claims'.lookup j = some d) :
    Owned (entries.erase ftn) claims' futures (log ++ [p]) installed next := by
  refine h.fulfil he hready (fun g d hd => .inr (lookup_erase_iff.mp hd))
    (fun g d hg hd => lookup_erase_iff.mpr ⟨hg, hd⟩) (fun g d hd => ?_) hclaims
  obtain ⟨hg, hd⟩ := lookup_erase_iff.mp hd
  rw [h.owner g d hd]
  constructor
  · intro hnames
    obtain ⟨j, c, hc, hftn, hfwd⟩ := hnames
    exact ⟨j, c, hothers j c hc (hftn ▸ hg), hftn, hfwd⟩
  · intro hnames
    obtain ⟨j, c, hc, hftn, hfwd⟩ := hnames
    exact ⟨j, c, hclaims j c hc, hftn, hfwd⟩

theorem Owned.vacateReady (he : entries.lookup ftn = some e) (hready : e.ready = none) :
    Owned (entries.erase ftn) claims futures log installed next :=
  { h with
    owner := fun g d hd => h.owner g d (lookup_erase_iff.mp hd).2
    promise_open := fun g d q hd => h.promise_open g d q (lookup_erase_iff.mp hd).2
    promise_inj := fun g g' d d' q hd hd' =>
      h.promise_inj g g' d d' q (lookup_erase_iff.mp hd).2 (lookup_erase_iff.mp hd').2
    future := by
      intro g q hq
      rcases h.future g q hq with hlog | ⟨d, hd, hdq⟩
      · exact .inl hlog
      · refine .inr ⟨d, lookup_erase_iff.mpr ⟨fun hg => ?_, hd⟩, hdq⟩
        rw [hg, he] at hd
        cases hd
        rw [hready] at hdq
        cases hdq }

theorem Owned.discard (hc : claims.lookup i = some c)
    (hstale : ∀ e, entries.lookup c.ftn = some e → e.forwarder ≠ c.forwarder) :
    Owned entries (claims.erase i) futures log installed next :=
  { h with
    owner := by
      intro g e he
      rw [h.owner g e he, names_erase hc]
      intro hftn hfwd
      exact hstale e (hftn ▸ he) hfwd.symm
    claim_inj := fun j k d d' hd hd' =>
      h.claim_inj j k d d' (lookup_erase_iff.mp hd).2 (lookup_erase_iff.mp hd').2
    claim_in := fun j d hd => h.claim_in j d (lookup_erase_iff.mp hd).2 }

theorem Owned.rename {next' : Nat} (hnext : next ≤ next')
    (hnames : ∀ g e, Names claims' g e ↔ Names claims g e)
    (hinj : ∀ i j c d, claims'.lookup i = some c → claims'.lookup j = some d → c.forwarder = d.forwarder → i = j)
    (hin : ∀ i c, claims'.lookup i = some c → c.forwarder ∈ installed ∧ i < next') :
    Owned entries claims' futures log installed next' :=
  { h with
    owner := fun g e he => (h.owner g e he).trans (hnames g e.forwarder).symm
    claim_inj := hinj
    claim_in := hin
    promise_open := fun g e p he hp =>
      ⟨Nat.lt_of_lt_of_le (h.promise_open g e p he hp).1 hnext, (h.promise_open g e p he hp).2⟩
    log_lt := fun p hp => Nat.lt_of_lt_of_le (h.log_lt p hp) hnext }

theorem Owned.hand (he : entries.lookup ftn = some e) (hready : e.ready = some p) :
    Owned entries claims ((ftn, p) :: futures) log installed next :=
  { h with
    future := by
      intro g q hq
      rcases mem_cons.mp hq with hq | hq
      · cases hq
        exact .inr ⟨e, he, hready⟩
      · exact h.future g q hq }

end owned

/-! ## 3. One call -/

theorem findPendingOwnedBy_some (h : registry.findPendingOwnedBy ftn f = some p) : registry.forwarders.lookup ftn = some ⟨f, some p⟩ := by
  rw [findPendingOwnedBy] at h
  cases he : registry.forwarders.lookup ftn with
  | none =>
    rw [he] at h
    cases h
  | some e =>
    obtain ⟨fwd, ready⟩ := e
    simp only [he] at h
    split at h
    · rename_i hf
      rw [hf, h]
    · cases h

theorem findPendingOwnedBy_none (h : registry.findPendingOwnedBy ftn f = none)
    (he : registry.forwarders.lookup ftn = some e) (hf : e.forwarder = f) : e.ready = none := by
  simp only [findPendingOwnedBy, he, hf, if_true] at h
  exact h

namespace System

variable {s : System}

def settled (s : System) : List Nat := s.fulfilled.map (·.1)

def OwnedIn (s : System) : Prop :=
  Owned s.registry.forwarders s.claims s.futures s.settled s.installed s.next

theorem OwnedIn.stale (h : s.OwnedIn) (hc : s.claims.lookup i = some c)
    (hnone : s.registry.findPendingOwnedBy c.ftn c.forwarder = none) {e : LocalForwarderEntry}
    (he : s.registry.forwarders.lookup c.ftn = some e) : e.forwarder ≠ c.forwarder := by
  intro hf
  have hpending := (h.owner c.ftn e he).mpr ⟨i, c, hc, rfl, hf.symm⟩
  rw [findPendingOwnedBy_none hnone he hf] at hpending
  cases hpending

theorem OwnedIn.resolveReady (h : s.OwnedIn) (hc : s.claims.lookup i = some c) :
    (s.resolveReady i c).OwnedIn := by
  rw [System.resolveReady, markReady]
  cases hfind : s.registry.findPendingOwnedBy c.ftn c.forwarder with
  | none =>
    simp only [OwnedIn, settled, append_nil]
    exact Owned.discard h hc fun e he => h.stale hc hfind he
  | some p =>
    simp only [OwnedIn, settled, map_append]
    exact Owned.markReady h hc (findPendingOwnedBy_some hfind)

theorem OwnedIn.resolveFailed (h : s.OwnedIn) (ew : String) : (s.resolveFailed i ew).OwnedIn := by
  rw [System.resolveFailed]
  cases hc : s.claims.lookup i with
  | none => exact h
  | some c =>
    simp only [fail]
    cases hfind : s.registry.findPendingOwnedBy c.ftn c.forwarder with
    | none =>
      simp only [hfind, OwnedIn, settled, append_nil]
      exact Owned.discard h hc fun e he => h.stale hc hfind he
    | some p =>
      simp only [hfind, OwnedIn, settled, map_append]
      refine Owned.vacatePending h (findPendingOwnedBy_some hfind) rfl
        (fun j d hd => (lookup_erase_iff.mp hd).2) fun j d hd hne => ?_
      refine lookup_erase_iff.mpr ⟨fun hj => ?_, hd⟩
      rw [hj, hc] at hd
      cases hd
      exact hne rfl

theorem resolveFailed_claims {ew : String} : (s.resolveFailed i ew).claims = s.claims.erase i := by
  rw [System.resolveFailed]
  cases hc : s.claims.lookup i with
  | none => exact (erase_of_lookup_none hc).symm
  | some c => rfl

theorem OwnedIn.move (h : s.OwnedIn) (source target : Nat) : (s.move source target).OwnedIn := by
  rw [System.move]
  split
  · exact h
  · rename_i hne
    have hr : (s.resolveFailed target "local forwarder claim overwritten").OwnedIn := h.resolveFailed _
    have hfree : ∀ d, (s.resolveFailed target "local forwarder claim overwritten").claims.lookup target ≠ some d := by
      intro d hd
      rw [resolveFailed_claims, lookup_erase] at hd
      cases hd
    generalize s.resolveFailed target "local forwarder claim overwritten" = r at hr hfree
    cases hc : r.claims.lookup source with
    | none =>
      simp only [hc]
      exact hr
    | some c =>
      simp only [hc]
      have hlookup : ∀ j d, ((r.claims.erase source).insert target c).lookup j = some d →
          (j = target ∧ d = c) ∨ (j ≠ source ∧ r.claims.lookup j = some d) := by
        intro j d hd
        rcases lookup_insert_cases hd with hd | ⟨_, hd⟩
        · exact .inl hd
        · exact .inr (lookup_erase_iff.mp hd)
      refine Owned.rename hr (Nat.le_max_left _ _) (fun g e => ?_) (fun j k d d' hd hd' hfwd => ?_)
        fun j d hd => ?_
      · constructor
        · intro hnames
          obtain ⟨j, d, hd, hnames⟩ := hnames
          rcases hlookup j d hd with ⟨_, hdc⟩ | ⟨_, hd⟩
          · exact ⟨source, c, hc, hdc ▸ hnames⟩
          · exact ⟨j, d, hd, hnames⟩
        · intro hnames
          obtain ⟨j, d, hd, hnames⟩ := hnames
          by_cases hj : j = source
          · rw [hj, hc] at hd
            cases hd
            exact ⟨target, c, lookup_insert _, hnames⟩
          · have hjt : j ≠ target := fun hjt => hfree d (hjt ▸ hd)
            exact ⟨j, d, (lookup_insert_ne hjt).trans (lookup_erase_iff.mpr ⟨hj, hd⟩), hnames⟩
      · rcases hlookup j d hd with ⟨hj, hdc⟩ | ⟨hj, hd⟩
        · rcases hlookup k d' hd' with ⟨hk, _⟩ | ⟨hk, hd'⟩
          · rw [hj, hk]
          · rw [hdc] at hfwd
            exact absurd (hr.claim_inj k source d' c hd' hc hfwd.symm) hk
        · rcases hlookup k d' hd' with ⟨_, hdc⟩ | ⟨_, hd'⟩
          · rw [hdc] at hfwd
            exact absurd (hr.claim_inj j source d c hd hc hfwd) hj
          · exact hr.claim_inj j k d d' hd hd' hfwd
      · rcases hlookup j d hd with ⟨hj, hdc⟩ | ⟨_, hd⟩
        · rw [hj, hdc]
          exact ⟨(hr.claim_in source c hc).1, Nat.lt_of_lt_of_le (Nat.lt_succ_self _) (Nat.le_max_right _ _)⟩
        · exact ⟨(hr.claim_in j d hd).1, Nat.lt_of_lt_of_le (hr.claim_in j d hd).2 (Nat.le_max_left _ _)⟩

theorem OwnedIn.setInitialState (h : s.OwnedIn) (hc : s.claims.lookup i = some c) :
    Owned s.registry.forwarders (s.claims.insert i { c with initialStateSet := true }) s.futures s.settled
      s.installed s.next := by
  have hlookup : ∀ j d, (s.claims.insert i { c with initialStateSet := true }).lookup j = some d →
      ∃ d₀, s.claims.lookup j = some d₀ ∧ d.ftn = d₀.ftn ∧ d.forwarder = d₀.forwarder := by
    intro j d hd
    rcases lookup_insert_cases hd with ⟨hj, hdc⟩ | ⟨_, hd⟩
    · exact ⟨c, hj ▸ hc, by rw [hdc], by rw [hdc]⟩
    · exact ⟨d, hd, rfl, rfl⟩
  refine Owned.rename h (Nat.le_refl _) (fun g e => ?_) (fun j k d d' hd hd' hfwd => ?_) fun j d hd => ?_
  · constructor
    · intro hnames
      obtain ⟨j, d, hd, hftn, hfwd⟩ := hnames
      obtain ⟨d₀, hd₀, hftn₀, hfwd₀⟩ := hlookup j d hd
      exact ⟨j, d₀, hd₀, hftn₀ ▸ hftn, hfwd₀ ▸ hfwd⟩
    · intro hnames
      obtain ⟨j, d, hd, hnames⟩ := hnames
      by_cases hj : j = i
      · rw [hj, hc] at hd
        cases hd
        exact ⟨i, _, lookup_insert _, hnames⟩
      · exact ⟨j, d, (lookup_insert_ne hj).trans hd, hnames⟩
  · obtain ⟨d₀, hd₀, _, hfwd₀⟩ := hlookup j d hd
    obtain ⟨d₁, hd₁, _, hfwd₁⟩ := hlookup k d' hd'
    exact h.claim_inj j k d₀ d₁ hd₀ hd₁ (by rw [← hfwd₀, ← hfwd₁, hfwd])
  · obtain ⟨d₀, hd₀, _, hfwd₀⟩ := hlookup j d hd
    rw [hfwd₀]
    exact h.claim_in j d₀ hd₀

theorem OwnedIn.remove (h : s.OwnedIn) (expected : Nat) :
    Owned (s.registry.remove ftn expected).1.forwarders s.claims s.futures
      (s.settled ++ (s.registry.remove ftn expected).2.2.map (·.1)) s.installed s.next := by
  rw [LocalForwarderRegistry.remove]
  cases he : s.registry.forwarders.lookup ftn with
  | none =>
    simp only [map_nil, append_nil]
    exact h
  | some e =>
    by_cases hf : e.forwarder = expected
    · simp only [hf, if_true]
      cases hready : e.ready with
      | none =>
        simp only [toList_none, map_nil, append_nil]
        exact Owned.vacateReady h he hready
      | some p =>
        simp only [toList_some, map_cons, map_nil]
        exact Owned.vacatePending h he hready (fun _ _ hd => hd) fun _ _ hd _ => hd
    · simp only [hf, if_false, map_nil, append_nil]
      exact h

/-- **One call** keeps the claims, the entries and the promises together. -/
theorem OwnedIn.step (h : s.OwnedIn) {op : Op} {r : System × Option Nat}
    (hnew : ∀ f, s.installs op = some f → f ∉ s.installed) (hr : s.step op = some r) : r.1.OwnedIn := by
  have hdoes := step_does hnew hr
  generalize r.1 = s' at hdoes
  cases hdoes with
  | same => exact h
  | hand he hready => exact Owned.hand h he hready
  | install park hf hp =>
    simp only [OwnedIn, installing, settled, makePending_forwarders]
    exact Owned.install h hf hp
  | setInitialState hc => exact h.setInitialState hc
  | markReady hc => exact h.resolveReady hc
  | fail ew => exact h.resolveFailed ew
  | move source target => exact h.move source target
  | remove ftn expected =>
    have hkept := @OwnedIn.remove ftn s h expected
    rw [System.settled, ← map_append] at hkept
    exact hkept
  | @takeDisplaced t ftn key ht =>
    simp only [OwnedIn, settled, takeDisplaced]
    cases s.registry.displaced.lookup ftn with
    | none => exact h
    | some parked =>
      by_cases hmem : key ∈ parked
      · simp only [hmem, if_true]
        exact h
      · simp only [hmem, if_false]
        exact h

end System

end Moqx.LocalForwarder

/-
  Subject: One group under one operation, with no room in the deselected queue.

  * `registerInGroup_*`, `recomputeGroup_*`, `removeInGroup_*` -- each operation keeps `Selection`
    along the order, and its effect on viewers and on sessions that publish.

  The orders before and after an operation are lists with and without the track it is about. The track
  on the other side of the boundary is the one at place `n - 1` of the order without it.
-/
import Moqx.Ranking.Deliveries

namespace Moqx

open PropertyRanking RankedTracks List AList Option

variable {C D A B : RankedTracks} {e : RankKey × RankedEntry}

/-- The tracks with a state are these, and all of them are selected. -/
structure Selected (states : AList fun _ : FullTrackName => TrackState) (tracks : Set FullTrackName) :
    Prop where
  mem : ∀ t ∈ tracks, states.lookup t = some .selected
  not_mem : ∀ t ∉ tracks, states.lookup t = none

namespace Selected

variable {states : AList fun _ : FullTrackName => TrackState} {S T : Set FullTrackName}

section

variable (h : Selected states S)

include h

theorem congr (hST : ∀ t, t ∈ S ↔ t ∈ T) : Selected states T :=
  ⟨fun t ht => h.mem t ((hST t).mpr ht), fun t ht => h.not_mem t fun hs => ht ((hST t).mp hs)⟩

theorem insert (x : FullTrackName) :
    Selected (states.insert x .selected) {t | t = x ∨ t ∈ S} where
  mem t ht := by
    by_cases hx : t = x
    · rw [hx, lookup_insert]
    · rw [lookup_insert_ne hx]
      exact h.mem t (ht.resolve_left hx)
  not_mem t ht := by
    rw [lookup_insert_ne fun hx => ht (Or.inl hx)]
    exact h.not_mem t fun hs => ht (Or.inr hs)

theorem erase (x : FullTrackName) :
    Selected (states.erase x) {t | t ∈ S ∧ t ≠ x} where
  mem t ht := by
    rw [lookup_erase_ne ht.2]
    exact h.mem t ht.1
  not_mem t ht := by
    by_cases hx : t = x
    · rw [hx, lookup_erase]
    · rw [lookup_erase_ne hx]
      exact h.not_mem t fun hs => ht ⟨hs, hx⟩

theorem evict (x : FullTrackName) (state : TrackState) :
    Selected ((states.insert x state).erase x) {t | t ∈ S ∧ t ≠ x} where
  mem t ht := by
    rw [lookup_erase_ne ht.2, lookup_insert_ne ht.2]
    exact h.mem t ht.1
  not_mem t ht := by
    by_cases hx : t = x
    · rw [hx, lookup_erase]
    · rw [lookup_erase_ne hx, lookup_insert_ne hx]
      exact h.not_mem t fun hs => ht ⟨hs, hx⟩

theorem lookup_iff {t : FullTrackName} :
    states.lookup t = some .selected ↔ t ∈ S := by
  refine ⟨fun hl => ?_, h.mem t⟩
  by_contra ht
  rw [h.not_mem t ht] at hl
  cases hl

end

end Selected

/-- The group selects the first `n` tracks and has nothing in its queue. -/
structure Selection (g : TopNGroup) (ranked : RankedTracks) (n : Nat) : Prop where
  size : g.maxSelected = n
  queue : g.deselectedQueue = []
  states : Selected g.trackStates {t | t ∈ ranked.names.take n}

/-- For a session of the group: the tracks the group remembers for it, and what it hears. -/
structure Effect (out : TopNGroup × List Callback) (s : SessionRef) (remembered : List FullTrackName)
    (deliveries : List Delivery) : Prop where
  session : ∃ info, out.1.sessions.lookup s = some info ∧ info.selectedTracks = remembered
  heard : heard s out.2 = deliveries

def SameSessions (g g' : TopNGroup) : Prop := ∀ s, s ∈ g'.sessions ↔ s ∈ g.sessions

namespace SameSessions

theorem refl (g : TopNGroup) : SameSessions g g := fun _ => Iff.rfl

end SameSessions

/-- The session is reconciled by a pass over the sessions of its group. -/
def reconciles (ranked : RankedTracks) (except : Option SessionRef) (s : SessionRef) : Bool :=
  ranked.publishes s && decide (some s ≠ except)

/-- What the group remembers for a session after a pass over its sessions. -/
def remembers (ranked : RankedTracks) (except : Option SessionRef) (n : Nat) (s : SessionRef)
    (remembered : List FullTrackName) : List FullTrackName :=
  if reconciles ranked except s then ranked.personal s n else remembered

/-- What a session hears of a pass over the sessions of its group. -/
def corrected (ranked : RankedTracks) (except : Option SessionRef) (n : Nat) (s : SessionRef)
    (remembered : List FullTrackName) : List Delivery :=
  if reconciles ranked except s then delta remembered (ranked.personal s n) else []

def announced (ranked : RankedTracks) (n : Nat) (s : SessionRef) (remembered : List FullTrackName)
    (ftn : FullTrackName) : List Delivery :=
  if ranked.publishes s then delta remembered (ranked.personal s n) else [.select ftn]

theorem reconciles_none (ranked : RankedTracks) (s : SessionRef) :
    reconciles ranked none s = ranked.publishes s := by
  unfold reconciles
  simp

theorem delta_self (l : List FullTrackName) : delta l l = [] := by
  have h : l.filter (fun t => decide (t ∉ l)) = [] := filter_eq_nil_iff.mpr fun t ht => by simpa using ht
  unfold delta
  rw [h]
  rfl

theorem remembers_twice (ranked : RankedTracks) (except : Option SessionRef) (n : Nat) (s : SessionRef)
    (remembered : List FullTrackName) :
    remembers ranked none n s (remembers ranked except n s remembered) =
      remembers ranked none n s remembered := by
  unfold remembers
  rw [reconciles_none]
  by_cases hp : ranked.publishes s = true
  · rw [if_pos hp, if_pos hp]
  · rw [if_neg hp, if_neg hp, if_neg]
    unfold reconciles
    simp [hp]

theorem corrected_announced (ranked : RankedTracks) (except : Option SessionRef) (n : Nat)
    (s : SessionRef) (remembered : List FullTrackName) (ftn : FullTrackName) :
    corrected ranked except n s remembered ++
        announced ranked n s (remembers ranked except n s remembered) ftn =
      announced ranked n s remembered ftn := by
  unfold corrected announced remembers
  by_cases hrec : reconciles ranked except s = true
  · have hp : ranked.publishes s = true := (Bool.and_eq_true_iff.mp hrec).1
    rw [if_pos hrec, if_pos hrec, if_pos hp, if_pos hp, delta_self, append_nil]
  · rw [if_neg hrec, if_neg hrec, nil_append]

namespace PropertyRanking

variable {r : PropertyRanking} {g : TopNGroup} {n : Nat} {s : SessionRef} {info : SessionInfo}

/-! ## 1. The helpers -/

theorem reconcileSessions_same (except : Option SessionRef) (m : Nat) :
    SameSessions g { g with sessions := (r.reconcileSessions except m g.sessions).1 } := by
  intro s
  show s ∈ (r.reconcileSessions except m g.sessions).1 ↔ _
  rw [AList.mem_keys, AList.mem_keys]
  unfold reconcileSessions
  rw [Table.keys_visit]

theorem reconcileSessions_effect (hr : RankInv r) (hn : 1 ≤ n) (except : Option SessionRef)
    (hinfo : g.sessions.lookup s = some info) :
    Effect ({ g with sessions := (r.reconcileSessions except n g.sessions).1 },
        (r.reconcileSessions except n g.sessions).2) s
      (remembers r.rankedTracks except n s info.selectedTracks)
      (corrected r.rankedTracks except n s info.selectedTracks) where
  session := by
    refine ⟨_, (lookup_reconcileSessions except n _).trans (by rw [hinfo]; rfl), ?_⟩
    rw [hr.isPublisher_eq]
    unfold remembers reconciles
    dsimp only
    by_cases h : r.rankedTracks.publishes s = true ∧ some s ≠ except
    · rw [if_pos h, if_pos (by simpa using h), reconcile_selectedTracks, nowSelected_eq hr.sorted hn]
    · rw [if_neg h, if_neg (by simpa using h)]
  heard := by
    rw [heard_reconcileSessions except n hinfo, nowSelected_eq hr.sorted hn, hr.isPublisher_eq]
    unfold corrected reconciles
    simp

theorem notify_same (ftn : FullTrackName) : SameSessions g (r.notifyTrackSelected ftn g).1 :=
  reconcileSessions_same none g.maxSelected

theorem notify_effect (hr : RankInv r) (hn : 1 ≤ n) (hsize : g.maxSelected = n)
    (ftn : FullTrackName) (hinfo : g.sessions.lookup s = some info) :
    Effect (r.notifyTrackSelected ftn g) s (remembers r.rankedTracks none n s info.selectedTracks)
      (announced r.rankedTracks n s info.selectedTracks ftn) where
  session := by
    refine ⟨_, (lookup_notify ftn).trans (by rw [hinfo]; rfl), ?_⟩
    unfold remembers
    rw [reconciles_none, hr.isPublisher_eq]
    split
    · rw [reconcile_selectedTracks, hsize, nowSelected_eq hr.sorted hn]
    · rfl
  heard := by
    rw [heard_notify ftn hinfo, hsize, nowSelected_eq hr.sorted hn, hr.isPublisher_eq]
    rfl

theorem promoteTrack_effect (hr : RankInv r) (hn : 1 ≤ n) (hsize : g.maxSelected = n)
    (ftn : FullTrackName) (hinfo : g.sessions.lookup s = some info) :
    Effect (r.promoteTrack g ftn) s (remembers r.rankedTracks none n s info.selectedTracks)
      (announced r.rankedTracks n s info.selectedTracks ftn) :=
  @notify_effect r (removeFromDeselectedQueue { g with trackStates := g.trackStates.insert ftn .selected } ftn)
    n s info hr hn hsize ftn hinfo

theorem promoteTrack_same (ftn : FullTrackName) : SameSessions g (r.promoteTrack g ftn).1 :=
  notify_same (r := r) (g := removeFromDeselectedQueue
    { g with trackStates := g.trackStates.insert ftn .selected } ftn) ftn

theorem trimLoop_sessions (m : Nat) (queue : List FullTrackName) (g : TopNGroup) :
    (trimLoop m queue g).1.sessions = g.sessions := by
  induction queue generalizing g with
  | nil => rfl
  | cons x queue ih =>
    unfold trimLoop
    split
    · exact ih _
    · rfl

theorem demoteTrack_sessions (ftn : FullTrackName) : (r.demoteTrack g ftn).1.sessions = g.sessions :=
  trimLoop_sessions _ _ _

theorem demoteTrackAtRank_sessions (rank : Nat) :
    (r.demoteTrackAtRank rank g).1.sessions = g.sessions := by
  unfold demoteTrackAtRank
  split
  · split
    · exact demoteTrack_sessions _
    · rfl
  · rfl

theorem promoteTrackAtRank_same (rank : Nat) : SameSessions g (r.promoteTrackAtRank rank g).1 := by
  unfold promoteTrackAtRank
  split
  · split
    · exact SameSessions.refl g
    · exact promoteTrack_same _
  · exact SameSessions.refl g

theorem promoteNextAvailable_same (excludeFtn : FullTrackName) :
    SameSessions g (r.promoteNextAvailableTrack g excludeFtn).1 := by
  unfold promoteNextAvailableTrack
  split
  · exact promoteTrack_same _
  · exact SameSessions.refl g

theorem sweepGroup_same (now : TimePoint) (getLastActivity : FullTrackName → TimePoint) (tracks : List FullTrackName) :
    SameSessions g (r.sweepGroup now getLastActivity tracks g).1 := by
  induction tracks generalizing g with
  | nil => exact SameSessions.refl g
  | cons ftn tracks ih =>
    unfold sweepGroup
    split
    · intro s
      have hdemoted : s ∈ (r.demoteTrack g ftn).1.sessions ↔ s ∈ g.sessions := by
        rw [demoteTrack_sessions]
      exact (ih s).trans ((promoteNextAvailable_same ftn s).trans hdemoted)
    · exact ih

/-! ## 2. The track at the boundary -/

/-- The track at the boundary of the first `n` of an order. -/
def boundary (ranked : RankedTracks) (n : Nat) : Option FullTrackName := ranked.names[n - 1]?

section Boundary

variable {x : FullTrackName}

variable {ranked : RankedTracks} {t : FullTrackName}

theorem mem_take_boundary (hn : 1 ≤ n) :
    t ∈ ranked.names.take n ↔ t ∈ ranked.names.take (n - 1) ∨ boundary ranked n = some t :=
  FirstN.mem_take_last hn

theorem boundary_not_mem (hnd : ranked.names.Nodup) (hx : boundary ranked n = some x) :
    x ∉ ranked.names.take (n - 1) :=
  FirstN.not_mem_take_of_getElem? hnd hx

theorem mem_take_with (hC : C.length < n) :
    t ∈ (names (C ++ e :: D)).take n ↔ t = e.2.ftn ∨ t ∈ (names (C ++ D)).take (n - 1) := by
  rw [names_append, names_cons, names_append]
  exact FirstN.mem_take_inside (by rwa [names_length])

theorem take_with_outside (hC : n ≤ C.length) :
    (names (C ++ e :: D)).take n = (names (C ++ D)).take n := by
  rw [names_append, names_cons, names_append]
  exact FirstN.take_outside (by rwa [names_length])

theorem boundary_mem (hx : boundary ranked n = some x) : x ∈ ranked.names :=
  mem_of_getElem? hx

/-- The first `n` without the track, once the track at the boundary has made room for it. -/
theorem mem_take_without_boundary (hn : 1 ≤ n) (hnd : (names (C ++ e :: D)).Nodup) (hC : C.length < n) :
    t ∈ (names (C ++ e :: D)).take n ↔
      (t = e.2.ftn ∨ t ∈ (names (C ++ D)).take n) ∧ boundary (C ++ D) n ≠ some t := by
  obtain ⟨hftn, hCD⟩ := names_middle_nodup.mp hnd
  rw [mem_take_with hC, mem_take_boundary hn]
  constructor
  · intro h
    rcases h with rfl | h
    · exact ⟨Or.inl rfl, fun hb => hftn (boundary_mem hb)⟩
    · exact ⟨Or.inr (Or.inl h), fun hb => boundary_not_mem hCD hb h⟩
  · intro h
    obtain ⟨h | h | h, hb⟩ := h
    · exact Or.inl h
    · exact Or.inr h
    · exact absurd h hb

/-- **Demoting the track that was pushed out of the first `n`.** -/
theorem demoteTrackAtRank_spec (hd : r.maxDeselected = 0) (hq : g.deselectedQueue = []) (hn : 1 ≤ n)
    (hranked : r.rankedTracks = C ++ e :: D) (hnd : r.rankedTracks.names.Nodup) (hC : C.length < n)
    (hsel : Selected g.trackStates {t | t = e.2.ftn ∨ t ∈ (names (C ++ D)).take n}) :
    Selected (r.demoteTrackAtRank n g).1.trackStates {t | t ∈ r.rankedTracks.names.take n} ∧
      (r.demoteTrackAtRank n g).1.sessions = g.sessions ∧
      (r.demoteTrackAtRank n g).1.maxSelected = g.maxSelected ∧
      (r.demoteTrackAtRank n g).1.deselectedQueue = [] ∧
      ∀ s info, g.sessions.lookup s = some info →
        heard s (r.demoteTrackAtRank n g).2 = (boundary (C ++ D) n).toList.map .evict := by
  have hat : r.rankedTracks.names[n]? = boundary (C ++ D) n := by
    unfold boundary
    rw [hranked, names_append, names_cons, names_append]
    exact FirstN.getElem?_inside (by rwa [names_length])
  rw [hranked] at hnd
  unfold demoteTrackAtRank
  rw [hat]
  cases hb : boundary (C ++ D) n with
  | none =>
    refine ⟨hsel.congr fun t => ?_, rfl, rfl, hq, fun _ _ _ => rfl⟩
    rw [hranked]
    show _ ↔ t ∈ (names (C ++ e :: D)).take n
    rw [mem_take_without_boundary hn hnd hC, hb]
    simp
  | some x =>
    have hx : g.trackStates.lookup x = some .selected :=
      hsel.mem x (Or.inr ((mem_take_boundary hn).mpr (Or.inr hb)))
    dsimp only
    rw [if_pos hx, demoteTrack_eq hd hq]
    refine ⟨(hsel.evict x .deselected).congr fun t => ?_, rfl, rfl, hq, fun s info hs => ?_⟩
    · rw [hranked]
      show _ ↔ t ∈ (names (C ++ e :: D)).take n
      rw [mem_take_without_boundary hn hnd hC, hb]
      simp only [Set.mem_ofPred_eq, ne_eq, some.injEq]
      tauto
    · exact heard_evicted x hs

end Boundary

/-! ## 3. A new track -/

section Register

theorem Effect.demoted {out : TopNGroup × List Callback} {rem : List FullTrackName}
    {ds : List Delivery} (h : Effect out s rem ds) {out' : TopNGroup × List Callback}
    (hsessions : out'.1.sessions = out.1.sessions) {ds' : List Delivery} (hheard : heard s out'.2 = ds') :
    Effect (out'.1, out.2 ++ out'.2) s rem (ds ++ ds') where
  session := by
    rw [hsessions]
    exact h.session
  heard := by
    rw [heard_append, h.heard, hheard]

section

variable (hr : RankInv r) (hd : r.maxDeselected = 0) (hn : 1 ≤ n) (hranked : r.rankedTracks = C ++ e :: D)
  (hg : Selection g (C ++ D) n)

include hr hd hn hranked hg

theorem registerInGroup_selection :
    Selection (r.registerInGroup e.2.ftn C.length n g).1 r.rankedTracks n := by
  unfold registerInGroup
  by_cases hC : C.length < n
  · rw [if_pos hC]
    obtain ⟨hsel, -, hsize, hqueue, -⟩ :=
      demoteTrackAtRank_spec (g := (r.notifyTrackSelected e.2.ftn
        { g with trackStates := g.trackStates.insert e.2.ftn .selected }).1)
        hd hg.queue hn hranked hr.names_nodup hC (hg.states.insert e.2.ftn)
    exact ⟨hsize.trans hg.size, hqueue, hsel⟩
  · rw [if_neg hC]
    refine ⟨hg.size, hg.queue, hg.states.congr fun t => ?_⟩
    show t ∈ (names (C ++ D)).take n ↔ t ∈ r.rankedTracks.names.take n
    rw [hranked, take_with_outside (Nat.le_of_not_lt hC)]

theorem registerInGroup_effect (hinfo : g.sessions.lookup s = some info) :
    Effect (r.registerInGroup e.2.ftn C.length n g) s
      (remembers r.rankedTracks none n s info.selectedTracks)
      (if C.length < n then announced r.rankedTracks n s info.selectedTracks e.2.ftn ++
          (boundary (C ++ D) n).toList.map .evict
        else corrected r.rankedTracks none n s info.selectedTracks) := by
  unfold registerInGroup
  by_cases hC : C.length < n
  · rw [if_pos hC, if_pos hC]
    have hnotify := @notify_effect r { g with trackStates := g.trackStates.insert e.2.ftn .selected }
      n s info hr hn hg.size e.2.ftn hinfo
    obtain ⟨info', hinfo', -⟩ := hnotify.session
    obtain ⟨-, hsessions, -, -, hheard⟩ :=
      demoteTrackAtRank_spec (g := (r.notifyTrackSelected e.2.ftn
        { g with trackStates := g.trackStates.insert e.2.ftn .selected }).1)
        hd hg.queue hn hranked hr.names_nodup hC (hg.states.insert e.2.ftn)
    exact Effect.demoted hnotify hsessions (hheard s info' hinfo')
  · rw [if_neg hC, if_neg hC]
    exact reconcileSessions_effect hr hn none hinfo

end

theorem registerInGroup_same (ftn : FullTrackName) (rank : Nat) :
    SameSessions g (r.registerInGroup ftn rank n g).1 := by
  unfold registerInGroup
  split
  · intro s
    dsimp only
    rw [demoteTrackAtRank_sessions]
    exact notify_same ftn s
  · exact reconcileSessions_same none n

end Register

/-! ## 4. A track that moves -/

section Recompute

variable {key newKey : RankKey} {entry : RankedEntry}

variable {oldRank newRank : Nat}

section moved

variable (hr : RankInv r) (hranked : r.rankedTracks = C ++ (newKey, entry) :: D)

include hr hranked

theorem ftnPublisher_eq :
    ((r.trackIndexByName.lookup entry.ftn).bind fun i => r.rankedTracks.at? i.rankIter).map
      (·.publisherRaw) = some entry.publisherRaw := by
  have hmem : (newKey, entry) ∈ r.rankedTracks := by
    rw [hranked]
    simp
  obtain ⟨i, hi, hkey⟩ := hr.index_mem _ hmem
  dsimp only at hi hkey
  rw [hi, bind_some, hkey, at?_of_mem hr.sorted hmem]
  rfl

theorem recomputeGroup_entering (hold : n ≤ oldRank) (hnew : newRank < n) :
    r.recomputeGroup entry.ftn oldRank newRank n g =
      let entered := removeFromDeselectedQueue
        { g with trackStates := g.trackStates.insert entry.ftn .selected } entry.ftn
      let sessions := r.reconcileSessions (some entry.publisherRaw) n g.sessions
      let displaced := r.demoteTrackAtRank n { entered with sessions := sessions.1 }
      (displaced.1, sessions.2 ++ batchSelected entry.ftn (r.viewerBatch entered) ++ displaced.2) := by
  unfold recomputeGroup
  rw [ftnPublisher_eq hr hranked]
  simp [Nat.not_lt.mpr hold, hnew, removeFromDeselectedQueue]

theorem recomputeGroup_leaving (hold : oldRank < n) (hnew : n ≤ newRank) :
    r.recomputeGroup entry.ftn oldRank newRank n g =
      let left := r.demoteTrack g entry.ftn
      let sessions := r.reconcileSessions (some entry.publisherRaw) n left.1.sessions
      let promoted := r.promoteTrackAtRank (n - 1) { left.1 with sessions := sessions.1 }
      (promoted.1, left.2 ++ sessions.2 ++ promoted.2) := by
  unfold recomputeGroup
  rw [ftnPublisher_eq hr hranked]
  simp [Nat.not_lt.mpr hnew, hold]

theorem recomputeGroup_staying (hstay : oldRank < n ↔ newRank < n) :
    r.recomputeGroup entry.ftn oldRank newRank n g =
      let sessions := r.reconcileSessions (some entry.publisherRaw) n g.sessions
      ({ g with sessions := sessions.1 }, sessions.2) := by
  unfold recomputeGroup
  rw [ftnPublisher_eq hr hranked]
  by_cases hold : oldRank < n
  · simp [hold, hstay.mp hold]
  · have hnew : ¬newRank < n := fun h => hold (hstay.mpr h)
    simp [hold, hnew]

theorem recomputeGroup_same
    (oldRank newRank : Nat) : SameSessions g (r.recomputeGroup entry.ftn oldRank newRank n g).1 := by
  by_cases hstay : oldRank < n ↔ newRank < n
  · rw [recomputeGroup_staying hr hranked hstay]
    exact reconcileSessions_same _ n
  · by_cases hold : oldRank < n
    · have hnew : ¬newRank < n := fun h => hstay ⟨fun _ => h, fun _ => hold⟩
      rw [recomputeGroup_leaving hr hranked hold (Nat.le_of_not_lt hnew)]
      intro s
      have hleft : s ∈ (r.demoteTrack g entry.ftn).1.sessions ↔ s ∈ g.sessions := by
        rw [demoteTrack_sessions]
      exact (promoteTrackAtRank_same _ s).trans ((reconcileSessions_same _ n s).trans hleft)
    · have hnew : newRank < n := by
        by_contra h
        exact hstay ⟨fun h' => absurd h' hold, fun h' => absurd h' h⟩
      rw [recomputeGroup_entering hr hranked (Nat.le_of_not_lt hold) hnew]
      intro s
      dsimp only
      rw [demoteTrackAtRank_sessions]
      exact reconcileSessions_same (g := g) _ n s

end moved

variable (hr : RankInv r) (hd : r.maxDeselected = 0) (hn : 1 ≤ n)
  (hranked : r.rankedTracks = C ++ (newKey, entry) :: D) (hAC : A ++ B = C ++ D)
  (hg : Selection g (A ++ (key, entry) :: B) n)

include hr hd hn hranked hAC hg

section

variable (hA : n ≤ A.length) (hC : C.length < n)

include hA hC

theorem entered_demote (sessions : AList fun _ : SessionRef => SessionInfo) :
    let entered : TopNGroup := { removeFromDeselectedQueue
      { g with trackStates := g.trackStates.insert entry.ftn .selected } entry.ftn with
        sessions := sessions }
    Selected (r.demoteTrackAtRank n entered).1.trackStates {t | t ∈ r.rankedTracks.names.take n} ∧
      (r.demoteTrackAtRank n entered).1.sessions = sessions ∧
      (r.demoteTrackAtRank n entered).1.maxSelected = n ∧
      (r.demoteTrackAtRank n entered).1.deselectedQueue = [] ∧
      ∀ s info, sessions.lookup s = some info →
        heard s (r.demoteTrackAtRank n entered).2 = (boundary (C ++ D) n).toList.map .evict := by
  intro entered
  have hqueue : entered.deselectedQueue = [] := by
    show g.deselectedQueue.filter _ = []
    rw [hg.queue]
    rfl
  have hsel : Selected entered.trackStates {t | t = entry.ftn ∨ t ∈ (names (C ++ D)).take n} := by
    refine (hg.states.insert entry.ftn).congr fun t => ?_
    show t = entry.ftn ∨ t ∈ (names (A ++ (key, entry) :: B)).take n ↔ _
    rw [take_with_outside hA, hAC]
    rfl
  obtain ⟨h1, h2, h3, h4, h5⟩ :=
    demoteTrackAtRank_spec hd hqueue hn hranked hr.names_nodup hC hsel
  exact ⟨h1, h2, h3.trans hg.size, h4, h5⟩

theorem entering_selection :
    Selection (r.recomputeGroup entry.ftn A.length C.length n g).1 r.rankedTracks n := by
  rw [recomputeGroup_entering hr hranked hA hC]
  obtain ⟨h1, -, h3, h4, -⟩ := entered_demote hr hd hn hranked hAC hg hA hC
    (r.reconcileSessions (some entry.publisherRaw) n g.sessions).1
  exact ⟨h3, h4, h1⟩

theorem entering_effect (hinfo : g.sessions.lookup s = some info) :
    Effect (r.recomputeGroup entry.ftn A.length C.length n g) s
      (remembers r.rankedTracks (some entry.publisherRaw) n s info.selectedTracks)
      (corrected r.rankedTracks (some entry.publisherRaw) n s info.selectedTracks ++
        (if r.rankedTracks.publishes s then [] else [.select entry.ftn]) ++
        (boundary (C ++ D) n).toList.map .evict) := by
  rw [recomputeGroup_entering hr hranked hA hC]
  have heff := reconcileSessions_effect hr hn (some entry.publisherRaw) hinfo
  obtain ⟨info', hinfo', hrem⟩ := heff.session
  obtain ⟨-, h2, -, -, h5⟩ := entered_demote hr hd hn hranked hAC hg hA hC
    (r.reconcileSessions (some entry.publisherRaw) n g.sessions).1
  have hmem : s ∈ g.sessions := lookup_isSome.mp (by rw [hinfo]; rfl)
  constructor
  · refine ⟨info', ?_, hrem⟩
    dsimp only
    rw [h2]
    exact hinfo'
  · dsimp only
    rw [heard_append, heard_append, h5 s info' hinfo', heard_batchSelected]
    congr 2
    · exact heff.heard
    · rw [hr.isPublisher_eq]
      by_cases hp : r.rankedTracks.publishes s = true
      · rw [if_pos hp, if_neg fun h => h.2 hp]
      · rw [if_neg hp, if_pos ⟨hmem, hp⟩]

end

section

variable (hA : A.length < n) (hC : n ≤ C.length)

include hA hC

theorem left_promote (sessions : AList fun _ : SessionRef => SessionInfo) :
    let left : TopNGroup := { (r.demoteTrack g entry.ftn).1 with sessions := sessions }
    ∃ z, boundary (C ++ D) n = some z ∧ r.promoteTrackAtRank (n - 1) left = r.promoteTrack left z ∧
      Selected ((r.demoteTrack g entry.ftn).1.trackStates.insert z .selected)
        {t | t ∈ r.rankedTracks.names.take n} := by
  intro left
  have hnd := hr.names_nodup
  rw [hranked, names_middle_nodup] at hnd
  have hat : r.rankedTracks.names[n - 1]? = boundary (C ++ D) n := by
    unfold boundary
    rw [hranked, names_append, names_cons, names_append]
    exact FirstN.getElem?_outside hn (by rwa [names_length])
  obtain ⟨z, hz⟩ : ∃ z, boundary (C ++ D) n = some z := by
    unfold boundary
    refine ⟨_, getElem?_eq_getElem ?_⟩
    rw [names_length, length_append]
    omega
  have hleft : Selected left.trackStates {t | t ∈ (names (C ++ D)).take (n - 1)} := by
    show Selected (r.demoteTrack g entry.ftn).1.trackStates _
    rw [demoteTrack_eq hd hg.queue]
    refine (hg.states.evict entry.ftn .deselected).congr fun t => ?_
    show t ∈ (names (A ++ (key, entry) :: B)).take n ∧ t ≠ entry.ftn ↔ t ∈ (names (C ++ D)).take (n - 1)
    rw [mem_take_with hA, hAC]
    constructor
    · intro h
      exact h.1.resolve_left h.2
    · intro h
      exact ⟨Or.inr h, fun heq => hnd.1 (heq ▸ mem_of_mem_take h)⟩
  refine ⟨z, hz, ?_, ?_⟩
  · unfold promoteTrackAtRank
    rw [hat, hz]
    dsimp only
    rw [if_neg]
    rw [hleft.lookup_iff]
    exact boundary_not_mem hnd.2 hz
  · refine (hleft.insert z).congr fun t => ?_
    show t = z ∨ t ∈ (names (C ++ D)).take (n - 1) ↔ t ∈ r.rankedTracks.names.take n
    rw [hranked, take_with_outside hC, mem_take_boundary hn, hz, some.injEq, eq_comm, or_comm]

theorem leaving_selection :
    Selection (r.recomputeGroup entry.ftn A.length C.length n g).1 r.rankedTracks n := by
  rw [recomputeGroup_leaving hr hranked hA hC]
  obtain ⟨z, -, hprom, hsel⟩ := left_promote hr hd hn hranked hAC hg hA hC
    (r.reconcileSessions (some entry.publisherRaw) n (r.demoteTrack g entry.ftn).1.sessions).1
  dsimp only
  rw [hprom]
  refine ⟨?_, ?_, hsel⟩
  · show (r.demoteTrack g entry.ftn).1.maxSelected = n
    rw [demoteTrack_eq hd hg.queue]
    exact hg.size
  · show (r.demoteTrack g entry.ftn).1.deselectedQueue.filter _ = []
    rw [demoteTrack_eq hd hg.queue, hg.queue]
    rfl

theorem leaving_effect (hinfo : g.sessions.lookup s = some info) :
    ∃ z, boundary (C ++ D) n = some z ∧
      Effect (r.recomputeGroup entry.ftn A.length C.length n g) s
        (remembers r.rankedTracks none n s info.selectedTracks)
        (.evict entry.ftn :: announced r.rankedTracks n s info.selectedTracks z) := by
  rw [recomputeGroup_leaving hr hranked hA hC]
  obtain ⟨z, hz, hprom, -⟩ := left_promote hr hd hn hranked hAC hg hA hC
    (r.reconcileSessions (some entry.publisherRaw) n (r.demoteTrack g entry.ftn).1.sessions).1
  refine ⟨z, hz, ?_⟩
  dsimp only
  rw [hprom]
  have hinfo' : (r.demoteTrack g entry.ftn).1.sessions.lookup s = some info := by
    rw [demoteTrack_sessions]
    exact hinfo
  have heff := reconcileSessions_effect hr hn (some entry.publisherRaw) hinfo'
  obtain ⟨info₁, hinfo₁, hrem₁⟩ := heff.session
  have hsize : (r.demoteTrack g entry.ftn).1.maxSelected = n := by
    rw [demoteTrack_eq hd hg.queue]
    exact hg.size
  have hpromoted := @promoteTrack_effect r { (r.demoteTrack g entry.ftn).1 with
    sessions := (r.reconcileSessions (some entry.publisherRaw) n
      (r.demoteTrack g entry.ftn).1.sessions).1 } n s info₁ hr hn hsize z hinfo₁
  obtain ⟨info₂, hinfo₂, hrem₂⟩ := hpromoted.session
  have hevict : heard s (r.demoteTrack g entry.ftn).2 = [.evict entry.ftn] := by
    rw [demoteTrack_eq hd hg.queue]
    exact heard_evicted entry.ftn hinfo
  constructor
  · refine ⟨info₂, hinfo₂, ?_⟩
    rw [hrem₂, hrem₁]
    exact remembers_twice _ _ n s _
  · rw [heard_append, heard_append, hevict, heff.heard, hpromoted.heard, hrem₁, append_assoc,
      corrected_announced]
    rfl

end

omit hr hd hn in
/-- A track that stays on its side of the boundary does not change the first `n`. -/
theorem selection_stays (hstay : A.length < n ↔ C.length < n) : Selection g r.rankedTracks n := by
  refine ⟨hg.size, hg.queue, hg.states.congr fun t => ?_⟩
  show t ∈ (names (A ++ (key, entry) :: B)).take n ↔ t ∈ r.rankedTracks.names.take n
  rw [hranked]
  by_cases hA : A.length < n
  · rw [mem_take_with hA, mem_take_with (hstay.mp hA), hAC]
  · rw [take_with_outside (Nat.le_of_not_lt hA),
      take_with_outside (Nat.le_of_not_lt fun h => hA (hstay.mpr h)), hAC]

omit hd hn in
theorem staying_selection (hstay : A.length < n ↔ C.length < n) :
    Selection (r.recomputeGroup entry.ftn A.length C.length n g).1 r.rankedTracks n := by
  rw [recomputeGroup_staying hr hranked hstay]
  obtain ⟨hsize, hqueue, hstates⟩ := selection_stays hranked hAC hg hstay
  exact ⟨hsize, hqueue, hstates⟩

omit hd hAC hg in
theorem staying_effect (hstay : A.length < n ↔ C.length < n) (hinfo : g.sessions.lookup s = some info) :
    Effect (r.recomputeGroup entry.ftn A.length C.length n g) s
      (remembers r.rankedTracks (some entry.publisherRaw) n s info.selectedTracks)
      (corrected r.rankedTracks (some entry.publisherRaw) n s info.selectedTracks) := by
  rw [recomputeGroup_staying hr hranked hstay]
  exact reconcileSessions_effect hr hn (some entry.publisherRaw) hinfo

theorem recomputeGroup_selection :
    Selection (r.recomputeGroup entry.ftn A.length C.length n g).1 r.rankedTracks n := by
  by_cases hA : A.length < n <;> by_cases hC : C.length < n
  · exact staying_selection hr hranked hAC hg ⟨fun _ => hC, fun _ => hA⟩
  · exact leaving_selection hr hd hn hranked hAC hg hA (Nat.le_of_not_lt hC)
  · exact entering_selection hr hd hn hranked hAC hg (Nat.le_of_not_lt hA) hC
  · exact staying_selection hr hranked hAC hg ⟨fun h => absurd h hA, fun h => absurd h hC⟩

end Recompute

/-! ## 5. A track that is removed -/

section Remove

variable (hr : RankInv r) (hn : 1 ≤ n) (hranked : r.rankedTracks = A ++ B) (hg : Selection g (A ++ e :: B) n)
  (hnew : e.2.ftn ∉ names (A ++ B))

include hr hn hranked hg hnew

omit hr hn hranked in
theorem removeInGroup_outside (hA : n ≤ A.length) : r.removeInGroup e.2.ftn g = (g, []) := by
  have hnone : g.trackStates.lookup e.2.ftn = none := by
    refine hg.states.not_mem _ fun h => ?_
    rw [Set.mem_ofPred_eq, take_with_outside hA] at h
    exact hnew (mem_of_mem_take h)
  unfold removeInGroup
  rw [hnone]

omit hr hn hranked in
theorem removed_selected (hA : A.length < n) :
    Selected (g.trackStates.erase e.2.ftn) {t | t ∈ (names (A ++ B)).take (n - 1)} := by
  refine (hg.states.erase e.2.ftn).congr fun t => ?_
  show t ∈ (names (A ++ e :: B)).take n ∧ t ≠ e.2.ftn ↔ t ∈ (names (A ++ B)).take (n - 1)
  rw [mem_take_with hA]
  constructor
  · intro h
    exact h.1.resolve_left h.2
  · intro h
    exact ⟨Or.inr h, fun heq => hnew (heq ▸ mem_of_mem_take h)⟩

omit hn in
theorem removeInGroup_inside (hA : A.length < n) :
    r.removeInGroup e.2.ftn g =
      let left := removeFromDeselectedQueue { g with trackStates := g.trackStates.erase e.2.ftn } e.2.ftn
      match boundary (A ++ B) n with
      | some z => r.promoteTrack left z
      | none => (left, []) := by
  have hsel : g.trackStates.lookup e.2.ftn = some .selected :=
    hg.states.mem _ ((mem_take_with hA).mpr (Or.inl rfl))
  have hleft := removed_selected hg hnew hA
  have hnd := hr.names_nodup
  rw [hranked] at hnd
  have hfind : (r.rankedTracks.names.find? fun ftn => ftn ≠ e.2.ftn ∧
      (g.trackStates.erase e.2.ftn).lookup ftn ≠ some .selected) = boundary (A ++ B) n := by
    -- the first `n - 1` tracks are selected, so the search stops at the boundary
    rw [hranked, ← take_append_drop (n - 1) (names (A ++ B)), find?_append,
      find?_eq_none.mpr, none_or]
    · unfold boundary
      cases hdrop : (names (A ++ B)).drop (n - 1) with
      | nil =>
        rw [drop_eq_nil_iff] at hdrop
        rw [getElem?_eq_none hdrop]
        rfl
      | cons z rest =>
        have hz : (names (A ++ B))[n - 1]? = some z := by
          have := @getElem?_drop _ (names (A ++ B)) (n - 1) 0
          rw [hdrop] at this
          simpa using this.symm
        have hzmem : z ∈ names (A ++ B) := mem_of_getElem? hz
        rw [hz, find?_cons_of_pos]
        refine decide_eq_true ⟨fun heq => hnew (heq ▸ hzmem), ?_⟩
        rw [Ne, hleft.lookup_iff]
        exact FirstN.not_mem_take_of_getElem? hnd hz
    · intro t ht
      have := hleft.mem t ht
      simp [this]
  unfold removeInGroup
  rw [hsel]
  dsimp only
  rw [if_pos rfl]
  have hq : (removeFromDeselectedQueue { g with trackStates := g.trackStates.erase e.2.ftn }
      e.2.ftn).deselectedQueue = [] := by
    show g.deselectedQueue.filter _ = []
    rw [hg.queue]
    rfl
  rw [hq]
  dsimp only
  unfold promoteNextAvailableTrack
  show (match r.rankedTracks.names.find? (fun ftn => decide (ftn ≠ e.2.ftn ∧
    (g.trackStates.erase e.2.ftn).lookup ftn ≠ some .selected)) with
    | some ftn => _ | none => _) = _
  rw [hfind]

theorem removeInGroup_selection :
    Selection (r.removeInGroup e.2.ftn g).1 r.rankedTracks n := by
  by_cases hA : A.length < n
  · rw [removeInGroup_inside hr hranked hg hnew hA]
    have hleft := removed_selected hg hnew hA
    have hqueue : g.deselectedQueue.filter (fun t => decide (t ≠ e.2.ftn)) = [] := by
      rw [hg.queue]
      rfl
    dsimp only
    cases hz : boundary (A ++ B) n with
    | none =>
      refine ⟨hg.size, hqueue, hleft.congr fun t => ?_⟩
      rw [Set.mem_ofPred_eq, Set.mem_ofPred_eq, hranked, mem_take_boundary hn, hz]
      simp
    | some z =>
      refine ⟨hg.size, ?_, (hleft.insert z).congr fun t => ?_⟩
      · show (g.deselectedQueue.filter _).filter _ = []
        rw [hqueue]
        rfl
      · show t = z ∨ t ∈ (names (A ++ B)).take (n - 1) ↔ t ∈ r.rankedTracks.names.take n
        rw [hranked, mem_take_boundary hn, hz, some.injEq, eq_comm, or_comm]
  · rw [removeInGroup_outside hg hnew (Nat.le_of_not_lt hA)]
    refine ⟨hg.size, hg.queue, hg.states.congr fun t => ?_⟩
    rw [Set.mem_ofPred_eq, Set.mem_ofPred_eq, hranked, take_with_outside (Nat.le_of_not_lt hA)]

theorem removeInGroup_replaced (hA : A.length < n) {z : FullTrackName}
    (hz : boundary (A ++ B) n = some z) (hinfo : g.sessions.lookup s = some info) :
    Effect (r.removeInGroup e.2.ftn g) s (remembers r.rankedTracks none n s info.selectedTracks)
      (announced r.rankedTracks n s info.selectedTracks z) := by
  rw [removeInGroup_inside hr hranked hg hnew hA, hz]
  exact @promoteTrack_effect r
    (removeFromDeselectedQueue { g with trackStates := g.trackStates.erase e.2.ftn } e.2.ftn)
    n s info hr hn hg.size z hinfo

omit hn in
theorem removeInGroup_quiet (hA : A.length < n → boundary (A ++ B) n = none)
    (hinfo : g.sessions.lookup s = some info) :
    Effect (r.removeInGroup e.2.ftn g) s info.selectedTracks [] := by
  by_cases hlt : A.length < n
  · rw [removeInGroup_inside hr hranked hg hnew hlt, hA hlt]
    exact ⟨⟨info, hinfo, rfl⟩, rfl⟩
  · rw [removeInGroup_outside hg hnew (Nat.le_of_not_lt hlt)]
    exact ⟨⟨info, hinfo, rfl⟩, rfl⟩

omit hr hn hranked hg hnew in
theorem removeInGroup_same (ftn : FullTrackName) : SameSessions g (r.removeInGroup ftn g).1 := by
  unfold removeInGroup
  split
  · exact SameSessions.refl g
  · dsimp only
    split
    · split
      · exact notify_same _
      · exact promoteNextAvailable_same ftn
    · exact SameSessions.refl g

end Remove

end PropertyRanking

end Moqx

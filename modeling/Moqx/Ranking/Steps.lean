/-
  Subject: The operations of the ranking, as steps of a run.

  * `Op`, `step` -- the operations and what each does;
  * `ThresholdInv`, `not_crosses_stays`, `not_crosses_window` -- what the fast path may rely on;
  * `RankingInv` -- the order, the thresholds and every group's selection, kept by every step;
  * `GroupsInv`, `step_groups` -- the order and the thresholds under any settings.
-/
import Moqx.Ranking.Groups

namespace Moqx

open PropertyRanking RankedTracks PropertyRanking Table List AList

variable {g : TopNGroup} {deselected : Nat} {timeout : Int} {G G' : Nat → TopNGroup → Prop}
  {info : SessionInfo}

inductive Op where
  | registerTrack (ftn : FullTrackName) (initialPropertyValue : Option Nat) (publisher : SessionRef)
  | updateSortValue (ftn : FullTrackName) (value : Nat) (activity : PropertyRanking.Activity)
  | removeTrack (ftn : FullTrackName)
  | addSessionToTopNGroup (maxSelected : Nat) (session : SessionRef) (forward : Bool)
  | removeSessionFromTopNGroup (maxSelected : Nat) (session : SessionRef)
  | updateSessionForward (maxSelected : Nat) (session : SessionRef) (forward : Bool)
  | sweepIdle (activity : PropertyRanking.Activity)

/-- A session of a group, with what the group keeps for it. -/
def PropertyRanking.member (r : PropertyRanking) (n : Nat) (s : SessionRef) : Option SessionInfo :=
  (r.topNGroups.lookup n).bind fun g => g.sessions.lookup s

/-- Groups have at least one place, and a session is added to a group it is not in. -/
def Op.Allowed (r : PropertyRanking) : Op → Prop
  | .addSessionToTopNGroup n s _ => 1 ≤ n ∧ r.member n s = none
  | _ => True

namespace PropertyRanking

variable {f : Nat → TopNGroup → TopNGroup × List Callback} {c : Nat}
variable {α : Type*} {oldRank newRank value x : Nat} {ftn : FullTrackName} {i : RankIndex}

def step (r : PropertyRanking) : Op → PropertyRanking × List (Nat × Callback)
  | .registerTrack ftn value publisher => r.registerTrack ftn value publisher
  | .updateSortValue ftn value activity => r.updateSortValue ftn value activity
  | .removeTrack ftn => r.removeTrack ftn
  | .addSessionToTopNGroup n s forward => r.addSessionToTopNGroup n s forward
  | .removeSessionFromTopNGroup n s => (r.removeSessionFromTopNGroup n s, [])
  | .updateSessionForward n s forward => (r.updateSessionForward n s forward, [])
  | .sweepIdle activity => r.sweepIdle activity

/-- The order once an operation has changed the sorted map. -/
def orderAfter (r : PropertyRanking) : Op → RankedTracks
  | .registerTrack ftn value publisher =>
    r.rankedTracks.emplace ⟨value.getD 0, r.nextSeq⟩ ⟨ftn, publisher⟩
  | .updateSortValue ftn value _ =>
    match r.trackIndexByName.lookup ftn with
    | none => r.rankedTracks
    | some i =>
      match r.rankedTracks.at? i.rankIter with
      | none => r.rankedTracks
      | some entry => (r.rankedTracks.erase i.rankIter).emplace ⟨value, i.rankIter.arrivalSeq⟩ entry
  | .removeTrack ftn => r.rankedTracks.filter fun e => e.2.ftn ≠ ftn
  | _ => r.rankedTracks

variable {r : PropertyRanking} {n : Nat} {s : SessionRef}

/-! ## 1. Thresholds -/

theorem le_foldl {f : Nat → α → Nat} (hf : ∀ m a, m ≤ f m a) (l : List α) (b : Nat) :
    b ≤ l.foldl f b := by
  induction l generalizing b with
  | nil => exact Nat.le_refl b
  | cons a l ih => exact (hf b a).trans (ih (f b a))

theorem le_foldl_of_mem {f : Nat → α → Nat} (hf : ∀ m a, m ≤ f m a) {l : List α} {a : α}
    (ha : a ∈ l) {v : Nat} (hv : ∀ m, v ≤ f m a) (b : Nat) : v ≤ l.foldl f b := by
  induction l generalizing b with
  | nil => cases ha
  | cons a' l ih =>
    rcases mem_cons.mp ha with rfl | ha
    · exact (hv b).trans (le_foldl hf l _)
    · exact ih ha _

theorem le_maxExtended (hg : r.topNGroups.lookup n = some g) (hs : s ∈ g.sessions)
    (hc : r.publisherTrackCount.lookup s = some c) (b : Nat) : n + c ≤ r.maxExtended b := by
  unfold maxExtended
  refine le_foldl_of_mem (fun m g => le_foldl (fun m a => ?_) _ m) (mem_lookup_iff.mp hg) (fun m => ?_) b
  · split
    · exact Nat.le_max_left _ _
    · exact Nat.le_refl _
  refine le_foldl_of_mem (fun m a => ?_) (mem_keys.mp hs) (fun m => ?_) m
  · split
    · exact Nat.le_max_left _ _
    · exact Nat.le_refl _
  · rw [hc]
    exact Nat.le_max_right _ _

/-- What the thresholds promise the fast path. -/
structure ThresholdInv (r : PropertyRanking) : Prop where
  selection : ∀ n ∈ r.topNGroups, n ≤ r.selectionThreshold
  sorted : r.sortedThresholds.Pairwise (· ≤ ·)
  mem : ∀ n ∈ r.topNGroups, n ∈ r.sortedThresholds
  extended : ∀ n g s c, r.topNGroups.lookup n = some g → s ∈ g.sessions →
    r.publisherTrackCount.lookup s = some c → n + c ≤ r.publisherExtendedThreshold

theorem updateSelectionThreshold_spec (r : PropertyRanking) :
    (∀ n ∈ r.topNGroups, n ≤ r.updateSelectionThreshold.selectionThreshold) ∧
      r.updateSelectionThreshold.sortedThresholds.Pairwise (· ≤ ·) ∧
      ∀ n ∈ r.topNGroups, n ∈ r.updateSelectionThreshold.sortedThresholds := by
  refine ⟨fun n hn => ?_, pairwise_insertionSort _ _, fun n hn => ?_⟩
  · have hmax : n ≤ r.topNGroups.keys.foldl max 0 :=
      le_foldl_of_mem (fun m a => Nat.le_max_left m a) (mem_keys.mp hn)
        (fun m => Nat.le_max_right m n) 0
    exact hmax.trans (Nat.le_add_right _ _)
  · exact (mem_insertionSort _).mpr (mem_keys.mp hn)

theorem updatePublisherExtendedThreshold_spec {r : PropertyRanking} (hg : r.topNGroups.lookup n = some g)
    (hs : s ∈ g.sessions) (hc : r.publisherTrackCount.lookup s = some c) :
    n + c ≤ r.updatePublisherExtendedThreshold.publisherExtendedThreshold :=
  (le_maxExtended hg hs hc 0).trans (Nat.le_add_right _ _)

theorem not_crosses_stays (ht : ThresholdInv r) (h : r.crossesThreshold oldRank newRank = false)
    (hn : n ∈ r.topNGroups) :
    oldRank < n ↔ newRank < n := by
  have hsel := ht.selection n hn
  unfold crossesThreshold at h
  split at h
  · rename_i hempty
    have := AList.mem_keys.mp hn
    rw [isEmpty_iff.mp hempty] at this
    cases this
  · dsimp only at h
    split at h
    · rename_i hout
      omega
    · split at h
      · cases h
      · split at h
        · cases h
        · rename_i hfind
          -- the first threshold above the lower rank is above the higher one too
          by_contra hcross
          refine hfind ?_
          have hmem := ht.mem n hn
          have hmin : min oldRank newRank < n := by omega
          have hmax : n ≤ max oldRank newRank := by omega
          obtain ⟨m, hm⟩ : ∃ m, r.sortedThresholds.find? (min oldRank newRank < ·) = some m :=
            Option.isSome_iff_exists.mp (find?_isSome.mpr ⟨n, hmem, decide_eq_true hmin⟩)
          have hle : m ≤ n := by
            obtain ⟨-, as, bs, hab, has⟩ := find?_eq_some_iff_append.mp hm
            have hsorted := ht.sorted
            rw [hab] at hmem hsorted
            rcases mem_append.mp hmem with hmem | hmem
            · have := has n hmem
              rw [decide_eq_true hmin] at this
              cases this
            · rcases mem_cons.mp hmem with rfl | hmem
              · exact Nat.le_refl _
              · exact (pairwise_cons.mp (pairwise_append.mp hsorted).2.1).1 n hmem
          rw [hm]
          exact decide_eq_true (hle.trans hmax)

theorem not_crosses_window (ht : ThresholdInv r) (h : r.crossesThreshold oldRank newRank = false)
    (hg : r.topNGroups.lookup n = some g) (hs : s ∈ g.sessions)
    (hc : r.publisherTrackCount.lookup s = some c) :
    n + c ≤ oldRank ∧ n + c ≤ newRank := by
  have hext := ht.extended n g s c hg hs hc
  unfold crossesThreshold at h
  split at h
  · rename_i hempty
    have : n ∈ r.topNGroups.keys := mem_keys.mp (mem_of_lookup hg)
    rw [isEmpty_iff.mp hempty] at this
    cases this
  · dsimp only at h
    split at h
    · omega
    · split at h
      · cases h
      · split at h
        · cases h
        · split at h
          · rename_i hempty
            have : s ∈ r.publisherTrackCount.keys :=
              mem_keys.mp (mem_of_lookup hc)
            rw [isEmpty_iff.mp hempty] at this
            cases this
          · rw [decide_eq_false_iff_not] at h
            have := le_maxExtended hg hs hc (r.topNGroups.keys.foldl max 0)
            omega

/-! ## 2. The invariant of the ranking -/

structure RankingInv (r : PropertyRanking) : Prop where
  rank : RankInv r
  room : r.maxDeselected = 0
  noIdle : r.idleTimeout = 0
  groups : ∀ n g, r.topNGroups.lookup n = some g → 1 ≤ n ∧ Selection g r.rankedTracks n
  thresholds : ThresholdInv r

/-- The order and the thresholds under any settings, and what holds of every group. -/
structure GroupsInv (deselected : Nat) (timeout : Int) (G : Nat → TopNGroup → Prop) (r : PropertyRanking) : Prop where
  rank : RankInv r
  room : r.maxDeselected = deselected
  idle : r.idleTimeout = timeout
  groups : ∀ n g, r.topNGroups.lookup n = some g → G n g
  thresholds : ThresholdInv r

/-- What a step does for a session of a group: the tracks remembered for it, and what it hears. -/
structure SessionStep (out : PropertyRanking × List (Nat × Callback)) (n : Nat) (s : SessionRef)
    (remembered : List FullTrackName) (deliveries : List Delivery) : Prop where
  member : ∃ info, out.1.member n s = some info ∧ info.selectedTracks = remembered
  heard : heardIn n s out.2 = deliveries

theorem member_some {info : SessionInfo} (h : r.member n s = some info) :
    ∃ g, r.topNGroups.lookup n = some g ∧ g.sessions.lookup s = some info :=
  Option.bind_eq_some_iff.mp h

theorem ThresholdInv.rebuild (h : ThresholdInv r) : ThresholdInv r.rebuildRankCacheIfNeeded := by
  rw [rebuild_eq]
  exact ⟨h.selection, h.sorted, h.mem, h.extended⟩

theorem mem_forGroups (f : Nat → TopNGroup → TopNGroup × List Callback) :
    n ∈ (r.forGroups f).1.topNGroups ↔ n ∈ r.topNGroups := by
  rw [AList.mem_keys, AList.mem_keys]
  show n ∈ (visit _ r.topNGroups).1.keys ↔ _
  rw [keys_visit]

theorem RankInv.forGroups (h : RankInv r) (f : Nat → TopNGroup → TopNGroup × List Callback) :
    RankInv (r.forGroups f).1 := h.same ⟨rfl, rfl, rfl, rfl, rfl⟩

theorem ThresholdInv.forGroups (h : ThresholdInv r)
    (hsame : ∀ n g, r.topNGroups.lookup n = some g → SameSessions g (f n g).1) :
    ThresholdInv (r.forGroups f).1 where
  selection n hn := h.selection n ((mem_forGroups f).mp hn)
  sorted := h.sorted
  mem n hn := h.mem n ((mem_forGroups f).mp hn)
  extended n g' s c hg' hs hc := by
    rw [lookup_forGroups] at hg'
    obtain ⟨g, hg, rfl⟩ := Option.map_eq_some_iff.mp hg'
    exact h.extended n g s c hg ((hsame n g hg s).mp hs) hc

section Groups

theorem RankingInv.groupsInv (h : RankingInv r) :
    GroupsInv 0 0 (fun n g => 1 ≤ n ∧ Selection g r.rankedTracks n) r :=
  ⟨h.rank, h.room, h.noIdle, h.groups, h.thresholds⟩

theorem GroupsInv.rankingInv {ranked : RankedTracks} (hranked : r.rankedTracks = ranked)
    (h : GroupsInv 0 0 (fun n g => 1 ≤ n ∧ Selection g ranked n) r) : RankingInv r := by
  subst hranked
  exact ⟨h.rank, h.room, h.idle, h.groups, h.thresholds⟩

def SessionFree (G : Nat → TopNGroup → Prop) : Prop :=
  ∀ n g sessions, G n g → G n { g with sessions := sessions }

theorem selection_sessionFree (ranked : RankedTracks) : SessionFree fun n g => 1 ≤ n ∧ Selection g ranked n :=
  fun _ _ _ h => ⟨h.1, h.2.size, h.2.queue, h.2.states⟩

theorem GroupsInv.rebuild (h : GroupsInv deselected timeout G r) :
    GroupsInv deselected timeout G r.rebuildRankCacheIfNeeded := by
  have hrank := h.rank.rebuild
  have hthr := h.thresholds.rebuild
  rw [rebuild_eq] at hrank hthr ⊢
  exact ⟨hrank, h.room, h.idle, h.groups, hthr⟩

theorem GroupsInv.forGroups (h : GroupsInv deselected timeout G r)
    (hsame : ∀ n g, r.topNGroups.lookup n = some g → SameSessions g (f n g).1)
    (hG : ∀ n g, r.topNGroups.lookup n = some g → G n g → G' n (f n g).1) :
    GroupsInv deselected timeout G' (r.forGroups f).1 where
  rank := h.rank.forGroups f
  room := h.room
  idle := h.idle
  groups n g' hg' := by
    rw [lookup_forGroups] at hg'
    obtain ⟨g, hg, rfl⟩ := Option.map_eq_some_iff.mp hg'
    exact hG n g hg (h.groups n g hg)
  thresholds := h.thresholds.forGroups hsame

end Groups

theorem forGroups_session (hg : r.topNGroups.lookup n = some g) {rem : List FullTrackName}
    {ds : List Delivery} (he : Effect (f n g) s rem ds) : SessionStep (r.forGroups f) n s rem ds where
  member := by
    obtain ⟨info, hinfo, hrem⟩ := he.session
    refine ⟨info, ?_, hrem⟩
    unfold member
    rw [lookup_forGroups, hg]
    exact hinfo
  heard := by
    rw [heardIn_forGroups, hg]
    exact he.heard

theorem member_forGroups (hsame : ∀ n g, r.topNGroups.lookup n = some g → SameSessions g (f n g).1)
    (h : ((r.forGroups f).1.member n s).isSome) : (r.member n s).isSome := by
  obtain ⟨info', hinfo'⟩ := Option.isSome_iff_exists.mp h
  obtain ⟨g', hg', hs'⟩ := member_some hinfo'
  rw [lookup_forGroups] at hg'
  obtain ⟨g, hg, rfl⟩ := Option.map_eq_some_iff.mp hg'
  have hmem : s ∈ g.sessions := (hsame n g hg s).mp (mem_of_lookup hs')
  unfold member
  rw [hg]
  exact lookup_isSome.mpr hmem

/-! ## 3. Registering a track -/

section Register

variable {session : SessionRef}

theorem reconcileInGroup_sessions (r : PropertyRanking) (session : SessionRef) (n : Nat) (g : TopNGroup) :
    ∃ sessions, (r.reconcilePublisherInGroup session n g).1 = { g with sessions := sessions } := by
  unfold reconcilePublisherInGroup
  split <;> exact ⟨_, rfl⟩

theorem reconcileInGroup_same (r : PropertyRanking) (session : SessionRef) (n : Nat) (g : TopNGroup) :
    SameSessions g (r.reconcilePublisherInGroup session n g).1 := by
  unfold reconcilePublisherInGroup
  split
  · exact SameSessions.refl g
  · rename_i info hinfo
    intro s
    dsimp only
    rw [mem_insert]
    constructor
    · intro h
      rcases h with rfl | h
      · exact mem_of_lookup hinfo
      · exact h
    · exact Or.inr

/-- The list the code holds for a viewer that becomes a publisher. -/
def seeds (ranked : RankedTracks) (info : SessionInfo) (n : Nat) : List FullTrackName :=
  if wasPublisher info then info.selectedTracks
  else (ranked.names.take n).foldl (fun acc ftn => acc.insert ftn) info.selectedTracks

theorem seeded_selectedTracks (r : PropertyRanking) (info : SessionInfo) (n : Nat) :
    (r.seeded info n).selectedTracks = seeds r.rankedTracks info n := by
  unfold seeded seeds
  split <;> rfl

theorem reconcileInGroup_effect (hs : Sorted r.rankedTracks) (hn : 1 ≤ n)
    (hinfo : g.sessions.lookup s = some info) :
    Effect (r.reconcilePublisherInGroup session n g) s
      (if s = session then r.rankedTracks.personal s n else info.selectedTracks)
      (if s = session then delta (seeds r.rankedTracks info n) (r.rankedTracks.personal s n)
        else []) := by
  rw [← seeded_selectedTracks]
  unfold reconcilePublisherInGroup
  by_cases hss : s = session
  · subst hss
    rw [if_pos rfl, if_pos rfl, hinfo]
    refine ⟨⟨_, lookup_insert _, ?_⟩, ?_⟩
    · rw [reconcile_selectedTracks, nowSelected_eq hs hn]
    · rw [heard_reconcile, nowSelected_eq hs hn]
  · rw [if_neg hss, if_neg hss]
    split
    · exact ⟨⟨info, hinfo, rfl⟩, rfl⟩
    · refine ⟨⟨info, ?_, rfl⟩, ?_⟩
      · dsimp only
        rw [lookup_insert_ne hss]
        exact hinfo
      · exact heard_reconcile_other _ _ (Ne.symm hss)

theorem countTrack_extended (r : PropertyRanking) (publisher : SessionRef) (h : ThresholdInv r) :
    ThresholdInv (r.countTrack publisher).updatePublisherExtendedThreshold :=
  ⟨h.selection, h.sorted, h.mem, fun _ _ _ _ hg hs hc => updatePublisherExtendedThreshold_spec hg hs hc⟩

theorem enterTrack_thresholds (h : ThresholdInv r) (ftn : FullTrackName) (value : Nat)
    (publisher : SessionRef) : ThresholdInv (r.enterTrack ftn value publisher) := by
  have h' : ThresholdInv { r with nextSeq := r.nextSeq + 1 } :=
    ⟨h.selection, h.sorted, h.mem, h.extended⟩
  have hc := countTrack_extended _ publisher h'
  exact ⟨hc.selection, hc.sorted, hc.mem, hc.extended⟩

/-- The list a session is reconciled from when `publisher` registers a track. -/
def startsFrom (ranked : RankedTracks) (publisher : SessionRef) (n : Nat) (s : SessionRef)
    (info : SessionInfo) : List FullTrackName :=
  if s = publisher then seeds ranked info n else info.selectedTracks

/-- What a session hears when a track is registered at place `rank`. -/
def registerHeard (ranked : RankedTracks) (ftn : FullTrackName) (publisher : SessionRef)
    (without : RankedTracks) (rank n : Nat) (s : SessionRef) (info : SessionInfo) : List Delivery :=
  (if ranked.publishes s then delta (startsFrom ranked publisher n s info) (ranked.personal s n)
    else if rank < n then [.select ftn] else []) ++
  if rank < n then (boundary without n).toList.map .evict else []

section Combined

variable {ranked : RankedTracks} {publisher : SessionRef} {info₁ : SessionInfo}
  (hpub : ranked.publishes publisher = true)
  (hrem : info₁.selectedTracks = if s = publisher then ranked.personal s n else info.selectedTracks)

include hpub hrem

theorem remembers_reconciled :
    remembers ranked none n s info₁.selectedTracks = remembers ranked none n s info.selectedTracks := by
  unfold remembers
  rw [reconciles_none]
  by_cases hp : ranked.publishes s = true
  · rw [if_pos hp, if_pos hp]
  · rw [if_neg hp, if_neg hp, hrem, if_neg]
    rintro rfl
    exact hp hpub

theorem registerHeard_eq (ftn : FullTrackName) (without : RankedTracks) (rank : Nat) :
    (if s = publisher then delta (seeds ranked info n) (ranked.personal s n) else []) ++
      (if rank < n then
        announced ranked n s info₁.selectedTracks ftn ++ (boundary without n).toList.map .evict
        else corrected ranked none n s info₁.selectedTracks) =
      registerHeard ranked ftn publisher without rank n s info := by
  unfold registerHeard announced corrected startsFrom
  rw [reconciles_none]
  by_cases hs : s = publisher
  · have hp : ranked.publishes s = true := hs ▸ hpub
    rw [if_pos hs] at hrem
    rw [if_pos hs, if_pos hs, if_pos hp, if_pos hp, if_pos hp, hrem, delta_self]
    split <;> simp
  · rw [if_neg hs] at hrem
    rw [if_neg hs, if_neg hs, hrem, nil_append]
    by_cases hp : ranked.publishes s = true
    · simp only [hp, if_true]
      split <;> simp
    · simp only [hp, if_false, Bool.false_eq_true]
      split <;> simp

end Combined

theorem registerTrack_enters {ftn : FullTrackName} {value : Option Nat} {publisher : SessionRef}
    (h : GroupsInv deselected timeout G r) (hnew : r.trackIndexByName.lookup ftn = none) :
    ∃ mid C D key, GroupsInv deselected timeout G mid ∧ mid.topNGroups = r.topNGroups ∧
      r.rankedTracks = C ++ D ∧ mid.rankedTracks = C ++ (key, ⟨ftn, publisher⟩) :: D ∧
      r.orderAfter (.registerTrack ftn value publisher) = mid.rankedTracks ∧
      r.registerTrack ftn value publisher =
        let reconciled := mid.reconcilePublisherInAllGroups publisher
        let registered := reconciled.1.forGroups (reconciled.1.registerInGroup ftn C.length)
        (registered.1, reconciled.2 ++ registered.2) := by
  obtain ⟨hrank, C, D, hCD, hranked⟩ := enterTrack_inserts h.rank hnew (value.getD 0) publisher
  have hentered : GroupsInv deselected timeout G (r.enterTrack ftn (value.getD 0) publisher) :=
    ⟨hrank, h.room, h.idle, h.groups, enterTrack_thresholds h.thresholds ftn (value.getD 0) publisher⟩
  have hrk := getCachedRank_eq hrank hranked
  dsimp only at hrk
  refine ⟨_, C, D, _, hentered.rebuild, rebuild_topNGroups _, hCD, (rebuild_rankedTracks _).trans hranked, ?_, ?_⟩
  · rw [rebuild_rankedTracks]
    rfl
  · unfold registerTrack
    rw [hnew, if_neg (by simp)]
    dsimp only
    rw [getCachedRank_fst, hrk]

theorem registerTrack_groups {mid : PropertyRanking} {publisher : SessionRef} {rank : Nat}
    (h : GroupsInv deselected timeout G mid)
    (hG : ∀ n g sessions, G n g → G' n ((mid.reconcilePublisherInAllGroups publisher).1.registerInGroup ftn rank n
      { g with sessions := sessions }).1) :
    GroupsInv deselected timeout G' ((mid.reconcilePublisherInAllGroups publisher).1.forGroups
      ((mid.reconcilePublisherInAllGroups publisher).1.registerInGroup ftn rank)).1 := by
  have hfirst : GroupsInv deselected timeout (fun n g => ∃ g₀ sessions, g = { g₀ with sessions := sessions } ∧ G n g₀)
      (mid.reconcilePublisherInAllGroups publisher).1 :=
    h.forGroups (fun n g _ => reconcileInGroup_same mid publisher n g) fun n g _ hg => by
      obtain ⟨sessions, heq⟩ := reconcileInGroup_sessions mid publisher n g
      exact ⟨g, sessions, heq, hg⟩
  refine hfirst.forGroups (fun n g _ => registerInGroup_same ftn rank) fun n g _ hg => ?_
  obtain ⟨g₀, sessions, rfl, hg⟩ := hg
  exact hG n g₀ sessions hg

/-- **Registering a new track.** -/
theorem registerTrack_spec (h : RankingInv r) {ftn : FullTrackName} {value : Option Nat}
    {publisher : SessionRef} (hnew : r.trackIndexByName.lookup ftn = none) :
    RankingInv (r.registerTrack ftn value publisher).1 ∧
    ∃ C D key, r.rankedTracks = C ++ D ∧
      (r.registerTrack ftn value publisher).1.rankedTracks = C ++ (key, ⟨ftn, publisher⟩) :: D ∧
      r.orderAfter (.registerTrack ftn value publisher) = C ++ (key, ⟨ftn, publisher⟩) :: D ∧
      (∀ n s, ((r.registerTrack ftn value publisher).1.member n s).isSome → (r.member n s).isSome) ∧
      ∀ n s info, r.member n s = some info →
        SessionStep (r.registerTrack ftn value publisher) n s
          (remembers (C ++ (key, ⟨ftn, publisher⟩) :: D) none n s info.selectedTracks)
          (registerHeard (C ++ (key, ⟨ftn, publisher⟩) :: D) ftn publisher (C ++ D) C.length n s
            info) := by
  obtain ⟨mid, C, D, key, hmid, hgroups, hCD, hranked, horder, hreg⟩ :=
    @registerTrack_enters _ _ _ r ftn value publisher h.groupsInv hnew
  have hsel : ∀ n g sessions, 1 ≤ n ∧ Selection g r.rankedTracks n →
      1 ≤ n ∧ Selection { g with sessions := sessions } (C ++ D) n := by
    intro n g sessions hg
    rw [← hCD]
    exact selection_sessionFree _ n g sessions hg
  rw [hreg]
  refine ⟨?_, C, D, key, hCD, hranked, horder.trans hranked, ?_, ?_⟩
  · refine GroupsInv.rankingInv rfl (registerTrack_groups hmid fun n g sessions hg => ?_)
    obtain ⟨hn, hg⟩ := hsel n g sessions hg
    exact ⟨hn, registerInGroup_selection (hmid.rank.forGroups _) hmid.room hn hranked hg⟩
  · intro n s hs
    have h₁ := member_forGroups (fun n g _ => registerInGroup_same ftn C.length) hs
    have h₂ := member_forGroups (fun n g _ => reconcileInGroup_same mid publisher n g) h₁
    unfold member at h₂ ⊢
    rwa [hgroups] at h₂
  · intro n s info hmem
    obtain ⟨g, hg, hinfo⟩ := member_some hmem
    obtain ⟨sessions, heq⟩ := reconcileInGroup_sessions mid publisher n g
    obtain ⟨hn, hsel⟩ := hsel n g sessions (h.groups n g hg)
    rw [← heq] at hsel
    have he₁ := @reconcileInGroup_effect g info mid n s publisher hmid.rank.sorted hn hinfo
    obtain ⟨info₁, hinfo₁, hrem₁⟩ := he₁.session
    have he₂ := registerInGroup_effect (r := (mid.reconcilePublisherInAllGroups publisher).1)
      (hmid.rank.forGroups _) hmid.room hn hranked hsel hinfo₁
    have hg' : (mid.reconcilePublisherInAllGroups publisher).1.topNGroups.lookup n =
        some (mid.reconcilePublisherInGroup publisher n g).1 := by
      unfold reconcilePublisherInAllGroups
      rw [lookup_forGroups, hgroups, hg]
      rfl
    have hstep₁ : SessionStep (mid.reconcilePublisherInAllGroups publisher) n s _ _ :=
      forGroups_session (by rw [hgroups]; exact hg) he₁
    have hstep₂ := forGroups_session hg' he₂
    have hpub : mid.rankedTracks.publishes publisher = true := by
      rw [hranked, publishes_middle]
      simp
    rw [← hranked]
    obtain ⟨info₂, hinfo₂, hrem₂⟩ := hstep₂.member
    refine ⟨⟨info₂, hinfo₂, hrem₂.trans ?_⟩, ?_⟩
    · exact remembers_reconciled hpub hrem₁
    · rw [heardIn_append, hstep₁.heard, hstep₂.heard]
      exact registerHeard_eq hpub hrem₁ ftn (C ++ D) C.length

end Register

/-! ## 4. Moving a track -/

section Move

theorem registerTrack_known (hi : r.trackIndexByName.lookup ftn = some i) {value : Option Nat}
    {publisher : SessionRef} : r.registerTrack ftn value publisher = (r, []) := by
  unfold registerTrack
  rw [hi]
  rfl

theorem updateSortValue_unmoved {activity : Activity}
    (h : ¬∃ i, r.trackIndexByName.lookup ftn = some i ∧ i.rankIter.value ≠ value) :
    r.updateSortValue ftn value activity = (r, []) := by
  unfold updateSortValue
  cases hi : r.trackIndexByName.lookup ftn with
  | none => rfl
  | some i =>
    dsimp only
    rw [if_pos]
    by_contra hv
    exact h ⟨i, hi, hv⟩

theorem removeTrack_unknown (hi : r.trackIndexByName.lookup ftn = none) :
    r.removeTrack ftn = (r, []) := by
  unfold removeTrack
  rw [hi]

theorem sweepIdle_off (h : r.idleTimeout = 0) (activity : Activity) : r.sweepIdle activity = (r, []) := by
  unfold sweepIdle
  cases activity.getLastActivity with
  | none => rfl
  | some f =>
    dsimp only
    rw [if_pos h]

/-- What a session remembers and hears when a track moves from `oldRank` to `newRank`; `without` is
    the order without that track. -/
inductive MoveHeard (ranked : RankedTracks) (ftn : FullTrackName) (publisher : SessionRef)
    (without : RankedTracks) (oldRank newRank n : Nat) (s : SessionRef)
    (remembered : List FullTrackName) : List FullTrackName → List Delivery → Prop where
  | skipped :
    (oldRank < n ↔ newRank < n) →
    (ranked.publishes s = true → n + ranked.countOf s ≤ oldRank ∧ n + ranked.countOf s ≤ newRank) →
    MoveHeard ranked ftn publisher without oldRank newRank n s remembered remembered []
  | staying :
    (oldRank < n ↔ newRank < n) →
    MoveHeard ranked ftn publisher without oldRank newRank n s remembered
      (remembers ranked (some publisher) n s remembered)
      (corrected ranked (some publisher) n s remembered)
  | entering :
    n ≤ oldRank → newRank < n →
    MoveHeard ranked ftn publisher without oldRank newRank n s remembered
      (remembers ranked (some publisher) n s remembered)
      (corrected ranked (some publisher) n s remembered ++
        (if ranked.publishes s then [] else [.select ftn]) ++ (boundary without n).toList.map .evict)
  | leaving (z : FullTrackName) :
    oldRank < n → n ≤ newRank → boundary without n = some z →
    MoveHeard ranked ftn publisher without oldRank newRank n s remembered
      (remembers ranked none n s remembered) (.evict ftn :: announced ranked n s remembered z)

/-- The ranking right after a track has moved in the order, before the groups are told. -/
structure Moves (r mid : PropertyRanking) (A B C D : RankedTracks) (key newKey : RankKey)
    (entry : RankedEntry) : Prop where
  rank : RankInv mid
  before : r.rankedTracks = A ++ (key, entry) :: B
  after : mid.rankedTracks = C ++ (newKey, entry) :: D
  without : A ++ B = C ++ D
  rest : mid = { r with
    rankedTracks := mid.rankedTracks
    trackIndexByName := mid.trackIndexByName
    rankCacheValid := mid.rankCacheValid }

/-- A track is given another value: the ranking with the track moved, and its new rank. -/
def moveTo (r : PropertyRanking) (ftn : FullTrackName) (i : RankIndex) (value : Nat) (entry : RankedEntry) :
    PropertyRanking × Nat :=
  ((r.getCachedRank ftn).1.moveTrack ftn i.rankIter ⟨value, i.rankIter.arrivalSeq⟩ entry).getCachedRank ftn

theorem updateSortValue_moves (h : RankInv r) (hi : r.trackIndexByName.lookup ftn = some i)
    (value : Nat) :
    ∃ A B C D newKey publisher,
      Moves r (r.moveTo ftn i value ⟨ftn, publisher⟩).1 A B C D i.rankIter newKey ⟨ftn, publisher⟩ ∧
      (r.getCachedRank ftn).1.rankedTracks.at? i.rankIter = some ⟨ftn, publisher⟩ ∧
      (r.getCachedRank ftn).2 = A.length ∧ (r.moveTo ftn i value ⟨ftn, publisher⟩).2 = C.length ∧
      ∀ activity, r.orderAfter (.updateSortValue ftn value activity) =
          (r.moveTo ftn i value ⟨ftn, publisher⟩).1.rankedTracks ∧
        (i.rankIter.value ≠ value → r.updateSortValue ftn value activity =
          let mid := (r.moveTo ftn i value ⟨ftn, publisher⟩).1
          if mid.crossesThreshold A.length C.length then
            let recomputed := mid.forGroups (mid.recomputeGroup ftn A.length C.length)
            let swept := recomputed.1.sweepIdle activity
            (swept.1, recomputed.2 ++ swept.2)
          else (mid, [])) := by
  obtain ⟨publisher, hmem⟩ := h.indexed hi
  obtain ⟨hrank, A, B, C, D, hAB, hCD, hABCD⟩ := @moveTrack_moves _ ftn h.rebuild _ _ hmem value
  rw [rebuild_rankedTracks] at hAB
  have hold := getCachedRank_eq h hAB
  have hnew := getCachedRank_eq hrank hCD
  dsimp only at hold hnew
  have hat : r.rebuildRankCacheIfNeeded.rankedTracks.at? i.rankIter = some ⟨ftn, publisher⟩ :=
    at?_of_mem h.rebuild.sorted hmem
  have hto : r.moveTo ftn i value ⟨ftn, publisher⟩ = ((r.rebuildRankCacheIfNeeded.moveTrack ftn i.rankIter
      ⟨value, i.rankIter.arrivalSeq⟩ ⟨ftn, publisher⟩).rebuildRankCacheIfNeeded, C.length) := by
    unfold moveTo
    rw [getCachedRank_fst r]
    exact Prod.ext (getCachedRank_fst _ _) hnew
  refine ⟨A, B, C, D, ⟨value, i.rankIter.arrivalSeq⟩, publisher, ?_⟩
  rw [hto, getCachedRank_fst r]
  refine ⟨⟨hrank.rebuild, hAB, ?_, hABCD, ?_⟩, hat, hold, rfl, fun activity => ⟨?_, fun hv => ?_⟩⟩
  · rw [rebuild_rankedTracks]
    exact hCD
  · rw [rebuild_eq, moveTrack, rebuild_eq]
  · rw [rebuild_rankedTracks]
    show _ = (r.rebuildRankCacheIfNeeded.rankedTracks.erase i.rankIter).emplace _ _
    rw [rebuild_rankedTracks] at hat ⊢
    unfold orderAfter
    dsimp only
    rw [hi]
    dsimp only
    rw [hat]
  · unfold updateSortValue
    rw [hi]
    dsimp only
    rw [if_neg hv, getCachedRank_fst, hat]
    dsimp only
    rw [getCachedRank_fst, hold, hnew]

section Paths

variable {mid : PropertyRanking} {A B C D : RankedTracks} {key newKey : RankKey} {entry : RankedEntry}
  (hm : Moves r mid A B C D key newKey entry)

include hm

theorem Moves.groupsInv (h : GroupsInv deselected timeout G r) :
    GroupsInv deselected timeout G mid := by
  have hrank := hm.rank
  obtain ⟨h1, h2, h3, h4⟩ := h.thresholds
  rw [hm.rest] at hrank ⊢
  exact ⟨hrank, h.room, h.idle, h.groups, h1, h2, h3, h4⟩

theorem Moves.selection (h : RankingInv r) {g : TopNGroup}
    (hg : mid.topNGroups.lookup n = some g) : 1 ≤ n ∧ Selection g (A ++ (key, entry) :: B) n := by
  rw [← hm.before]
  exact (hm.groupsInv h.groupsInv).groups n g hg

theorem Moves.member : mid.member n s = r.member n s := by
  rw [hm.rest]
  rfl

theorem Moves.slow_groups (h : GroupsInv deselected timeout G r)
    (hG : ∀ n g, G n g → G' n (mid.recomputeGroup entry.ftn A.length C.length n g).1) :
    GroupsInv deselected timeout G' (mid.forGroups (mid.recomputeGroup entry.ftn A.length C.length)).1 :=
  (hm.groupsInv h).forGroups (fun _ _ _ => recomputeGroup_same hm.rank hm.after _ _) fun n g _ hg => hG n g hg

theorem Moves.slow_inv (h : RankingInv r) :
    RankingInv (mid.forGroups (mid.recomputeGroup entry.ftn A.length C.length)).1 := by
  refine GroupsInv.rankingInv rfl (hm.slow_groups h.groupsInv fun n g hg => ⟨hg.1, ?_⟩)
  obtain ⟨hn, hg⟩ := hg
  rw [hm.before] at hg
  exact recomputeGroup_selection hm.rank (hm.groupsInv h.groupsInv).room hn hm.after hm.without hg

theorem Moves.slow_step (h : RankingInv r)
    {info : SessionInfo} (hinfo : r.member n s = some info) :
    ∃ rem ds, MoveHeard mid.rankedTracks entry.ftn entry.publisherRaw (C ++ D) A.length C.length n s
        info.selectedTracks rem ds ∧
      SessionStep (mid.forGroups (mid.recomputeGroup entry.ftn A.length C.length)) n s rem ds := by
  rw [← hm.member] at hinfo
  obtain ⟨g, hg, hinfo⟩ := member_some hinfo
  obtain ⟨hn, hsel⟩ := hm.selection h hg
  have hroom := (hm.groupsInv h.groupsInv).room
  by_cases hA : A.length < n <;> by_cases hC : C.length < n
  · have hstay : A.length < n ↔ C.length < n := ⟨fun _ => hC, fun _ => hA⟩
    exact ⟨_, _, .staying hstay,
      forGroups_session hg (staying_effect hm.rank hn hm.after hstay hinfo)⟩
  · obtain ⟨z, hz, he⟩ := leaving_effect hm.rank hroom hn hm.after hm.without hsel hA
      (Nat.le_of_not_lt hC) hinfo
    exact ⟨_, _, .leaving z hA (Nat.le_of_not_lt hC) hz, forGroups_session hg he⟩
  · exact ⟨_, _, .entering (Nat.le_of_not_lt hA) hC, forGroups_session hg
      (entering_effect hm.rank hroom hn hm.after hm.without hsel (Nat.le_of_not_lt hA) hC hinfo)⟩
  · have hstay : A.length < n ↔ C.length < n := ⟨fun h => absurd h hA, fun h => absurd h hC⟩
    exact ⟨_, _, .staying hstay,
      forGroups_session hg (staying_effect hm.rank hn hm.after hstay hinfo)⟩

theorem Moves.fast_inv (h : RankingInv r)
    (hfast : mid.crossesThreshold A.length C.length = false) : RankingInv mid := by
  obtain ⟨-, hroom, hidle, -, hthr⟩ := hm.groupsInv h.groupsInv
  refine ⟨hm.rank, hroom, hidle, fun n g hg => ?_, hthr⟩
  obtain ⟨hn, hsel⟩ := hm.selection h hg
  have hmem : n ∈ mid.topNGroups := mem_of_lookup hg
  exact ⟨hn, selection_stays hm.after hm.without hsel (not_crosses_stays hthr hfast hmem)⟩

section

variable (h : GroupsInv deselected timeout G r) (hfast : mid.crossesThreshold A.length C.length = false)

include h hfast

/-- On the fast path a track stays on one side of every boundary, and is outside the window of every session that
    publishes. -/
theorem Moves.fast_windows {g : TopNGroup} (hg : mid.topNGroups.lookup n = some g) :
    (A.length < n ↔ C.length < n) ∧ ∀ s ∈ g.sessions, mid.rankedTracks.publishes s = true →
      n + mid.rankedTracks.countOf s ≤ A.length ∧ n + mid.rankedTracks.countOf s ≤ C.length := by
  have hthr := (hm.groupsInv h).thresholds
  refine ⟨not_crosses_stays hthr hfast (mem_of_lookup hg), fun s hs hp => ?_⟩
  have hcount := hm.rank.counts s
  rw [if_neg fun h0 => by rw [countOf_eq_zero.mp h0] at hp; cases hp] at hcount
  exact not_crosses_window hthr hfast hg hs hcount

theorem Moves.fast_step {info : SessionInfo} (hinfo : r.member n s = some info) :
    MoveHeard mid.rankedTracks entry.ftn entry.publisherRaw (C ++ D) A.length C.length n s
        info.selectedTracks info.selectedTracks [] ∧
      SessionStep (mid, []) n s info.selectedTracks [] := by
  rw [← hm.member] at hinfo
  obtain ⟨g, hg, hs⟩ := member_some hinfo
  obtain ⟨hstay, hwin⟩ := hm.fast_windows h hfast hg
  exact ⟨.skipped hstay (hwin s (mem_of_lookup hs)), ⟨info, hinfo, rfl⟩, rfl⟩

end

end Paths

/-- **Changing the value of a track.** -/
theorem updateSortValue_spec (h : RankingInv r) (hi : r.trackIndexByName.lookup ftn = some i)
    (hv : i.rankIter.value ≠ value) (activity : Activity) :
    RankingInv (r.updateSortValue ftn value activity).1 ∧
    ∃ A B C D key newKey publisher, r.rankedTracks = A ++ (key, ⟨ftn, publisher⟩) :: B ∧
      (r.updateSortValue ftn value activity).1.rankedTracks =
        C ++ (newKey, ⟨ftn, publisher⟩) :: D ∧
      r.orderAfter (.updateSortValue ftn value activity) = C ++ (newKey, ⟨ftn, publisher⟩) :: D ∧
      A ++ B = C ++ D ∧
      (∀ n s, ((r.updateSortValue ftn value activity).1.member n s).isSome → (r.member n s).isSome) ∧
      ∀ n s info, r.member n s = some info → ∃ rem ds,
        MoveHeard (C ++ (newKey, ⟨ftn, publisher⟩) :: D) ftn publisher (C ++ D) A.length C.length
          n s info.selectedTracks rem ds ∧
        SessionStep (r.updateSortValue ftn value activity) n s rem ds := by
  obtain ⟨A, B, C, D, newKey, publisher, hm, -, -, -, hact⟩ := updateSortValue_moves h.rank hi value
  obtain ⟨horder, hupd⟩ := hact activity
  replace hupd := hupd hv
  generalize (r.moveTo ftn i value ⟨ftn, publisher⟩).1 = mid at hm horder hupd
  rw [hm.after] at horder
  by_cases hcross : mid.crossesThreshold A.length C.length = true
  · have hslow : r.updateSortValue ftn value activity =
        mid.forGroups (mid.recomputeGroup ftn A.length C.length) := by
      rw [hupd, if_pos hcross]
      dsimp only
      rw [sweepIdle_off (r := (mid.forGroups (mid.recomputeGroup ftn A.length C.length)).1)
          (hm.groupsInv h.groupsInv).idle,
        append_nil]
    have hinv := hm.slow_inv h
    rw [← hslow] at hinv
    refine ⟨hinv, ?_⟩
    rw [hslow]
    refine ⟨A, B, C, D, _, newKey, publisher, hm.before, hm.after, horder, hm.without, ?_, ?_⟩
    · intro n s hs
      rw [← hm.member]
      exact member_forGroups (fun n g _ => recomputeGroup_same hm.rank hm.after _ _) hs
    · intro n s info hinfo
      rw [← hm.after]
      exact hm.slow_step h hinfo
  · rw [if_neg hcross] at hupd
    have hfast : mid.crossesThreshold A.length C.length = false := Bool.eq_false_iff.mpr hcross
    rw [hupd]
    refine ⟨hm.fast_inv h hfast, A, B, C, D, _, newKey, publisher, hm.before, hm.after, horder, hm.without,
      fun n s hs => ?_, fun n s info hinfo => ?_⟩
    · rw [← hm.member]
      exact hs
    · rw [← hm.after]
      exact ⟨_, _, hm.fast_step h.groupsInv hfast hinfo⟩

end Move

/-! ## 5. Removing a track -/

section Remove

/-- What a session remembers and hears when the track at place `rank` is removed. -/
inductive RemoveHeard (ranked : RankedTracks) (rank n : Nat) (s : SessionRef)
    (remembered : List FullTrackName) : List FullTrackName → List Delivery → Prop where
  | replaced (z : FullTrackName) :
    rank < n → boundary ranked n = some z →
    RemoveHeard ranked rank n s remembered (remembers ranked none n s remembered)
      (announced ranked n s remembered z)
  | quiet :
    (rank < n → boundary ranked n = none) →
    RemoveHeard ranked rank n s remembered remembered []

theorem dropTrack_thresholds (h : ThresholdInv r) (ftn : FullTrackName) (key : RankKey) :
    ThresholdInv (r.dropTrack ftn key) := by
  have huncount : ∀ p, ThresholdInv (r.uncountTrack p) := by
    intro p
    unfold uncountTrack
    split
    · exact ⟨h.selection, h.sorted, h.mem,
        fun _ _ _ _ hg hs hc => updatePublisherExtendedThreshold_spec hg hs hc⟩
    · exact h
  unfold dropTrack
  split
  · obtain ⟨h1, h2, h3, h4⟩ := huncount _
    exact ⟨h1, h2, h3, h4⟩
  · exact ⟨h.selection, h.sorted, h.mem, h.extended⟩

theorem dropTrack_rest (r : PropertyRanking) (ftn : FullTrackName) (key : RankKey) :
    (r.dropTrack ftn key).topNGroups = r.topNGroups ∧
      (r.dropTrack ftn key).maxDeselected = r.maxDeselected ∧
      (r.dropTrack ftn key).idleTimeout = r.idleTimeout := by
  unfold dropTrack uncountTrack
  split
  · split <;> exact ⟨rfl, rfl, rfl⟩
  · exact ⟨rfl, rfl, rfl⟩

theorem removeTrack_drops (h : GroupsInv deselected timeout G r)
    (hi : r.trackIndexByName.lookup ftn = some i) :
    ∃ mid A B key publisher, GroupsInv deselected timeout G mid ∧ mid.topNGroups = r.topNGroups ∧
      r.rankedTracks = A ++ (key, ⟨ftn, publisher⟩) :: B ∧ mid.rankedTracks = A ++ B ∧
      r.removeTrack ftn = mid.forGroups fun _ g => mid.removeInGroup ftn g := by
  obtain ⟨publisher, hmem⟩ := h.rank.indexed hi
  obtain ⟨hrank, A, B, hAB, hranked⟩ := dropTrack_removes h.rank.rebuild hmem
  rw [rebuild_rankedTracks] at hAB
  obtain ⟨hgroups, hroom, hidle⟩ := dropTrack_rest r.rebuildRankCacheIfNeeded ftn i.rankIter
  refine ⟨_, A, B, _, publisher, ⟨hrank, hroom.trans h.rebuild.room, hidle.trans h.rebuild.idle, fun n g hg => ?_,
    dropTrack_thresholds h.thresholds.rebuild ftn i.rankIter⟩, hgroups.trans (rebuild_topNGroups r), hAB, hranked, ?_⟩
  · rw [hgroups] at hg
    exact h.rebuild.groups n g hg
  · unfold removeTrack
    rw [hi]
    dsimp only
    rw [getCachedRank_fst]

/-- **Removing a track.** -/
theorem removeTrack_spec (h : RankingInv r) (hi : r.trackIndexByName.lookup ftn = some i) :
    RankingInv (r.removeTrack ftn).1 ∧
    ∃ A B key publisher, r.rankedTracks = A ++ (key, ⟨ftn, publisher⟩) :: B ∧
      (r.removeTrack ftn).1.rankedTracks = A ++ B ∧
      (∀ n s, ((r.removeTrack ftn).1.member n s).isSome → (r.member n s).isSome) ∧
      ∀ n s info, r.member n s = some info → ∃ rem ds,
        RemoveHeard (A ++ B) A.length n s info.selectedTracks rem ds ∧
          SessionStep (r.removeTrack ftn) n s rem ds := by
  obtain ⟨mid, A, B, key, publisher, hmid, hgroups, hAB, hranked, hrem⟩ := removeTrack_drops h.groupsInv hi
  rw [hrem]
  have hnames := h.rank.names_nodup
  rw [hAB, names_middle_nodup] at hnames
  have hsel : ∀ n g, 1 ≤ n ∧ Selection g r.rankedTracks n →
      1 ≤ n ∧ Selection g (A ++ (key, ⟨ftn, publisher⟩) :: B) n := by
    intro n g hg
    rwa [hAB] at hg
  have hmember : ∀ n s, mid.member n s = r.member n s := by
    intro n s
    unfold member
    rw [hgroups]
  refine ⟨?_, A, B, key, publisher, hAB, hranked, ?_, ?_⟩
  · refine GroupsInv.rankingInv rfl (hmid.forGroups (fun _ _ _ => removeInGroup_same ftn) fun n g _ hg => ?_)
    obtain ⟨hn, hg⟩ := hsel n g hg
    exact ⟨hn, removeInGroup_selection hmid.rank hn hranked hg hnames.1⟩
  · intro n s hs
    rw [← hmember]
    exact member_forGroups (fun n g _ => removeInGroup_same ftn) hs
  · intro n s info hinfo
    rw [← hmember] at hinfo
    obtain ⟨g, hg, hs⟩ := member_some hinfo
    obtain ⟨hn, hsel⟩ := hsel n g (hmid.groups n g hg)
    by_cases hA : A.length < n → boundary (A ++ B) n = none
    · exact ⟨_, _, .quiet hA, forGroups_session hg
        (removeInGroup_quiet hmid.rank hranked hsel hnames.1 hA hs)⟩
    · obtain ⟨hA, hz⟩ := Classical.not_imp.mp hA
      obtain ⟨z, hz⟩ := Option.ne_none_iff_exists'.mp hz
      have he := removeInGroup_replaced hmid.rank hn hranked hsel hnames.1 hA hz hs
      rw [hranked] at he
      exact ⟨_, _, .replaced z hA hz, forGroups_session hg he⟩

end Remove

/-! ## 6. Sessions -/

section Sessions

theorem member_setSession (hg : r.topNGroups.lookup n = some g) (n' : Nat) (s' : SessionRef) :
    (r.setSession n g s info).member n' s' =
      if n' = n ∧ s' = s then some info else r.member n' s' := by
  unfold member setSession
  dsimp only
  by_cases hn : n' = n
  · subst hn
    rw [lookup_insert, hg, Option.bind_some, Option.bind_some]
    by_cases hs : s' = s
    · subst hs
      rw [lookup_insert, if_pos ⟨rfl, rfl⟩]
    · rw [lookup_insert_ne hs, if_neg fun h => hs h.2]
  · rw [lookup_insert_ne hn, if_neg fun h => hn h.1]

/-- A group is replaced, with a window `x` that covers every session that publishes. -/
theorem GroupsInv.insertGroup {g' : TopNGroup} (h : GroupsInv deselected timeout G r)
    (hn : n ∈ r.topNGroups) (hG : G n g')
    (hold : ∀ n' g s c, r.topNGroups.lookup n' = some g → s ∈ g.sessions →
      r.publisherTrackCount.lookup s = some c → n' + c ≤ x)
    (hwin : ∀ s c, s ∈ g'.sessions → r.publisherTrackCount.lookup s = some c → n + c ≤ x) :
    GroupsInv deselected timeout G
      { r with topNGroups := r.topNGroups.insert n g', publisherExtendedThreshold := x } := by
  have hkeys : ∀ n' ∈ r.topNGroups.insert n g', n' ∈ r.topNGroups := by
    intro n' hn'
    rcases (mem_insert _).mp hn' with rfl | hn'
    · exact hn
    · exact hn'
  refine ⟨h.rank.same ⟨rfl, rfl, rfl, rfl, rfl⟩, h.room, h.idle, fun n' g hg => ?_,
    fun n' hn' => h.thresholds.selection n' (hkeys n' hn'), h.thresholds.sorted,
    fun n' hn' => h.thresholds.mem n' (hkeys n' hn'), fun n' g s c hg hs hc => ?_⟩
  · rcases lookup_insert_cases hg with ⟨rfl, rfl⟩ | ⟨-, hg⟩
    · exact hG
    · exact h.groups n' g hg
  · rcases lookup_insert_cases hg with ⟨rfl, rfl⟩ | ⟨-, hg⟩
    · exact hwin s c hs hc
    · exact hold n' g s c hg hs hc

theorem GroupsInv.setSession (hfree : SessionFree G) (h : GroupsInv deselected timeout G r)
    (hg : r.topNGroups.lookup n = some g)
    (hold : ∀ n' g' s' c, r.topNGroups.lookup n' = some g' → s' ∈ g'.sessions →
      r.publisherTrackCount.lookup s' = some c → n' + c ≤ x)
    (hwin : ∀ c, r.publisherTrackCount.lookup s = some c → n + c ≤ x) :
    GroupsInv deselected timeout G { r.setSession n g s info with publisherExtendedThreshold := x } := by
  refine h.insertGroup (mem_of_lookup hg) (hfree _ _ _ (h.groups n g hg)) hold fun s' c hs' hc => ?_
  rcases (mem_insert _).mp hs' with rfl | hs'
  · exact hwin c hc
  · exact hold n g s' c hg hs' hc

theorem setSession_again (r : PropertyRanking) (n : Nat) (g : TopNGroup) (s : SessionRef)
    (info info' : SessionInfo) :
    (r.setSession n g s info).updatePublisherExtendedThreshold.setSession n g s info' =
      { r.setSession n g s info' with
        publisherExtendedThreshold :=
          (r.setSession n g s info).updatePublisherExtendedThreshold.publisherExtendedThreshold } := by
  unfold setSession updatePublisherExtendedThreshold
  dsimp only
  rw [insert_insert]

theorem GroupsInv.setPublisher (hfree : SessionFree G) (h : GroupsInv deselected timeout G r)
    (hg : r.topNGroups.lookup n = some g) (info' : SessionInfo) : GroupsInv deselected timeout G
      ((r.setSession n g s info).updatePublisherExtendedThreshold.setSession n g s info') := by
  have hset : ∀ n' g' s', r.topNGroups.lookup n' = some g' → (n' = n ∧ s' = s) ∨ s' ∈ g'.sessions →
      ∃ g'', (r.setSession n g s info).topNGroups.lookup n' = some g'' ∧ s' ∈ g''.sessions := by
    intro n' g' s' hg' hs'
    by_cases hn : n' = n
    · subst hn
      rw [hg] at hg'
      cases hg'
      refine ⟨_, lookup_insert _, (mem_insert _).mpr ?_⟩
      exact hs'.imp_left And.right
    · refine ⟨g', (lookup_insert_ne hn).trans hg', ?_⟩
      exact hs'.resolve_left fun h => hn h.1
  rw [setSession_again]
  refine h.setSession hfree hg ?_ ?_
  · intro n' g' s' c hg' hs' hc
    obtain ⟨g'', hg'', hs''⟩ := hset n' g' s' hg' (Or.inr hs')
    exact updatePublisherExtendedThreshold_spec hg'' hs'' hc
  · intro c hc
    obtain ⟨g'', hg'', hs''⟩ := hset n g s hg (Or.inl ⟨rfl, rfl⟩)
    exact updatePublisherExtendedThreshold_spec hg'' hs'' hc

theorem foldl_insert_selected (l : List FullTrackName) {states : AList fun _ : FullTrackName => TrackState}
    {S : Set FullTrackName} (h : Selected states S) :
    Selected (l.foldl (fun states ftn => states.insert ftn .selected) states) {t | t ∈ l ∨ t ∈ S} := by
  induction l generalizing states S with
  | nil => exact h.congr fun t => by simp
  | cons x l ih =>
    refine (ih (h.insert x)).congr fun t => ?_
    simp only [Set.mem_ofPred_eq, mem_cons]
    tauto

theorem newGroup_selection (r : PropertyRanking) (n : Nat) :
    Selection (r.newGroup n) r.rankedTracks n where
  size := rfl
  queue := rfl
  states := by
    have hempty : Selected (∅ : AList fun _ : FullTrackName => TrackState) ∅ :=
      ⟨fun _ h => absurd h (Set.notMem_empty _), fun _ _ => lookup_empty _⟩
    exact (foldl_insert_selected _ hempty).congr fun t => by simp

theorem getOrCreate_groups (h : GroupsInv deselected timeout G r) (hnew : G n (r.newGroup n)) :
    GroupsInv deselected timeout G (r.getOrCreateTopNGroup n).1 := by
  unfold getOrCreateTopNGroup
  cases hg : r.topNGroups.lookup n with
  | some g => exact h
  | none =>
    obtain ⟨h1, h2, h3⟩ := updateSelectionThreshold_spec
      { r with topNGroups := r.topNGroups.insert n (r.newGroup n) }
    refine ⟨h.rank.same ⟨rfl, rfl, rfl, rfl, rfl⟩, h.room, h.idle, fun n' g' hg' => ?_, h1, h2, h3,
      fun n' g' s' c hg' hs' hc => ?_⟩
    · rcases lookup_insert_cases hg' with ⟨rfl, rfl⟩ | ⟨-, hg'⟩
      · exact hnew
      · exact h.groups n' g' hg'
    · rcases lookup_insert_cases hg' with ⟨rfl, rfl⟩ | ⟨-, hg'⟩
      · exact absurd hs' (notMem_empty _)
      · exact h.thresholds.extended n' g' s' c hg' hs' hc

theorem getOrCreate_spec (r : PropertyRanking) (n : Nat) :
    (r.getOrCreateTopNGroup n).1.topNGroups.lookup n = some (r.getOrCreateTopNGroup n).2 ∧
      SameOrder r (r.getOrCreateTopNGroup n).1 ∧
      ∀ n' s', (r.getOrCreateTopNGroup n).1.member n' s' = r.member n' s' := by
  unfold getOrCreateTopNGroup
  cases hg : r.topNGroups.lookup n with
  | some g => exact ⟨hg, .refl r, fun _ _ => rfl⟩
  | none =>
    refine ⟨lookup_insert _, ⟨rfl, rfl, rfl, rfl, rfl⟩, fun n' s' => ?_⟩
    show ((r.topNGroups.insert n (r.newGroup n)).lookup n').bind _ = _
    unfold member
    by_cases hne : n' = n
    · rw [hne, lookup_insert, hg]
      rfl
    · rw [lookup_insert_ne hne]

theorem addSession_sameOrder (r : PropertyRanking) (maxSelected : Nat) (session : SessionRef) (forward : Bool) :
    SameOrder r (r.addSessionToTopNGroup maxSelected session forward).1 := by
  refine (getOrCreate_spec r maxSelected).2.1.trans ?_
  unfold addSessionToTopNGroup
  generalize r.getOrCreateTopNGroup maxSelected = created
  dsimp only
  split <;> exact ⟨rfl, rfl, rfl, rfl, rfl⟩

theorem addSession_groups (hfree : SessionFree G) (h : GroupsInv deselected timeout G r)
    (hnew : G n (r.newGroup n)) (forward : Bool) :
    GroupsInv deselected timeout G (r.addSessionToTopNGroup n s forward).1 := by
  have hcreated := getOrCreate_groups h hnew
  have hg := (getOrCreate_spec r n).1
  unfold addSessionToTopNGroup
  dsimp only
  split
  · exact hcreated.setPublisher hfree hg _
  · rename_i hviewer
    refine hcreated.setSession hfree hg hcreated.thresholds.extended fun c hc => absurd ?_ hviewer
    show ((r.getOrCreateTopNGroup n).1.publisherTrackCount.lookup s).isSome = true
    rw [hc]
    rfl

theorem heardIn_other {n' : Nat} {s' : SessionRef} (hne : ¬(n' = n ∧ s' = s)) {cbs : List Callback}
    (hcbs : s' ≠ s → heard s' cbs = []) : heardIn n' s' (cbs.map (n, ·)) = [] := by
  rw [heardIn_tagged]
  split
  · rename_i hn
    exact hcbs fun hs => hne ⟨hn.symm, hs⟩
  · rfl

/-- **A session joins a group.** -/
theorem addSession_spec (h : RankingInv r) (hn : 1 ≤ n) (forward : Bool) :
    RankingInv (r.addSessionToTopNGroup n s forward).1 ∧
      (r.addSessionToTopNGroup n s forward).1.rankedTracks = r.rankedTracks ∧
      SessionStep (r.addSessionToTopNGroup n s forward) n s
        (if r.rankedTracks.publishes s then r.rankedTracks.personal s n else [])
        (if r.rankedTracks.publishes s then delta [] (r.rankedTracks.personal s n)
          else (r.rankedTracks.names.take n).map .select) ∧
      ∀ n' s', ¬(n' = n ∧ s' = s) →
        (r.addSessionToTopNGroup n s forward).1.member n' s' = r.member n' s' ∧
          heardIn n' s' (r.addSessionToTopNGroup n s forward).2 = [] := by
  have hsame := (addSession_sameOrder r n s forward).rankedTracks
  refine ⟨(addSession_groups (selection_sessionFree _) h.groupsInv ⟨hn, newGroup_selection r n⟩ forward).rankingInv
    hsame, hsame, ?_⟩
  obtain ⟨hg, horder, hmember⟩ := getOrCreate_spec r n
  generalize hc : r.getOrCreateTopNGroup n = created at *
  obtain ⟨r₀, g⟩ := created
  dsimp only at hg horder hmember
  have hranked := horder.rankedTracks
  have hpub : r₀.isPublisher s = r.rankedTracks.publishes s := by
    rw [(h.rank.same horder).isPublisher_eq, hranked]
  have hadd : r.addSessionToTopNGroup n s forward =
      if r.rankedTracks.publishes s then
        let r₁ := (r₀.setSession n g s { forward := forward }).updatePublisherExtendedThreshold
        let reconciled := r₁.reconcilePublisherSelection { forward := forward } n s
        (r₁.setSession n g s reconciled.1, reconciled.2.map (n, ·))
      else
        (r₀.setSession n g s { forward := forward },
          (r₀.rankedTracks.names.take n).map fun ftn => (n, .onSelected ftn s forward)) := by
    unfold addSessionToTopNGroup
    rw [hc, ← hpub]
    rfl
  rw [hadd]
  by_cases hp : r.rankedTracks.publishes s = true
  · rw [if_pos hp, if_pos hp, if_pos hp]
    dsimp only
    generalize hr₁ : (r₀.setSession n g s { forward := forward }).updatePublisherExtendedThreshold = r₁
    have hmem : ∀ info n' s', (r₁.setSession n g s info).member n' s' =
        if n' = n ∧ s' = s then some info else r₀.member n' s' := by
      intro info n' s'
      rw [← hr₁, setSession_again]
      exact member_setSession hg n' s'
    have hranked₁ : r₁.rankedTracks = r.rankedTracks := by
      rw [← hr₁]
      exact hranked
    have hsorted : Sorted r₁.rankedTracks := by
      rw [hranked₁]
      exact h.rank.sorted
    refine ⟨⟨⟨_, (hmem _ n s).trans (if_pos ⟨rfl, rfl⟩), ?_⟩, ?_⟩, fun n' s' hne => ⟨?_, ?_⟩⟩
    · rw [reconcile_selectedTracks, nowSelected_eq hsorted hn, hranked₁]
    · rw [heardIn_tagged, if_pos rfl, heard_reconcile, nowSelected_eq hsorted hn, hranked₁]
    · rw [hmem, if_neg hne, hmember]
    · exact heardIn_other hne fun hs => heard_reconcile_other _ _ (Ne.symm hs)
  · rw [if_neg hp, if_neg hp, if_neg hp]
    have hmem : ∀ n' s', (r₀.setSession n g s { forward := forward }).member n' s' =
        if n' = n ∧ s' = s then some { forward := forward } else r₀.member n' s' :=
      fun n' s' => member_setSession hg n' s'
    have hcbs : ((r₀.rankedTracks.names.take n).map fun ftn => (n, Callback.onSelected ftn s forward)) =
        ((r₀.rankedTracks.names.take n).map (Callback.onSelected · s forward)).map (n, ·) := by
      rw [map_map]
      rfl
    refine ⟨⟨⟨_, (hmem n s).trans (if_pos ⟨rfl, rfl⟩), rfl⟩, ?_⟩, fun n' s' hne => ⟨?_, ?_⟩⟩
    · dsimp only
      rw [hcbs, heardIn_tagged, if_pos rfl, heard_onSelected, if_pos rfl, hranked]
    · rw [hmem, if_neg hne, hmember]
    · dsimp only
      rw [hcbs]
      refine heardIn_other hne fun hs => ?_
      rw [heard_onSelected, if_neg (Ne.symm hs)]

theorem GroupsInv.updateExtended (h : GroupsInv deselected timeout G r) :
    GroupsInv deselected timeout G r.updatePublisherExtendedThreshold :=
  ⟨h.rank.same ⟨rfl, rfl, rfl, rfl, rfl⟩, h.room, h.idle, h.groups, h.thresholds.selection, h.thresholds.sorted,
    h.thresholds.mem, fun _ _ _ _ hg hs hc => updatePublisherExtendedThreshold_spec hg hs hc⟩

theorem GroupsInv.removeGroup (h : GroupsInv deselected timeout G r) :
    GroupsInv deselected timeout G (r.removeTopNGroup n) := by
  obtain ⟨h1, h2, h3⟩ :=
    updateSelectionThreshold_spec { r with topNGroups := r.topNGroups.erase n }
  exact ⟨h.rank.same ⟨rfl, rfl, rfl, rfl, rfl⟩, h.room, h.idle,
    fun n' g' hg' => h.groups n' g' (lookup_erase_iff.mp hg').2, h1, h2, h3,
    fun n' g' s' c hg' hs' hc => h.thresholds.extended n' g' s' c (lookup_erase_iff.mp hg').2 hs' hc⟩

theorem member_eraseSession (hg : r.topNGroups.lookup n = some g) {n' : Nat} {s' : SessionRef}
    (hm : member { r with
      topNGroups := r.topNGroups.insert n { g with sessions := g.sessions.erase s } } n' s' = some info) :
    r.member n' s' = some info := by
  obtain ⟨g', hg', hs'⟩ := member_some hm
  dsimp only at hg'
  unfold member
  by_cases hn : n' = n
  · subst hn
    rw [lookup_insert, Option.some.injEq] at hg'
    rw [← hg'] at hs'
    dsimp only at hs'
    by_cases hs : s' = s
    · rw [hs, lookup_erase] at hs'
      cases hs'
    · rw [lookup_erase_ne hs] at hs'
      rw [hg]
      exact hs'
  · rw [lookup_insert_ne hn] at hg'
    rw [hg']
    exact hs'

theorem removeSession_groups (hfree : SessionFree G) (h : GroupsInv deselected timeout G r) :
    GroupsInv deselected timeout G (r.removeSessionFromTopNGroup n s) := by
  unfold removeSessionFromTopNGroup
  cases hg : r.topNGroups.lookup n with
  | none => exact h
  | some g =>
    have herased : GroupsInv deselected timeout G
        { r with topNGroups := r.topNGroups.insert n { g with sessions := g.sessions.erase s } } :=
      h.insertGroup (mem_of_lookup hg) (hfree _ _ _ (h.groups n g hg)) h.thresholds.extended
        fun s' c hs' hc => h.thresholds.extended n g s' c hg (mem_erase.mp hs').2 hc
    dsimp only
    split
    · split
      · exact herased.removeGroup.updateExtended
      · exact herased.updateExtended
    · split
      · exact herased.removeGroup
      · exact herased

theorem removeSession_sameOrder (r : PropertyRanking) (maxSelected : Nat) (session : SessionRef) :
    SameOrder r (r.removeSessionFromTopNGroup maxSelected session) := by
  unfold removeSessionFromTopNGroup
  split
  · exact .refl r
  · dsimp only
    split <;> split <;> exact ⟨rfl, rfl, rfl, rfl, rfl⟩

/-- **A session leaves a group.** -/
theorem removeSession_spec (h : RankingInv r) :
    RankingInv (r.removeSessionFromTopNGroup n s) ∧
      (r.removeSessionFromTopNGroup n s).rankedTracks = r.rankedTracks ∧
      ∀ n' s' info, (r.removeSessionFromTopNGroup n s).member n' s' = some info →
        r.member n' s' = some info := by
  have hsame := (removeSession_sameOrder r n s).rankedTracks
  refine ⟨(removeSession_groups (selection_sessionFree _) h.groupsInv).rankingInv hsame, hsame, ?_⟩
  unfold removeSessionFromTopNGroup
  cases hg : r.topNGroups.lookup n with
  | none => exact fun _ _ _ hm => hm
  | some g =>
    dsimp only
    -- the group goes with its last session
    have hleft : ∀ n' s' info, member
        { r with topNGroups := (r.topNGroups.insert n { g with sessions := g.sessions.erase s }).erase n } n' s' =
          some info → r.member n' s' = some info := by
      intro n' s' info hm
      obtain ⟨g', hg', hs'⟩ := member_some hm
      refine @member_eraseSession g info r n s hg n' s' ?_
      unfold member
      rw [(lookup_erase_iff.mp hg').2]
      exact hs'
    intro n' s' info hm
    split at hm
    · split at hm
      · exact hleft n' s' info hm
      · exact member_eraseSession hg hm
    · split at hm
      · exact hleft n' s' info hm
      · exact member_eraseSession hg hm

theorem updateForward_groups (hfree : SessionFree G) (h : GroupsInv deselected timeout G r) (forward : Bool) :
    GroupsInv deselected timeout G (r.updateSessionForward n s forward) := by
  unfold updateSessionForward
  split
  · exact h
  · rename_i g hg
    split
    · exact h
    · rename_i info hs
      exact h.setSession hfree hg h.thresholds.extended
        fun c hc => h.thresholds.extended n g s c hg (mem_of_lookup hs) hc

/-- **The forward flag of a session changes.** -/
theorem updateForward_spec (h : RankingInv r) (forward : Bool) :
    RankingInv (r.updateSessionForward n s forward) ∧
      (r.updateSessionForward n s forward).rankedTracks = r.rankedTracks ∧
      ∀ n' s' info, (r.updateSessionForward n s forward).member n' s' = some info →
        ∃ info₀, r.member n' s' = some info₀ ∧ info₀.selectedTracks = info.selectedTracks := by
  suffices hrest : _ ∧ _ from
    ⟨(updateForward_groups (selection_sessionFree _) h.groupsInv forward).rankingInv hrest.1, hrest⟩
  unfold updateSessionForward
  cases hg : r.topNGroups.lookup n with
  | none => exact ⟨rfl, fun _ _ info hm => ⟨info, hm, rfl⟩⟩
  | some g =>
    dsimp only
    cases hs : g.sessions.lookup s with
    | none => exact ⟨rfl, fun _ _ info hm => ⟨info, hm, rfl⟩⟩
    | some info₀ =>
      dsimp only
      refine ⟨rfl, fun n' s' info hm => ?_⟩
      rw [member_setSession hg] at hm
      split at hm
      · rename_i heq
        cases hm
        refine ⟨info₀, ?_, rfl⟩
        unfold member
        rw [heq.1, heq.2, hg]
        exact hs
      · exact ⟨info, hm, rfl⟩

end Sessions

/-! ## 7. Any settings -/

section Settings

theorem sweepIdle_groups (h : GroupsInv deselected timeout G r)
    (hG : ∀ mid : PropertyRanking, mid.maxDeselected = deselected → mid.rankedTracks = r.rankedTracks →
      ∀ now getLastActivity n g, G n g → G n (mid.sweepGroup now getLastActivity (selectedTracks g) g).1)
    (activity : Activity) : GroupsInv deselected timeout G (r.sweepIdle activity).1 := by
  unfold sweepIdle
  split
  · exact h
  · split
    · exact h
    · split
      · exact h
      · have hswept : GroupsInv deselected timeout G { r with lastSweepTime := some activity.now } :=
          ⟨h.rank.same ⟨rfl, rfl, rfl, rfl, rfl⟩, h.room, h.idle, h.groups, h.thresholds.selection,
            h.thresholds.sorted, h.thresholds.mem, h.thresholds.extended⟩
        exact hswept.forGroups (fun n g _ => sweepGroup_same _ _ _)
          fun n g _ hg => hG _ hswept.room rfl _ _ n g hg

/-- **Every operation keeps the order and the thresholds**, whatever the settings are. -/
theorem step_groups (h : GroupsInv deselected timeout (fun _ _ => True) r) (op : Op) :
    GroupsInv deselected timeout (fun _ _ => True) (r.step op).1 := by
  cases op with
  | registerTrack ftn value publisher =>
    cases hnew : r.trackIndexByName.lookup ftn with
    | some i =>
      rw [step, registerTrack_known hnew]
      exact h
    | none =>
      obtain ⟨mid, C, D, key, hmid, -, -, -, -, hreg⟩ := @registerTrack_enters _ _ _ r ftn value publisher h hnew
      simp only [step, hreg]
      exact registerTrack_groups hmid fun _ _ _ _ => trivial
  | updateSortValue ftn value activity =>
    by_cases hmove : ∃ i, r.trackIndexByName.lookup ftn = some i ∧ i.rankIter.value ≠ value
    · obtain ⟨i, hi, hv⟩ := hmove
      obtain ⟨A, B, C, D, newKey, publisher, hm, -, -, -, hact⟩ := updateSortValue_moves h.rank hi value
      simp only [step, (hact activity).2 hv]
      split
      · exact sweepIdle_groups (hm.slow_groups h fun _ _ _ => trivial) (fun _ _ _ _ _ _ _ _ => trivial) activity
      · exact hm.groupsInv h
    · rw [step, updateSortValue_unmoved hmove]
      exact h
  | removeTrack ftn =>
    cases hi : r.trackIndexByName.lookup ftn with
    | none =>
      rw [step, removeTrack_unknown hi]
      exact h
    | some i =>
      obtain ⟨mid, A, B, key, publisher, hmid, -, -, -, hrem⟩ := removeTrack_drops h hi
      simp only [step, hrem]
      exact hmid.forGroups (fun _ _ _ => removeInGroup_same ftn) fun _ _ _ _ => trivial
  | addSessionToTopNGroup n s forward => exact addSession_groups (fun _ _ _ _ => trivial) h trivial forward
  | removeSessionFromTopNGroup n s => exact removeSession_groups (fun _ _ _ _ => trivial) h
  | updateSessionForward n s forward => exact updateForward_groups (fun _ _ _ _ => trivial) h forward
  | sweepIdle activity => exact sweepIdle_groups h (fun _ _ _ _ _ _ _ _ => trivial) activity

end Settings

end PropertyRanking

end Moqx

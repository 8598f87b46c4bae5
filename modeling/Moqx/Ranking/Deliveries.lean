/-
  Subject: What one session of one group hears of the callbacks, and what it makes of them.

  * `View` -- the tracks delivered to a session, replayed from what it hears, and whether one was
    selected while it was already delivered;
  * `heard_notify`, `heard_evicted`, … -- what the helpers of a group send to one session.
-/
import Mathlib.Data.Set.Basic
import Moqx.Ranking.Order

namespace Moqx

open PropertyRanking RankedTracks List Function

/-! ## 1. Hearing callbacks -/

inductive Delivery where
  | select (ftn : FullTrackName)
  | evict (ftn : FullTrackName)
  deriving DecidableEq, Repr

def Callback.to (session : SessionRef) : Callback → Option Delivery
  | .onSelected ftn s _ => if s = session then some (.select ftn) else none
  | .onBatchSelected ftn batch => if session ∈ batch.map (·.1) then some (.select ftn) else none
  | .onEvicted ftn s => if s = session then some (.evict ftn) else none

/-- What a session hears of the callbacks of its group. -/
def heard (session : SessionRef) (callbacks : List Callback) : List Delivery :=
  callbacks.filterMap (Callback.to session)

/-- What a session hears from the group with this `N`. -/
def heardIn (n : Nat) (session : SessionRef) (callbacks : List (Nat × Callback)) : List Delivery :=
  callbacks.filterMap fun c => if c.1 = n then c.2.to session else none

@[simp]
theorem heard_nil (s : SessionRef) : heard s [] = [] := rfl

@[simp]
theorem heard_append (s : SessionRef) (a b : List Callback) : heard s (a ++ b) = heard s a ++ heard s b :=
  filterMap_append

@[simp]
theorem heard_cons (s : SessionRef) (c : Callback) (cs : List Callback) :
    heard s (c :: cs) = (c.to s).toList ++ heard s cs := by
  unfold heard
  rw [filterMap_cons]
  cases c.to s <;> rfl

theorem heard_onEvicted (s s' : SessionRef) (l : List FullTrackName) :
    heard s (l.map (.onEvicted · s')) = if s' = s then l.map .evict else [] := by
  induction l with
  | nil => simp
  | cons t l ih =>
    rw [map_cons, heard_cons, ih]
    by_cases h : s' = s <;> simp [Callback.to, h]

theorem heard_onSelected (s s' : SessionRef) (forward : Bool) (l : List FullTrackName) :
    heard s (l.map (.onSelected · s' forward)) = if s' = s then l.map .select else [] := by
  induction l with
  | nil => simp
  | cons t l ih =>
    rw [map_cons, heard_cons, ih]
    by_cases h : s' = s <;> simp [Callback.to, h]

@[simp]
theorem heardIn_nil (n : Nat) (s : SessionRef) : heardIn n s [] = [] := rfl

@[simp]
theorem heardIn_append (n : Nat) (s : SessionRef) (a b : List (Nat × Callback)) :
    heardIn n s (a ++ b) = heardIn n s a ++ heardIn n s b := filterMap_append

theorem heardIn_tagged (n m : Nat) (s : SessionRef) (callbacks : List Callback) :
    heardIn n s (callbacks.map (m, ·)) = if m = n then heard s callbacks else [] := by
  unfold heardIn heard
  rw [filterMap_map]
  by_cases h : m = n
  · rw [if_pos h]
    refine filterMap_congr fun c _ => ?_
    exact if_pos h
  · rw [if_neg h]
    exact filterMap_eq_nil_iff.mpr fun c _ => if_neg h

/-! ## 2. The view of a session -/

structure View where
  delivered : List FullTrackName := []
  /-- A track was selected while it was delivered already. -/
  twice : Bool := false
  /-- The session has published a track since it subscribed. -/
  published : Bool := false

namespace View

def hear (v : View) : Delivery → View
  | .select ftn => { v with delivered := ftn :: v.delivered, twice := v.twice || decide (ftn ∈ v.delivered) }
  | .evict ftn => { v with delivered := v.delivered.filter (· ≠ ftn) }

def hearAll (v : View) (deliveries : List Delivery) : View := deliveries.foldl hear v

def forget (v : View) (ftn : FullTrackName) : View := { v with delivered := v.delivered.filter (· ≠ ftn) }

@[simp]
theorem hearAll_nil (v : View) : v.hearAll [] = v := rfl

@[simp]
theorem hearAll_append (v : View) (a b : List Delivery) :
    v.hearAll (a ++ b) = (v.hearAll a).hearAll b := foldl_append

@[simp]
theorem hearAll_cons (v : View) (d : Delivery) (ds : List Delivery) :
    v.hearAll (d :: ds) = (v.hear d).hearAll ds := rfl

@[simp]
theorem hear_published (v : View) (d : Delivery) : (v.hear d).published = v.published := by
  cases d <;> rfl

@[simp]
theorem hearAll_published (v : View) (ds : List Delivery) :
    (v.hearAll ds).published = v.published := by
  induction ds generalizing v with
  | nil => rfl
  | cons d ds ih => rw [hearAll_cons, ih, hear_published]

end View

/-- A view is exactly a set of tracks, and none was selected twice. -/
structure Shows (v : View) (tracks : Set FullTrackName) : Prop where
  delivered : ∀ t, t ∈ v.delivered ↔ t ∈ tracks
  once : v.twice = false

namespace Shows

variable {v : View} {S T : Set FullTrackName}

section

variable (h : Shows v S)

include h

theorem congr (hST : ∀ t, t ∈ S ↔ t ∈ T) : Shows v T :=
  ⟨fun t => (h.delivered t).trans (hST t), h.once⟩

theorem select {x : FullTrackName} (hx : x ∉ S) :
    Shows (v.hear (.select x)) {t | t = x ∨ t ∈ S} where
  delivered t := by
    show t ∈ x :: v.delivered ↔ t = x ∨ t ∈ S
    rw [mem_cons, h.delivered t]
  once := by
    show (v.twice || decide (x ∈ v.delivered)) = false
    rw [h.once, Bool.false_or, decide_eq_false_iff_not, h.delivered]
    exact hx

theorem evict (x : FullTrackName) :
    Shows (v.hear (.evict x)) {t | t ∈ S ∧ t ≠ x} where
  delivered t := by
    show t ∈ v.delivered.filter (· ≠ x) ↔ t ∈ S ∧ t ≠ x
    rw [mem_filter, h.delivered t, decide_eq_true_eq]
  once := h.once

theorem forget (x : FullTrackName) : Shows (v.forget x) {t | t ∈ S ∧ t ≠ x} :=
  h.evict x

theorem evicts (l : List FullTrackName) :
    Shows (v.hearAll (l.map .evict)) {t | t ∈ S ∧ t ∉ l} := by
  induction l generalizing v S with
  | nil => exact h.congr fun t => by simp
  | cons x l ih =>
    refine (ih (h.evict x)).congr fun t => ?_
    simp only [Set.mem_ofPred_eq, mem_cons, not_or, and_assoc]

theorem selects {l : List FullTrackName} (hl : l.Nodup) (hS : ∀ t ∈ l, t ∉ S) :
    Shows (v.hearAll (l.map .select)) {t | t ∈ l ∨ t ∈ S} := by
  induction l generalizing v S with
  | nil => exact h.congr fun t => by simp
  | cons x l ih =>
    rw [nodup_cons] at hl
    refine (ih (h.select (hS x mem_cons_self)) hl.2 ?_).congr fun t => ?_
    · intro t ht hmem
      rcases hmem with rfl | hmem
      · exact hl.1 ht
      · exact hS t (mem_cons_of_mem _ ht) hmem
    · simp only [Set.mem_ofPred_eq, mem_cons]
      tauto

end

end Shows

/-- What a session hears when it is reconciled from `before` to `now`. -/
def delta (before now : List FullTrackName) : List Delivery :=
  (before.filter (· ∉ now)).map .evict ++ (now.filter (· ∉ before)).map .select

theorem Shows.delta {v : View} {S : Set FullTrackName} (h : Shows v S) {before now : List FullTrackName}
    (hnow : now.Nodup) (hkept : ∀ t ∈ now, t ∈ before ↔ t ∈ S) (hleft : ∀ t ∈ S, t ∉ now → t ∈ before) :
    Shows (v.hearAll (Moqx.delta before now)) {t | t ∈ now} := by
  unfold Moqx.delta
  rw [View.hearAll_append]
  refine ((h.evicts _).selects (hnow.filter _) ?_).congr fun t => ?_
  · intro t ht hmem
    rw [mem_filter, decide_eq_true_eq] at ht
    exact ht.2 ((hkept t ht.1).mpr hmem.1)
  · simp only [Set.mem_ofPred_eq, mem_filter, decide_eq_true_eq]
    have hk := hkept t
    have hl := hleft t
    tauto

/-! ## 3. What the helpers of a group send -/

namespace PropertyRanking

variable {r : PropertyRanking} {g : TopNGroup} {s : SessionRef}

variable {info : SessionInfo}

theorem lookup_forGroups (f : Nat → TopNGroup → TopNGroup × List Callback) (n : Nat) :
    (r.forGroups f).1.topNGroups.lookup n = (r.topNGroups.lookup n).map fun g => (f n g).1 :=
  Table.lookup_visit

theorem heardIn_forGroups (f : Nat → TopNGroup → TopNGroup × List Callback) (n : Nat) :
    heardIn n s (r.forGroups f).2 = ((r.topNGroups.lookup n).map fun g => heard s (f n g).2).getD [] := by
  have hother : ∀ m g, m ≠ n → heardIn n s ((f m g).2.map (m, ·)) = [] := by
    intro m g hm
    rw [heardIn_tagged, if_neg hm]
  refine (@Table.filterMap_visit _ _ _ _ _ (fun n g => ((f n g).1, (f n g).2.map (n, ·)))
    r.topNGroups n _ hother).trans ?_
  congr 2
  funext g
  exact (heardIn_tagged n n s _).trans (if_pos rfl)

theorem reconcile_selectedTracks (info : SessionInfo) (n : Nat) :
    (r.reconcilePublisherSelection info n s).1.selectedTracks =
      r.nowSelected s (r.computeWaterlineKey s n) := rfl

theorem heard_reconcile (info : SessionInfo) (n : Nat) :
    heard s (r.reconcilePublisherSelection info n s).2 =
      delta info.selectedTracks (r.nowSelected s (r.computeWaterlineKey s n)) := by
  unfold reconcilePublisherSelection delta
  dsimp only
  rw [heard_append, heard_onEvicted, heard_onSelected, if_pos rfl, if_pos rfl]

theorem heard_reconcile_other (info : SessionInfo) (n : Nat) {s' : SessionRef} (hne : s' ≠ s) :
    heard s (r.reconcilePublisherSelection info n s').2 = [] := by
  unfold reconcilePublisherSelection
  dsimp only
  rw [heard_append, heard_onEvicted, heard_onSelected, if_neg hne, if_neg hne]
  rfl

theorem lookup_reconcileSessions (except : Option SessionRef) (n : Nat)
    (sessions : AList fun _ : SessionRef => SessionInfo) :
    (r.reconcileSessions except n sessions).1.lookup s = (sessions.lookup s).map fun info =>
      if r.isPublisher s = true ∧ some s ≠ except then (r.reconcilePublisherSelection info n s).1 else info := by
  unfold reconcileSessions
  rw [Table.lookup_visit]
  congr 1
  funext info
  exact apply_ite Prod.fst _ _ _

theorem heard_reconcileSessions (except : Option SessionRef) (n : Nat)
    {sessions : AList fun _ : SessionRef => SessionInfo} (hs : sessions.lookup s = some info) :
    heard s (r.reconcileSessions except n sessions).2 =
      if r.isPublisher s = true ∧ some s ≠ except then
        delta info.selectedTracks (r.nowSelected s (r.computeWaterlineKey s n)) else [] := by
  have hother : ∀ s' info, s' ≠ s → filterMap (Callback.to s)
      (if r.isPublisher s' ∧ some s' ≠ except then r.reconcilePublisherSelection info n s'
        else (info, [])).2 = [] := by
    intro s' info hne
    split
    · exact heard_reconcile_other info n hne
    · rfl
  refine (Table.filterMap_visit hother).trans ?_
  rw [hs, Option.map_some, Option.getD_some]
  split
  · exact heard_reconcile info n
  · rfl

theorem heard_batchSelected (ftn : FullTrackName) :
    heard s (batchSelected ftn (r.viewerBatch g)) =
      if s ∈ g.sessions ∧ ¬r.isPublisher s then [.select ftn] else [] := by
  have hmem : s ∈ (r.viewerBatch g).map (·.1) ↔ s ∈ g.sessions ∧ ¬r.isPublisher s := by
    unfold viewerBatch
    rw [map_map, AList.mem_keys, AList.keys, keys, mem_map, mem_map]
    simp only [mem_filter, comp_apply, decide_eq_true_eq]
    constructor
    · rintro ⟨e, ⟨he, hp⟩, rfl⟩
      exact ⟨⟨e, he, rfl⟩, hp⟩
    · rintro ⟨⟨e, he, rfl⟩, hp⟩
      exact ⟨e, ⟨he, hp⟩, rfl⟩
  unfold batchSelected
  by_cases h : s ∈ g.sessions ∧ ¬r.isPublisher s
  · rw [if_pos h]
    have hne : (r.viewerBatch g).isEmpty = false := by
      cases hb : r.viewerBatch g with
      | nil =>
        rw [hb] at hmem
        exact absurd (hmem.mpr h) not_mem_nil
      | cons => rfl
    rw [hne, if_neg Bool.false_ne_true, heard_cons]
    unfold Callback.to
    dsimp only
    rw [if_pos (hmem.mpr h)]
    rfl
  · rw [if_neg h]
    split
    · rfl
    · rw [heard_cons]
      unfold Callback.to
      dsimp only
      rw [if_neg fun hm => h (hmem.mp hm)]
      rfl

theorem heard_notify (ftn : FullTrackName) (hs : g.sessions.lookup s = some info) :
    heard s (r.notifyTrackSelected ftn g).2 =
      if r.isPublisher s then
        delta info.selectedTracks (r.nowSelected s (r.computeWaterlineKey s g.maxSelected))
      else [.select ftn] := by
  have hmem : s ∈ g.sessions := AList.lookup_isSome.mp (by rw [hs]; rfl)
  unfold notifyTrackSelected
  dsimp only
  rw [heard_append, heard_reconcileSessions none _ hs, heard_batchSelected]
  by_cases hp : r.isPublisher s = true
  · simp [hp]
  · simp [hp, hmem]

theorem lookup_notify (ftn : FullTrackName) :
    (r.notifyTrackSelected ftn g).1.sessions.lookup s = (g.sessions.lookup s).map fun info =>
      if r.isPublisher s then (r.reconcilePublisherSelection info g.maxSelected s).1 else info := by
  refine (lookup_reconcileSessions none _ _).trans ?_
  congr 1
  funext info
  simp

theorem demoteTrack_eq (hd : r.maxDeselected = 0) (hq : g.deselectedQueue = []) (ftn : FullTrackName) :
    r.demoteTrack g ftn =
      ({ g with trackStates := (g.trackStates.insert ftn .deselected).erase ftn },
        g.sessions.keys.map (.onEvicted ftn ·)) := by
  unfold demoteTrack trimDeselectedQueue
  rw [hd, hq]
  unfold trimLoop
  simp only [nil_append, length_cons, length_nil]
  unfold trimLoop
  simp

theorem heard_evicted (ftn : FullTrackName) (hs : g.sessions.lookup s = some info) :
    heard s (g.sessions.keys.map (.onEvicted ftn ·)) = [.evict ftn] := by
  have hmem : s ∈ g.sessions.keys := AList.mem_keys.mp (AList.lookup_isSome.mp (by rw [hs]; rfl))
  obtain ⟨A, B, hAB⟩ := append_of_mem hmem
  have hnd := g.sessions.keys_nodup
  rw [hAB, nodup_middle, nodup_cons] at hnd
  have hnone : ∀ l : List SessionRef, s ∉ l → heard s (l.map (.onEvicted ftn ·)) = [] := by
    intro l hl
    unfold heard
    rw [filterMap_map]
    refine filterMap_eq_nil_iff.mpr fun s' hs' => if_neg ?_
    intro heq
    exact hl (heq ▸ hs')
  rw [mem_append, not_or] at hnd
  rw [hAB, map_append, map_cons, heard_append, heard_cons, hnone A hnd.1.1, hnone B hnd.1.2]
  simp [Callback.to]

end PropertyRanking

end Moqx

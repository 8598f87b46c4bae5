/-
  Subject: Runs of the ranking, as its sessions see them; what viewers see.

  * `Observed` -- the ranking together with the view of every session in every group;
  * `viewer_register`, `viewer_move`, `viewer_remove`, `viewer_joins` -- one operation, for a session that
    publishes nothing;
  * **`viewers_see_topN`** -- after every operation each group selects the first `N` tracks, and every
    session that has published nothing since it subscribed has been delivered exactly these.
-/
import Moqx.Ranking.Steps

namespace Moqx

open PropertyRanking RankedTracks PropertyRanking AList Option

variable {op : Op} {e : RankKey × RankedEntry} {info : SessionInfo} {newKey : RankKey}
  {rem rem' : List FullTrackName} {ds : List Delivery} {o : Observed}

/-! ## 1. Runs -/

def PropertyRanking.create (maxDeselected : Nat) (idleTimeout sweepThrottle : Int) : PropertyRanking where
  maxDeselected := maxDeselected
  idleTimeout := idleTimeout
  sweepThrottle := sweepThrottle

/-- What an operation means for a view apart from the callbacks: a removed track is gone, and a
    session that joins starts with nothing. -/
def View.before (v : View) (n : Nat) (s : SessionRef) : Op → View
  | .removeTrack ftn => v.forget ftn
  | .addSessionToTopNGroup n' s' _ => if n' = n ∧ s' = s then {} else v
  | _ => v

def View.mark (v : View) (publishes : Bool) : View := { v with published := v.published || publishes }

structure Observed where
  ranking : PropertyRanking
  view : Nat → SessionRef → View

namespace Observed

def start (r : PropertyRanking) : Observed := ⟨r, fun _ _ => {}⟩

def step (o : Observed) (op : Op) : Observed where
  ranking := (o.ranking.step op).1
  view n s :=
    (((o.view n s).before n s op).hearAll (heardIn n s (o.ranking.step op).2)).mark
      ((o.ranking.step op).1.rankedTracks.publishes s)

/-- The states of the runs from a new ranking whose operations meet a condition. -/
inductive Reachable (ok : PropertyRanking → Op → Prop) (r : PropertyRanking) : Observed → Prop where
  | start : Reachable ok r (start r)
  | step {o : Observed} {op : Op} :
    Reachable ok r o → op.Allowed o.ranking → ok o.ranking op → Reachable ok r (o.step op)

def run (o : Observed) (ops : List Op) : Observed := ops.foldl step o

end Observed

theorem Shows.mark {v : View} {S : Set FullTrackName} (h : Shows v S) (publishes : Bool) :
    Shows (v.mark publishes) S := ⟨h.delivered, h.once⟩

theorem create_groups {deselected : Nat} {timeout throttle : Int} {G : Nat → TopNGroup → Prop} :
    GroupsInv deselected timeout G (create deselected timeout throttle) where
  rank := {
    sorted := List.Pairwise.nil
    names_nodup := List.nodup_nil
    seq_distinct := List.nodup_nil
    seq_lt := fun _ h => nomatch h
    index_mem := fun _ h => nomatch h
    mem_index := fun _ _ h => nomatch h
    counts := fun _ => rfl
    ranks := fun _ _ _ h => nomatch h }
  room := rfl
  idle := rfl
  groups := fun _ _ h => nomatch h
  thresholds := {
    selection := fun _ h => absurd h (notMem_empty _)
    sorted := List.Pairwise.nil
    mem := fun _ h => absurd h (notMem_empty _)
    extended := fun _ _ _ _ h => nomatch h }

theorem create_inv (sweepThrottle : Int) : RankingInv (create 0 0 sweepThrottle) :=
  create_groups.rankingInv rfl

/-! ## 2. What one operation does -/

namespace PropertyRanking

variable {r : PropertyRanking} {n : Nat} {s : SessionRef}

structure Untouched (r : PropertyRanking) (out : PropertyRanking × List (Nat × Callback)) (n : Nat)
    (s : SessionRef) (info : SessionInfo) : Prop where
  order : out.1.rankedTracks = r.rankedTracks
  member : ∃ info₀, r.member n s = some info₀ ∧ info₀.selectedTracks = info.selectedTracks
  heard : heardIn n s out.2 = []

/-- The ways a step treats a session that is subscribed afterwards. -/
inductive StepKind (r : PropertyRanking) (op : Op) (out : PropertyRanking × List (Nat × Callback))
    (n : Nat) (s : SessionRef) (info : SessionInfo) : Prop where
  | untouched : Untouched r out n s info →
    (∀ ftn, op = .removeTrack ftn → ftn ∉ r.rankedTracks.names) →
    (∀ forward, op ≠ .addSessionToTopNGroup n s forward) → StepKind r op out n s info
  | joins (forward : Bool) : op = .addSessionToTopNGroup n s forward → 1 ≤ n →
    out.1.rankedTracks = r.rankedTracks →
    info.selectedTracks = (if r.rankedTracks.publishes s then r.rankedTracks.personal s n else []) →
    heardIn n s out.2 = (if r.rankedTracks.publishes s then delta [] (r.rankedTracks.personal s n)
      else (r.rankedTracks.names.take n).map .select) → StepKind r op out n s info
  | registers (ftn : FullTrackName) (value : Option Nat) (publisher : SessionRef) (key : RankKey)
    (C D : RankedTracks) (info₀ : SessionInfo) :
    op = .registerTrack ftn value publisher → r.rankedTracks = C ++ D →
    out.1.rankedTracks = C ++ (key, ⟨ftn, publisher⟩) :: D → r.member n s = some info₀ →
    info.selectedTracks =
      remembers (C ++ (key, ⟨ftn, publisher⟩) :: D) none n s info₀.selectedTracks →
    heardIn n s out.2 = registerHeard (C ++ (key, ⟨ftn, publisher⟩) :: D) ftn publisher (C ++ D)
      C.length n s info₀ →
    r.orderAfter op = C ++ (key, ⟨ftn, publisher⟩) :: D → StepKind r op out n s info
  | moves (ftn : FullTrackName) (value : Nat) (activity : Activity) (publisher : SessionRef)
    (key newKey : RankKey) (A B C D : RankedTracks) (info₀ : SessionInfo) :
    op = .updateSortValue ftn value activity → r.rankedTracks = A ++ (key, ⟨ftn, publisher⟩) :: B →
    out.1.rankedTracks = C ++ (newKey, ⟨ftn, publisher⟩) :: D → A ++ B = C ++ D →
    r.member n s = some info₀ →
    MoveHeard (C ++ (newKey, ⟨ftn, publisher⟩) :: D) ftn publisher (C ++ D) A.length C.length n s
      info₀.selectedTracks info.selectedTracks (heardIn n s out.2) →
    r.orderAfter op = C ++ (newKey, ⟨ftn, publisher⟩) :: D → StepKind r op out n s info
  | removes (ftn : FullTrackName) (publisher : SessionRef) (key : RankKey) (A B : RankedTracks)
    (info₀ : SessionInfo) :
    op = .removeTrack ftn → r.rankedTracks = A ++ (key, ⟨ftn, publisher⟩) :: B →
    out.1.rankedTracks = A ++ B → r.member n s = some info₀ →
    RemoveHeard (A ++ B) A.length n s info₀.selectedTracks info.selectedTracks (heardIn n s out.2) →
    StepKind r op out n s info

theorem untouched_id (info : SessionInfo) (h : r.member n s = some info) : Untouched r (r, []) n s info :=
  ⟨rfl, ⟨info, h, rfl⟩, rfl⟩

theorem register_kind (h : RankingInv r) (ftn : FullTrackName) (value : Option Nat)
    (publisher : SessionRef) :
    RankingInv (r.registerTrack ftn value publisher).1 ∧
      ∀ n s info, (r.registerTrack ftn value publisher).1.member n s = some info →
        StepKind r (.registerTrack ftn value publisher) (r.registerTrack ftn value publisher) n s info := by
  cases hi : r.trackIndexByName.lookup ftn with
  | some i =>
    rw [registerTrack_known hi]
    refine ⟨h, fun n s info hm => .untouched (untouched_id info hm) nofun nofun⟩
  | none =>
    obtain ⟨hinv, C, D, key, hCD, hranked, horder, hmem, hstep⟩ := @registerTrack_spec r h ftn value publisher hi
    refine ⟨hinv, fun n s info hm => ?_⟩
    obtain ⟨info₀, hinfo₀⟩ := isSome_iff_exists.mp (hmem n s (by rw [hm]; rfl))
    obtain ⟨⟨info', hinfo', hrem⟩, hheard⟩ := hstep n s info₀ hinfo₀
    rw [hm] at hinfo'
    cases hinfo'
    exact .registers ftn value publisher key C D info₀ rfl hCD hranked hinfo₀ hrem hheard horder

theorem update_kind (h : RankingInv r) (ftn : FullTrackName) (value : Nat) (activity : Activity) :
    RankingInv (r.updateSortValue ftn value activity).1 ∧
      ∀ n s info, (r.updateSortValue ftn value activity).1.member n s = some info →
        StepKind r (.updateSortValue ftn value activity) (r.updateSortValue ftn value activity)
          n s info := by
  by_cases hmove : ∃ i, r.trackIndexByName.lookup ftn = some i ∧ i.rankIter.value ≠ value
  · obtain ⟨i, hi, hv⟩ := hmove
    obtain ⟨hinv, A, B, C, D, key, newKey, publisher, hAB, hCD, horder, hABCD, hmem, hstep⟩ :=
      updateSortValue_spec h hi hv activity
    refine ⟨hinv, fun n s info hm => ?_⟩
    obtain ⟨info₀, hinfo₀⟩ := isSome_iff_exists.mp (hmem n s (by rw [hm]; rfl))
    obtain ⟨rem, ds, hheard, ⟨info', hinfo', hrem⟩, hds⟩ := hstep n s info₀ hinfo₀
    rw [hm] at hinfo'
    cases hinfo'
    rw [← hrem, ← hds] at hheard
    exact .moves ftn value activity publisher key newKey A B C D info₀ rfl hAB hCD hABCD hinfo₀ hheard
      horder
  · rw [updateSortValue_unmoved hmove]
    refine ⟨h, fun n s info hm => .untouched (untouched_id info hm) nofun nofun⟩

theorem remove_kind (h : RankingInv r) (ftn : FullTrackName) :
    RankingInv (r.removeTrack ftn).1 ∧
      ∀ n s info, (r.removeTrack ftn).1.member n s = some info →
        StepKind r (.removeTrack ftn) (r.removeTrack ftn) n s info := by
  cases hi : r.trackIndexByName.lookup ftn with
  | none =>
    rw [removeTrack_unknown hi]
    refine ⟨h, fun n s info hm => .untouched (untouched_id info hm) ?_ nofun⟩
    rintro ftn' ⟨⟩
    rw [← h.rank.registered_iff, hi]
    exact Bool.false_ne_true
  | some i =>
    obtain ⟨hinv, A, B, key, publisher, hAB, hranked, hmem, hstep⟩ := removeTrack_spec h hi
    refine ⟨hinv, fun n s info hm => ?_⟩
    obtain ⟨info₀, hinfo₀⟩ := isSome_iff_exists.mp (hmem n s (by rw [hm]; rfl))
    obtain ⟨rem, ds, hheard, ⟨info', hinfo', hrem⟩, hds⟩ := hstep n s info₀ hinfo₀
    rw [hm] at hinfo'
    cases hinfo'
    rw [← hrem, ← hds] at hheard
    exact .removes ftn publisher key A B info₀ rfl hAB hranked hinfo₀ hheard

theorem addSession_kind (h : RankingInv r) {n₀ : Nat} (hn : 1 ≤ n₀) (s₀ : SessionRef) (forward : Bool) :
    RankingInv (r.addSessionToTopNGroup n₀ s₀ forward).1 ∧
      ∀ n s info, (r.addSessionToTopNGroup n₀ s₀ forward).1.member n s = some info →
        StepKind r (.addSessionToTopNGroup n₀ s₀ forward) (r.addSessionToTopNGroup n₀ s₀ forward)
          n s info := by
  obtain ⟨hinv, hranked, ⟨⟨info', hinfo', hrem⟩, hheard⟩, hother⟩ := @addSession_spec r n₀ s₀ h hn forward
  refine ⟨hinv, fun n s info hm => ?_⟩
  by_cases heq : n = n₀ ∧ s = s₀
  · obtain ⟨rfl, rfl⟩ := heq
    rw [hm] at hinfo'
    cases hinfo'
    exact .joins forward rfl hn hranked hrem hheard
  · obtain ⟨hmem, hsilent⟩ := hother n s heq
    rw [hmem] at hm
    refine .untouched ⟨hranked, ⟨info, hm, rfl⟩, hsilent⟩ nofun ?_
    rintro _ ⟨⟩
    exact heq ⟨rfl, rfl⟩

/-- **Every operation keeps the invariant and treats every session in one of these ways.** -/
theorem step_kind (h : RankingInv r) {op : Op} (hop : op.Allowed r) :
    RankingInv (r.step op).1 ∧
      ∀ n s info, (r.step op).1.member n s = some info → StepKind r op (r.step op) n s info := by
  cases op with
  | registerTrack ftn value publisher => exact register_kind h ftn value publisher
  | updateSortValue ftn value activity => exact update_kind h ftn value activity
  | removeTrack ftn => exact remove_kind h ftn
  | addSessionToTopNGroup n s forward => exact addSession_kind h hop.1 s forward
  | removeSessionFromTopNGroup n s =>
    obtain ⟨hinv, hranked, hmem⟩ := @removeSession_spec r n s h
    refine ⟨hinv, fun n' s' info hm => .untouched ⟨hranked, ⟨info, hmem n' s' info hm, rfl⟩, rfl⟩ nofun nofun⟩
  | updateSessionForward n s forward =>
    obtain ⟨hinv, hranked, hmem⟩ := @updateForward_spec r n s h forward
    refine ⟨hinv, fun n' s' info hm => .untouched ⟨hranked, hmem n' s' info hm, rfl⟩ nofun nofun⟩
  | sweepIdle activity =>
    have hsweep : r.step (.sweepIdle activity) = (r, []) := sweepIdle_off h.noIdle activity
    rw [hsweep]
    refine ⟨h, fun n s info hm => .untouched (untouched_id info hm) nofun nofun⟩

end PropertyRanking

/-! ## 3. Viewers -/

section Viewers

variable {v : View} {n : Nat} {s : SessionRef} {ftn : FullTrackName}

variable {ranked C D A B : RankedTracks} {key : RankKey} {publisher : SessionRef}

/-- The first `n` tracks, as a set. -/
def topN (ranked : RankedTracks) (n : Nat) : Set FullTrackName := {t | t ∈ ranked.names.take n}

theorem mem_topN {t : FullTrackName} :
    t ∈ topN ranked n ↔ t ∈ ranked.names.take n := Iff.rfl

theorem Shows.before {S : Set FullTrackName} (h : Shows v S)
    (hremove : ∀ ftn, op = .removeTrack ftn → ftn ∉ S)
    (hjoin : ∀ forward, op ≠ .addSessionToTopNGroup n s forward) : Shows (v.before n s op) S := by
  cases op with
  | removeTrack ftn =>
    refine (h.forget ftn).congr fun t => ⟨And.left, fun ht => ⟨ht, ?_⟩⟩
    rintro rfl
    exact hremove t rfl ht
  | addSessionToTopNGroup n' s' forward =>
    unfold View.before
    dsimp only
    rw [if_neg]
    · exact h
    · rintro ⟨rfl, rfl⟩
      exact hjoin forward rfl
  | registerTrack | updateSortValue | removeSessionFromTopNGroup | updateSessionForward | sweepIdle =>
    exact h

theorem Shows.demoted (hn : 1 ≤ n) (hnd : (names (C ++ e :: D)).Nodup) (hC : C.length < n)
    (h : Shows v {t | t = e.2.ftn ∨ t ∈ topN (C ++ D) n}) :
    Shows (v.hearAll ((boundary (C ++ D) n).toList.map .evict)) (topN (C ++ e :: D) n) := by
  refine (h.evicts _).congr fun t => ?_
  rw [mem_topN, mem_take_without_boundary hn hnd hC, Set.mem_ofPred_eq, mem_toList]
  rfl

theorem viewer_register (hn : 1 ≤ n) (hnd : (names (C ++ (key, ⟨ftn, publisher⟩) :: D)).Nodup)
    (hp : publishes (C ++ (key, ⟨ftn, publisher⟩) :: D) s = false) (h : Shows v (topN (C ++ D) n)) :
    Shows (v.hearAll (registerHeard (C ++ (key, ⟨ftn, publisher⟩) :: D) ftn publisher (C ++ D)
      C.length n s info)) (topN (C ++ (key, ⟨ftn, publisher⟩) :: D) n) := by
  have hftn := (names_middle_nodup.mp hnd).1
  unfold registerHeard
  rw [hp, if_neg Bool.false_ne_true]
  by_cases hC : C.length < n
  · rw [if_pos hC, if_pos hC, View.hearAll_append]
    exact Shows.demoted hn hnd hC (h.select fun hm => hftn (List.mem_of_mem_take hm))
  · rw [if_neg hC, if_neg hC]
    refine h.congr fun t => ?_
    rw [mem_topN, mem_topN, take_with_outside (Nat.le_of_not_lt hC)]

theorem topN_stays {entry : RankedEntry} (hAC : A ++ B = C ++ D)
    (hstay : A.length < n ↔ C.length < n) (t : FullTrackName) :
    t ∈ topN (A ++ (key, entry) :: B) n ↔ t ∈ topN (C ++ (newKey, entry) :: D) n := by
  rw [mem_topN, mem_topN]
  by_cases hA : A.length < n
  · rw [mem_take_with hA, mem_take_with (hstay.mp hA), hAC]
  · rw [take_with_outside (Nat.le_of_not_lt hA),
      take_with_outside (Nat.le_of_not_lt fun h => hA (hstay.mpr h)), hAC]

/-- The first `n` without a track of them are the first `n - 1` of the others. -/
theorem topN_without (hnew : e.2.ftn ∉ names (A ++ B)) (hA : A.length < n) (t : FullTrackName) :
    t ∈ topN (A ++ e :: B) n ∧ t ≠ e.2.ftn ↔ t ∈ topN (A ++ B) (n - 1) := by
  rw [mem_topN, mem_topN, mem_take_with hA]
  constructor
  · intro h
    exact h.1.resolve_left h.2
  · intro h
    exact ⟨Or.inr h, fun heq => hnew (heq ▸ List.mem_of_mem_take h)⟩

theorem Shows.promoted (hn : 1 ≤ n) (hnd : ranked.names.Nodup) {z : FullTrackName}
    (hz : boundary ranked n = some z) (h : Shows v (topN ranked (n - 1))) :
    Shows (v.hear (.select z)) (topN ranked n) := by
  refine (h.select (boundary_not_mem hnd hz)).congr fun t => ?_
  rw [mem_topN, mem_take_boundary hn, hz, some.injEq, eq_comm, or_comm]
  rfl

theorem corrected_viewer (hp : ranked.publishes s = false) (except : Option SessionRef)
    (rem : List FullTrackName) : corrected ranked except n s rem = [] := by
  unfold corrected reconciles
  rw [hp]
  rfl

theorem announced_viewer (hp : ranked.publishes s = false) (rem : List FullTrackName) (z : FullTrackName) :
    announced ranked n s rem z = [.select z] := by
  unfold announced
  rw [hp]
  rfl

theorem viewer_move (hn : 1 ≤ n) (hnd : (names (C ++ (newKey, ⟨ftn, publisher⟩) :: D)).Nodup)
    (hAC : A ++ B = C ++ D) (hp : publishes (C ++ (newKey, ⟨ftn, publisher⟩) :: D) s = false)
    (hm : MoveHeard (C ++ (newKey, ⟨ftn, publisher⟩) :: D) ftn publisher (C ++ D) A.length C.length n s
      rem rem' ds) (h : Shows v (topN (A ++ (key, ⟨ftn, publisher⟩) :: B) n)) :
    Shows (v.hearAll ds) (topN (C ++ (newKey, ⟨ftn, publisher⟩) :: D) n) := by
  obtain ⟨hftn, hCD⟩ := names_middle_nodup.mp hnd
  dsimp only at hftn
  cases hm with
  | skipped hstay => exact h.congr fun t => topN_stays hAC hstay t
  | staying hstay =>
    rw [corrected_viewer hp]
    exact h.congr fun t => topN_stays hAC hstay t
  | entering hA hC =>
    rw [corrected_viewer hp, hp, if_neg Bool.false_ne_true, List.nil_append, View.hearAll_append]
    have hS : Shows v (topN (C ++ D) n) := by
      refine h.congr fun t => ?_
      rw [mem_topN, mem_topN, take_with_outside hA, hAC]
    exact Shows.demoted hn hnd hC (hS.select fun hmem => hftn (List.mem_of_mem_take hmem))
  | leaving z hA hC hz =>
    rw [announced_viewer hp, View.hearAll_cons]
    have hleft : Shows (v.hear (.evict ftn)) (topN (C ++ D) (n - 1)) := by
      refine (h.evict ftn).congr fun t => ?_
      have hftn' : ftn ∉ names (A ++ B) := by
        rw [hAC]
        exact hftn
      rw [← hAC]
      exact topN_without hftn' hA t
    refine (hleft.promoted hn hCD hz).congr fun t => ?_
    rw [mem_topN, mem_topN, take_with_outside hC]

theorem viewer_remove (hn : 1 ≤ n) (hnd : (names (A ++ (key, ⟨ftn, publisher⟩) :: B)).Nodup)
    (hp : publishes (A ++ B) s = false) (hr : RemoveHeard (A ++ B) A.length n s rem rem' ds)
    (h : Shows v (topN (A ++ (key, ⟨ftn, publisher⟩) :: B) n)) :
    Shows ((v.forget ftn).hearAll ds) (topN (A ++ B) n) := by
  obtain ⟨hftn, hAB⟩ := names_middle_nodup.mp hnd
  dsimp only at hftn
  have hinside : A.length < n → Shows (v.forget ftn) (topN (A ++ B) (n - 1)) := fun hA =>
    (h.forget ftn).congr fun t => topN_without hftn hA t
  cases hr with
  | replaced z hA hz =>
    rw [announced_viewer hp]
    exact (hinside hA).promoted hn hAB hz
  | quiet hnone =>
    by_cases hA : A.length < n
    · refine (hinside hA).congr fun t => ?_
      rw [mem_topN, mem_topN, mem_take_boundary hn, hnone hA]
      simp
    · refine (h.forget ftn).congr fun t => ?_
      rw [Set.mem_ofPred_eq, mem_topN, mem_topN, take_with_outside (Nat.le_of_not_lt hA)]
      refine ⟨And.left, fun ht => ⟨ht, ?_⟩⟩
      rintro rfl
      exact hftn (List.mem_of_mem_take ht)

theorem viewer_joins (hnd : ranked.names.Nodup) :
    Shows (View.hearAll {} ((ranked.names.take n).map .select)) (topN ranked n) := by
  have hempty : Shows ({} : View) ∅ := ⟨fun t => by simp, rfl⟩
  refine (hempty.selects (hnd.sublist (List.take_sublist _ _)) fun t _ => Set.notMem_empty t).congr
    fun t => ?_
  rw [mem_topN]
  simp

/-- **One operation, for a session that publishes nothing before or after it.** -/
theorem viewer_step {r : PropertyRanking} (h : RankingInv r) (hinv : RankingInv (r.step op).1)
    (hmem : (r.step op).1.member n s = some info) (hk : StepKind r op (r.step op) n s info)
    (hp : r.rankedTracks.publishes s = false) (hp' : (r.step op).1.rankedTracks.publishes s = false)
    (hv : ∀ info₀, r.member n s = some info₀ → Shows v (topN r.rankedTracks n)) :
    Shows ((v.before n s op).hearAll (heardIn n s (r.step op).2)) (topN (r.step op).1.rankedTracks n) := by
  obtain ⟨g, hg, -⟩ := member_some hmem
  have hn : 1 ≤ n := (hinv.groups n g hg).1
  have hnd := hinv.rank.names_nodup
  cases hk with
  | untouched hu hremove hjoin =>
    obtain ⟨info₀, hinfo₀, -⟩ := hu.member
    rw [hu.heard, hu.order, View.hearAll_nil]
    refine (hv info₀ hinfo₀).before (fun ftn hop hmem => hremove ftn hop ?_) hjoin
    exact List.mem_of_mem_take hmem
  | joins forward hop _ hranked _ hheard =>
    rw [hheard, hp, if_neg Bool.false_ne_true, hranked, hop]
    unfold View.before
    dsimp only
    rw [if_pos ⟨rfl, rfl⟩]
    exact viewer_joins h.rank.names_nodup
  | registers ftn value publisher key C D info₀ hop hCD hranked hinfo₀ _ hheard =>
    have hS := hv info₀ hinfo₀
    rw [hranked] at hp' hnd ⊢
    rw [hheard, hop]
    rw [hCD] at hS
    exact viewer_register hn hnd hp' hS
  | moves ftn value activity publisher key newKey A B C D info₀ hop hAB hCD hABCD hinfo₀ hheard =>
    have hS := hv info₀ hinfo₀
    rw [hCD] at hp' hnd ⊢
    rw [hop]
    rw [hAB] at hS
    rw [hop] at hheard
    exact viewer_move hn hnd hABCD hp' hheard hS
  | removes ftn publisher key A B info₀ hop hAB hranked hinfo₀ hheard =>
    have hS := hv info₀ hinfo₀
    have hnd₀ := h.rank.names_nodup
    rw [hranked] at hp' ⊢
    rw [hop]
    rw [hAB] at hS hnd₀
    rw [hop] at hheard
    exact viewer_remove hn hnd₀ hp' hheard hS

end Viewers

/-! ## 4. Whole runs -/

/-- The views of the sessions that have published nothing since they subscribed. -/
structure ViewerInv (o : Observed) : Prop where
  ranking : RankingInv o.ranking
  quiet : ∀ n s info, o.ranking.member n s = some info → (o.view n s).published = false →
    o.ranking.rankedTracks.publishes s = false
  views : ∀ n s info, o.ranking.member n s = some info → (o.view n s).published = false →
    Shows (o.view n s) (topN o.ranking.rankedTracks n)

theorem View.before_published (v : View) {n : Nat} {s : SessionRef}
    (hjoin : ∀ forward, op ≠ .addSessionToTopNGroup n s forward) :
    (v.before n s op).published = v.published := by
  cases op with
  | addSessionToTopNGroup n' s' forward =>
    unfold View.before
    dsimp only
    rw [if_neg]
    rintro ⟨rfl, rfl⟩
    exact hjoin forward rfl
  | registerTrack | updateSortValue | removeTrack | removeSessionFromTopNGroup | updateSessionForward
  | sweepIdle => rfl

theorem Observed.step_published (o : Observed) (op : Op) (n : Nat) (s : SessionRef) :
    ((o.step op).view n s).published = (((o.view n s).before n s op).published ||
      (o.ranking.step op).1.rankedTracks.publishes s) := by
  show ((((o.view n s).before n s op).hearAll (heardIn n s (o.ranking.step op).2)).published || _) = _
  rw [View.hearAll_published]

theorem PropertyRanking.StepKind.member_or_joins {r : PropertyRanking} {n : Nat} {s : SessionRef}
    (hk : StepKind r op (r.step op) n s info) :
    (∃ forward, op = .addSessionToTopNGroup n s forward ∧
      (r.step op).1.rankedTracks = r.rankedTracks) ∨
    ((∀ forward, op ≠ .addSessionToTopNGroup n s forward) ∧ ∃ info₀, r.member n s = some info₀) := by
  cases hk with
  | untouched hu _ hjoin =>
    obtain ⟨info₀, hinfo₀, -⟩ := hu.member
    exact Or.inr ⟨hjoin, info₀, hinfo₀⟩
  | joins forward hop _ hranked => exact Or.inl ⟨forward, hop, hranked⟩
  | registers _ _ _ _ _ _ info₀ hop _ _ hinfo₀ =>
    refine Or.inr ⟨fun _ hj => ?_, info₀, hinfo₀⟩
    rw [hop] at hj
    cases hj
  | moves _ _ _ _ _ _ _ _ _ _ info₀ hop _ _ _ hinfo₀ =>
    refine Or.inr ⟨fun _ hj => ?_, info₀, hinfo₀⟩
    rw [hop] at hj
    cases hj
  | removes _ _ _ _ _ info₀ hop _ _ hinfo₀ =>
    refine Or.inr ⟨fun _ hj => ?_, info₀, hinfo₀⟩
    rw [hop] at hj
    cases hj

theorem ViewerInv.step (h : ViewerInv o) (hop : op.Allowed o.ranking) :
    ViewerInv (o.step op) := by
  obtain ⟨hinv, hkind⟩ := step_kind h.ranking hop
  refine ⟨hinv, fun n s info _ hp => ?_, fun n s info hm hp => ?_⟩
  · rw [Observed.step_published] at hp
    exact (Bool.or_eq_false_iff.mp hp).2
  · rw [Observed.step_published] at hp
    obtain ⟨hp₀, hp'⟩ := Bool.or_eq_false_iff.mp hp
    have hk := hkind n s info hm
    rcases hk.member_or_joins with ⟨forward, hjoin, hranked⟩ | ⟨hjoin, info₀, hinfo₀⟩
    · refine (viewer_step h.ranking hinv hm hk (hranked ▸ hp') hp' ?_).mark _
      -- a session that joins was not subscribed
      intro info₀ hinfo₀
      rw [hjoin] at hop
      rw [hop.2] at hinfo₀
      cases hinfo₀
    · rw [View.before_published _ hjoin] at hp₀
      exact (viewer_step h.ranking hinv hm hk (h.quiet n s info₀ hinfo₀ hp₀) hp'
        fun info₁ hinfo₁ => h.views n s info₁ hinfo₁ hp₀).mark _

theorem viewerInv_reachable {ok : PropertyRanking → Op → Prop} {sweepThrottle : Int}
    (ho : Observed.Reachable ok (create 0 0 sweepThrottle) o) : ViewerInv o := by
  induction ho with
  | start => exact ⟨create_inv sweepThrottle, (fun _ _ _ h => nomatch h), (fun _ _ _ h => nomatch h)⟩
  | step _ hop _ ih => exact ih.step hop

/-- **Viewers see exactly the top `N`.** After every operation, the tracks stand in rank order, each
    group selects the first `N` of them and has an empty queue, and every session of it that has published
    nothing since it subscribed has been delivered exactly the selected tracks, none twice in a row. -/
theorem viewers_see_topN (sweepThrottle : Int) (o : Observed)
    (ho : Observed.Reachable (fun _ _ => True) (create 0 0 sweepThrottle) o) (n : Nat)
    (g : TopNGroup) (hg : o.ranking.topNGroups.lookup n = some g) :
    Sorted o.ranking.rankedTracks ∧ o.ranking.rankedTracks.names.Nodup ∧
      (∀ ftn, g.trackStates.lookup ftn = some .selected ↔ ftn ∈ o.ranking.rankedTracks.names.take n) ∧
      g.deselectedQueue = [] ∧
      ∀ s ∈ g.sessions, (o.view n s).published = false →
        (∀ ftn, ftn ∈ (o.view n s).delivered ↔ g.trackStates.lookup ftn = some .selected) ∧
          (o.view n s).twice = false := by
  have hinv := viewerInv_reachable ho
  obtain ⟨-, hsel⟩ := hinv.ranking.groups n g hg
  refine ⟨hinv.ranking.rank.sorted, hinv.ranking.rank.names_nodup,
    fun ftn => hsel.states.lookup_iff, hsel.queue, fun s hs hp => ?_⟩
  obtain ⟨info, hinfo⟩ := isSome_iff_exists.mp (lookup_isSome.mpr hs)
  have hmem : o.ranking.member n s = some info := by
    unfold member
    rw [hg]
    exact hinfo
  obtain ⟨hdel, honce⟩ := hinv.views n s info hmem hp
  refine ⟨fun ftn => ?_, honce⟩
  rw [hdel, hsel.states.lookup_iff]
  rfl

/-- A viewer of the best track: a second, better track replaces the first. -/
theorem viewers_see_topN_replaced :
    let ops : List Op := [.addSessionToTopNGroup 1 7 true, .registerTrack ⟨[], [1]⟩ (some 5) 2,
      .registerTrack ⟨[], [2]⟩ (some 9) 2]
    let o := (Observed.start (create 0 0 0)).run ops
    (o.view 1 7).delivered = [⟨[], [2]⟩] ∧ ∃ g, o.ranking.topNGroups.lookup 1 = some g ∧
      ∀ ftn, ftn ∈ (o.view 1 7).delivered ↔ g.trackStates.lookup ftn = some .selected := by
  intro ops o
  have ho : Observed.Reachable (fun _ _ => True) (create 0 0 0) o :=
    .step (.step (.step .start ⟨by decide, rfl⟩ trivial) trivial trivial) trivial trivial
  obtain ⟨g, hg⟩ : ∃ g, o.ranking.topNGroups.lookup 1 = some g :=
    isSome_iff_exists.mp (by decide)
  have hs : 7 ∈ g.sessions := by
    have hmem : (o.ranking.member 1 7).isSome = true := by decide
    unfold member at hmem
    rw [hg] at hmem
    exact lookup_isSome.mp hmem
  obtain ⟨-, -, -, -, hviews⟩ := viewers_see_topN 0 o ho 1 g hg
  exact ⟨by decide, g, hg, (hviews 7 hs (by decide)).1⟩

end Moqx

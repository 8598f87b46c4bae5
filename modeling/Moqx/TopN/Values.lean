/-
  Subject: The value a ranking holds of each track, operation by operation.

  * `Ranked` -- an operation keeps the order and its index, and changes the values in one way.

  There is no condition on the groups or on the idle sweep: neither touches the values.
-/
import Moqx.Ranking.Steps

namespace Moqx

open AList Option

namespace PropertyRanking

open RankedTracks

/-! ## 1. Values -/

/-- The value a track is ranked with, if the ranking holds it. -/
def sortValue (r : PropertyRanking) (ftn : FullTrackName) : Option Nat :=
  (r.trackIndexByName.lookup ftn).map (·.rankIter.value)

/-- The order stays sound, and the values are those of `values`. -/
structure Ranked (r : PropertyRanking) (values : FullTrackName → Option Nat) : Prop where
  rank : RankInv r
  values : ∀ ftn, r.sortValue ftn = values ftn

variable {r : PropertyRanking} {values : FullTrackName → Option Nat}

theorem Ranked.of_rank (h : RankInv r) : Ranked r r.sortValue := ⟨h, fun _ => rfl⟩

theorem Ranked.unchanged (h : RankInv r) {ftn : FullTrackName} {value : Option Nat}
    (hv : r.sortValue ftn = value) :
    Ranked r fun ftn' => if ftn' = ftn then value else r.sortValue ftn' := by
  refine ⟨h, fun ftn' => ?_⟩
  split
  · rename_i heq
    rw [heq, hv]
  · rfl

section

variable (h : Ranked r values)

include h

theorem Ranked.rebuild : Ranked r.rebuildRankCacheIfNeeded values := by
  refine ⟨h.rank.rebuild, fun ftn => ?_⟩
  rw [← h.values ftn, sortValue, sortValue]
  rcases eq_none_or_eq_some (r.trackIndexByName.lookup ftn) with hi | ⟨i, hi⟩
  · rcases eq_none_or_eq_some (r.rebuildRankCacheIfNeeded.trackIndexByName.lookup ftn) with hi' | ⟨i', hi'⟩
    · rw [hi, hi']
    · obtain ⟨i, hi'', -⟩ := rebuild_lookup h.rank.names_nodup hi'
      rw [hi] at hi''
      cases hi''
  · obtain ⟨i', hi', hkey⟩ := rebuild_lookup_some h.rank.names_nodup hi
    rw [hi, hi', map_some, map_some, hkey]

theorem Ranked.getCachedRank (ftn : FullTrackName) :
    Ranked (r.getCachedRank ftn).1 values := by
  rw [getCachedRank_fst]
  exact h.rebuild

theorem Ranked.forGroups (f : Nat → TopNGroup → TopNGroup × List Callback) :
    Ranked (r.forGroups f).1 values := ⟨h.rank.forGroups f, h.values⟩

theorem Ranked.same {r' : PropertyRanking} (hs : SameOrder r r') : Ranked r' values where
  rank := h.rank.same hs
  values ftn := by
    rw [← h.values ftn, sortValue, sortValue, hs.index]

theorem Ranked.sweepIdle (activity : Activity) :
    Ranked (r.sweepIdle activity).1 values := by
  unfold PropertyRanking.sweepIdle
  split
  · exact h
  · split
    · exact h
    · split
      · exact h
      · refine Ranked.forGroups (h.same ?_) _
        exact ⟨rfl, rfl, rfl, rfl, rfl⟩

end

/-! ## 2. Tracks -/

theorem registerTrack_ranked (h : RankInv r) (ftn : FullTrackName) (initial : Option Nat)
    (publisher : SessionRef) :
    Ranked (r.registerTrack ftn initial publisher).1 fun ftn' =>
      if ftn' = ftn then some ((r.sortValue ftn).getD (initial.getD 0)) else r.sortValue ftn' := by
  unfold registerTrack
  split
  · rename_i hin
    obtain ⟨i, hi⟩ := isSome_iff_exists.1 hin
    refine Ranked.unchanged h ?_
    simp only [sortValue, hi, map_some, getD_some]
  · rename_i hout
    rw [Bool.not_eq_true, isSome_eq_false_iff, isNone_iff_eq_none] at hout
    obtain ⟨hrank, -⟩ := enterTrack_inserts h hout (initial.getD 0) publisher
    have hentered : Ranked (r.enterTrack ftn (initial.getD 0) publisher) fun ftn' =>
        if ftn' = ftn then some ((r.sortValue ftn).getD (initial.getD 0)) else r.sortValue ftn' := by
      refine ⟨hrank, fun ftn' => ?_⟩
      show ((r.trackIndexByName.insert ftn { rankIter := ⟨initial.getD 0, r.nextSeq⟩ }).lookup ftn').map _ = _
      split
      · rename_i heq
        subst heq
        simp only [lookup_insert, sortValue, hout, map_some, map_none, getD_none]
      · rename_i hne
        rw [lookup_insert_ne hne]
        rfl
    exact ((hentered.getCachedRank ftn).forGroups _).forGroups _

theorem updateSortValue_ranked (h : RankInv r) (ftn : FullTrackName) (value : Nat) (activity : Activity) :
    Ranked (r.updateSortValue ftn value activity).1 fun ftn' =>
      if ftn' = ftn then (r.sortValue ftn).map fun _ => value else r.sortValue ftn' := by
  unfold updateSortValue
  split
  · rename_i hout
    refine Ranked.unchanged h ?_
    simp only [sortValue, hout, map_none]
  · rename_i i hi
    dsimp only
    split
    · rename_i hv
      refine Ranked.unchanged h ?_
      simp only [sortValue, hi, map_some, hv]
    · obtain ⟨publisher, hmem⟩ := h.indexed hi
      rw [getCachedRank_fst]
      rw [at?_of_mem h.rebuild.sorted hmem]
      dsimp only
      obtain ⟨hrank, -⟩ := @moveTrack_moves _ ftn h.rebuild _ _ hmem value
      have hbuilt := (Ranked.of_rank h).rebuild
      have hmoved : Ranked (r.rebuildRankCacheIfNeeded.moveTrack ftn i.rankIter
          ⟨value, i.rankIter.arrivalSeq⟩ ⟨ftn, publisher⟩) fun ftn' =>
          if ftn' = ftn then (r.sortValue ftn).map fun _ => value else r.sortValue ftn' := by
        refine ⟨hrank, fun ftn' => ?_⟩
        obtain ⟨i', hi', -⟩ := rebuild_lookup_some h.names_nodup hi
        rw [sortValue, moveTrack, hi']
        dsimp only
        split
        · rename_i heq
          subst heq
          simp only [lookup_insert, sortValue, hi, map_some]
        · rename_i hne
          rw [lookup_insert_ne hne]
          exact hbuilt.values ftn'
      split
      · exact ((hmoved.getCachedRank ftn).forGroups _).sweepIdle activity
      · exact hmoved.getCachedRank ftn

theorem dropTrack_index (r : PropertyRanking) (ftn : FullTrackName) (key : RankKey) :
    (r.dropTrack ftn key).trackIndexByName = r.trackIndexByName.erase ftn := by
  unfold dropTrack
  split
  · unfold uncountTrack
    split <;> rfl
  · rfl

theorem removeTrack_ranked (h : RankInv r) (ftn : FullTrackName) :
    Ranked (r.removeTrack ftn).1 fun ftn' => if ftn' = ftn then none else r.sortValue ftn' := by
  unfold removeTrack
  split
  · rename_i hout
    refine Ranked.unchanged h ?_
    simp only [sortValue, hout, map_none]
  · rename_i i hi
    dsimp only
    obtain ⟨publisher, hmem⟩ := h.indexed hi
    rw [getCachedRank_fst]
    obtain ⟨hrank, -⟩ := dropTrack_removes h.rebuild hmem
    have hbuilt := (Ranked.of_rank h).rebuild
    refine Ranked.forGroups ⟨hrank, fun ftn' => ?_⟩ _
    rw [sortValue, dropTrack_index]
    split
    · rename_i heq
      subst heq
      rw [lookup_erase]
      rfl
    · rename_i hne
      rw [lookup_erase_ne hne]
      exact hbuilt.values ftn'

end PropertyRanking

end Moqx

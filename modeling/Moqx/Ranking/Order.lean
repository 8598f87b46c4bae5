/-
  Subject: The rank order, its index and its cached ranks.

  * `enterTrack_inserts`, `moveTrack_moves`, `dropTrack_removes` -- what the operations do to the
    order, as lists with the track in them and without it;
  * `getCachedRank_eq` -- the rank the code reads is the place in the order;
  * `personal`, `nowSelected_eq` -- the tracks above a session's waterline are its first `n` tracks of
    other sessions.
-/
import Mathlib.Data.List.Nodup
import Moqx.Lib.FirstN
import Moqx.Ranking.Model

namespace Moqx

open List AList

variable {ranked : RankedTracks} {r : PropertyRanking}

/-! ## 1. Keys -/

namespace RankKey

variable {a b : RankKey}

theorem lt_iff :
    a < b ↔ a.value < b.value ∨ (a.value = b.value ∧ b.arrivalSeq < a.arrivalSeq) := by
  show (if a.value ≠ b.value then a.value < b.value else b.arrivalSeq < a.arrivalSeq) ↔ _
  split <;> omega

theorem eq_iff : a = b ↔ a.value = b.value ∧ a.arrivalSeq = b.arrivalSeq := by
  cases a
  cases b
  simp

theorem le_iff : a ≤ b ↔ a < b ∨ a = b := Iff.rfl

theorem lt_irrefl (a : RankKey) : ¬a < a := by
  rw [lt_iff]
  omega

theorem lt_trans {c : RankKey} (h : a < b) (h' : b < c) : a < c := by
  rw [lt_iff] at *
  omega

theorem lt_or_lt_of_ne (h : a ≠ b) : a < b ∨ b < a := by
  rw [Ne, eq_iff] at h
  rw [lt_iff, lt_iff]
  omega

end RankKey

/-! ## 2. The sorted map -/

namespace RankedTracks

variable {key : RankKey} {entry : RankedEntry}

variable {session : SessionRef}

/-- Best key first, no key twice. -/
def Sorted (ranked : RankedTracks) : Prop := ranked.Pairwise fun a b => b.1 < a.1

theorem mem_emplace {e : RankKey × RankedEntry} (h : e ∈ ranked.emplace key entry) :
    e = (key, entry) ∨ e ∈ ranked := by
  induction ranked with
  | nil => exact Or.inl (mem_singleton.mp h)
  | cons a rest ih =>
    unfold emplace at h
    split at h
    · exact mem_cons.mp h
    · split at h
      · exact Or.inr h
      · rcases mem_cons.mp h with rfl | h
        · exact Or.inr mem_cons_self
        · exact (ih h).imp_right (mem_cons_of_mem _)

theorem emplace_sorted (hs : Sorted ranked) : Sorted (ranked.emplace key entry) := by
  induction ranked with
  | nil => exact pairwise_singleton _ _
  | cons a rest ih =>
    obtain ⟨ha, hrest⟩ := pairwise_cons.mp hs
    unfold emplace
    split
    · rename_i hlt
      refine pairwise_cons.mpr ⟨?_, hs⟩
      intro b hb
      rcases mem_cons.mp hb with rfl | hb
      · exact hlt
      · exact RankKey.lt_trans (ha b hb) hlt
    · split
      · exact hs
      · rename_i hge hne
        refine pairwise_cons.mpr ⟨?_, ih hrest⟩
        intro b hb
        rcases mem_emplace hb with rfl | hb
        · exact (RankKey.lt_or_lt_of_ne hne).resolve_left hge
        · exact ha b hb

theorem emplace_split (hnew : ∀ e ∈ ranked, e.1 ≠ key) :
    ∃ C D, ranked = C ++ D ∧ ranked.emplace key entry = C ++ (key, entry) :: D := by
  induction ranked with
  | nil => exact ⟨[], [], rfl, rfl⟩
  | cons a rest ih =>
    unfold emplace
    split
    · exact ⟨[], a :: rest, rfl, rfl⟩
    · split
      · rename_i he
        exact absurd he (hnew a mem_cons_self)
      · obtain ⟨C, D, hCD, hins⟩ := ih fun e he => hnew e (mem_cons_of_mem _ he)
        exact ⟨a :: C, D, by rw [hCD]; rfl, by rw [hins]; rfl⟩

theorem Sorted.key_ne (hs : Sorted ranked) {A B : RankedTracks}
    (h : ranked = A ++ (key, entry) :: B) : ∀ e ∈ A ++ B, e.1 ≠ key := by
  intro e he hk
  rw [h] at hs
  obtain ⟨-, hB, hAB⟩ := pairwise_append.mp hs
  rcases mem_append.mp he with he | he
  · have := hAB e he _ mem_cons_self
    rw [hk] at this
    exact RankKey.lt_irrefl _ this
  · have := (pairwise_cons.mp hB).1 e he
    rw [hk] at this
    exact RankKey.lt_irrefl _ this

theorem erase_split (hs : Sorted ranked) (hmem : (key, entry) ∈ ranked) :
    ∃ A B, ranked = A ++ (key, entry) :: B ∧ ranked.erase key = A ++ B := by
  obtain ⟨A, B, hAB⟩ := append_of_mem hmem
  refine ⟨A, B, hAB, ?_⟩
  have hne := hs.key_ne hAB
  unfold erase
  rw [hAB, filter_append, filter_cons_of_neg (by simp), ← filter_append,
    filter_eq_self.mpr fun e he => decide_eq_true (hne e he)]

theorem at?_of_mem (hs : Sorted ranked) (hmem : (key, entry) ∈ ranked) :
    ranked.at? key = some entry := by
  obtain ⟨A, B, hAB, -⟩ := erase_split hs hmem
  have hne := hs.key_ne hAB
  have hA : (A.find? fun e => decide (e.1 = key)) = none :=
    find?_eq_none.mpr fun e he => by simpa using hne e (mem_append_left _ he)
  unfold at?
  rw [hAB, find?_append, hA, Option.none_or, find?_cons_of_pos (by simp)]
  rfl

@[simp]
theorem names_append (A B : RankedTracks) : names (A ++ B) = names A ++ names B := map_append

@[simp]
theorem names_cons (e : RankKey × RankedEntry) (B : RankedTracks) :
    names (e :: B) = e.2.ftn :: names B := rfl

@[simp]
theorem names_length (A : RankedTracks) : (names A).length = A.length := length_map _

theorem mem_names {ranked : RankedTracks} {ftn : FullTrackName} :
    ftn ∈ ranked.names ↔ ∃ e ∈ ranked, e.2.ftn = ftn := mem_map

def countOf (ranked : RankedTracks) (session : SessionRef) : Nat :=
  ranked.countP fun e => e.2.publisherRaw == session

def publishes (ranked : RankedTracks) (session : SessionRef) : Bool :=
  ranked.any fun e => e.2.publisherRaw == session

theorem publishes_iff :
    ranked.publishes session = true ↔ ∃ e ∈ ranked, e.2.publisherRaw = session := by
  unfold publishes
  rw [any_eq_true]
  simp

theorem countOf_eq_zero :
    ranked.countOf session = 0 ↔ ranked.publishes session = false := by
  unfold countOf
  rw [countP_eq_zero, ← Bool.not_eq_true, publishes_iff]
  simp

/-- The first `n` tracks in rank order that a session does not itself publish. -/
def personal (ranked : RankedTracks) (session : SessionRef) (n : Nat) : List FullTrackName :=
  (names (ranked.filter fun e => e.2.publisherRaw ≠ session)).take n

theorem personal_viewer {n : Nat} (h : ranked.publishes session = false) :
    ranked.personal session n = ranked.names.take n := by
  rw [← Bool.not_eq_true, publishes_iff] at h
  unfold personal
  rw [filter_eq_self.mpr]
  intro e he
  exact decide_eq_true fun hp => h ⟨e, he, hp⟩

end RankedTracks

/-! ## 3. The waterline -/

namespace PropertyRanking

open RankedTracks

variable {n : Nat}
variable {c : Nat} {r' : PropertyRanking} {i : RankIndex} {A B : RankedTracks} {e : RankKey × RankedEntry}

theorem waterlineLoop_mem {session : SessionRef} {key : RankKey}
    (h : waterlineLoop session n c ranked = some key) : ∃ e ∈ ranked, e.1 = key := by
  induction ranked generalizing c with
  | nil => cases h
  | cons e rest ih =>
    unfold waterlineLoop at h
    split at h
    · split at h
      · cases h
        exact ⟨e, mem_cons_self, rfl⟩
      · obtain ⟨e', he', hk⟩ := ih h
        exact ⟨e', mem_cons_of_mem _ he', hk⟩
    · obtain ⟨e', he', hk⟩ := ih h
      exact ⟨e', mem_cons_of_mem _ he', hk⟩

theorem filter_waterline {session : SessionRef} (hs : Sorted ranked) (hc : c < n) :
    (ranked.filter fun e =>
      e.2.publisherRaw ≠ session ∧ (waterlineLoop session n c ranked).all (· ≤ e.1)) =
    (ranked.filter fun e => e.2.publisherRaw ≠ session).take (n - c) := by
  induction ranked generalizing c with
  | nil => simp
  | cons e rest ih =>
    obtain ⟨hlt, hrest⟩ := pairwise_cons.mp hs
    unfold waterlineLoop
    by_cases hself : e.2.publisherRaw = session
    · rw [filter_cons_of_neg (by simp [hself]), filter_cons_of_neg (by simp [hself]),
        if_neg (by simp [hself])]
      exact ih hrest hc
    · have hkeep : (e :: rest).filter (fun e => decide (e.2.publisherRaw ≠ session)) =
          e :: rest.filter fun e => decide (e.2.publisherRaw ≠ session) :=
        filter_cons_of_pos (by simpa using hself)
      rw [if_pos hself, hkeep]
      by_cases hn : c + 1 = n
      · -- the waterline is this track: nothing behind it is above it
        rw [if_pos hn, filter_cons_of_pos (by simp [hself, RankKey.le_iff]),
          filter_eq_nil_iff.mpr, show n - c = 0 + 1 by omega, take_succ_cons, take_zero]
        intro e' he'
        have hb := hlt e' he'
        simp only [Option.all_some, decide_eq_true_eq, not_and]
        intro _ hle
        rcases hle with hle | hle
        · exact RankKey.lt_irrefl _ (RankKey.lt_trans hle hb)
        · rw [hle] at hb
          exact RankKey.lt_irrefl _ hb
      · have habove : (waterlineLoop session n (c + 1) rest).all (· ≤ e.1) = true := by
          rw [Option.all_eq_true]
          intro key hkey
          obtain ⟨e', he', rfl⟩ := waterlineLoop_mem hkey
          exact decide_eq_true (Or.inl (hlt e' he'))
        rw [if_neg hn, filter_cons_of_pos (by simp [hself, habove]), ih hrest (by omega),
          show n - c = (n - (c + 1)) + 1 by omega, take_succ_cons]

/-- **The tracks above the waterline are the first `n` tracks of other sessions.** -/
theorem nowSelected_eq (hs : Sorted r.rankedTracks) (hn : 1 ≤ n) (session : SessionRef) :
    r.nowSelected session (r.computeWaterlineKey session n) = r.rankedTracks.personal session n := by
  unfold nowSelected computeWaterlineKey personal names
  rw [filter_waterline hs hn, Nat.sub_zero, map_take]

/-! ## 4. The index and the cached ranks -/

structure RankInv (r : PropertyRanking) : Prop where
  sorted : Sorted r.rankedTracks
  names_nodup : r.rankedTracks.names.Nodup
  seq_distinct : (r.rankedTracks.map fun e => e.1.arrivalSeq).Nodup
  seq_lt : ∀ e ∈ r.rankedTracks, e.1.arrivalSeq < r.nextSeq
  index_mem : ∀ e ∈ r.rankedTracks, ∃ i, r.trackIndexByName.lookup e.2.ftn = some i ∧ i.rankIter = e.1
  mem_index : ∀ ftn i, r.trackIndexByName.lookup ftn = some i →
    ∃ entry, (i.rankIter, entry) ∈ r.rankedTracks ∧ entry.ftn = ftn
  counts : ∀ s, r.publisherTrackCount.lookup s =
    if r.rankedTracks.countOf s = 0 then none else some (r.rankedTracks.countOf s)
  ranks : r.rankCacheValid = true → ∀ ftn i, r.trackIndexByName.lookup ftn = some i →
    i.cachedRank = r.rankedTracks.names.idxOf ftn

/-- The order and what is derived from it are the same. -/
structure SameOrder (r r' : PropertyRanking) : Prop where
  rankedTracks : r'.rankedTracks = r.rankedTracks
  index : r'.trackIndexByName = r.trackIndexByName
  counts : r'.publisherTrackCount = r.publisherTrackCount
  nextSeq : r'.nextSeq = r.nextSeq
  valid : r'.rankCacheValid = r.rankCacheValid

theorem SameOrder.refl (r : PropertyRanking) : SameOrder r r := ⟨rfl, rfl, rfl, rfl, rfl⟩

theorem SameOrder.trans {r r'' : PropertyRanking} (h : SameOrder r r') (h' : SameOrder r' r'') :
    SameOrder r r'' :=
  ⟨h'.rankedTracks.trans h.rankedTracks, h'.index.trans h.index, h'.counts.trans h.counts,
    h'.nextSeq.trans h.nextSeq, h'.valid.trans h.valid⟩

theorem RankInv.same (h : RankInv r) (hs : SameOrder r r') : RankInv r' where
  sorted := hs.rankedTracks ▸ h.sorted
  names_nodup := hs.rankedTracks ▸ h.names_nodup
  seq_distinct := hs.rankedTracks ▸ h.seq_distinct
  seq_lt := by
    rw [hs.rankedTracks, hs.nextSeq]
    exact h.seq_lt
  index_mem := by
    rw [hs.rankedTracks, hs.index]
    exact h.index_mem
  mem_index := by
    rw [hs.rankedTracks, hs.index]
    exact h.mem_index
  counts := by
    rw [hs.rankedTracks, hs.counts]
    exact h.counts
  ranks := by
    rw [hs.rankedTracks, hs.index, hs.valid]
    exact h.ranks

theorem RankInv.isPublisher_eq (h : RankInv r) (s : SessionRef) :
    r.isPublisher s = r.rankedTracks.publishes s := by
  unfold isPublisher
  rw [h.counts s]
  split
  · rename_i hc
    rw [countOf_eq_zero.mp hc]
    rfl
  · rename_i hc
    rw [countOf_eq_zero, Bool.not_eq_false] at hc
    rw [hc]
    rfl

theorem RankInv.registered_iff (h : RankInv r) {ftn : FullTrackName} :
    (r.trackIndexByName.lookup ftn).isSome ↔ ftn ∈ r.rankedTracks.names := by
  rw [mem_names]
  constructor
  · intro hs
    obtain ⟨i, hi⟩ := Option.isSome_iff_exists.mp hs
    obtain ⟨entry, hmem, hftn⟩ := h.mem_index ftn i hi
    exact ⟨_, hmem, hftn⟩
  · intro hs
    obtain ⟨e, he, rfl⟩ := hs
    obtain ⟨i, hi, -⟩ := h.index_mem e he
    rw [hi]
    rfl

theorem rebuildLoop_lookup (hnd : ranked.names.Nodup) (index : AList fun _ : FullTrackName => RankIndex)
    (k : Nat) (ftn : FullTrackName) :
    (rebuildLoop index k ranked).lookup ftn = (index.lookup ftn).map fun i =>
      if ftn ∈ ranked.names then { i with cachedRank := k + ranked.names.idxOf ftn } else i := by
  induction ranked generalizing index k with
  | nil =>
    unfold rebuildLoop
    simp [names]
  | cons e rest ih =>
    rw [names_cons, nodup_cons] at hnd
    unfold rebuildLoop
    by_cases hf : ftn = e.2.ftn
    · subst hf
      split
      · rename_i i hi
        rw [ih hnd.2, lookup_insert, hi]
        simp [hnd.1]
      · rename_i hi
        rw [ih hnd.2, hi]
        rfl
    · have hstep : ∀ index' : AList fun _ : FullTrackName => RankIndex,
          index'.lookup ftn = index.lookup ftn →
          (rebuildLoop index' (k + 1) rest).lookup ftn = (index.lookup ftn).map fun i =>
            if ftn ∈ names (e :: rest) then
              { i with cachedRank := k + (names (e :: rest)).idxOf ftn } else i := by
        intro index' hi
        rw [ih hnd.2, hi, names_cons, idxOf_cons_ne _ (Ne.symm hf)]
        simp only [mem_cons, hf, false_or]
        rw [show k + 1 + (names rest).idxOf ftn = k + ((names rest).idxOf ftn).succ by omega]
      split
      · exact hstep _ (lookup_insert_ne hf)
      · exact hstep _ rfl

section Rebuild

variable (r : PropertyRanking)

theorem rebuild_eq :
    r.rebuildRankCacheIfNeeded =
      { r with
        trackIndexByName := r.rebuildRankCacheIfNeeded.trackIndexByName
        rankCacheValid := r.rebuildRankCacheIfNeeded.rankCacheValid } := by
  unfold rebuildRankCacheIfNeeded
  split <;> rfl

@[simp]
theorem rebuild_rankedTracks : r.rebuildRankCacheIfNeeded.rankedTracks = r.rankedTracks := by
  rw [rebuild_eq]

@[simp]
theorem rebuild_topNGroups : r.rebuildRankCacheIfNeeded.topNGroups = r.topNGroups := by
  rw [rebuild_eq]

@[simp]
theorem rebuild_counts :
    r.rebuildRankCacheIfNeeded.publisherTrackCount = r.publisherTrackCount := by
  rw [rebuild_eq]

@[simp]
theorem rebuild_nextSeq : r.rebuildRankCacheIfNeeded.nextSeq = r.nextSeq := by
  rw [rebuild_eq]

theorem getCachedRank_fst (ftn : FullTrackName) :
    (r.getCachedRank ftn).1 = r.rebuildRankCacheIfNeeded := by
  unfold getCachedRank
  dsimp only
  split <;> rfl

end Rebuild

variable {ftn : FullTrackName}

theorem rebuild_lookup (hnd : r.rankedTracks.names.Nodup)
    (h : r.rebuildRankCacheIfNeeded.trackIndexByName.lookup ftn = some i) :
    ∃ i', r.trackIndexByName.lookup ftn = some i' ∧ i'.rankIter = i.rankIter := by
  unfold rebuildRankCacheIfNeeded at h
  split at h
  · exact ⟨i, h, rfl⟩
  · dsimp only at h
    rw [rebuildLoop_lookup hnd] at h
    obtain ⟨i', hi', rfl⟩ := Option.map_eq_some_iff.mp h
    refine ⟨i', hi', ?_⟩
    split <;> rfl

theorem rebuild_lookup_some (hnd : r.rankedTracks.names.Nodup)
    (h : r.trackIndexByName.lookup ftn = some i) :
    ∃ i', r.rebuildRankCacheIfNeeded.trackIndexByName.lookup ftn = some i' ∧
      i'.rankIter = i.rankIter := by
  unfold rebuildRankCacheIfNeeded
  split
  · exact ⟨i, h, rfl⟩
  · dsimp only
    rw [rebuildLoop_lookup hnd, h]
    refine ⟨_, rfl, ?_⟩
    split <;> rfl

theorem RankInv.rebuild (h : RankInv r) :
    RankInv r.rebuildRankCacheIfNeeded where
  sorted := by rw [rebuild_rankedTracks]; exact h.sorted
  names_nodup := by rw [rebuild_rankedTracks]; exact h.names_nodup
  seq_distinct := by rw [rebuild_rankedTracks]; exact h.seq_distinct
  seq_lt := by rw [rebuild_rankedTracks, rebuild_nextSeq]; exact h.seq_lt
  index_mem := by
    intro e he
    rw [rebuild_rankedTracks] at he
    obtain ⟨i, hi, hkey⟩ := h.index_mem e he
    obtain ⟨i', hi', hkey'⟩ := rebuild_lookup_some h.names_nodup hi
    exact ⟨i', hi', hkey'.trans hkey⟩
  mem_index := by
    intro ftn i hi
    obtain ⟨i', hi', hkey⟩ := rebuild_lookup h.names_nodup hi
    rw [rebuild_rankedTracks, ← hkey]
    exact h.mem_index ftn i' hi'
  counts := by rw [rebuild_rankedTracks, rebuild_counts]; exact h.counts
  ranks := by
    intro _ ftn i hi
    rw [rebuild_rankedTracks]
    obtain ⟨i', hi', -⟩ := rebuild_lookup h.names_nodup hi
    have hmem : ftn ∈ r.rankedTracks.names := h.registered_iff.mp (by rw [hi']; rfl)
    unfold rebuildRankCacheIfNeeded at hi
    split at hi
    · rename_i hv
      exact h.ranks hv ftn i hi
    · dsimp only at hi
      rw [rebuildLoop_lookup h.names_nodup, hi', Option.map_some, if_pos hmem, Option.some.injEq] at hi
      rw [← hi, Nat.zero_add]

theorem RankInv.indexed (h : RankInv r) (hi : r.trackIndexByName.lookup ftn = some i) :
    ∃ publisher, (i.rankIter, ⟨ftn, publisher⟩) ∈ r.rebuildRankCacheIfNeeded.rankedTracks := by
  obtain ⟨entry, hmem, rfl⟩ := h.mem_index ftn i hi
  rw [rebuild_rankedTracks]
  exact ⟨entry.publisherRaw, hmem⟩

/-- **The cached rank of a registered track is its place in the order.** -/
theorem getCachedRank_idxOf (h : RankInv r) (hmem : ftn ∈ r.rankedTracks.names) :
    (r.getCachedRank ftn).2 = r.rankedTracks.names.idxOf ftn := by
  have hvalid : r.rebuildRankCacheIfNeeded.rankCacheValid = true := by
    unfold rebuildRankCacheIfNeeded
    split <;> first | assumption | rfl
  obtain ⟨i, hi⟩ := Option.isSome_iff_exists.mp (h.registered_iff.mpr hmem)
  obtain ⟨i', hi', -⟩ := rebuild_lookup_some h.names_nodup hi
  have hrank := h.rebuild.ranks hvalid _ i' hi'
  unfold getCachedRank
  dsimp only
  rw [hi']
  dsimp only
  rw [hrank, rebuild_rankedTracks]

theorem getCachedRank_eq (h : RankInv r) (hAB : r.rankedTracks = A ++ e :: B) : (r.getCachedRank e.2.ftn).2 = A.length := by
  have hnd := h.names_nodup
  rw [hAB, names_append, names_cons] at hnd
  have hnot : e.2.ftn ∉ A.names := fun hA =>
    (disjoint_of_nodup_append hnd) hA mem_cons_self
  have hmem : e.2.ftn ∈ r.rankedTracks.names := by
    rw [hAB, names_append, names_cons]
    simp
  rw [getCachedRank_idxOf h hmem, hAB, names_append, names_cons, idxOf_append_of_notMem hnot,
    idxOf_cons_self, names_length, Nat.add_zero]

/-! ## 5. What the operations do to the order -/

theorem countOf_middle (A B : RankedTracks) (e : RankKey × RankedEntry) (s : SessionRef) :
    countOf (A ++ e :: B) s = countOf (A ++ B) s + if e.2.publisherRaw = s then 1 else 0 := by
  unfold countOf
  simp only [countP_append, countP_cons, beq_iff_eq]
  omega

theorem publishes_middle (A B : RankedTracks) (e : RankKey × RankedEntry) (s : SessionRef) :
    publishes (A ++ e :: B) s = (e.2.publisherRaw == s || publishes (A ++ B) s) := by
  unfold publishes
  rw [any_append, any_cons, any_append, ← Bool.or_assoc, ← Bool.or_assoc,
    Bool.or_comm (A.any _)]

theorem mem_middle {α : Type*} {A B : List α} {a e : α} :
    a ∈ A ++ e :: B ↔ a = e ∨ a ∈ A ++ B := by
  simp only [mem_append, mem_cons]
  tauto

theorem names_middle_nodup :
    (names (A ++ e :: B)).Nodup ↔ e.2.ftn ∉ names (A ++ B) ∧ (names (A ++ B)).Nodup := by
  rw [names_append, names_cons, nodup_middle, nodup_cons, names_append]

theorem seqs_middle_nodup : ((A ++ e :: B).map fun e => e.1.arrivalSeq).Nodup ↔
    e.1.arrivalSeq ∉ (A ++ B).map (fun e => e.1.arrivalSeq) ∧ ((A ++ B).map fun e => e.1.arrivalSeq).Nodup := by
  rw [map_append, map_cons, nodup_middle, nodup_cons, map_append]

/-- **A new track is put in at one place of the order.** -/
theorem enterTrack_inserts (h : RankInv r) (hnew : r.trackIndexByName.lookup ftn = none) (value : Nat)
    (publisher : SessionRef) :
    RankInv (r.enterTrack ftn value publisher) ∧
      ∃ C D, r.rankedTracks = C ++ D ∧ (r.enterTrack ftn value publisher).rankedTracks =
        C ++ (⟨value, r.nextSeq⟩, ⟨ftn, publisher⟩) :: D := by
  have hkey : ∀ e ∈ r.rankedTracks, e.1 ≠ (⟨value, r.nextSeq⟩ : RankKey) := by
    intro e he heq
    have := h.seq_lt e he
    rw [heq] at this
    exact Nat.lt_irrefl _ this
  obtain ⟨C, D, hCD, hins⟩ := @emplace_split r.rankedTracks _ ⟨ftn, publisher⟩ hkey
  have hftn : ftn ∉ r.rankedTracks.names := by
    rw [← h.registered_iff, hnew]
    exact Bool.false_ne_true
  have hranked : (r.enterTrack ftn value publisher).rankedTracks =
      C ++ (⟨value, r.nextSeq⟩, ⟨ftn, publisher⟩) :: D := hins
  refine ⟨⟨emplace_sorted h.sorted, ?_, ?_, ?_, ?_, ?_, ?_, fun hv => nomatch hv⟩, C, D, hCD, hranked⟩
  · rw [hranked, names_middle_nodup, ← hCD]
    exact ⟨hftn, h.names_nodup⟩
  · rw [hranked, seqs_middle_nodup, ← hCD]
    refine ⟨?_, h.seq_distinct⟩
    intro hmem
    obtain ⟨e, he, hseq⟩ := mem_map.mp hmem
    have := h.seq_lt e he
    dsimp only at hseq
    omega
  · intro e he
    rw [hranked, mem_middle, ← hCD] at he
    show e.1.arrivalSeq < r.nextSeq + 1
    rcases he with rfl | he
    · exact Nat.lt_succ_self _
    · exact Nat.lt_succ_of_lt (h.seq_lt e he)
  · intro e he
    rw [hranked, mem_middle, ← hCD] at he
    show ∃ i, (r.trackIndexByName.insert ftn { rankIter := ⟨value, r.nextSeq⟩ }).lookup e.2.ftn =
      some i ∧ i.rankIter = e.1
    rcases he with rfl | he
    · exact ⟨_, lookup_insert _, rfl⟩
    · have hne : e.2.ftn ≠ ftn := fun heq => hftn (mem_names.mpr ⟨e, he, heq⟩)
      rw [lookup_insert_ne hne]
      exact h.index_mem e he
  · intro ftn' i hi
    rw [hranked]
    have hi' : (r.trackIndexByName.insert ftn { rankIter := ⟨value, r.nextSeq⟩ }).lookup ftn' =
      some i := hi
    by_cases heq : ftn' = ftn
    · subst heq
      rw [lookup_insert, Option.some.injEq] at hi'
      rw [← hi']
      exact ⟨⟨ftn', publisher⟩, by simp, rfl⟩
    · rw [lookup_insert_ne heq] at hi'
      obtain ⟨entry, hmem, hname⟩ := h.mem_index ftn' i hi'
      exact ⟨entry, mem_middle.mpr (Or.inr (hCD ▸ hmem)), hname⟩
  · intro s
    rw [hranked, countOf_middle, ← hCD]
    show (r.publisherTrackCount.insert publisher
      ((r.publisherTrackCount.lookup publisher).getD 0 + 1)).lookup s = _
    have hcount := h.counts s
    by_cases hs : s = publisher
    · subst hs
      rw [lookup_insert, hcount]
      split <;> simp_all
    · rw [lookup_insert_ne hs, hcount]
      simp [Ne.symm hs]

/-- **A track that changes its value moves from one place of the order to another.** -/
theorem moveTrack_moves (h : RankInv r) {oldKey : RankKey} {publisher : SessionRef}
    (hmem : (oldKey, ⟨ftn, publisher⟩) ∈ r.rankedTracks) {value : Nat} :
    RankInv (r.moveTrack ftn oldKey ⟨value, oldKey.arrivalSeq⟩ ⟨ftn, publisher⟩) ∧
      ∃ A B C D, r.rankedTracks = A ++ (oldKey, ⟨ftn, publisher⟩) :: B ∧
        (r.moveTrack ftn oldKey ⟨value, oldKey.arrivalSeq⟩ ⟨ftn, publisher⟩).rankedTracks =
          C ++ (⟨value, oldKey.arrivalSeq⟩, ⟨ftn, publisher⟩) :: D ∧ A ++ B = C ++ D := by
  obtain ⟨A, B, hAB, herase⟩ := erase_split h.sorted hmem
  have hseq := h.seq_distinct
  rw [hAB, seqs_middle_nodup] at hseq
  have hkey : ∀ e ∈ A ++ B, e.1 ≠ (⟨value, oldKey.arrivalSeq⟩ : RankKey) := by
    intro e he heq
    exact hseq.1 (mem_map.mpr ⟨e, he, by rw [heq]⟩)
  obtain ⟨C, D, hCD, hins⟩ := @emplace_split (A ++ B) _ ⟨ftn, publisher⟩ hkey
  have hranked : (r.moveTrack ftn oldKey ⟨value, oldKey.arrivalSeq⟩ ⟨ftn, publisher⟩).rankedTracks =
      C ++ (⟨value, oldKey.arrivalSeq⟩, ⟨ftn, publisher⟩) :: D := by
    show (r.rankedTracks.erase oldKey).emplace _ _ = _
    rw [herase]
    exact hins
  have hnames := h.names_nodup
  rw [hAB, names_middle_nodup] at hnames
  obtain ⟨i, hi, hikey⟩ := h.index_mem _ hmem
  have hindex : (r.moveTrack ftn oldKey ⟨value, oldKey.arrivalSeq⟩ ⟨ftn, publisher⟩).trackIndexByName =
      r.trackIndexByName.insert ftn { i with rankIter := ⟨value, oldKey.arrivalSeq⟩ } := by
    unfold moveTrack
    dsimp only at hi ⊢
    rw [hi]
  refine ⟨⟨?_, ?_, ?_, ?_, ?_, ?_, ?_, fun hv => nomatch hv⟩, A, B, C, D, hAB, hranked, hCD⟩
  · refine emplace_sorted ?_
    exact h.sorted.sublist (filter_sublist)
  · rw [hranked, names_middle_nodup, ← hCD]
    exact hnames
  · rw [hranked, seqs_middle_nodup, ← hCD]
    exact hseq
  · intro e he
    rw [hranked, mem_middle, ← hCD] at he
    show e.1.arrivalSeq < r.nextSeq
    rcases he with rfl | he
    · exact h.seq_lt (oldKey, ⟨ftn, publisher⟩) hmem
    · exact h.seq_lt e (by rw [hAB, mem_middle]; exact Or.inr he)
  · intro e he
    rw [hranked, mem_middle, ← hCD] at he
    rw [hindex]
    rcases he with rfl | he
    · exact ⟨_, lookup_insert _, rfl⟩
    · have hne : e.2.ftn ≠ ftn := fun heq => hnames.1 (mem_names.mpr ⟨e, he, heq⟩)
      rw [lookup_insert_ne hne]
      exact h.index_mem e (by rw [hAB, mem_middle]; exact Or.inr he)
  · intro ftn' j hj
    rw [hindex] at hj
    rw [hranked]
    by_cases heq : ftn' = ftn
    · subst heq
      rw [lookup_insert, Option.some.injEq] at hj
      rw [← hj]
      exact ⟨⟨ftn', publisher⟩, by simp, rfl⟩
    · rw [lookup_insert_ne heq] at hj
      obtain ⟨entry, hent, hname⟩ := h.mem_index ftn' j hj
      rw [hAB, mem_middle] at hent
      rcases hent with hent | hent
      · cases hent
        exact absurd hname.symm heq
      · exact ⟨entry, mem_middle.mpr (Or.inr (hCD ▸ hent)), hname⟩
  · intro s
    have hcount := h.counts s
    rw [hAB, countOf_middle] at hcount
    rw [hranked, countOf_middle, ← hCD]
    exact hcount

/-- **A removed track leaves the others in their order.** -/
theorem dropTrack_removes (h : RankInv r) {key : RankKey} {publisher : SessionRef}
    (hmem : (key, ⟨ftn, publisher⟩) ∈ r.rankedTracks) :
    RankInv (r.dropTrack ftn key) ∧
      ∃ A B, r.rankedTracks = A ++ (key, ⟨ftn, publisher⟩) :: B ∧
        (r.dropTrack ftn key).rankedTracks = A ++ B := by
  obtain ⟨A, B, hAB, herase⟩ := erase_split h.sorted hmem
  have hcp := h.counts publisher
  rw [hAB, countOf_middle, if_pos rfl, if_neg (Nat.succ_ne_zero _)] at hcp
  have hdrop : r.dropTrack ftn key = (updatePublisherExtendedThreshold { r with
      publisherTrackCount :=
        if countOf (A ++ B) publisher = 0 then r.publisherTrackCount.erase publisher
        else r.publisherTrackCount.insert publisher (countOf (A ++ B) publisher) }).withoutTrack
          key ftn := by
    unfold dropTrack uncountTrack
    rw [at?_of_mem h.sorted hmem]
    dsimp only
    rw [hcp]
    rfl
  have hranked : (r.dropTrack ftn key).rankedTracks = A ++ B := by
    rw [hdrop]
    exact herase
  have hnames := h.names_nodup
  rw [hAB, names_middle_nodup] at hnames
  have hold : ∀ e ∈ A ++ B, e ∈ r.rankedTracks := fun e he => by
    rw [hAB, mem_middle]
    exact Or.inr he
  have hindex : (r.dropTrack ftn key).trackIndexByName = r.trackIndexByName.erase ftn := by
    rw [hdrop]
    rfl
  refine ⟨⟨?_, ?_, ?_, ?_, ?_, ?_, ?_, ?_⟩, A, B, hAB, hranked⟩
  · rw [hranked, ← herase]
    exact h.sorted.sublist filter_sublist
  · rw [hranked]
    exact hnames.2
  · have hseq := h.seq_distinct
    rw [hAB, seqs_middle_nodup] at hseq
    rw [hranked]
    exact hseq.2
  · intro e he
    rw [hranked] at he
    rw [hdrop]
    exact h.seq_lt e (hold e he)
  · intro e he
    rw [hranked] at he
    have hne : e.2.ftn ≠ ftn := fun heq => hnames.1 (mem_names.mpr ⟨e, he, heq⟩)
    rw [hindex, lookup_erase_ne hne]
    exact h.index_mem e (hold e he)
  · intro ftn' j hj
    rw [hindex] at hj
    rw [hranked]
    by_cases heq : ftn' = ftn
    · subst heq
      rw [lookup_erase] at hj
      cases hj
    · rw [lookup_erase_ne heq] at hj
      obtain ⟨entry, hent, hname⟩ := h.mem_index ftn' j hj
      rw [hAB, mem_middle] at hent
      rcases hent with hent | hent
      · cases hent
        exact absurd hname.symm heq
      · exact ⟨entry, hent, hname⟩
  · intro s
    have hcount := h.counts s
    rw [hAB, countOf_middle] at hcount
    rw [hranked, hdrop]
    show lookup s (if countOf (A ++ B) publisher = 0 then r.publisherTrackCount.erase publisher
        else r.publisherTrackCount.insert publisher (countOf (A ++ B) publisher)) = _
    by_cases hs : s = publisher
    · subst hs
      split
      · rw [lookup_erase]
      · rw [lookup_insert]
    · rw [if_neg (Ne.symm hs), Nat.add_zero] at hcount
      rw [← hcount]
      split
      · rw [lookup_erase_ne hs]
      · rw [lookup_insert_ne hs]
  · intro hv
    rw [hdrop] at hv
    cases hv

end PropertyRanking

end Moqx

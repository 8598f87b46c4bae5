/-
  Subject: What sessions see that also publish.

  * `publisher_register`, `publisher_move`, `publisher_remove` -- one operation, for a session that
    publishes before or after it;
  * **`publishers_see_others`** -- in runs of safe operations every session has been delivered exactly its
    first `N` tracks of other sessions;
  * `publisher_loses_track` -- an operation that is not safe, and the track a publisher loses;
  * **`fast_path_keeps_windows`** -- a move that crosses no threshold changes nothing a session can see.
-/
import Moqx.Ranking.Viewers

namespace Moqx

open PropertyRanking RankedTracks List

variable {op : Op} {after before : RankedTracks} {o : Observed}

/-! ## 1. The condition -/

/-- A track that is evicted from the shared first `n` is not one that a publishing session keeps. -/
def spares (after : RankedTracks) (n : Nat) (s : SessionRef) (evicted : Option FullTrackName) : Bool :=
  !after.publishes s || evicted.all (· ∉ after.personal s n)

/-- The list a session is reconciled from agrees with what it has been delivered. -/
def agrees (start delivered now : List FullTrackName) : Bool :=
  now.all (fun t => decide (t ∈ start) == decide (t ∈ delivered)) &&
    delivered.all fun t => decide (t ∈ now) || decide (t ∈ start)

/-- The track that leaves the shared first `n` when a track moves. -/
def evictedByMove (without : RankedTracks) (ftn : FullTrackName) (oldRank newRank n : Nat) :
    Option FullTrackName :=
  if n ≤ oldRank ∧ newRank < n then boundary without n
  else if oldRank < n ∧ n ≤ newRank then some ftn
  else none

/-- The operation serves a session of the group `n` correctly. -/
def Op.safeFor (r : PropertyRanking) (n : Nat) (s : SessionRef) (info : SessionInfo) : Op → Bool
  | .registerTrack ftn value publisher =>
    let before := r.rankedTracks
    let after := r.orderAfter (.registerTrack ftn value publisher)
    decide (ftn ∈ before.names) ||
      (spares after n s (if after.names.idxOf ftn < n then boundary before n else none) &&
        if s = publisher then
          before.publishes s || agrees (seeds after info n) (before.names.take n) (after.personal s n)
        else !after.publishes s || decide (ftn ∉ info.selectedTracks) || decide (ftn ∉ after.personal s n))
  | .updateSortValue ftn value activity =>
    let before := r.rankedTracks
    let after := r.orderAfter (.updateSortValue ftn value activity)
    spares after n s (evictedByMove (before.filter fun e => e.2.ftn ≠ ftn) ftn (before.names.idxOf ftn)
      (after.names.idxOf ftn) n)
  | .removeTrack ftn =>
    let before := r.rankedTracks
    let after := r.orderAfter (.removeTrack ftn)
    let rank := before.names.idxOf ftn
    if before.publishes s then
      if after.publishes s then
        decide (rank < n) || decide (ftn ∉ before.personal s n) ||
          decide ((before.filter fun e => e.2.publisherRaw ≠ s).length ≤ n)
      else decide (n ≤ rank) || decide (before.length ≤ n)
    else true
  | _ => true

/-- The operation serves every session of every group correctly. -/
def Op.safe (r : PropertyRanking) (op : Op) : Bool :=
  r.topNGroups.entries.all fun g => g.2.sessions.entries.all fun s => op.safeFor r g.1 s.1 s.2

theorem Op.safe_member {r : PropertyRanking} (h : op.safe r = true) {n : Nat} {s : SessionRef}
    {info : SessionInfo} (hm : r.member n s = some info) : op.safeFor r n s info = true := by
  obtain ⟨g, hg, hs⟩ := member_some hm
  have hgroup := all_eq_true.mp h _ (AList.mem_lookup_iff.mp hg)
  exact all_eq_true.mp hgroup _ (AList.mem_lookup_iff.mp hs)

/-! ## 2. The tracks of other sessions -/

namespace RankedTracks

variable {A B C D : RankedTracks} {e : RankKey × RankedEntry} {s : SessionRef} {n : Nat} {t : FullTrackName}

def others (ranked : RankedTracks) (s : SessionRef) : RankedTracks :=
  ranked.filter fun e => e.2.publisherRaw ≠ s

theorem personal_eq (ranked : RankedTracks) (s : SessionRef) (n : Nat) :
    ranked.personal s n = (names (ranked.others s)).take n := rfl

theorem others_append (A B : RankedTracks) (s : SessionRef) :
    others (A ++ B) s = others A s ++ others B s := filter_append ..

theorem others_own (h : e.2.publisherRaw = s) : others (A ++ e :: B) s = others (A ++ B) s := by
  rw [others_append, others_append]
  unfold others
  rw [filter_cons_of_neg (by simpa using h)]

theorem others_other (h : e.2.publisherRaw ≠ s) :
    others (A ++ e :: B) s = others A s ++ e :: others B s := by
  rw [others_append]
  unfold others
  rw [filter_cons_of_pos (by simpa using h)]

theorem personal_own (h : e.2.publisherRaw = s) : personal (A ++ e :: B) s n = personal (A ++ B) s n := by
  rw [personal_eq, personal_eq, others_own h]

theorem mem_names_of_personal {ranked : RankedTracks} (h : t ∈ ranked.personal s n) : t ∈ ranked.names := by
  have hmem := mem_of_mem_take h
  obtain ⟨e, he, ht⟩ := mem_names.mp hmem
  exact mem_names.mpr ⟨e, (mem_filter.mp he).1, ht⟩

theorem personal_nodup {ranked : RankedTracks} (h : ranked.names.Nodup) : (ranked.personal s n).Nodup := by
  refine List.Nodup.sublist (take_sublist _ _) ?_
  exact h.sublist (filter_sublist.map _)

theorem own_not_personal (hnd : (names (A ++ e :: B)).Nodup) (h : e.2.publisherRaw = s) :
    e.2.ftn ∉ personal (A ++ e :: B) s n := by
  rw [personal_own h]
  exact fun hmem => (names_middle_nodup.mp hnd).1 (mem_names_of_personal hmem)

theorem mem_names_middle : t ∈ names (A ++ e :: B) ↔ t = e.2.ftn ∨ t ∈ names (A ++ B) := by
  rw [names_append, names_cons, names_append]
  exact mem_middle

theorem idxOf_middle (hnd : (names (A ++ e :: B)).Nodup) :
    (names (A ++ e :: B)).idxOf e.2.ftn = A.length := by
  have hnot : e.2.ftn ∉ names A := by
    intro h
    refine (names_middle_nodup.mp hnd).1 ?_
    rw [names_append]
    exact mem_append_left _ h
  rw [names_append, names_cons, idxOf_append_of_notMem hnot, idxOf_cons_self, names_length,
    Nat.add_zero]

theorem filter_names_middle (hnd : (names (A ++ e :: B)).Nodup) :
    (A ++ e :: B).filter (fun e' => decide (e'.2.ftn ≠ e.2.ftn)) = A ++ B := by
  obtain ⟨hnot, -⟩ := names_middle_nodup.mp hnd
  rw [filter_append, filter_cons_of_neg (by simp), ← filter_append,
    filter_eq_self.mpr]
  intro e' he'
  exact decide_eq_true fun heq => hnot (mem_names.mpr ⟨e', he', heq⟩)

theorem length_others (ranked : RankedTracks) (s : SessionRef) :
    (ranked.others s).length + ranked.countOf s = ranked.length := by
  unfold others countOf
  rw [← countP_eq_length_filter, Nat.add_comm,
    length_eq_countP_add_countP (fun e : RankKey × RankedEntry => e.2.publisherRaw == s)]
  congr 1
  refine countP_congr fun e _ => ?_
  simp

/-- A track of another session outside the window is not among the first `n` of the others. -/
theorem others_window (h : n + countOf (A ++ e :: B) s ≤ A.length) : n ≤ (others A s).length := by
  have hA := length_others A s
  have hle : countOf A s ≤ countOf (A ++ e :: B) s := by
    unfold countOf
    rw [countP_append]
    exact Nat.le_add_right _ _
  omega

theorem personal_window {key newKey : RankKey} {entry : RankedEntry} (hAC : A ++ B = C ++ D)
    (hA : n + countOf (A ++ (key, entry) :: B) s ≤ A.length)
    (hC : n + countOf (C ++ (newKey, entry) :: D) s ≤ C.length) :
    personal (A ++ (key, entry) :: B) s n = personal (C ++ (newKey, entry) :: D) s n := by
  by_cases hown : entry.publisherRaw = s
  · rw [personal_own hown, personal_own hown, hAC]
  · rw [personal_eq, personal_eq, others_other hown, others_other hown,
      take_with_outside (others_window hA), take_with_outside (others_window hC), ← others_append,
      ← others_append, hAC]

end RankedTracks

/-! ## 3. One operation -/

section Steps

variable {v : View} {n : Nat} {s : SessionRef} {ftn : FullTrackName} {rem rem' : List FullTrackName}
  {ds : List Delivery}

variable {ranked A B : RankedTracks} {info : SessionInfo} {r : PropertyRanking} {key : RankKey}
  {publisher : SessionRef}

/-- The group remembers for a session exactly the registered tracks it should see. -/
def Remembers (ranked : RankedTracks) (s : SessionRef) (n : Nat) (rem : List FullTrackName) : Prop :=
  ∀ t ∈ ranked.names, t ∈ rem ↔ t ∈ ranked.personal s n

/-- The first `n` tracks of other sessions, as a set. -/
def othersN (ranked : RankedTracks) (s : SessionRef) (n : Nat) : Set FullTrackName :=
  {t | t ∈ ranked.personal s n}

theorem mem_othersN {t : FullTrackName} :
    t ∈ othersN ranked s n ↔ t ∈ ranked.personal s n := Iff.rfl

theorem Remembers.self (ranked : RankedTracks) (s : SessionRef) (n : Nat) :
    Remembers ranked s n (ranked.personal s n) := fun _ _ => Iff.rfl

theorem Shows.reconciled {ranked' : RankedTracks} {S : Set FullTrackName} (hnd : ranked'.names.Nodup)
    (h : Shows v S) (hS : ∀ t ∈ S, t ∈ ranked.personal s n) (hrem : Remembers ranked s n rem)
    (hnow : ∀ t ∈ ranked'.personal s n, t ∈ ranked.names ∧ (t ∈ ranked.personal s n → t ∈ S)) :
    Shows (v.hearAll (Moqx.delta rem (ranked'.personal s n))) (othersN ranked' s n) := by
  refine h.delta (personal_nodup hnd) (fun t ht => ?_) (fun t ht _ => ?_)
  · obtain ⟨hname, hback⟩ := hnow t ht
    rw [hrem t hname]
    exact ⟨hback, hS t⟩
  · exact (hrem t (mem_names_of_personal (hS t ht))).mpr (hS t ht)

theorem Shows.spared {evicted : Option FullTrackName} (hp : ranked.publishes s = true)
    (hspare : spares ranked n s evicted = true) (h : Shows v (othersN ranked s n)) :
    Shows (v.hearAll (evicted.toList.map .evict)) (othersN ranked s n) := by
  refine (h.evicts _).congr fun t => ⟨And.left, fun ht => ⟨ht, fun hx => ?_⟩⟩
  unfold spares at hspare
  rw [hp, Bool.not_true, Bool.false_or, Option.all_eq_true] at hspare
  exact of_decide_eq_true (hspare t (Option.mem_toList.mp hx)) ht

theorem remembers_publisher (hp : ranked.publishes s = true) :
    remembers ranked none n s rem = ranked.personal s n := by
  unfold remembers
  rw [reconciles_none, if_pos hp]

theorem seeds_publisher {after : RankedTracks} (hn : 1 ≤ n) (hrem : Remembers ranked s n info.selectedTracks) :
    seeds after info n = info.selectedTracks ∨ others ranked s = [] := by
  unfold seeds
  by_cases hw : wasPublisher info = true
  · rw [if_pos hw]
    exact Or.inl rfl
  · refine Or.inr ?_
    have hempty : info.selectedTracks = [] := by
      unfold wasPublisher at hw
      rw [Bool.or_eq_true, not_or, Bool.not_eq_true, Bool.not_eq_false', List.isEmpty_iff] at hw
      exact hw.1
    rw [hempty] at hrem
    cases ho : others ranked s with
    | nil => rfl
    | cons e rest =>
      have hmem : e.2.ftn ∈ ranked.personal s n := by
        rw [personal_eq, ho, names_cons]
        obtain ⟨k, rfl⟩ : ∃ k, n = k + 1 := ⟨n - 1, by omega⟩
        exact mem_cons_self
      exact absurd ((hrem _ (mem_names_of_personal hmem)).mpr hmem) not_mem_nil

/-- **A track is registered, for a session that publishes afterwards.** -/
theorem publisher_register {value : Option Nat} {C D : RankedTracks} (hn : 1 ≤ n)
    (hnd : after.names.Nodup) (hL : after = C ++ (key, ⟨ftn, publisher⟩) :: D)
    (hbefore : r.rankedTracks = C ++ D)
    (hafter : r.orderAfter (.registerTrack ftn value publisher) = after)
    (hp : after.publishes s = true)
    (hsafe : Op.safeFor r n s info (.registerTrack ftn value publisher) = true)
    (hrem : publishes (C ++ D) s = true → Remembers (C ++ D) s n info.selectedTracks)
    (h : Shows v (othersN (C ++ D) s n)) :
    Shows (v.hearAll (registerHeard after ftn publisher (C ++ D) C.length n s info))
      (othersN after s n) := by
  obtain ⟨hftn, -⟩ := names_middle_nodup.mp (hL ▸ hnd)
  have hidx := idxOf_middle (hL ▸ hnd)
  dsimp only at hftn hidx
  unfold Op.safeFor at hsafe
  dsimp only at hsafe
  rw [hafter, hbefore, hL, hidx, ← hL, decide_eq_false hftn, Bool.false_or, Bool.and_eq_true] at hsafe
  obtain ⟨hspare, hstart⟩ := hsafe
  have hnames : ∀ t ∈ after.personal s n, t = ftn ∨ t ∈ names (C ++ D) := by
    intro t ht
    have := mem_names_of_personal ht
    rw [hL] at this
    exact mem_names_middle.mp this
  have hnow : Shows (v.hearAll (delta (startsFrom after publisher n s info) (after.personal s n)))
      (othersN after s n) := by
    unfold startsFrom
    by_cases hs : s = publisher
    · rw [if_pos hs] at hstart ⊢
      have hown : ∀ t ∈ after.personal s n, t ∈ names (C ++ D) := by
        intro t ht
        refine (hnames t ht).resolve_left ?_
        rintro rfl
        rw [hL] at ht hnd
        exact own_not_personal hnd hs.symm ht
      by_cases hpub : publishes (C ++ D) s = true
      · -- a publisher already: what it sees does not change
        rcases @seeds_publisher _ _ _ _ after hn (hrem hpub) with hseeds | hnone
        · rw [hseeds]
          exact Shows.reconciled hnd h (fun t ht => ht) (hrem hpub)
            fun t ht => ⟨hown t ht, fun ht' => ht'⟩
        · have hempty : after.personal s n = [] := by
            rw [hL, personal_own hs.symm, personal_eq, hnone]
            exact take_nil
          refine h.delta (personal_nodup hnd) (fun t ht => ?_) (fun t ht => ?_)
          · rw [hempty] at ht
            cases ht
          · rw [mem_othersN, personal_eq, hnone] at ht
            exact absurd (mem_of_mem_take ht) not_mem_nil
      · -- a viewer becomes a publisher
        rw [Bool.not_eq_true] at hpub
        rw [hpub, Bool.false_or] at hstart
        unfold agrees at hstart
        rw [Bool.and_eq_true, all_eq_true, all_eq_true] at hstart
        refine h.delta (personal_nodup hnd) (fun t ht => ?_) (fun t ht hnot => ?_)
        · have := hstart.1 t ht
          rw [beq_iff_eq, decide_eq_decide] at this
          rw [this, mem_othersN, personal_viewer hpub]
        · rw [mem_othersN, personal_viewer hpub] at ht
          have := hstart.2 t ht
          rw [Bool.or_eq_true, decide_eq_true_eq, decide_eq_true_eq] at this
          exact this.resolve_left hnot
    · rw [if_neg hs, hp, Bool.not_true, Bool.false_or, Bool.or_eq_true, decide_eq_true_eq,
        decide_eq_true_eq] at hstart
      rw [if_neg hs]
      have hpub : publishes (C ++ D) s = true := by
        rw [hL, publishes_middle, Bool.or_eq_true] at hp
        exact hp.resolve_left fun heq => hs (eq_of_beq heq).symm
      refine h.delta (personal_nodup hnd) (fun t ht => ?_) (fun t ht _ => ?_)
      · rcases hnames t ht with rfl | hname
        · have hnot : t ∉ info.selectedTracks := hstart.resolve_right fun hno => hno ht
          exact ⟨fun hm => absurd hm hnot,
            fun hm => absurd (mem_names_of_personal (mem_othersN.mp hm)) hftn⟩
        · exact hrem hpub t hname
      · exact (hrem hpub t (mem_names_of_personal (mem_othersN.mp ht))).mpr ht
  unfold registerHeard
  rw [if_pos hp, View.hearAll_append]
  by_cases hC : C.length < n
  · rw [if_pos hC] at hspare ⊢
    exact hnow.spared hp hspare
  · rw [if_neg hC]
    exact hnow

/-- **A track moves, for a session that publishes.** -/
theorem publisher_move {value : Nat} {activity : Activity} {C D : RankedTracks} {newKey : RankKey}
    (hnd : before.names.Nodup) (hnd' : after.names.Nodup)
    (hAB : before = A ++ (key, ⟨ftn, publisher⟩) :: B)
    (hCD : after = C ++ (newKey, ⟨ftn, publisher⟩) :: D) (hAC : A ++ B = C ++ D)
    (hbefore : r.rankedTracks = before)
    (hafter : r.orderAfter (.updateSortValue ftn value activity) = after)
    (hp : after.publishes s = true)
    (hsafe : Op.safeFor r n s info (.updateSortValue ftn value activity) = true)
    (hrem : Remembers before s n rem)
    (hm : MoveHeard after ftn publisher (C ++ D) A.length C.length n s rem rem' ds)
    (h : Shows v (othersN before s n)) :
    Shows (v.hearAll ds) (othersN after s n) ∧ Remembers after s n rem' := by
  have hspare : spares after n s (evictedByMove (C ++ D) ftn A.length C.length n) = true := by
    have hidx := idxOf_middle (hAB ▸ hnd)
    have hidx' := idxOf_middle (hCD ▸ hnd')
    have hfilter := filter_names_middle (hAB ▸ hnd)
    dsimp only at hidx hidx' hfilter
    unfold Op.safeFor at hsafe
    dsimp only at hsafe
    rwa [hafter, hbefore, hAB, hCD, hidx, hidx', hfilter, hAC, ← hCD] at hsafe
  have hnames : ∀ t, t ∈ before.names ↔ t ∈ after.names := by
    intro t
    rw [hAB, hCD, mem_names_middle, mem_names_middle, hAC]
  -- what the session sees stays the same when nothing is sent to it
  have hkept : othersN before s n = othersN after s n →
      Shows v (othersN after s n) ∧ Remembers after s n rem := by
    intro heq
    refine ⟨heq ▸ h, fun t ht => ?_⟩
    rw [hrem t ((hnames t).mpr ht)]
    show t ∈ othersN _ s n ↔ t ∈ othersN _ s n
    rw [heq]
  -- the owner is left out of the pass, the others are reconciled
  have hpass : Shows (v.hearAll (corrected after (some publisher) n s rem)) (othersN after s n) ∧
      Remembers after s n (remembers after (some publisher) n s rem) := by
    unfold corrected remembers reconciles
    by_cases hs : s = publisher
    · have hno : ¬((after.publishes s && decide (some s ≠ some publisher)) = true) := by simp [hs]
      rw [if_neg hno, if_neg hno]
      refine hkept ?_
      unfold othersN
      rw [hAB, hCD, personal_own (e := (key, (⟨ftn, publisher⟩ : RankedEntry))) hs.symm,
        personal_own (e := (newKey, (⟨ftn, publisher⟩ : RankedEntry))) hs.symm, hAC]
    · have hyes : (after.publishes s && decide (some s ≠ some publisher)) = true := by simp [hs, hp]
      rw [if_pos hyes, if_pos hyes]
      refine ⟨Shows.reconciled hnd' h (fun t ht => ht) hrem fun t ht => ?_, Remembers.self _ s n⟩
      exact ⟨(hnames t).mpr (mem_names_of_personal ht), fun ht' => ht'⟩
  cases hm with
  | skipped hstay hwin =>
    obtain ⟨hA, hC⟩ := hwin hp
    refine hkept ?_
    unfold othersN
    rw [hCD] at hA hC
    rw [hAB, hCD, personal_window hAC _ hC]
    rw [countOf_middle, hAC]
    rw [countOf_middle] at hA
    exact hA
  | staying hstay => exact hpass
  | entering hA hC =>
    unfold evictedByMove at hspare
    rw [if_pos ⟨hA, hC⟩] at hspare
    rw [if_pos hp, append_nil, View.hearAll_append]
    exact ⟨hpass.1.spared hp hspare, hpass.2⟩
  | leaving z hA hC hz =>
    unfold evictedByMove at hspare
    rw [if_neg (by omega), if_pos ⟨hA, hC⟩] at hspare
    unfold spares at hspare
    rw [hp, Bool.not_true, Bool.false_or, Option.all_some, decide_eq_true_eq] at hspare
    unfold announced
    rw [if_pos hp, View.hearAll_cons, remembers_publisher hp]
    refine ⟨Shows.reconciled hnd' (h.evict ftn) (fun t ht => ht.1) hrem fun t ht => ?_,
      Remembers.self _ s n⟩
    refine ⟨(hnames t).mpr (mem_names_of_personal ht), fun ht' => ⟨ht', ?_⟩⟩
    rintro rfl
    exact hspare ht

/-- The first `n` of the others without a track that is not among them, or when they all fit. -/
theorem personal_without {e : RankKey × RankedEntry} (hnd : (names (A ++ e :: B)).Nodup)
    (h : e.2.ftn ∉ personal (A ++ e :: B) s n ∨ (others (A ++ e :: B) s).length ≤ n) (t : FullTrackName) :
    t ∈ personal (A ++ e :: B) s n ∧ t ≠ e.2.ftn ↔ t ∈ personal (A ++ B) s n := by
  obtain ⟨hnot, -⟩ := names_middle_nodup.mp hnd
  have hback : t ∈ personal (A ++ B) s n → t ≠ e.2.ftn := by
    rintro ht rfl
    exact hnot (mem_names_of_personal ht)
  by_cases hown : e.2.publisherRaw = s
  · rw [personal_own hown]
    exact ⟨And.left, fun ht => ⟨ht, hback ht⟩⟩
  · rw [personal_eq, others_other hown] at h
    rw [personal_eq, others_append] at hback
    rw [personal_eq, personal_eq, others_other hown, others_append]
    by_cases hA : (others A s).length < n
    · rw [mem_take_with hA] at h ⊢
      rcases h with h | h
      · exact absurd (Or.inl rfl) h
      · rw [length_append, length_cons] at h
        have hall : ∀ k, (others A s ++ others B s).length ≤ k →
            (names (others A s ++ others B s)).take k = names (others A s ++ others B s) := by
          intro k hk
          exact take_of_length_le (by rw [names_length]; exact hk)
        rw [hall n (by rw [length_append]; omega)] at hback ⊢
        rw [hall (n - 1) (by rw [length_append]; omega)]
        exact ⟨fun ht => ht.1.resolve_left ht.2, fun ht => ⟨Or.inr ht, hback ht⟩⟩
    · rw [take_with_outside (Nat.le_of_not_lt hA)]
      exact ⟨And.left, fun ht => ⟨ht, hback ht⟩⟩

/-- **A track is removed, for a session that publishes before.** -/
theorem publisher_remove (hn : 1 ≤ n) (hnd : before.names.Nodup)
    (hL : before = A ++ (key, ⟨ftn, publisher⟩) :: B) (hbefore : r.rankedTracks = before)
    (hp : before.publishes s = true) (hsafe : Op.safeFor r n s info (.removeTrack ftn) = true)
    (hrem : Remembers before s n rem) (hr : RemoveHeard (A ++ B) A.length n s rem rem' ds)
    (h : Shows v (othersN before s n)) :
    Shows ((v.forget ftn).hearAll ds) (othersN (A ++ B) s n) ∧
      (publishes (A ++ B) s = true → Remembers (A ++ B) s n rem') := by
  obtain ⟨hftn, hndAB⟩ := names_middle_nodup.mp (hL ▸ hnd)
  have hidx := idxOf_middle (hL ▸ hnd)
  have hfilter := filter_names_middle (hL ▸ hnd)
  dsimp only at hftn hidx hfilter
  unfold Op.safeFor orderAfter at hsafe
  dsimp only at hsafe
  rw [hbefore, if_pos hp, hL, hidx, hfilter, ← hL] at hsafe
  have hnames : ∀ t ∈ names (A ++ B), t ∈ before.names ∧ t ≠ ftn := by
    intro t ht
    refine ⟨hL ▸ mem_names_middle.mpr (Or.inr ht), ?_⟩
    rintro rfl
    exact hftn ht
  -- nothing is sent, and what remains is what the session should see
  have hkept : (ftn ∉ before.personal s n ∨ (others before s).length ≤ n) →
      Shows (v.forget ftn) (othersN (A ++ B) s n) ∧ Remembers (A ++ B) s n rem := by
    intro hor
    rw [hL] at hnd hor h hrem hnames
    have hset := personal_without hnd hor
    refine ⟨(h.forget ftn).congr hset, fun t ht => ?_⟩
    obtain ⟨hname, hne⟩ := hnames t ht
    rw [hrem t hname, ← hset t]
    exact ⟨fun ht' => ⟨ht', hne⟩, And.left⟩
  -- the number of tracks is not above `n` when there is no track at the boundary
  have hfew : boundary (A ++ B) n = none → (others before s).length ≤ n := by
    intro hb
    unfold boundary at hb
    rw [getElem?_eq_none_iff, names_length, length_append] at hb
    have := length_others before s
    rw [congrArg length hL, length_append, length_cons] at this
    omega
  by_cases hp' : publishes (A ++ B) s = true
  · rw [if_pos hp', Bool.or_eq_true, Bool.or_eq_true, decide_eq_true_eq, decide_eq_true_eq,
      decide_eq_true_eq] at hsafe
    cases hr with
    | replaced z hA hz =>
      unfold announced
      rw [if_pos hp', remembers_publisher hp']
      refine ⟨Shows.reconciled hndAB (h.forget ftn) (fun t ht => ht.1) hrem fun t ht => ?_,
        fun _ => Remembers.self _ s n⟩
      obtain ⟨hname, hne⟩ := hnames t (mem_names_of_personal ht)
      exact ⟨hname, fun ht' => ⟨ht', hne⟩⟩
    | quiet hquiet =>
      have hor : ftn ∉ before.personal s n ∨ (others before s).length ≤ n := by
        rcases hsafe with (hA | hnot) | hlen
        · exact Or.inr (hfew (hquiet hA))
        · exact Or.inl hnot
        · exact Or.inr hlen
      exact ⟨(hkept hor).1, fun _ => (hkept hor).2⟩
  · -- the session loses its last track: it saw the tracks of the others, which are all that is left
    rw [if_neg hp', Bool.or_eq_true, decide_eq_true_eq, decide_eq_true_eq] at hsafe
    have hown : publisher = s := by
      rw [hL, publishes_middle, Bool.or_eq_true] at hp
      exact eq_of_beq (hp.resolve_right hp')
    refine ⟨?_, fun hpub => absurd hpub hp'⟩
    have hnot : ftn ∉ before.personal s n := by
      rw [hL] at hnd ⊢
      exact own_not_personal hnd hown
    cases hr with
    | replaced z hA hz =>
      exfalso
      have hlt : n - 1 < (names (A ++ B)).length := by
        by_contra hge
        unfold boundary at hz
        rw [getElem?_eq_none (Nat.le_of_not_lt hge)] at hz
        cases hz
      rw [names_length, length_append] at hlt
      rw [congrArg length hL, length_append, length_cons] at hsafe
      omega
    | quiet hquiet => exact (hkept (Or.inl hnot)).1

end Steps

/-! ## 4. Whole runs -/

/-- Every session sees its first `n` tracks of other sessions; for those that publish the group
    remembers them. -/
structure PublisherInv (o : Observed) : Prop where
  ranking : RankingInv o.ranking
  views : ∀ n s info, o.ranking.member n s = some info →
    Shows (o.view n s) (othersN o.ranking.rankedTracks s n)
  remembered : ∀ n s info, o.ranking.member n s = some info →
    o.ranking.rankedTracks.publishes s = true → Remembers o.ranking.rankedTracks s n info.selectedTracks

theorem othersN_viewer {ranked : RankedTracks} {s : SessionRef} {n : Nat}
    (hp : ranked.publishes s = false) : othersN ranked s n = topN ranked n := by
  unfold othersN topN
  rw [personal_viewer hp]

/-- **One safe operation, for a session that publishes before or after it.** -/
theorem publisher_step (h : PublisherInv o) (hsafe : op.safe o.ranking = true)
    (hinv : RankingInv (o.ranking.step op).1) {n : Nat} {s : SessionRef} {info : SessionInfo}
    (hmem : (o.ranking.step op).1.member n s = some info)
    (hk : StepKind o.ranking op (o.ranking.step op) n s info)
    (hp : o.ranking.rankedTracks.publishes s = true ∨
      (o.ranking.step op).1.rankedTracks.publishes s = true) :
    Shows (((o.view n s).before n s op).hearAll (heardIn n s (o.ranking.step op).2))
        (othersN (o.ranking.step op).1.rankedTracks s n) ∧
      ((o.ranking.step op).1.rankedTracks.publishes s = true →
        Remembers (o.ranking.step op).1.rankedTracks s n info.selectedTracks) := by
  obtain ⟨g, hg, -⟩ := member_some hmem
  have hn : 1 ≤ n := (hinv.groups n g hg).1
  have hnd := h.ranking.rank.names_nodup
  have hnd' := hinv.rank.names_nodup
  cases hk with
  | untouched hu hremove hjoin =>
    obtain ⟨info₀, hinfo₀, hsel⟩ := hu.member
    rw [hu.heard, hu.order, View.hearAll_nil, ← hsel]
    refine ⟨(h.views n s info₀ hinfo₀).before (fun ftn hop hmem => hremove ftn hop ?_) hjoin,
      h.remembered n s info₀ hinfo₀⟩
    exact mem_names_of_personal (mem_othersN.mp hmem)
  | joins forward hjoin _ hranked hrem hheard =>
    have hp' : o.ranking.rankedTracks.publishes s = true := by
      rw [hranked] at hp
      exact hp.elim id id
    rw [hp', if_pos rfl] at hheard hrem
    rw [hheard, hranked, hrem]
    have hfresh : (o.view n s).before n s op = {} := by
      rw [hjoin]
      exact if_pos ⟨rfl, rfl⟩
    rw [hfresh]
    have hempty : Shows ({} : View) ∅ := ⟨fun t => by simp, rfl⟩
    refine ⟨hempty.delta (personal_nodup hnd) (fun t _ => ?_) (fun t ht => absurd ht (Set.notMem_empty t)),
      fun _ => Remembers.self _ s n⟩
    exact ⟨fun hm => absurd hm not_mem_nil, fun hm => absurd hm (Set.notMem_empty t)⟩
  | registers ftn value publisher key C D info₀ heq hCD hranked hinfo₀ hrem hheard horder =>
    have hviews := h.views n s info₀ hinfo₀
    have hsafe₀ := Op.safe_member hsafe hinfo₀
    have hrem₀ := h.remembered n s info₀ hinfo₀
    have hp' : (o.ranking.step op).1.rankedTracks.publishes s = true := by
      rcases hp with hp | hp
      · rw [hCD] at hp
        rw [hranked, publishes_middle, hp, Bool.or_true]
      · exact hp
    rw [← hranked] at hrem hheard horder
    rw [hheard, hrem, remembers_publisher hp']
    rw [hCD] at hviews hrem₀
    subst heq
    exact ⟨publisher_register hn hnd' hranked hCD horder hp' hsafe₀ hrem₀ hviews,
      fun _ => Remembers.self _ s n⟩
  | moves ftn value activity publisher key newKey A B C D info₀ heq hAB hCD hABCD hinfo₀ hheard horder =>
    have hviews := h.views n s info₀ hinfo₀
    have hsafe₀ := Op.safe_member hsafe hinfo₀
    have hrem₀ := h.remembered n s info₀ hinfo₀
    have hsame : o.ranking.rankedTracks.publishes s = (o.ranking.step op).1.rankedTracks.publishes s := by
      rw [hAB, hCD, publishes_middle, publishes_middle, hABCD]
    have hp' : (o.ranking.step op).1.rankedTracks.publishes s = true := by
      rw [hsame] at hp
      exact hp.elim id id
    rw [← hCD] at hheard horder
    subst heq
    obtain ⟨hshows, hrem⟩ := publisher_move hnd hnd' hAB hCD hABCD rfl horder hp' hsafe₀
      (hrem₀ (hsame ▸ hp')) hheard hviews
    exact ⟨hshows, fun _ => hrem⟩
  | removes ftn publisher key A B info₀ heq hAB hranked hinfo₀ hheard =>
    have hviews := h.views n s info₀ hinfo₀
    have hsafe₀ := Op.safe_member hsafe hinfo₀
    have hrem₀ := h.remembered n s info₀ hinfo₀
    have hp' : o.ranking.rankedTracks.publishes s = true := by
      rcases hp with hp | hp
      · exact hp
      · rw [hranked] at hp
        rw [hAB, publishes_middle, hp, Bool.or_true]
    rw [hranked]
    subst heq
    exact publisher_remove hn hnd hAB rfl hp' hsafe₀ (hrem₀ hp') hheard hviews

theorem PublisherInv.step (h : PublisherInv o) (hop : op.Allowed o.ranking)
    (hsafe : op.safe o.ranking = true) : PublisherInv (o.step op) := by
  obtain ⟨hinv, hkind⟩ := step_kind h.ranking hop
  have hsession : ∀ n s info, (o.ranking.step op).1.member n s = some info →
      Shows (((o.view n s).before n s op).hearAll (heardIn n s (o.ranking.step op).2))
          (othersN (o.ranking.step op).1.rankedTracks s n) ∧
        ((o.ranking.step op).1.rankedTracks.publishes s = true →
          Remembers (o.ranking.step op).1.rankedTracks s n info.selectedTracks) := by
    intro n s info hm
    have hk := hkind n s info hm
    by_cases hp : o.ranking.rankedTracks.publishes s = true ∨
        (o.ranking.step op).1.rankedTracks.publishes s = true
    · exact publisher_step h hsafe hinv hm hk hp
    · rw [not_or, Bool.not_eq_true, Bool.not_eq_true] at hp
      refine ⟨?_, fun hp' => ?_⟩
      · rw [othersN_viewer hp.2]
        refine viewer_step h.ranking hinv hm hk hp.1 hp.2 fun info₀ hinfo₀ => ?_
        rw [← othersN_viewer hp.1]
        exact h.views n s info₀ hinfo₀
      · rw [hp.2] at hp'
        cases hp'
  exact ⟨hinv, fun n s info hm => (hsession n s info hm).1.mark _,
    fun n s info hm => (hsession n s info hm).2⟩

theorem publisherInv_reachable {sweepThrottle : Int}
    (ho : Observed.Reachable (fun r op => op.safe r = true) (create 0 0 sweepThrottle) o) : PublisherInv o := by
  induction ho with
  | start => exact ⟨create_inv sweepThrottle, (fun _ _ _ h => nomatch h), (fun _ _ _ h => nomatch h)⟩
  | step _ hop hsafe ih => exact ih.step hop hsafe

/-- **In a run of safe operations every session has been delivered exactly its first `N` tracks of other
    sessions**, whether it publishes or not, and none twice in a row. -/
theorem publishers_see_others (sweepThrottle : Int) (o : Observed)
    (ho : Observed.Reachable (fun r op => op.safe r = true)
      (create 0 0 sweepThrottle) o) (n : Nat) (s : SessionRef)
    (hs : (o.ranking.member n s).isSome) :
    Sorted o.ranking.rankedTracks ∧
      (∀ ftn, ftn ∈ (o.view n s).delivered ↔ ftn ∈ o.ranking.rankedTracks.personal s n) ∧
      (o.view n s).twice = false := by
  have hinv := publisherInv_reachable ho
  obtain ⟨info, hinfo⟩ := Option.isSome_iff_exists.mp hs
  obtain ⟨hdel, honce⟩ := hinv.views n s info hinfo
  exact ⟨hinv.ranking.rank.sorted, hdel, honce⟩

/-- A publisher of one track sees the two tracks of another session, and keeps them when its own track
    falls behind. -/
theorem publishers_see_others_twoTracks :
    let ops : List Op := [.registerTrack ⟨[], [1]⟩ (some 5) 2, .registerTrack ⟨[], [2]⟩ (some 9) 3,
      .addSessionToTopNGroup 2 3 true, .registerTrack ⟨[], [3]⟩ (some 4) 2,
      .updateSortValue ⟨[], [2]⟩ 1 ⟨0, none⟩]
    let o := (Observed.start (create 0 0 0)).run ops
    (o.view 2 3).published = true ∧ o.ranking.rankedTracks.personal 3 2 = [⟨[], [1]⟩, ⟨[], [3]⟩] ∧
      ∀ ftn, ftn ∈ (o.view 2 3).delivered ↔ ftn ∈ o.ranking.rankedTracks.personal 3 2 := by
  intro ops o
  have ho : Observed.Reachable (fun r op => op.safe r = true) (create 0 0 0) o :=
    .step (.step (.step (.step (.step .start trivial (by decide)) trivial (by decide))
      ⟨by decide, rfl⟩ (by decide)) trivial (by decide)) trivial (by decide)
  exact ⟨by decide, by decide, (publishers_see_others 0 o ho 2 3 (by decide)).2.1⟩

/-- A session publishes one of two tracks and sees the other, which ranks first; its own track overtakes
    it, the other is evicted from the shared top one, and the session loses it too. -/
theorem publisher_loses_track :
    ∃ o, Observed.Reachable (fun _ _ => True) (create 0 0 0) o ∧
      (o.ranking.member 1 2).isSome = true ∧ (o.view 1 2).published = true ∧
      (⟨[], [1]⟩ : FullTrackName) ∈ o.ranking.rankedTracks.personal 2 1 ∧
      (o.view 1 2).delivered = [] := by
  have ho : Observed.Reachable (fun _ _ => True) (create 0 0 0)
      ((Observed.start (create 0 0 0)).run [.registerTrack ⟨[], [1]⟩ (some 4) 7,
        .registerTrack ⟨[], [2]⟩ (some 4) 2, .addSessionToTopNGroup 1 2 true,
        .updateSortValue ⟨[], [2]⟩ 5 ⟨0, none⟩]) :=
    .step (.step (.step (.step .start trivial trivial) trivial trivial) ⟨by decide, rfl⟩ trivial)
      trivial trivial
  exact ⟨_, ho, by decide, by decide, by decide, by decide⟩

/-! ## 5. The fast path -/

/-- The states of a ranking with any settings, after any operations. -/
def PropertyRanking.Reachable (r : PropertyRanking) : Prop :=
  ∃ (deselected : Nat) (timeout throttle : Int) (ops : List Op),
    r = ops.foldl (fun r op => (r.step op).1) (create deselected timeout throttle)

theorem reachable_groups {r : PropertyRanking} (hr : r.Reachable) :
    ∃ deselected timeout, GroupsInv deselected timeout (fun _ _ => True) r := by
  obtain ⟨deselected, timeout, throttle, ops, rfl⟩ := hr
  refine ⟨deselected, timeout, ?_⟩
  have hrun : ∀ r, GroupsInv deselected timeout (fun _ _ => True) r →
      GroupsInv deselected timeout (fun _ _ => True) (ops.foldl (fun r op => (r.step op).1) r) := by
    induction ops with
    | nil => exact fun _ h => h
    | cons op ops ih => exact fun _ h => ih _ (step_groups h op)
  exact hrun _ create_groups

/-- **A move that crosses no threshold changes nothing that a session can see**: the first `N` tracks of every
    group, and the first `N` tracks of other sessions for every session of it that publishes. -/
theorem fast_path_keeps_windows {r : PropertyRanking} (hr : r.Reachable) {ftn : FullTrackName} {i : RankIndex}
    {value : Nat} {entry : RankedEntry} (hi : r.trackIndexByName.lookup ftn = some i)
    (hv : i.rankIter.value ≠ value) (hentry : (r.getCachedRank ftn).1.rankedTracks.at? i.rankIter = some entry)
    (hfast : (r.moveTo ftn i value entry).1.crossesThreshold (r.getCachedRank ftn).2
      (r.moveTo ftn i value entry).2 = false) :
    (∀ activity, r.updateSortValue ftn value activity = ((r.moveTo ftn i value entry).1, [])) ∧
      ∀ n g, r.topNGroups.lookup n = some g →
        topN r.rankedTracks n = topN (r.moveTo ftn i value entry).1.rankedTracks n ∧
        ∀ s ∈ g.sessions, r.rankedTracks.publishes s = true →
          othersN r.rankedTracks s n = othersN (r.moveTo ftn i value entry).1.rankedTracks s n := by
  obtain ⟨deselected, timeout, h⟩ := reachable_groups hr
  obtain ⟨A, B, C, D, newKey, publisher, hm, hat, hold, hnew, hact⟩ := updateSortValue_moves h.rank hi value
  rw [hat] at hentry
  cases hentry
  rw [hold, hnew] at hfast
  refine ⟨fun activity => ?_, fun n g hg => ?_⟩
  · rw [(hact activity).2 hv]
    exact if_neg (by rw [hfast]; exact Bool.false_ne_true)
  · have hg' : (r.moveTo ftn i value ⟨ftn, publisher⟩).1.topNGroups.lookup n = some g := by
      rw [hm.rest]
      exact hg
    obtain ⟨hstay, hwin⟩ := hm.fast_windows h hfast hg'
    rw [hm.after] at hwin ⊢
    rw [hm.before]
    refine ⟨Set.ext fun t => topN_stays hm.without hstay t, fun s hs hp => ?_⟩
    rw [publishes_middle, hm.without] at hp
    obtain ⟨hA, hC⟩ := hwin s hs (by rw [publishes_middle]; exact hp)
    unfold othersN
    rw [personal_window hm.without _ hC]
    rw [countOf_middle] at hA ⊢
    rw [hm.without]
    exact hA

/-- The last of three tracks comes closer to the second; the session that publishes the first one sees the
    second, as before. -/
theorem fast_path_keeps_windows_lastTrack :
    let r := [Op.registerTrack ⟨[], [1]⟩ (some 9) 1, .registerTrack ⟨[], [2]⟩ (some 5) 2,
      .registerTrack ⟨[], [3]⟩ (some 3) 2, .addSessionToTopNGroup 1 1 true].foldl (fun r op => (r.step op).1)
        (create 0 0 0)
    othersN r.rankedTracks 1 1 = othersN (r.updateSortValue ⟨[], [3]⟩ 4 ⟨0, none⟩).1.rankedTracks 1 1 := by
  intro r
  have hr : r.Reachable := ⟨0, 0, 0, _, rfl⟩
  obtain ⟨hupd, hsame⟩ := @fast_path_keeps_windows r hr ⟨[], [3]⟩ ⟨⟨3, 2⟩, 2⟩ 4 ⟨⟨[], [3]⟩, 2⟩ (by decide)
    (by decide) (by decide) (by decide)
  obtain ⟨g, hg⟩ := Option.isSome_iff_exists.mp (show (r.topNGroups.lookup 1).isSome = true by decide)
  rw [hupd]
  refine (hsame 1 g hg).2 1 ?_ (by decide)
  have hmem : (r.member 1 1).isSome = true := by decide
  unfold member at hmem
  rw [hg] at hmem
  exact AList.lookup_isSome.mp hmem

/-- **The order and its indexes agree, whatever the settings are**: in every state of every run, idle sweeps
    included, the tracks are strictly ordered by value and then by arrival, each once; the index holds
    exactly these; the rank that is read of a track is its place; and every publisher is counted with its
    tracks. -/
theorem ranking_in_order {r : PropertyRanking} (hr : r.Reachable) :
    r.rankedTracks.Pairwise (fun a b => b.1 < a.1) ∧ r.rankedTracks.names.Nodup ∧
      (∀ ftn, (r.trackIndexByName.lookup ftn).isSome = true ↔ ftn ∈ r.rankedTracks.names) ∧
      (∀ ftn ∈ r.rankedTracks.names, (r.getCachedRank ftn).2 = r.rankedTracks.names.idxOf ftn) ∧
      ∀ s, (r.publisherTrackCount.lookup s).getD 0 = r.rankedTracks.countOf s := by
  obtain ⟨_, _, hg⟩ := reachable_groups hr
  have h := hg.rank
  refine ⟨h.sorted, h.names_nodup, fun _ => h.registered_iff, fun _ => getCachedRank_idxOf h, fun s => ?_⟩
  rw [h.counts s]
  split
  · simp [*]
  · rfl

/-- Two tracks of one value, after a sweep that found both idle. -/
theorem ranking_in_order_swept :
    let r := [Op.registerTrack ⟨[], [1]⟩ (some 5) 1, .registerTrack ⟨[], [2]⟩ (some 5) 1,
      .addSessionToTopNGroup 1 2 true, .sweepIdle ⟨9, some fun _ => 0⟩].foldl (fun r op => (r.step op).1) (create 1 1 0)
    (r.getCachedRank ⟨[], [2]⟩).2 = 1 := by
  intro r
  have hr : r.Reachable := ⟨1, 1, 0, _, rfl⟩
  exact (ranking_in_order hr).2.2.2.1 _ (by decide)

end Moqx

/-
  Subject: ASCENDING FETCHES ARE PLANNED EXACTLY.

  * `advanceOne_asc`, `skipGapsLoop_asc`, `skipUncached_asc` -- an ascending cursor moves up, and what
    it steps over is known or is left to the run of misses;
  * `AscInv`, `turn_asc` -- the invariant of the loop and the step lemma;
  * `ascending_fetch_exact` -- **the result**.
-/
import Moqx.Fetch.Knowledge

namespace Moqx

open AbsoluteLocation FetchVars List

/-! ## 1. The cursor -/

namespace AbsoluteLocation

theorem lt_next_iff {a b l : AbsoluteLocation} (h : a.next = some b) (hl : l.object ≤ kEightByteLimit) :
    l < b ↔ l ≤ a := by
  unfold next nextInGroup nextGroup at h
  split at h
  · cases h
    simp only [lt_iff, le_iff]
    omega
  · split at h
    · cases h
      simp only [lt_iff, le_iff]
      omega
    · simp at h

theorem next_object_le {a b : AbsoluteLocation} (h : a.next = some b) :
    b.object ≤ kEightByteLimit := by
  unfold next nextInGroup nextGroup at h
  split at h
  · cases h
    simp only
    omega
  · split at h
    · cases h
      exact Nat.zero_le _
    · simp at h

end AbsoluteLocation

namespace FetchRangeIterator

variable {h : GroupRef → CacheGroup} {t : CacheTrack} {it : FetchRangeIterator}

/-- The cursor of an ascending iteration: inside the range or at its end. -/
structure Asc (it : FetchRangeIterator) : Prop where
  order : it.descending = false
  valid : it.isValid = true
  current_le : it.current ≤ it.end_
  current_object : it.current.object ≤ kEightByteLimit
  end_valid : it.end_.Valid

theorem Asc.move (ha : Asc it) {b : AbsoluteLocation} (hb : b ≤ it.end_)
    (ho : b.object ≤ kEightByteLimit) (memo : GroupMemo) :
    Asc { it with current := b, cachedGroup := memo } :=
  ⟨ha.order, ha.valid, hb, ho, ha.end_valid⟩

theorem le_of_next_none {a l e : AbsoluteLocation} (h : a.next = none) (hl : l < e) (he : e.Valid)
    (ho : l.object ≤ kEightByteLimit) : l ≤ a := by
  obtain ⟨heg, -⟩ := he
  unfold AbsoluteLocation.next nextInGroup nextGroup at h
  split at h
  · simp at h
  · split at h
    · simp at h
    · simp only [lt_iff, le_iff] at hl ⊢
      omega

theorem skipGapsLoop_asc (n : Nat) (ha : Asc it) :
    ∃ b, skipGapsLoop h t n it = { it with current := b } ∧ it.current ≤ b ∧ b ≤ it.end_ ∧
      b.object ≤ kEightByteLimit ∧
      (∀ l : AbsoluteLocation, l.object ≤ kEightByteLimit → it.current ≤ l → l < b →
        t.gaps.contains l = true) ∧
      (n ≠ 0 → t.gaps.contains it.current = true → it.current < b ∨ b = it.end_) := by
  induction n generalizing it with
  | zero =>
    refine ⟨it.current, rfl, le_refl _, ha.current_le, ha.current_object, ?_, fun hn => absurd rfl hn⟩
    intro l _ h1 h2
    exact absurd h2 (not_lt_of_ge h1)
  | succ n ih =>
    unfold skipGapsLoop
    by_cases hg : t.gaps.contains it.current = true
    · rw [if_pos (by rw [ha.valid, hg]; rfl)]
      cases hi : t.gaps.findInterval it.current with
      | none =>
        have := LocationIntervalSet.findInterval_isSome (s := t.gaps) (l := it.current)
        rw [hi, hg] at this
        cases this
      | some p =>
        obtain ⟨gapStart, gapEnd⟩ := p
        obtain ⟨h1, h2, -, -, hin⟩ := LocationIntervalSet.findInterval_some hi ha.current_object
        simp only [ha.order, Bool.not_false, if_true]
        -- every location from the cursor to the end of the gap is in the gap
        have hskip : ∀ l : AbsoluteLocation, l.object ≤ kEightByteLimit → it.current ≤ l →
            l ≤ gapEnd → t.gaps.contains l = true := by
          intro l hl hcl hle
          exact hin l hl (le_trans h1 hcl) hle
        cases hnext : gapEnd.next with
        | none =>
          refine ⟨it.end_, rfl, ha.current_le, le_refl _, ha.end_valid.2, ?_, fun _ _ => Or.inr rfl⟩
          intro l hl hcl hlt
          exact hskip l hl hcl (le_of_next_none hnext hlt ha.end_valid hl)
        | some afterGap =>
          have hafter : ∀ l : AbsoluteLocation, l.object ≤ kEightByteLimit →
              (l < afterGap ↔ l ≤ gapEnd) := fun l hl => lt_next_iff hnext hl
          have hlt : it.current < afterGap := (hafter _ ha.current_object).mpr h2
          by_cases hin' : afterGap < it.end_
          · simp only [hin', if_true]
            have ha' : Asc { it with current := afterGap } :=
              ha.move hin'.le (next_object_le hnext) it.cachedGroup
            obtain ⟨b, hb, hcb, hbe, hbo, hgaps, -⟩ := ih ha'
            refine ⟨b, hb, hlt.le.trans hcb, hbe, hbo, ?_, fun _ _ => Or.inl (hlt.trans_le hcb)⟩
            intro l hl hcl hlb
            by_cases hla : l < afterGap
            · exact hskip l hl hcl ((hafter l hl).mp hla)
            · exact hgaps l hl (not_lt.mp hla) hlb
          · simp only [hin', if_false]
            refine ⟨it.end_, rfl, ha.current_le, le_refl _, ha.end_valid.2, ?_,
              fun _ _ => Or.inr rfl⟩
            intro l hl hcl hle
            exact hskip l hl hcl ((hafter l hl).mp (hle.trans_le (not_lt.mp hin')))
    · rw [if_neg (by rw [ha.valid]; simpa using hg)]
      refine ⟨it.current, rfl, le_refl _, ha.current_le, ha.current_object, ?_,
        fun _ hg' => absurd hg' hg⟩
      intro l _ h1 h2
      exact absurd h2 (not_lt_of_ge h1)

theorem skipUncached_asc (ha : Asc it) (hne : it.current ≠ it.end_)
    (hc : t.cachedContent.contains it.current = false) :
    ∃ b, it.skipUncached t = { it with current := b } ∧ it.current < b ∧ b ≤ it.end_ ∧
      b.object ≤ kEightByteLimit := by
  have hlt : it.current < it.end_ := lt_of_le_of_ne ha.current_le hne
  unfold skipUncached
  rw [if_neg (by simp [ha.valid, hne]), if_neg (by rw [hc]; exact Bool.false_ne_true),
    if_pos (by rw [ha.order]; rfl)]
  cases hn : t.cachedContent.findNextInterval it.current with
  | none => exact ⟨it.end_, rfl, hlt, le_refl _, ha.end_valid.2⟩
  | some nextInt =>
    obtain ⟨a, b⟩ := nextInt
    obtain ⟨h1, h2, -⟩ := LocationIntervalSet.findNextInterval_some hn ha.current_object
    by_cases he : it.end_ ≤ a
    · simp only [he, if_true]
      exact ⟨it.end_, rfl, hlt, le_refl _, ha.end_valid.2⟩
    · simp only [he, if_false]
      exact ⟨a, rfl, h1, (not_le.mp he).le, h2⟩

/-- The memoised group is the one the track has under that id. -/
structure MemoOk (t : CacheTrack) (memo : GroupMemo) : Prop where
  some : ∀ r, memo.ptr = some r → t.groups.lookup memo.id = some r
  none : memo.ptr = none → memo.id = kLocationMax.group

theorem advanceOne_asc (ha : Asc it) (hne : it.current ≠ it.end_) (hend : it.end_ = it.maxLocation)
    (hm : MemoOk t it.cachedGroup) {r : GroupRef} (hr : t.groups.lookup it.current.group = some r)
    (hmax : it.current.object ≤ (h r).maxCachedObject) (hlim : (h r).maxCachedObject ≤ kEightByteLimit) :
    ∃ b memo, it.advanceOne h t = { it with current := b, cachedGroup := memo } ∧ MemoOk t memo ∧
      it.current < b ∧ b ≤ it.end_ ∧ b.object ≤ kEightByteLimit ∧
      ∀ l : AbsoluteLocation, l.object ≤ kEightByteLimit → it.current < l → l < b →
        l.group = it.current.group ∧ (h r).endOfGroup = true ∧ (h r).maxCachedObject < l.object := by
  have hlt : it.current < it.end_ := lt_of_le_of_ne ha.current_le hne
  have hcg : it.current.group ≤ it.end_.group := by
    rw [lt_iff] at hlt
    omega
  unfold advanceOne
  rw [if_neg (by simp [ha.valid]), if_neg hne]
  by_cases hlast : it.current.group = it.maxLocation.group
  · -- in the last group the walk goes up to the end of the range
    have hobj : it.current.object < it.maxLocation.object := by
      rw [hend, lt_iff] at hlt
      omega
    have hf : it.findGroupEndMaybe h t it.current.group it.cachedGroup =
        (some it.maxLocation.object, it.cachedGroup) := by
      simp [findGroupEndMaybe, hlast, ha.order]
    simp only [hf, Option.any_some, hobj, decide_true, if_true]
    refine ⟨⟨it.current.group, it.current.object + 1⟩, it.cachedGroup, rfl, hm, ?_, ?_, ?_, ?_⟩
    · rw [lt_iff]; simp
    · rw [hend, le_iff]; simp only; omega
    · have := ha.end_valid.2
      rw [hend] at this
      simp only
      omega
    · intro l _ h1 h2
      simp only [lt_iff] at h1 h2
      omega
  · have hidlim : it.current.group ≠ kLocationMax.group := by
      have := ha.end_valid.1
      rw [hend] at this hcg
      simp only [kLocationMax]
      omega
    have hmemo : (if it.cachedGroup.id ≠ it.current.group
        then (⟨it.current.group, t.groups.lookup it.current.group⟩ : GroupMemo)
        else it.cachedGroup) = ⟨it.current.group, some r⟩ := by
      split
      · rw [hr]
      · rename_i hid
        rw [not_not] at hid
        cases hp : it.cachedGroup.ptr with
        | none => exact absurd (hid.symm.trans (hm.none hp)) hidlim
        | some r' =>
          have := hm.some r' hp
          rw [hid, hr] at this
          cases this
          rw [← hid, ← hp]
    have hf : it.findGroupEndMaybe h t it.current.group it.cachedGroup =
        (some (if (h r).endOfGroup then (h r).maxCachedObject else endIncludingMaxCached (h r)),
          ⟨it.current.group, some r⟩) := by
      unfold findGroupEndMaybe
      rw [if_neg (by simpa using hlast)]
      simp only [hmemo, ha.order, Bool.and_false, Bool.false_eq_true, if_false]
    have hmemo' : MemoOk t ⟨it.current.group, some r⟩ :=
      ⟨fun r' hr' => by cases hr'; exact hr, fun hn => by cases hn⟩
    have hd : ({ it with cachedGroup := ⟨it.current.group, some r⟩ } :
        FetchRangeIterator).descending = false := ha.order
    have hguess := endIncludingMaxCached_cases hlim
    by_cases hobj : it.current.object <
        if (h r).endOfGroup then (h r).maxCachedObject else endIncludingMaxCached (h r)
    · simp only [hf, Option.any_some, hobj, decide_true, if_true]
      have hobj' : it.current.object + 1 ≤ kEightByteLimit := by
        split at hobj <;> omega
      refine ⟨⟨it.current.group, it.current.object + 1⟩, _, rfl, hmemo', ?_, ?_, hobj', ?_⟩
      · rw [lt_iff]; simp
      · rw [hend] at hcg ⊢
        rw [le_iff]
        simp only
        omega
      · intro l _ h1 h2
        simp only [lt_iff] at h1 h2
        omega
    · simp only [hf, Option.any_some, hobj, decide_false, Bool.false_eq_true, if_false, hd, hlast]
      refine ⟨⟨it.current.group + 1, 0⟩, _, rfl, hmemo', ?_, ?_, Nat.zero_le _, ?_⟩
      · rw [lt_iff]; simp
      · rw [hend] at hcg ⊢
        rw [le_iff]
        simp only
        omega
      · -- the object is the last of the group, or the last id there is
        intro l hl h1 h2
        simp only [lt_iff] at h1 h2
        by_cases heog : (h r).endOfGroup = true
        · rw [if_pos heog] at hobj
          exact ⟨by omega, heog, by omega⟩
        · rw [if_neg heog] at hobj
          omega

theorem end_asc (ha : Asc it) :
    PastTrackEnd t it.current ∧ it.end h t = (it.current, { it with end_ := it.current }) ∨
      ¬PastTrackEnd t it.current ∧ it.end h t = (it.end_, it) := by
  unfold «end»
  by_cases hp : PastTrackEnd t it.current
  · exact Or.inl ⟨hp, if_pos (pastTrackEnd_iff.mpr (Or.inl hp))⟩
  · refine Or.inr ⟨hp, ?_⟩
    rw [if_neg, if_pos (by rw [ha.order]; rfl)]
    intro hc
    rcases pastTrackEnd_iff.mp hc with hc | hc
    · exact hp hc
    · exact absurd (ha.valid.symm.trans hc) (by decide)

end FetchRangeIterator

/-! ## 2. The loop -/

section loop

open FetchRangeIterator FetchRun

variable {c : MoqxCache}

/-- What the fetch relies on in what an answer leaves behind. -/
def SoundAnswer (answer : Answer) (tr : TrackRef) : Prop :=
  ∀ r c, TrackOk c tr → TrackOk (answer r c) tr ∧ Grows c (answer r c) tr

theorem foldl_answer {answer : Answer} {tr : TrackRef} (hans : SoundAnswer answer tr)
    (requests : List (AbsoluteLocation × AbsoluteLocation)) (hok : TrackOk c tr) :
    TrackOk (requests.foldl (fun c r => answer r c) c) tr ∧
      Grows c (requests.foldl (fun c r => answer r c) c) tr := by
  induction requests generalizing c with
  | nil => exact ⟨hok, .refl c tr⟩
  | cons r rest ih =>
    obtain ⟨hok', hg⟩ := hans r c hok
    obtain ⟨hok'', hg'⟩ := ih hok'
    exact ⟨hok'', hg.trans hg'⟩

/-- The invariant of an ascending fetch at the head of its loop: up to the pending misses, or up to
    the cursor if there are none, everything is accounted for. -/
structure AscInv (tr : TrackRef) (start «end» : AbsoluteLocation) (s : FetchRun) : Prop where
  asc : Asc s.vars.it
  track : s.vars.it.track = tr
  min : s.vars.it.minLocation = start
  max : s.vars.it.maxLocation = «end»
  end_ : s.vars.it.end_ = «end» ∨
    s.vars.it.current = s.vars.it.end_ ∧ PastTrackEnd (s.cache.track tr) s.vars.it.current
  memo : MemoOk (s.cache.track tr) s.vars.it.cachedGroup
  ok : TrackOk s.cache tr
  start_le : start ≤ s.vars.fetchStart.getD s.vars.it.current
  current_le : s.vars.it.current ≤ «end»
  pending : ∀ m, s.vars.fetchStart = some m → m < s.vars.it.current
  ordered : Ordered (· < ·) start «end» (s.vars.fetchStart.getD s.vars.it.current) s.sent
  covered : Covered (· < ·) (Known s.cache tr) start «end»
    (s.vars.fetchStart.getD s.vars.it.current) s.sent

variable {tr : TrackRef} {start «end» stop : AbsoluteLocation} {s s' : FetchRun} {now : TimePoint}
  {answer : Answer}

theorem AscInv.not_done (hi : AscInv tr start stop s) (hd : (s.vars.atEnd s.cache).1 = false) :
    s.vars.atEnd s.cache = (false, s.vars) ∧ s.vars.it.end_ = stop ∧
      s.vars.it.current < stop := by
  unfold atEnd at hd ⊢
  rw [hi.track] at hd ⊢
  rcases end_asc (h := s.cache.group) (t := s.cache.track tr) hi.asc with ⟨-, he⟩ | ⟨hp, he⟩
  · simp [he] at hd
  · simp only [he, decide_eq_false_iff_not] at hd ⊢
    have hend : s.vars.it.end_ = stop := by
      rcases hi.end_ with h1 | ⟨-, h2⟩
      · exact h1
      · exact absurd h2 hp
    refine ⟨by simp [hd], hend, ?_⟩
    rw [← hend]
    exact lt_of_le_of_ne hi.asc.current_le hd

theorem AscInv.miss (hi : AscInv tr start stop s) {v : FetchVars} (hend : s.vars.it.end_ = stop)
    (hlt : s.vars.it.current < stop) (hv : s.vars.visit s.cache false now = (none, c, v)) :
    AscInv tr start stop { s with cache := c, vars := v } ∧ s.vars.it.current < v.it.current := by
  obtain ⟨hget, hgap, rfl⟩ := visit_none hv
  rw [hi.track] at hget hgap
  have hk := getCachedObjectMaybe_knowledge hget
  have hcc := getCachedObjectMaybe_not_indexed hi.ok hget hi.asc.current_object hgap
  obtain ⟨b, hb, hcb, hbe, hbo⟩ := skipUncached_asc hi.asc (by rw [hend]; exact hlt.ne) hcc
  have hb' : s.vars.it.skipUncached (c.track s.vars.it.track) = { s.vars.it with current := b } := by
    rw [hi.track]
    exact hb
  rw [hb']
  refine ⟨⟨hi.asc.move hbe hbo _, hi.track, hi.min, hi.max, Or.inl hend, ?_,
    getCachedObjectMaybe_ok hi.ok hget, hi.start_le, hend ▸ hbe, ?_, hi.ordered, ?_⟩, hcb⟩
  · have hm := hi.memo
    exact ⟨fun r hr => by rw [hk.groups]; exact hm.some r hr, hm.none⟩
  · intro m hm
    cases hm
    cases hf : s.vars.fetchStart with
    | none => exact hcb
    | some m => exact (hi.pending m hf).trans hcb
  · exact hi.covered.mono fun l hl => (hk.known_iff l).mpr hl

/-- At a boundary the run of misses is requested, and everything before the boundary is accounted
    for. -/
theorem AscInv.flush (hi : AscInv tr start stop s) (hlt : s.vars.it.current < stop) :
    Ordered (· < ·) start stop s.vars.it.current
        (s.sent ++ (s.vars.pendingIntervals false).map fun r => .upstream r.1 r.2) ∧
      Covered (· < ·) (Known s.cache tr) start stop s.vars.it.current
        (s.sent ++ (s.vars.pendingIntervals false).map fun r => .upstream r.1 r.2) := by
  have ho := hi.ordered
  have hc := hi.covered
  have hstart := hi.start_le
  have horder : s.vars.it.order ≠ .newestFirst := by simpa [descending] using hi.asc.order
  unfold pendingIntervals
  cases hf : s.vars.fetchStart with
  | none =>
    rw [hf] at ho hc
    simpa using ⟨ho, hc⟩
  | some m =>
    rw [hf] at ho hc hstart
    have hm := hi.pending m hf
    simp only [getFetchIntervals, horder, ne_eq, not_false_eq_true, if_true, Bool.not_false,
      map_cons, map_nil]
    refine ⟨ho.append (fun l hl => hl.trans hm) (pairwise_singleton _ _) ?_,
      hc.append fun l hl _ _ hnm hlc => Or.inl ⟨_, mem_singleton_self _, ?_⟩⟩
    · intro e he l hl
      cases mem_singleton.mp he
      obtain ⟨h1, h2, -⟩ := hl
      exact ⟨fun x hx => lt_of_lt_of_le hx h1, le_trans hstart h1, h2.trans hlt, h2⟩
    · exact ⟨not_lt.mp hnm, hlc, hl⟩

theorem afterBoundary_gap (ha : Asc s.vars.it) (htr : s.vars.it.track = tr)
    (hgap : (c.track tr).gaps.contains s.vars.it.current = true) :
    ∃ b, s.vars.afterBoundary c .gap =
        { s.vars with fetchStart := none, it := { s.vars.it with current := b } } ∧
      b ≤ s.vars.it.end_ ∧ b.object ≤ kEightByteLimit ∧
      (s.vars.it.current < b ∨ b = s.vars.it.end_) ∧
      ∀ l : AbsoluteLocation, l.object ≤ kEightByteLimit → s.vars.it.current ≤ l → l < b →
        Known c tr l := by
  obtain ⟨b, hb, -, hbe, hbo, hgaps, hmove⟩ :=
    skipGapsLoop_asc (h := c.group) (t := c.track tr) (s.vars.it.current.group + 2) ha
  refine ⟨b, ?_, hbe, hbo, hmove (Nat.succ_ne_zero _) hgap, ?_⟩
  · show ({ s.vars with
      fetchStart := none, it := s.vars.it.skipGaps c.group (c.track s.vars.it.track) } : FetchVars) = _
    rw [htr, skipGaps, hb]
  · intro l hl h1 h2
    exact Or.inl (hgaps l hl h1 h2)

theorem afterBoundary_hit {v : FetchVars} (ha : Asc v.it) (htr : v.it.track = tr)
    (hmaxl : v.it.maxLocation = stop) (hend : v.it.end_ = stop) (hlt : v.it.current < stop)
    (hm : MemoOk (c.track tr) v.it.cachedGroup) {r : GroupRef}
    (hr : (c.track tr).groups.lookup v.it.current.group = some r)
    (hmax : v.it.current.object ≤ (c.group r).maxCachedObject)
    (hlim : (c.group r).maxCachedObject ≤ kEightByteLimit) (e : CacheEntry) :
    ∃ b memo end_ last, v.afterBoundary c (.hit e) =
        { v with
          fetchStart := none, lastObject := last
          it := { v.it with current := b, cachedGroup := memo, end_ := end_ } } ∧
      (end_ = stop ∨ b = end_ ∧ PastTrackEnd (c.track tr) b) ∧ MemoOk (c.track tr) memo ∧
      v.it.current < b ∧ b ≤ stop ∧ b.object ≤ kEightByteLimit ∧
      ∀ l : AbsoluteLocation, l.object ≤ kEightByteLimit → v.it.current < l → l < b →
        Known c tr l := by
  subst htr
  obtain ⟨b₁, memo, hadv, hmemo, hlt₁, hle₁, ho₁, hskip₁⟩ :=
    advanceOne_asc (h := c.group) ha (by rw [hend]; exact hlt.ne) (hend.trans hmaxl.symm) hm hr hmax
      hlim
  have ha₁ : Asc { v.it with current := b₁, cachedGroup := memo } := ha.move hle₁ ho₁ memo
  obtain ⟨b, hb, hcb, hbe, hbo, hgaps, -⟩ :=
    skipGapsLoop_asc (h := c.group) (t := c.track v.it.track) (b₁.group + 2) ha₁
  have hnext : v.it.next c.group (c.track v.it.track) = { v.it with current := b, cachedGroup := memo } := by
    rw [FetchRangeIterator.next, if_neg (by simp [ha.valid]), hadv, skipGaps, hb]
  have hknown : ∀ l : AbsoluteLocation, l.object ≤ kEightByteLimit → v.it.current < l → l < b →
      Known c v.it.track l := by
    intro l hl h1 h2
    by_cases hl₁ : l < b₁
    · obtain ⟨hg, heog, hmx⟩ := hskip₁ l hl h1 hl₁
      exact Or.inr (Or.inl ⟨r, hg ▸ hr, heog, hmx⟩)
    · exact Or.inl (hgaps l hl (not_lt.mp hl₁) h2)
  have ha₂ : Asc { v.it with current := b, cachedGroup := memo } := ha.move hbe hbo memo
  have hcur : v.it.current < b := hlt₁.trans_le hcb
  have hbend : b ≤ stop := hend ▸ hbe
  unfold afterBoundary atEnd
  simp only [hnext]
  rcases end_asc (h := c.group) (t := c.track v.it.track) ha₂ with ⟨hp, he⟩ | ⟨-, he⟩
  · simp only [he]
    exact ⟨b, memo, b, _, rfl, Or.inr ⟨rfl, hp⟩, hmemo, hcur, hbend, hbo, hknown⟩
  · simp only [he]
    exact ⟨b, memo, v.it.end_, _, rfl, Or.inl hend, hmemo, hcur, hbend, hbo, hknown⟩

/-- **One turn of an ascending fetch**: the invariant is kept and the cursor moves up. -/
theorem turn_asc (hans : SoundAnswer answer tr) (hi : AscInv tr start stop s)
    (hs : turn answer now s = some s') :
    AscInv tr start stop s' ∧ s.vars.it.current < s'.vars.it.current := by
  unfold turn at hs
  cases hd : (s.vars.atEnd s.cache).1 with
  | true => simp [hd] at hs
  | false =>
    obtain ⟨hat, hend, hlt⟩ := hi.not_done hd
    simp only [hat, Bool.false_eq_true, if_false] at hs
    rcases hv : s.vars.visit s.cache false now with ⟨ob, c, v⟩
    rw [hv] at hs
    cases ob with
    | none =>
      simp only [Option.some.injEq] at hs
      subst hs
      exact hi.miss hend hlt hv
    | some b =>
      simp only [Option.some.injEq] at hs
      obtain ⟨rfl, hb⟩ := visit_some hv
      rw [hi.track] at hb
      -- the lookup and the answers to the flush keep what the track knows
      have hlook : TrackOk c tr ∧ Grows s.cache c tr := by
        rcases hb with ⟨-, hget, -⟩ | ⟨-, -, rfl, -⟩
        · exact ⟨getCachedObjectMaybe_ok hi.ok hget, (getCachedObjectMaybe_knowledge hget).grows⟩
        · exact ⟨hi.ok, .refl _ _⟩
      obtain ⟨hok, hg⟩ := foldl_answer hans (s.vars.pendingIntervals false) hlook.1
      obtain ⟨hord, hcov⟩ := hi.flush hlt
      generalize (s.vars.pendingIntervals false).foldl (fun c r => answer r c) c = c' at hs hok hg
      have hgrow := hlook.2.trans hg
      have hcov' := hcov.mono hgrow.known
      have hmemo : MemoOk (c'.track tr) s.vars.it.cachedGroup :=
        ⟨fun r hr => hgrow.groups _ _ (hi.memo.some r hr), hi.memo.none⟩
      have hstart : start ≤ s.vars.it.current := by
        have := hi.start_le
        cases hf : s.vars.fetchStart with
        | none => rwa [hf] at this
        | some m =>
          rw [hf] at this
          exact le_trans this (hi.pending m hf).le
      rcases hb with ⟨rfl, hget, hgap⟩ | ⟨e, rfl, rfl, he⟩
      · obtain ⟨b, hab, hbe, hbo, hmove, hknown⟩ :=
          afterBoundary_gap (s := s) hi.asc hi.track (hg.gaps _ hgap)
        have hcb : s.vars.it.current < b := by
          rcases hmove with h1 | h1
          · exact h1
          · rw [h1, hend]; exact hlt
        subst hs
        simp only [hab, append_nil]
        refine ⟨⟨hi.asc.move hbe hbo _, hi.track, hi.min, hi.max, Or.inl hend, hmemo, hok,
          le_trans hstart hcb.le, hend ▸ hbe, (fun m hm => by cases hm), ?_, ?_⟩, hcb⟩
        · exact hord.advance fun l hl => lt_trans hl hcb
        · exact hcov'.advance fun l hl _ _ h1 h2 => hknown l hl (not_lt.mp h1) h2
      · -- the cached object's group and its largest object are still there after the answers
        cases hr : (s.cache.track tr).groups.lookup s.vars.it.current.group with
        | none => simp [entryAt, hr] at he
        | some r =>
          simp only [entryAt, hr, Option.bind_some] at he
          have hr' := hgrow.groups _ _ hr
          have hmax : s.vars.it.current.object ≤ (c'.group r).maxCachedObject :=
            Nat.le_trans (hi.ok.object_le _ _ _ _ hr he) (hgrow.max _ _ hr)
          obtain ⟨b, memo, end_, last, hab, hend', hmemo', hcb, hbe, hbo, hknown⟩ :=
            afterBoundary_hit (c := c') hi.asc hi.track hi.max hend hlt hmemo hr' hmax
              (hok.max_le _ _ hr') e
          subst hs
          simp only [hab]
          refine ⟨⟨?_, hi.track, hi.min, hi.max, hend', hmemo', hok, le_trans hstart hcb.le, hbe,
            (fun m hm => by cases hm), ?_, ?_⟩, hcb⟩
          · refine ⟨hi.asc.order, hi.asc.valid, ?_, hbo, ?_⟩
            · rcases hend' with h1 | ⟨h1, -⟩
              · exact h1 ▸ hbe
              · exact le_of_eq h1
            · rcases hend' with h1 | ⟨h1, -⟩
              · rw [h1, ← hend]; exact hi.asc.end_valid
              · have hv := hi.asc.end_valid
                rw [hend] at hv
                rw [← h1]
                refine ⟨?_, hbo⟩
                have := hv.1
                rw [le_iff] at hbe
                show b.group ≤ kEightByteLimit
                omega
          · refine hord.append (fun l hl => lt_trans hl hcb) (pairwise_singleton _ _) ?_
            intro e' he' l hl
            cases mem_singleton.mp he'
            cases hl
            exact ⟨fun x hx => hx, hstart, hlt, hcb⟩
          · refine hcov'.append fun l hl _ _ h1 h2 => ?_
            rcases lt_or_eq_of_le (not_lt.mp h1) with h3 | h3
            · exact Or.inr (hknown l hl h3 h2)
            · exact Or.inl ⟨_, mem_singleton_self _, h3.symm⟩

theorem start_asc {order : GroupOrder} (hok : TrackOk c tr) (horder : order ≠ .newestFirst)
    (hlt : start < stop) (hs : start.Valid) (he : stop.Valid) :
    AscInv tr start stop (FetchRun.start c tr start stop order) := by
  have hrange : ofRange c.group (c.track tr) start stop order tr =
      { minLocation := start, maxLocation := stop, order := order, track := tr, current := start,
        end_ := stop } := by
    unfold ofRange
    rw [if_neg fun hn => horder hn.1]
  have ha : Asc (ofRange c.group (c.track tr) start stop order tr) := by
    rw [hrange]
    exact ⟨by simp [descending, horder], rfl, hlt.le, hs.2, he⟩
  obtain ⟨b, hb, hcb, hbe, hbo, hgaps, -⟩ := skipGapsLoop_asc (h := c.group) (t := c.track tr)
    ((ofRange c.group (c.track tr) start stop order tr).current.group + 2) ha
  rw [hrange] at hcb hbe hgaps
  unfold FetchRun.start construct skipGaps
  rw [hb, hrange]
  refine ⟨⟨by simp [descending, horder], rfl, hbe, hbo, he⟩, rfl, rfl, rfl, Or.inl rfl,
    ⟨(fun r hr => nomatch hr), fun _ => rfl⟩, hok, hcb, hbe, (fun m hm => nomatch hm), .nil, ?_⟩
  intro l hl h1 _ h2
  exact Or.inr (Or.inl (hgaps l hl h1 h2))

theorem AscInv.total (hi : AscInv tr start stop s) (hs : turn answer now s = none) :
    Ordered (· < ·) start stop stop s.total ∧
      Covered (· < ·) (Known s.cache tr) start stop stop s.total := by
  have hdone : s.vars.it.current = stop ∨ PastTrackEnd (s.cache.track tr) s.vars.it.current := by
    have hd := atEnd_of_stop hs
    unfold atEnd at hd
    rw [hi.track] at hd
    rcases end_asc (h := s.cache.group) (t := s.cache.track tr) hi.asc with ⟨hp, -⟩ | ⟨-, he⟩
    · exact Or.inr hp
    · simp only [he, decide_eq_true_eq] at hd
      rcases hi.end_ with h1 | ⟨-, h2⟩
      · exact Or.inl (hd.trans h1)
      · exact Or.inr h2
  have ho := hi.ordered
  have hc := hi.covered
  have hstart := hi.start_le
  have horder : s.vars.it.order ≠ .newestFirst := by simpa [descending] using hi.asc.order
  unfold FetchRun.total pendingIntervals
  cases hf : s.vars.fetchStart with
  | none =>
    rw [hf] at ho hc
    simp only [map_nil, append_nil]
    refine ⟨ho.advance fun l hl => lt_of_lt_of_le hl hi.current_le, hc.advance ?_⟩
    intro l hl _ hle hn _
    rcases hdone with hd | ⟨h1, largest, h2, h3⟩
    · exact absurd (hd ▸ hle) hn
    · exact Or.inr (Or.inr ⟨h1, largest, h2, lt_of_lt_of_le h3 (not_lt.mp hn)⟩)
  | some m =>
    rw [hf] at ho hc hstart
    have hm : m < stop := lt_of_lt_of_le (hi.pending m hf) hi.current_le
    simp only [getFetchIntervals, horder, ne_eq, not_false_eq_true, if_true, Bool.not_true,
      Bool.false_eq_true, if_false, hi.max, map_cons, map_nil]
    refine ⟨ho.append (fun l hl => hl.trans hm) (pairwise_singleton _ _) ?_,
      hc.append fun l hl _ hle hnm _ => Or.inl ⟨_, mem_singleton_self _, not_lt.mp hnm, hle, hl⟩⟩
    intro e he l hl
    cases mem_singleton.mp he
    obtain ⟨h1, h2, -⟩ := hl
    exact ⟨fun x hx => lt_of_lt_of_le hx h1, le_trans hstart h1, h2, h2⟩

/-- **Ascending fetches are planned exactly.** Whatever the track holds and knows, the loop stops, and
    what it has served and requested then is strictly increasing (so pairwise disjoint), lies in the
    range and covers every location of it that is not known to be missing. This holds for all upstream
    answers that keep the track well formed and take back nothing it knows; if they change nothing, then
    what is known at the end is what was known at the start. -/
theorem ascending_fetch_exact (answer : Answer) (now : TimePoint) (c : MoqxCache) (tr : TrackRef)
    (start «end» : AbsoluteLocation) (order : GroupOrder) (hans : SoundAnswer answer tr)
    (hst : TrackSound c tr) (horder : order ≠ .newestFirst) (hlt : start < «end») (hs : start.Valid)
    (he : «end».Valid) :
    ∃ s, Loop.Reaches (turn answer now) (FetchRun.start c tr start «end» order) s ∧
      turn answer now s = none ∧
      s.total.Pairwise (fun a b => ∀ x y, a.covers x → b.covers y → x < y) ∧
      (∀ e ∈ s.total, ∀ l, e.covers l → start ≤ l ∧ l < «end») ∧
      (∀ l : AbsoluteLocation, l.Valid → start ≤ l → l < «end» → ¬Known s.cache tr l →
        ∃ e ∈ s.total, e.covers l) ∧
      ((∀ r c, answer r c = c) → ∀ l, Known s.cache tr l ↔ Known c tr l) := by
  have hkeep : ∀ t u, Loop.Reaches (turn answer now) (FetchRun.start c tr start «end» order) t →
      AscInv tr start «end» t → turn answer now t = some u →
      AscInv tr start «end» u ∧ «end».rank - u.vars.it.current.rank <
        «end».rank - t.vars.it.current.rank := by
    intro t u _ hi hu
    obtain ⟨hi', hcur⟩ := turn_asc hans hi hu
    refine ⟨hi', ?_⟩
    have h1 := (rank_lt_rank hi.asc.current_object hi'.asc.current_object).mpr hcur
    have h2 := (rank_le_rank hi'.asc.current_object he.2).mpr hi'.current_le
    omega
  have hstart := start_asc hst.toTrackOk horder hlt hs he
  obtain ⟨s, hr, hstop, hi⟩ :=
    Loop.exists_stop (fun s => «end».rank - s.vars.it.current.rank) hstart hkeep
  obtain ⟨ho, hc⟩ := hi.total hstop
  refine ⟨s, hr, hstop, ho.sorted, ho.within, ?_, ?_⟩
  · intro l hl h1 h2 hk
    exact (hc l hl.2 h1 h2 h2).resolve_right hk
  · intro hid l
    have hsame : AscInv tr start «end» s ∧ SameKnowledge c s.cache tr := by
      refine hr.invariant (P := fun s => AscInv tr start «end» s ∧ SameKnowledge c s.cache tr)
        ⟨hstart, .refl c tr⟩ ?_
      intro t u htr hP hu
      exact ⟨(hkeep t u htr hP.1 hu).1, hP.2.trans (turn_knowledge hid
        (by rw [(hP.1.not_done (atEnd_of_turn hu)).1]; exact hP.1.track) hu)⟩
    exact hsame.2.known_iff l

/-- With the object `{5, 0}` cached, an upstream that leaves the cache as it is, and the range from
    `{5, 0}` to `{6, 2}`. -/
theorem ascending_fetch_exact_oneObject :
    ∃ s, Loop.Reaches (turn (fun _ c => c) 0) (FetchRun.start oneObject 0 ⟨5, 0⟩ ⟨6, 2⟩ .oldestFirst) s ∧
      ∃ e ∈ s.total, e.covers ⟨5, 0⟩ := by
  obtain ⟨s, hr, -, -, -, hcov, hknown⟩ :=
    ascending_fetch_exact (fun _ c => c) 0 oneObject 0 ⟨5, 0⟩ ⟨6, 2⟩ .oldestFirst
      (fun _ c hok => ⟨hok, .refl c 0⟩) oneObject_state (by decide) (by decide) (by decide) (by decide)
  refine ⟨s, hr, hcov ⟨5, 0⟩ (by decide) (by decide) (by decide) ?_⟩
  rw [hknown fun _ _ => rfl]
  exact oneObject_not_known

end loop

end Moqx

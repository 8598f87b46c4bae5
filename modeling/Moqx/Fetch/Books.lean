/-
  Subject: Fetch writebacks keep the books right.

  A fetch writeback pins at most one group, the one its entry among the fetches in progress is keyed by,
  and moves the pin along with its cursor. Here the pins of everybody else are `base`, and `withPin` adds
  the writeback's own.

  * `Tail.calm`, `call_step` -- the calls of the stream.
-/
import Moqx.Cache.Writers
import Moqx.Fetch.Calls

namespace Moqx

namespace FetchWriteback

open MoqxCache

variable {base : GroupRef → Nat} {lives : TrackRef → Nat} {s s' s'' : State} {now : TimePoint}
  {pinned : GroupRef → Prop}

variable {write : ObjectWrite} {r : GroupRef} {loc : AbsoluteLocation} {c : MoqxCache} {t : TrackRef}

/-! ## 1. Steps -/

/-- The pins of everybody else, and the writeback's own. -/
def withPin (base : GroupRef → Nat) (own : Option GroupRef) (r : GroupRef) : Nat :=
  base r + if own = some r then 1 else 0

theorem withPin_none : withPin base none = base := by
  funext r
  rfl

theorem withPin_some : withPin base (some r) = onePin base r := by
  funext r'
  unfold withPin onePin
  by_cases h : r' = r
  · subst h
    rw [if_pos rfl, Function.update_self]
  · rw [if_neg fun h' => h (Option.some.inj h').symm, Function.update_of_ne h]
    rfl

theorem unpin_withPin : unpin (withPin base (some r)) r = base := by
  rw [withPin_some]
  unfold unpin onePin
  rw [Function.update_self, Function.update_idem, Nat.add_sub_cancel, Function.update_eq_self]

/-- The writeback's track is the one of its name unless it is evicted, and its pin is on the group that
    its entry among the fetches in progress is keyed by. -/
structure Holds (c : MoqxCache) (w : FetchWriteback) : Prop extends c.Tracks w.ftn w.track where
  pinned : ∀ {r}, w.pinnedGroup = some r → ∃ key, w.fetchInProgressIt = some key ∧
    MoqxCache.Holds c w.ftn w.track key.group r

structure Same (w w' : FetchWriteback) : Prop where
  range : w.fetchRangeIt.SameRange w'.fetchRangeIt
  id : w'.id = w.id
  ftn : w'.ftn = w.ftn
  cachingEnabled : w'.cachingEnabled = w.cachingEnabled

theorem Same.refl (w : FetchWriteback) : w.Same w := ⟨.refl _, rfl, rfl, rfl⟩

theorem Same.trans {w w' w'' : FetchWriteback} (h : w.Same w') (h' : w'.Same w'') : w.Same w'' :=
  ⟨h.range.trans h'.range, h'.id.trans h.id, h'.ftn.trans h.ftn, h'.cachingEnabled.trans h.cachingEnabled⟩

/-- The books are right, and the writeback can rely on what it holds. -/
structure Good (base : GroupRef → Nat) (lives : TrackRef → Nat) (s : State) : Prop where
  sound : Sound (withPin base s.2.pinnedGroup) lives s.1
  holds : s.2.Holds s.1

/-- A step that keeps the books right, and changes the cache as `change` says. -/
structure Step (change : MoqxCache → MoqxCache → Prop) (base : GroupRef → Nat) (lives : TrackRef → Nat)
    (s s' : State) : Prop extends Good base lives s' where
  change : change s.1 s'.1
  same : s.2.Same s'.2

/-- A step after which no entry is new. -/
abbrev Calm (base : GroupRef → Nat) (lives : TrackRef → Nat) (s s' : State) : Prop :=
  Step (Sheds fun r => 0 < base r) base lives s s'

/-- A step that may have written `write`. -/
abbrev Written (write : ObjectWrite) (base : GroupRef → Nat) (lives : TrackRef → Nat) (s s' : State) : Prop :=
  Step (Stores (fun r => 0 < base r) s.2.track write) base lives s s'

theorem Calm.refl (hg : Good base lives s) : Calm base lives s s := ⟨hg, .refl _, .refl _⟩

theorem Calm.trans (h : Calm base lives s s') (h' : Calm base lives s' s'') : Calm base lives s s'' :=
  ⟨h'.toGood, h.change.trans h'.change, h.same.trans h'.same⟩

theorem Calm.written (h : Calm base lives s s') : Written write base lives s s' :=
  ⟨h.toGood, h.change.stores, h.same⟩

theorem Calm.andWritten (h : Calm base lives s s') (h' : Written write base lives s' s'') :
    Written write base lives s s'' := by
  have htrack : s'.2.track = s.2.track := h.same.range.track
  refine ⟨h'.toGood, h.change.andStores ?_, h.same.trans h'.same⟩
  rw [← htrack]
  exact h'.change

theorem Written.andCalm (h : Written write base lives s s') (h' : Calm base lives s' s'') :
    Written write base lives s s'' :=
  ⟨h'.toGood, h.change.andSheds h'.change, h.same.trans h'.same⟩

theorem withPin_pos {own : Option GroupRef} (h : 0 < base r) : 0 < withPin base own r :=
  Nat.lt_of_lt_of_le h (Nat.le_add_right _ _)

theorem withPin_own : 0 < withPin base (some r) r := by
  unfold withPin
  rw [if_pos rfl]
  exact Nat.succ_pos _

theorem Good.frame (hg : Good base lives s) (hs : Sound (withPin base s.2.pinnedGroup) lives c)
    (hk : Keeps (fun r => 0 < withPin base s.2.pinnedGroup r) s.1 c) : Good base lives (c, s.2) where
  sound := hs
  holds :=
    { toTracks := hg.holds.toTracks.keep hk
      pinned := fun hr => by
        obtain ⟨key, hkey, hh⟩ := hg.holds.pinned hr
        refine ⟨key, hkey, hh.keep hk ?_⟩
        replace hr : s.2.pinnedGroup = some _ := hr
        rw [hr]
        exact withPin_own }

/-- A step that touches neither what the books record nor the writeback's pin. -/
structure Quiet (s s' : State) : Prop where
  cache : s.1.Alike s'.1
  same : s.2.Same s'.2
  pinnedGroup : s'.2.pinnedGroup = s.2.pinnedGroup
  key : s'.2.fetchInProgressIt = s.2.fetchInProgressIt

theorem Quiet.refl (s : State) : Quiet s s := ⟨.refl _, .refl _, rfl, rfl⟩

theorem Quiet.trans (h : Quiet s s') (h' : Quiet s' s'') : Quiet s s'' :=
  ⟨h.cache.trans h'.cache, h.same.trans h'.same, h'.pinnedGroup.trans h.pinnedGroup, h'.key.trans h.key⟩

theorem Quiet.calm (h : Quiet s s') (hg : Good base lives s) : Calm base lives s s' where
  sound := by
    rw [h.pinnedGroup]
    exact hg.sound.alike h.cache
  holds := by
    have htrack : s'.2.track = s.2.track := h.same.range.track
    refine { track := ?_, cache := ?_, pinned := fun hr => ?_ }
    · rw [htrack, h.cache.nextTrack]
      exact hg.holds.track
    · rw [htrack, h.cache.evicted, h.cache.cache, h.same.ftn]
      exact hg.holds.cache
    · rw [h.pinnedGroup] at hr
      obtain ⟨key, hk, hh⟩ := hg.holds.pinned hr
      rw [h.key, htrack, h.same.ftn]
      exact ⟨key, hk, hh.alike h.cache⟩
  change := h.cache.sheds
  same := h.same

/-! ## 2. The pin -/

theorem emplaceAndPinGroup_calm {entry : FetchInProgressEntry} (hg : Good base lives s)
    (hn : s.2.pinnedGroup = none) :
    Calm base lives s (emplaceAndPinGroup s loc entry) := by
  obtain ⟨c, w⟩ := s
  have hs : Sound base lives c := by
    have := hg.sound
    rw [hn, withPin_none] at this
    exact this
  have ha : c.Alike (c.setTrack w.track ((c.track w.track).emplaceFetch loc entry)) :=
    setTrack_alike ⟨rfl, rfl, rfl, rfl⟩
  have htracks := hg.holds.toTracks
  unfold emplaceAndPinGroup
  simp only
  generalize c.setTrack w.track ((c.track w.track).emplaceFetch loc entry) = d at ha ⊢
  -- the group is there, or is added now; either way it is pinned
  suffices hpin : ∀ (e : MoqxCache) (r : GroupRef), Sound (onePin base r) lives e →
      Sheds (fun r => 0 < base r) d e → e.groupAt w.track loc.group = some r →
      Calm base lives (c, w) (e, { w with fetchInProgressIt := some loc, pinnedGroup := some r }) by
    have hsd := hs.alike ha
    split
    · rename_i r hr
      have hsound := @pinGroup_sound _ _ _ _ _ _ (fun r => 0 < base r) hsd hr
      exact hpin _ _ hsound.1 hsound.2 (((pinGroup_pins hsd.toLedger hr).same.groupAt _ _).trans hr)
    · rename_i hr
      have htidy := @evictOldestGroupsIfNeeded_tidy _ _ _ w.track hsd
      have hnone := (@evictOldestGroupsIfNeeded_drops _ _ _ w.track hsd.toLedger).groupAt_none hr
      obtain ⟨hsound, hsheds, hgroup⟩ := @addPinned_sound _ _ _ _ _ (fun r => 0 < base r) htidy.1 hnone
      exact hpin _ _ hsound (htidy.2.trans hsheds) hgroup
  intro e r hsound hsheds hgroup
  have hkeep : Sheds (fun r => 0 < base r) c e := ha.sheds.trans hsheds
  refine { sound := ?_, holds := ?_, change := hkeep, same := ⟨.refl _, rfl, rfl, rfl⟩ }
  · show Sound (withPin base (some r)) lives e
    rw [withPin_some]
    exact hsound
  · have ht := htracks.keep hkeep.toKeeps
    refine { toTracks := ht, pinned := fun hr => ?_ }
    cases hr
    exact ⟨loc, rfl, hsound.toLedger.holds ht hgroup⟩

theorem eraseAndMakeGroupEvictable_calm (hg : Good base lives s) :
    Calm base lives s (eraseAndMakeGroupEvictable s) ∧
      (eraseAndMakeGroupEvictable s).2.pinnedGroup = none ∧
      (eraseAndMakeGroupEvictable s).2.fetchInProgressIt = none := by
  obtain ⟨c, w⟩ := s
  unfold eraseAndMakeGroupEvictable
  simp only
  split
  · rename_i hkey
    refine ⟨.refl hg, ?_, hkey⟩
    cases hr : w.pinnedGroup with
    | none => rfl
    | some r =>
      obtain ⟨key, hk, -⟩ := hg.holds.pinned hr
      rw [hkey] at hk
      cases hk
  · rename_i key hkey
    have ha : c.Alike (c.setTrack w.track ((c.track w.track).eraseFetch w.id)) :=
      setTrack_alike ⟨rfl, rfl, rfl, rfl⟩
    generalize c.setTrack w.track ((c.track w.track).eraseFetch w.id) = d at ha ⊢
    have hsame : w.Same { w with fetchInProgressIt := none } := ⟨.refl _, rfl, rfl, rfl⟩
    split
    · rename_i hr
      replace hr : w.pinnedGroup = none := hr
      refine ⟨{ sound := ?_, holds := ?_, change := ha.sheds, same := hsame }, hr, rfl⟩
      · show Sound (withPin base w.pinnedGroup) lives d
        exact hg.sound.alike ha
      · refine { toTracks := hg.holds.toTracks.alike ha, pinned := fun hr' => ?_ }
        rw [hr] at hr'
        cases hr'
    · rename_i r hr
      replace hr : w.pinnedGroup = some r := hr
      obtain ⟨key', hk, hh⟩ := hg.holds.pinned hr
      obtain rfl : key = key' := Option.some.inj (hkey.symm.trans hk)
      have hs : Sound (withPin base (some r)) lives d := by
        have := hg.sound.alike ha
        rw [hr] at this
        exact this
      have hun := @unpinGroup_sound _ _ _ _ _ _ _ (fun r => 0 < base r) hs (hh.alike ha) withPin_own
      rw [unpin_withPin] at hun
      have hkeep := ha.sheds.trans hun.2
      refine ⟨{ sound := ?_, holds := ?_, change := hkeep, same := ⟨.refl _, rfl, rfl, rfl⟩ }, rfl, rfl⟩
      · show Sound (withPin base none) lives _
        rw [withPin_none]
        exact hun.1
      · exact { toTracks := hg.holds.toTracks.keep hkeep.toKeeps, pinned := fun hr' => nomatch hr' }

theorem updateInProgress_calm (hg : Good base lives s) : Calm base lives s (updateInProgress s) := by
  have hprogress : Quiet s (progressed s) := ⟨setTrack_alike ⟨rfl, rfl, rfl, rfl⟩, .refl _, rfl, rfl⟩
  have hcalm := hprogress.calm hg
  obtain ⟨herase, hnone, -⟩ := eraseAndMakeGroupEvictable_calm hcalm.toGood
  have hgone := hcalm.trans herase
  refine updateInProgress_rule (P := Calm base lives s) (fun _ => .refl hg) (eraseAndMakeGroupEvictable_calm hg).1
    hcalm hgone (hgone.trans (emplaceAndPinGroup_calm herase.toGood hnone)) fun h => ?_
  exact h.trans (Quiet.calm ⟨.refl _, ⟨.refl _, rfl, rfl, rfl⟩, rfl, rfl⟩ h.toGood)

/-! ## 3. Recording -/

theorem setCursor_quiet {it : FetchRangeIterator} (h : s.2.fetchRangeIt.SameRange it) :
    Quiet s (s.1, s.2.setCursor it) := ⟨.refl _, ⟨h, rfl, rfl, rfl⟩, rfl, rfl⟩

theorem next_quiet : Quiet s (next s) := setCursor_quiet FetchRangeIterator.next_sameRange

theorem advanceTo_quiet : Quiet s (advanceTo s loc) :=
  setCursor_quiet FetchRangeIterator.advanceTo_sameRange

theorem invalidate_quiet : Quiet s (FetchWriteback.invalidate s) := setCursor_quiet ⟨rfl, rfl, rfl, rfl⟩

theorem Gapped.alike {c' : MoqxCache} (h : Gapped t c c') : c.Alike c' := by
  induction h with
  | refl => exact .refl _
  | gap start stop _ ih => exact ih.trans (setTrack_alike (CacheTrack.insertGap_marked _ _).alike)

theorem markNonExistentTo_quiet {target : AbsoluteLocation} (h : markNonExistentTo s target = some s') :
    Quiet s s' := by
  obtain ⟨hgaps, gaps, it, hw, -⟩ := markNonExistentTo_gapped h
  have hrange := markNonExistentTo_range h
  rw [hw] at hrange
  refine ⟨hgaps.alike, ?_, ?_, ?_⟩
  · rw [hw]
    exact ⟨hrange, rfl, rfl, rfl⟩
  · rw [hw]
  · rw [hw]

theorem finishRange_quiet (h : finishRange s = some s') : Quiet s s' := by
  obtain ⟨hgaps, gaps, it, hw, hrange⟩ := finishRange_gapped h
  refine ⟨hgaps.alike, ?_, ?_, ?_⟩
  · rw [hw]
    exact ⟨hrange.trans ⟨rfl, rfl, rfl, rfl⟩, rfl, rfl, rfl⟩
  · rw [hw]
  · rw [hw]

theorem Alters.quiet {w : FetchWriteback} (h : s.2.Alters w) : Quiet s (s.1, w) := by
  obtain ⟨subgroup, length, offset, accepted, rfl⟩ := h
  exact ⟨.refl _, ⟨.refl _, rfl, rfl, rfl⟩, rfl, rfl⟩

theorem receive_quiet : Quiet s (s.1, s.2.receive loc) := by
  unfold receive
  split
  · exact ⟨.refl _, ⟨.refl _, rfl, rfl, rfl⟩, rfl, rfl⟩
  · exact .refl s

theorem write_written (hg : Good base lives s) (he : (s.1.track s.2.track).evicted = false)
    (hr : s.1.groupAt s.2.track write.groupID = some r) :
    Written write base lives s ((s.1.cacheObjectAndUpdateBytes r s.2.track write).2, s.2) := by
  obtain ⟨hsound, hstores⟩ := cacheObjectAndUpdateBytes_stores hg.sound (hg.holds.cache he) hr
  exact ⟨hg.frame hsound hstores.toKeeps, hstores.mono fun r => withPin_pos, .refl _⟩

theorem getOrCreateGroup_calm {g : Nat} (hg : Good base lives s)
    (he : (s.1.track s.2.track).evicted = false) :
    Calm base lives s ((s.1.getOrCreateGroupWithEviction s.2.track g s.2.ftn).2, s.2) ∧
      (s.1.getOrCreateGroupWithEviction s.2.track g s.2.ftn).2.groupAt s.2.track g =
        some (s.1.getOrCreateGroupWithEviction s.2.track g s.2.ftn).1 ∧
      ((s.1.getOrCreateGroupWithEviction s.2.track g s.2.ftn).2.track s.2.track).evicted = false := by
  obtain ⟨htidy, hgroup, hf⟩ :=
    @getOrCreateGroupWithEviction_tidy _ _ s.1 s.2.track g s.2.ftn hg.sound (hg.holds.cache he)
  refine ⟨⟨hg.frame htidy.1 htidy.2.toKeeps, htidy.2.mono fun r => withPin_pos, .refl _⟩, hgroup, ?_⟩
  exact htidy.1.notEvicted hf

theorem setLargest_quiet {eot : Bool} {tr : CacheTrack}
    (h : (s.1.track s.2.track).updateLargest loc eot = .ok tr) : Quiet s (s.1.setTrack s.2.track tr, s.2) :=
  ⟨setTrack_updateLargest h, .refl _, rfl, rfl⟩

theorem Tail.calm (h : Tail s s') (hg : Good base lives s) : Calm base lives s s' := by
  induction h with
  | refl => exact .refl hg
  | alter _ ha ih => exact ih.trans (ha.quiet.calm ih.toGood)
  | flags _ _ _ ih => exact ih.trans (Quiet.calm ⟨.refl _, ⟨.refl _, rfl, rfl, rfl⟩, rfl, rfl⟩ ih.toGood)
  | largest _ hl ih => exact ih.trans ((setLargest_quiet hl).calm ih.toGood)
  | next _ ih => exact ih.trans (next_quiet.calm ih.toGood)
  | invalidate _ ih => exact ih.trans (invalidate_quiet.calm ih.toGood)
  | finish _ hf ih => exact ih.trans ((finishRange_quiet hf).calm ih.toGood)
  | publish _ ih => exact ih.trans (updateInProgress_calm ih.toGood)

theorem cacheImpl_written {fin : Bool} {reply : Reply} (hg : Good base lives s)
    (he : (s.1.track s.2.track).evicted = false) (h : cacheImpl s write fin = some (reply, s')) :
    Written write base lives s s' := by
  obtain ⟨d, hd, hafter⟩ := cacheImpl_caches h
  obtain ⟨hcalm, hgroup, he'⟩ := @getOrCreateGroup_calm _ _ _ write.groupID hg he
  have hstored : Written write base lives s (stored s write, s.2) :=
    hcalm.andWritten (@write_written _ _ (_, s.2) write _ hcalm.toGood he' hgroup)
  have hmarked := (receive_quiet.trans (markNonExistentTo_quiet hd)).calm hstored.toGood
  exact hstored.andCalm (hmarked.trans (hafter.tail.calm hmarked.toGood))

theorem cacheChunk_written (hg : Good base lives s) (he : (s.1.track s.2.track).evicted = false) :
    Written write base lives s (cacheChunk s write).2 := by
  unfold cacheChunk
  split
  · exact (Calm.refl hg).written
  · rename_i r hr
    exact write_written hg he hr

/-! ## 4. The calls -/

theorem setUpstreamEnd_calm (hg : Good base lives s) (h : setUpstreamEnd s loc = some s') :
    Calm base lives s s' := by
  obtain ⟨hgaps, gaps, hw⟩ := insertGaps_gapped h
  refine Quiet.calm ⟨hgaps.alike, ?_, ?_, ?_⟩ hg
  · rw [hw]
    exact ⟨.refl _, rfl, rfl, rfl⟩
  · rw [hw]
  · rw [hw]

/-- The cache after a call that may have written `write`. -/
def MayWrite (pinned : GroupRef → Prop) (t : TrackRef) (write : Option ObjectWrite) (c c' : MoqxCache) : Prop :=
  match write with
  | none => Sheds pinned c c'
  | some write => Stores pinned t write c c'

theorem MayWrite.keeps {write : Option ObjectWrite} {c' : MoqxCache} (h : MayWrite pinned t write c c') :
    Keeps pinned c c' := by
  cases write with
  | none => exact Sheds.toKeeps h
  | some write => exact Stores.toKeeps h

theorem Calm.mayWrite {write : Option ObjectWrite} (h : Calm base lives s s') :
    Step (MayWrite (fun r => 0 < base r) s.2.track write) base lives s s' := by
  cases write with
  | none => exact h
  | some write => exact h.written

/-- **A call of the stream** keeps the books right. -/
theorem call_step {call : FetchCall} (hg : Good base lives s)
    (h : (FetchWriteback.call s now call).1 ≠ .aborted) :
    Step (MayWrite (fun r => 0 < base r) s.2.track (s.2.writeOf now call)) base lives s
      (FetchWriteback.call s now call).2 := by
  have hdoes := call_does h
  generalize FetchWriteback.call s now call = res at hdoes
  cases hdoes with
  | idle ha => exact (ha.quiet.calm hg).mayWrite
  | ended _ _ _ h => exact ((onFetchStreamEnd_tail h).calm hg).mayWrite
  | @cached w _ write _ _ ha hw _ _ caching _ h _ ha' =>
    have hcalm := ha.quiet.calm hg
    have he : (s.1.track s.2.track).evicted = false := evicted_of_caching (by simpa using caching)
    have htrack : w.track = s.2.track := hcalm.same.range.track
    have hwritten := hcalm.andWritten (cacheImpl_written hcalm.toGood (by rw [htrack]; exact he) h)
    rw [hw]
    exact hwritten.andCalm (ha'.quiet.calm hwritten.toGood)
  | @refused payload _ _ _ hcall caching _ h =>
    have hchunk := @cacheChunk_written _ _ _ (s.2.chunk payload now) hg (evicted_of_caching (by simpa using caching))
    rw [h] at hchunk
    rw [hcall]
    exact hchunk
  | @chunk payload _ _ _ hcall caching _ h after =>
    have hchunk := @cacheChunk_written _ _ _ (s.2.chunk payload now) hg (evicted_of_caching (by simpa using caching))
    rw [h] at hchunk
    rw [hcall]
    exact hchunk.andCalm ((afterChunk_tail after).calm hchunk.toGood)
  | reset => exact (reset_tail.calm hg).mayWrite
  | @unknown groupId objectId fin =>
    have hmoved := ((@advanceTo_quiet s ⟨groupId, objectId⟩).trans next_quiet).calm hg
    have hup := hmoved.trans (updateInProgress_calm hmoved.toGood)
    refine (hup.trans (Quiet.calm ?_ hup.toGood)).mayWrite
    exact ⟨.refl _, ⟨.refl _, rfl, rfl, rfl⟩, rfl, rfl⟩

/-! ## 5. Constructor and destructor -/

theorem open_calm {id : WritebackId} {proxyFin : Bool} {ftn : FullTrackName} {start stop : AbsoluteLocation}
    {order : GroupOrder} (hs : Sound base lives c) (ht : c.Tracks ftn t) :
    Good base lives («open» (c, make c id proxyFin ftn t start stop order)) ∧
      Sheds (fun r => 0 < base r) c («open» (c, make c id proxyFin ftn t start stop order)).1 ∧
      (make c id proxyFin ftn t start stop order).Same
        («open» (c, make c id proxyFin ftn t start stop order)).2 := by
  have htrack : (make c id proxyFin ftn t start stop order).track = t := FetchRangeIterator.construct_track
  have hfresh : Good base lives (c, make c id proxyFin ftn t start stop order) :=
    { sound := by rw [show (make c id proxyFin ftn t start stop order).pinnedGroup = none from rfl, withPin_none]; exact hs
      holds :=
        { track := by rw [htrack]; exact ht.track
          cache := by rw [htrack]; exact ht.cache
          pinned := fun hr => nomatch hr } }
  have hnone : (make c id proxyFin ftn t start stop order).pinnedGroup = none := rfl
  generalize make c id proxyFin ftn t start stop order = w at hfresh hnone ⊢
  have hlru : Quiet (c, w) (c.removeTrackFromLRU w.track, w) := ⟨removeTrackFromLRU_enlists.alike, .refl _, rfl, rfl⟩
  have hcalm := hlru.calm hfresh
  suffices h : Calm base lives (c, w) («open» (c, w)) from ⟨h.toGood, h.change, h.same⟩
  unfold «open»
  simp only
  split
  · exact hcalm.trans (emplaceAndPinGroup_calm hcalm.toGood hnone)
  · exact hcalm

theorem close_sound (hg : Good base lives s) :
    Sound base lives (close s) ∧ Sheds (fun r => 0 < base r) s.1 (close s) := by
  obtain ⟨hcalm, hnone, -⟩ := eraseAndMakeGroupEvictable_calm hg
  have hsound := hcalm.sound
  rw [hnone, withPin_none] at hsound
  have ha := @onTrackBecameEvictable_alike (eraseAndMakeGroupEvictable s).1 s.2.ftn
  exact ⟨hsound.alike ha, hcalm.change.trans ha.sheds⟩

end FetchWriteback

end Moqx

/-
  Subject: Pins, new groups, new tracks and live writers keep the books right.

  * `pinGroup_sound`, `unpinGroup_sound` -- a pin more, a pin less;
  * `getOrCreateGroupWithEviction_tidy`, `addPinned_sound` -- new groups;
  * `addTrack_tidy`, `Sound.setLive` -- new tracks and live writers.
-/
import Moqx.Cache.Eviction
import Moqx.Fetch.Plan

namespace Moqx

open List Function AList Option

namespace MoqxCache

variable {pins : GroupRef → Nat} {lives : TrackRef → Nat} {c c' : MoqxCache} {t t' : TrackRef}
  {r r' : GroupRef} {g g' : Nat} {ftn ftn' : FullTrackName} {pinned : GroupRef → Prop}

/-! ## 1. Pins -/

def onePin (pins : GroupRef → Nat) (r : GroupRef) : GroupRef → Nat := Function.update pins r (pins r + 1)

def unpin (pins : GroupRef → Nat) (r : GroupRef) : GroupRef → Nat := Function.update pins r (pins r - 1)

theorem Ledger.iter_none (hl : Ledger pins lives c) (hg : c.groupAt t g = some r)
    (h : (c.group r).lruIter = none) : (c.group r).globalLruIter = none := by
  by_cases hc : c.Cached t
  · obtain ⟨ftn, hf⟩ := hc
    obtain ⟨h1, h2⟩ := hl.iter hf hg
    rw [h2]
    rw [h] at h1
    split
    · rename_i hp
      rw [if_pos hp] at h1
      cases h1
    · rfl
  · exact (hl.noIter hc hg).2

/-- What a pin does: the group is counted once more, and is in neither list. -/
structure Pins (c : MoqxCache) (t : TrackRef) (r : GroupRef) (c' : MoqxCache) : Prop where
  cache : c'.cache = c.cache
  nextGroup : c'.nextGroup = c.nextGroup
  nextTrack : c'.nextTrack = c.nextTrack
  otherTrack : ∀ {t'}, t' ≠ t → c'.track t' = c.track t'
  track : c'.track t = { c.track t with groupLRU := without (c.track t).groupLRU (c.group r).lruIter }
  otherGroup : ∀ {r'}, r' ≠ r → c'.group r' = c.group r'
  group : c'.group r =
    { c.group r with pinCount := (c.group r).pinCount + 1, lruIter := none, globalLruIter := none }
  globalGroupLRU : c'.globalGroupLRU = without c.globalGroupLRU (c.group r).globalLruIter
  total : c'.totalCachedBytes = c.totalCachedBytes
  underflow : c'.underflow = c.underflow

theorem pinGroup_pins (hl : Ledger pins lives c) (hg : c.groupAt t g = some r) :
    Pins c t r (c.pinGroup r t) := by
  have hnone := hl.iter_none hg
  -- a group that is in no list stays as it is, except for its count
  have hquiet : (c.group r).lruIter = none →
      Pins c t r (c.setGroup r { c.group r with pinCount := (c.group r).pinCount + 1 }) := by
    intro hi
    have hi' := hnone hi
    refine ⟨rfl, rfl, rfl, fun _ => rfl, by rw [hi]; rfl, fun h => setGroup_ne h, ?_, by rw [hi']; rfl, rfl, rfl⟩
    rw [setGroup_self]
    simp only [hi, hi']
  unfold pinGroup
  simp only
  split
  · unfold removeGroupFromLRU
    rw [setGroup_self]
    split
    · rename_i h
      exact hquiet (isNone_iff_eq_none.mp h)
    · have hu := unlink_unlinks (c.setGroup r { c.group r with pinCount := (c.group r).pinCount + 1 }) t r
      have hgroup := hu.group
      rw [setGroup_self] at hgroup
      exact ⟨hu.cache, hu.nextGroup, hu.nextTrack, fun h => hu.otherTrack h, by rw [hu.track, setGroup_self]; rfl,
        fun h => (hu.otherGroup h).trans (setGroup_ne h), hgroup, by rw [hu.globalGroupLRU, setGroup_self]; rfl,
        hu.total, hu.underflow⟩
  · rename_i hp
    refine hquiet ?_
    by_cases hc : c.Cached t
    · obtain ⟨ftn, hf⟩ := hc
      rw [(hl.iter hf hg).1, if_neg hp]
    · exact (hl.noIter hc hg).1

theorem Pins.same (hp : Pins c t r c') : SameHoldings c c' where
  cache := hp.cache
  nextGroup := hp.nextGroup
  nextTrack := hp.nextTrack
  total := hp.total
  groups := track_field (·.groups) hp.otherTrack (by rw [hp.track])
  objects := group_field (·.objects) hp.otherGroup (by rw [hp.group])
  totalBytes := group_field (·.totalBytes) hp.otherGroup (by rw [hp.group])

theorem Pins.relists (hl : Ledger pins lives c) (hp : Pins c t r c') (hg : c.groupAt t g = some r) :
    Relists c t g c' := by
  have hsame := hp.same
  have hgroupAt : ∀ {r'}, c'.groupAt t g = some r' → r' = r := by
    intro r' hr'
    rw [hsame.groupAt, hg] at hr'
    exact (some.inj hr').symm
  have hself : g ∉ (c'.track t).groupLRU := by
    rw [hp.track]
    exact fun h => ((hl.mem_without hg).mp h).2 rfl
  -- the group is not free any more
  have hpinned : (c'.group r).pinCount ≠ 0 := by
    rw [hp.group]
    exact Nat.succ_ne_zero _
  have hiter : (c'.group r).lruIter = none ∧ (c'.group r).globalLruIter = none := by
    rw [hp.group]
    exact ⟨rfl, rfl⟩
  refine
    { cache := hp.cache
      groupAt := fun _ => hsame.groupAt _ _
      group := @fun t' g' r' hne hr' => hp.otherGroup fun heq => hne (hl.groupOnce (heq ▸ hr') hg)
      trackNodup := fun t' => ?_
      allNodup := by rw [hp.globalGroupLRU]; exact nodup_without hl.allNodup
      mem := @fun t' g' hne => ?_
      memAll := fun hne => ?_
      own := iff_of_false hself fun ⟨_, r', hr', h0⟩ => hpinned (hgroupAt hr' ▸ h0)
      ownAll := fun hf => iff_of_false (fun h => ?_) hself
      ownIter := fun _ hr' => ?_
      ownNoIter := fun _ hr' => hgroupAt hr' ▸ hiter }
  · by_cases ht : t' = t
    · rw [ht, hp.track]
      exact nodup_without (hl.trackNodup t)
    · rw [hp.otherTrack ht]
      exact hl.trackNodup t'
  · by_cases ht : t' = t
    · subst ht
      rw [hp.track]
      exact (hl.mem_without hg).trans (and_iff_left fun hg' => hne ⟨rfl, hg'⟩)
    · rw [hp.otherTrack ht]
  · rw [hp.globalGroupLRU, hl.mem_without_all hg, and_iff_left hne]
  · rw [hp.globalGroupLRU, hl.mem_without_all hg] at h
    exact h.2 ⟨hf, rfl⟩
  · rw [hgroupAt hr', if_neg hpinned, if_neg hpinned]
    exact hiter

theorem Lists.pin (hl : Ledger pins lives c) (hp : Pins c t r c') (hg : c.groupAt t g = some r) :
    Lists (onePin pins r) c' := by
  refine hl.relists (hp.relists hl hg) (fun r' hr' => ?_) (fun r' hr' => ?_) @fun r' hr' hn => ?_
  · rw [hp.nextGroup] at hr'
    unfold onePin
    by_cases hr : r' = r
    · subst hr
      rw [update_self, hp.group, ← hl.pinCount r' hr']
    · rw [update_of_ne hr, hp.otherGroup hr]
      exact hl.pinCount r' hr'
  · rw [hp.nextGroup] at hr'
    unfold onePin
    rw [update_of_ne]
    · exact hl.pinBound r' hr'
    · rintro rfl
      exact absurd (hl.groupBound hg) (Nat.not_lt.mpr hr')
  · rw [hp.nextGroup] at hr'
    simp only [hp.same.groupAt] at hn
    have hr : r' ≠ r := by
      rintro rfl
      exact hn t g hg
    rw [hp.otherGroup hr]
    exact hl.unheld hr' hn

theorem pinGroup_sound (hs : Sound pins lives c) (hg : c.groupAt t g = some r) :
    Sound (onePin pins r) lives (c.pinGroup r t) ∧ Sheds pinned c (c.pinGroup r t) := by
  have hp := pinGroup_pins hs.toLedger hg
  have hmarks := track_field (·.evicted) hp.otherTrack (by rw [hp.track])
  have hlive := track_field (·.liveWritebackCount) hp.otherTrack (by rw [hp.track])
  refine ⟨hs.relist hp.same hmarks ?_, hp.same.sheds hmarks⟩
  exact hs.toLedger.relist hp.same (hp.underflow.trans hs.noUnderflow) (.pin hs.toLedger hp hg)
    (fun t ht => (hlive t).trans (hs.liveCount t ht)) hs.liveBound

/-- What someone relies on who keeps the group `r` as the one of `t` with the id `g`, `t` being the track
    of the name `ftn`. -/
structure Holds (c : MoqxCache) (ftn : FullTrackName) (t : TrackRef) (g : Nat) (r : GroupRef) : Prop where
  track : t < c.nextTrack
  group : r < c.nextGroup
  owner : ∀ {t' g'}, c.groupAt t' g' = some r → t' = t ∧ g' = g
  cache : (c.track t).evicted = false → c.cache.lookup ftn = some t
  held : (c.track t).evicted = false → c.groupAt t g = some r

theorem Holds.keep (h : Holds c ftn t g r) (hk : Keeps pinned c c') (hp : pinned r) : Holds c' ftn t g r where
  track := Nat.lt_of_lt_of_le h.track hk.nextTrack
  group := Nat.lt_of_lt_of_le h.group hk.nextGroup
  owner hg := h.owner (hk.owner h.group hg)
  cache he := hk.cache h.track (h.cache (hk.notEvicted h.track he)) he
  held he := hk.held hp h.track (h.held (hk.notEvicted h.track he)) he

/-- What a release does: the group is counted once less, and is listed if that was the last pin and its
    track still holds it. -/
structure Unpins (c : MoqxCache) (ftn : FullTrackName) (t : TrackRef) (g : Nat) (r : GroupRef)
    (listed : Bool) (c' : MoqxCache) : Prop where
  cache : c'.cache = c.cache
  nextGroup : c'.nextGroup = c.nextGroup
  nextTrack : c'.nextTrack = c.nextTrack
  otherTrack : ∀ {t'}, t' ≠ t → c'.track t' = c.track t'
  groups : (c'.track t).groups = (c.track t).groups
  evicted : (c'.track t).evicted = (c.track t).evicted
  live : (c'.track t).liveWritebackCount = (c.track t).liveWritebackCount
  groupLRU : (c'.track t).groupLRU = if listed then g :: (c.track t).groupLRU else (c.track t).groupLRU
  otherGroup : ∀ {r'}, r' ≠ r → c'.group r' = c.group r'
  objects : (c'.group r).objects = (c.group r).objects
  totalBytes : (c'.group r).totalBytes = (c.group r).totalBytes
  pinCount : (c'.group r).pinCount = (c.group r).pinCount - 1
  lruIter : (c'.group r).lruIter = if listed then some g else (c.group r).lruIter
  globalLruIter : (c'.group r).globalLruIter = if listed then some (ftn, g) else (c.group r).globalLruIter
  globalGroupLRU : c'.globalGroupLRU = if listed then (ftn, g) :: c.globalGroupLRU else c.globalGroupLRU
  total : c'.totalCachedBytes = c.totalCachedBytes
  underflow : c'.underflow = (c.underflow || (c.group r).pinCount == 0)

def releases (c : MoqxCache) (t : TrackRef) (r : GroupRef) : Bool :=
  (c.group r).pinCount - 1 == 0 && !(c.track t).evicted

theorem Lists.pinned_unlisted (hl : Lists pins c) (hr : r < c.nextGroup) (hp : 0 < (c.group r).pinCount) :
    (c.group r).lruIter = none := by
  by_cases hheld : ∃ t g, c.groupAt t g = some r
  · obtain ⟨t, g, hg⟩ := hheld
    by_cases hc : c.Cached t
    · obtain ⟨ftn, hf⟩ := hc
      rw [(hl.iter hf hg).1, if_neg (Nat.ne_of_gt hp)]
    · exact (hl.noIter hc hg).1
  · exact hl.unheld hr fun t g hg => hheld ⟨t, g, hg⟩

theorem unpinGroup_unpins (hl : Ledger pins lives c) (hh : Holds c ftn t g r)
    (hp : 0 < (c.group r).pinCount) :
    Unpins c ftn t g r (c.releases t r) (c.unpinGroup ftn g r t) := by
  have hquiet : c.releases t r = false →
      Unpins c ftn t g r (c.releases t r)
        { c.setGroup r { c.group r with pinCount := (c.group r).pinCount - 1 } with
          underflow := c.underflow || (c.group r).pinCount == 0 } := by
    intro hn
    rw [hn]
    refine ⟨rfl, rfl, rfl, fun _ => rfl, rfl, rfl, rfl, rfl, fun h => setGroup_ne h, ?_, ?_, ?_, ?_, ?_, rfl, rfl,
      rfl⟩
    all_goals simp [setGroup]
  unfold unpinGroup
  simp only
  by_cases h1 : (c.group r).pinCount - 1 = 0
  · have hi := hl.pinned_unlisted hh.group hp
    rw [if_pos h1]
    unfold addGroupToLRU
    rw [if_neg (by simp [setGroup, hi])]
    cases he : (c.track t).evicted with
    | true =>
      have hn : c.releases t r = false := by simp [releases, he]
      rw [if_pos (by simp [setGroup, he])]
      exact hquiet hn
    | false =>
      have hg := hh.held he
      have hn : c.releases t r = true := by simp [releases, he, h1]
      unfold groupAt at hg
      rw [if_neg (by simp [setGroup, he, hg]), hn]
      refine ⟨rfl, rfl, rfl, fun h => setTrack_ne h, ?_, ?_, ?_, ?_, fun h => ?_, ?_, ?_, ?_, ?_, ?_, rfl, rfl, rfl⟩
      all_goals simp [setGroup, setTrack]
      exact update_of_ne h ..
  · rw [if_neg h1]
    exact hquiet (by simp [releases, h1])

theorem Unpins.same {listed : Bool} (hu : Unpins c ftn t g r listed c') : SameHoldings c c' where
  cache := hu.cache
  nextGroup := hu.nextGroup
  nextTrack := hu.nextTrack
  total := hu.total
  groups := track_field (·.groups) hu.otherTrack hu.groups
  objects := group_field (·.objects) hu.otherGroup hu.objects
  totalBytes := group_field (·.totalBytes) hu.otherGroup hu.totalBytes

theorem Holds.of_releases (hh : Holds c ftn t g r) (h : c.releases t r = true) :
    c.groupAt t g = some r ∧ c.cache.lookup ftn = some t := by
  obtain ⟨_, h2⟩ := Bool.and_eq_true_iff.mp h
  have he : (c.track t).evicted = false := by simpa using h2
  exact ⟨hh.held he, hh.cache he⟩

section unpins

variable (hs : Sound pins lives c) (hh : Holds c ftn t g r) (hp : 0 < pins r)

include hs hh hp

theorem Unpins.relists (hu : Unpins c ftn t g r (c.releases t r) c') : Relists c t g c' := by
  have hsame := hu.same
  have hcount := hs.pinCount r hh.group
  have hgroup : ∀ {t' g' r'}, ¬(t' = t ∧ g' = g) → c.groupAt t' g' = some r' → c'.group r' = c.group r' :=
    fun hne hr' => hu.otherGroup fun heq => hne (hh.owner (heq ▸ hr'))
  -- the group is in neither list before
  have hold : g ∉ (c.track t).groupLRU := by
    intro h
    obtain ⟨⟨f, hf⟩, r', hr', h0⟩ := (hs.inTrack t g).mp h
    rw [hh.held (hs.notEvicted hf)] at hr'
    cases hr'
    omega
  have holdAll : ∀ {f}, c.cache.lookup f = some t → (f, g) ∉ c.globalGroupLRU := by
    intro f hf h
    obtain ⟨t', r', hf', hr', h0⟩ := (hs.inAll f g).mp h
    rw [hf] at hf'
    cases hf'
    exact hold ((hs.inTrack t g).mpr ⟨⟨f, hf⟩, r', hr', h0⟩)
  have hself : g ∈ (c'.track t).groupLRU ↔ c.releases t r = true := by
    rw [hu.groupLRU]
    cases c.releases t r <;> simp [hold]
  have hfree : ∀ {f}, c.cache.lookup f = some t → (c.releases t r = true ↔ (c'.group r).pinCount = 0) := by
    intro f hf
    rw [hu.pinCount]
    simp [releases, hs.notEvicted hf]
  refine
    { cache := hu.cache
      groupAt := fun _ => hsame.groupAt _ _
      group := hgroup
      trackNodup := fun t' => ?_
      allNodup := ?_
      mem := @fun t' g' hne => ?_
      memAll := @fun f g' hne => ?_
      own := hself.trans ⟨fun hn => ?_, fun ⟨⟨f, hf⟩, r', hr', h0⟩ => ?_⟩
      ownAll := @fun f hf => ?_
      ownIter := @fun f r' hf hr' => ?_
      ownNoIter := @fun r' hc hr' => ?_ }
  · by_cases ht : t' = t
    · subst ht
      rw [hu.groupLRU]
      split
      · exact nodup_cons.mpr ⟨hold, hs.trackNodup t'⟩
      · exact hs.trackNodup t'
    · rw [hu.otherTrack ht]
      exact hs.trackNodup t'
  · rw [hu.globalGroupLRU]
    split
    · rename_i hn
      exact nodup_cons.mpr ⟨holdAll (hh.of_releases hn).2, hs.allNodup⟩
    · exact hs.allNodup
  · by_cases ht : t' = t
    · subst ht
      have hg' : g' ≠ g := fun hg' => hne ⟨rfl, hg'⟩
      rw [hu.groupLRU]
      cases c.releases t' r <;> simp [hg']
    · rw [hu.otherTrack ht]
  · rw [hu.globalGroupLRU]
    split
    · rename_i hn
      have hfg : (f, g') ≠ (ftn, g) := by
        rintro ⟨⟩
        exact hne ⟨(hh.of_releases hn).2, rfl⟩
      exact mem_cons.trans (or_iff_right hfg)
    · exact Iff.rfl
  · obtain ⟨hg, hf⟩ := hh.of_releases hn
    exact ⟨⟨ftn, hf⟩, r, (hsame.groupAt t g).trans hg, (hfree hf).mp hn⟩
  · rw [hsame.groupAt, hh.held (hs.notEvicted hf)] at hr'
    cases hr'
    exact (hfree hf).mpr h0
  · rw [hself, hu.globalGroupLRU, hs.cacheOnce hf (hh.cache (hs.notEvicted hf))]
    have hno := holdAll (hh.cache (hs.notEvicted hf))
    cases c.releases t r <;> simp [hno]
  · rw [hsame.groupAt, hh.held (hs.notEvicted hf)] at hr'
    cases hr'
    have hi := hs.iter hf (hh.held (hs.notEvicted hf))
    rw [if_neg (by omega), if_neg (by omega)] at hi
    simp only [← hfree hf]
    rw [hu.lruIter, hu.globalLruIter, hi.1, hi.2, hs.cacheOnce hf (hh.cache (hs.notEvicted hf))]
    exact ⟨rfl, rfl⟩
  · rw [hsame.groupAt] at hr'
    have hn : c.releases t r ≠ true := fun hn => hc ⟨ftn, (hh.of_releases hn).2⟩
    have hi := hs.noIter hc hr'
    by_cases hr : r' = r
    · subst hr
      rw [hu.lruIter, hu.globalLruIter, if_neg hn, if_neg hn]
      exact hi
    · rw [hu.otherGroup hr]
      exact hi

theorem Lists.unpin (hu : Unpins c ftn t g r (c.releases t r) c') : Lists (unpin pins r) c' := by
  refine hs.relists (hu.relists hs hh hp) (fun r' hr' => ?_) (fun r' hr' => ?_) @fun r' hr' hn => ?_
  · rw [hu.nextGroup] at hr'
    unfold MoqxCache.unpin
    by_cases hr : r' = r
    · subst hr
      rw [update_self, hu.pinCount, hs.pinCount r' hh.group]
    · rw [update_of_ne hr, hu.otherGroup hr]
      exact hs.pinCount r' hr'
  · rw [hu.nextGroup] at hr'
    unfold MoqxCache.unpin
    rw [update_of_ne]
    · exact hs.pinBound r' hr'
    · rintro rfl
      exact absurd hh.group (Nat.not_lt.mpr hr')
  · rw [hu.nextGroup] at hr'
    simp only [hu.same.groupAt] at hn
    by_cases hr : r' = r
    · subst hr
      rw [hu.lruIter, if_neg fun h => hn t g (hh.of_releases h).1]
      exact hs.unheld hr' hn
    · rw [hu.otherGroup hr]
      exact hs.unheld hr' hn

theorem unpinGroup_sound :
    Sound (unpin pins r) lives (c.unpinGroup ftn g r t) ∧ Sheds pinned c (c.unpinGroup ftn g r t) := by
  have hcount := hs.pinCount r hh.group
  have hu := unpinGroup_unpins hs.toLedger hh (by omega)
  have hmarks := track_field (·.evicted) hu.otherTrack hu.evicted
  have hlive := track_field (·.liveWritebackCount) hu.otherTrack hu.live
  refine ⟨hs.relist hu.same hmarks (hs.toLedger.relist hu.same ?_ (.unpin hs hh hp hu)
    (fun t ht => (hlive t).trans (hs.liveCount t ht)) hs.liveBound), hu.same.sheds hmarks⟩
  rw [hu.underflow, hs.noUnderflow, hcount]
  simp only [Bool.false_or, beq_eq_false_iff_ne, ne_eq]
  omega

end unpins

/-! ## 2. New groups -/

/-- What a new group does to the books: `gr` is the group, and the two lists are given. -/
structure Adds (c : MoqxCache) (t : TrackRef) (g : Nat) (gr : CacheGroup) (lru : List Nat)
    (all : List (FullTrackName × Nat)) (c' : MoqxCache) : Prop where
  cache : c'.cache = c.cache
  nextGroup : c'.nextGroup = c.nextGroup + 1
  nextTrack : c'.nextTrack = c.nextTrack
  otherTrack : ∀ {t'}, t' ≠ t → c'.track t' = c.track t'
  groups : (c'.track t).groups = (c.track t).groups.insert g c.nextGroup
  evicted : (c'.track t).evicted = (c.track t).evicted
  live : (c'.track t).liveWritebackCount = (c.track t).liveWritebackCount
  groupLRU : (c'.track t).groupLRU = lru
  otherGroup : ∀ {r'}, r' ≠ c.nextGroup → c'.group r' = c.group r'
  group : c'.group c.nextGroup = gr
  globalGroupLRU : c'.globalGroupLRU = all
  total : c'.totalCachedBytes = c.totalCachedBytes
  underflow : c'.underflow = c.underflow

/-- A new group is empty, and it is either free and in both lists, or pinned and in none. -/
def Enters (c : MoqxCache) (ftn : FullTrackName) (t : TrackRef) (g : Nat) (gr : CacheGroup) (lru : List Nat)
    (all : List (FullTrackName × Nat)) : Prop :=
  gr.objects = ∅ ∧ gr.totalBytes = 0 ∧
    (gr.pinCount = 0 ∧ c.cache.lookup ftn = some t ∧ gr.lruIter = some g ∧ gr.globalLruIter = some (ftn, g) ∧
        lru = g :: (c.track t).groupLRU ∧ all = (ftn, g) :: c.globalGroupLRU ∨
      gr.pinCount ≠ 0 ∧ gr.lruIter = none ∧ gr.globalLruIter = none ∧ lru = (c.track t).groupLRU ∧
        all = c.globalGroupLRU)

section add

variable {gr : CacheGroup} {lru : List Nat} {all : List (FullTrackName × Nat)} (ha : Adds c t g gr lru all c')
include ha

theorem Adds.groupAt_iff (hn : c.groupAt t g = none) : c'.groupAt t' g' = some r' ↔
    c.groupAt t' g' = some r' ∨ (t' = t ∧ g' = g) ∧ r' = c.nextGroup := by
  by_cases ht : t' = t
  · subst ht
    rw [groupAt, ha.groups]
    by_cases hg : g' = g
    · subst hg
      rw [lookup_insert, hn]
      simp [eq_comm]
    · simp [lookup_insert_ne hg, hg]
  · rw [groupAt, ha.otherTrack ht]
    simp [ht]

theorem Adds.cached : c'.Cached t' ↔ c.Cached t' := by
  rw [Cached, Cached, ha.cache]

theorem Adds.marks (t' : TrackRef) : (c'.track t').evicted = (c.track t').evicted ∧
    (c'.track t').liveWritebackCount = (c.track t').liveWritebackCount :=
  ⟨track_field (·.evicted) ha.otherTrack ha.evicted t',
    track_field (·.liveWritebackCount) ha.otherTrack ha.live t'⟩

section adds

variable (hl : Ledger pins lives c) (hn : c.groupAt t g = none)

include hl hn

theorem Adds.sheds (hgr : gr.objects = ∅) :
    Sheds pinned c c' where
  nextGroup := by rw [ha.nextGroup]; exact Nat.le_succ _
  nextTrack := Nat.le_of_eq ha.nextTrack.symm
  evicted _ h := by rw [(ha.marks _).1]; exact h
  cache _ h _ := by rw [ha.cache]; exact h
  owner hr h := by
    refine ((ha.groupAt_iff hn).mp h).resolve_right ?_
    rintro ⟨-, rfl⟩
    exact Nat.lt_irrefl _ hr
  held _ _ h _ := (ha.groupAt_iff hn).mpr (Or.inl h)
  entries hf h := by
    rw [ha.cache] at hf
    refine ⟨hf, ?_⟩
    obtain ⟨r', hr', ho⟩ := bind_eq_some_iff.mp h
    rcases (ha.groupAt_iff hn).mp hr' with hr' | ⟨-, rfl⟩
    · have hne : r' ≠ c.nextGroup := Nat.ne_of_lt (hl.groupBound hr')
      rw [ha.otherGroup hne] at ho
      exact bind_eq_some_iff.mpr ⟨r', hr', ho⟩
    · rw [ha.group, hgr] at ho
      cases ho

theorem Adds.cachedBytes (hgr : gr.totalBytes = 0) :
    c'.cachedBytes = c.cachedBytes := by
  unfold MoqxCache.cachedBytes
  rw [ha.cache]
  refine Table.total_congr fun f t' _ => ?_
  have hold : Table.total (fun _ r => (c'.group r).totalBytes) (c.track t').groups =
      Table.total (fun _ r => (c.group r).totalBytes) (c.track t').groups := by
    refine Table.total_congr fun g' r' hr' => ?_
    have hne : r' ≠ c.nextGroup := Nat.ne_of_lt (hl.groupBound hr')
    rw [ha.otherGroup hne]
  unfold trackBytes
  by_cases ht : t' = t
  · subst ht
    rw [ha.groups, Table.total_insert_new hn, ha.group, hgr, Nat.zero_add, hold]
  · rw [ha.otherTrack ht, hold]

theorem Adds.relists (he : Enters c ftn t g gr lru all) :
    Relists c t g c' := by
  have hnew : c'.groupAt t g = some c.nextGroup := (ha.groupAt_iff hn).mpr (Or.inr ⟨⟨rfl, rfl⟩, rfl⟩)
  have hgroupAt : ∀ {r'}, c'.groupAt t g = some r' → c'.group r' = gr := by
    intro r' hr'
    rw [hnew] at hr'
    cases hr'
    exact ha.group
  have hold : g ∉ (c.track t).groupLRU := by
    intro h
    obtain ⟨_, r', hr', _⟩ := (hl.inTrack t g).mp h
    cases hn.symm.trans hr'
  have holdAll : ∀ {f}, c.cache.lookup f = some t → (f, g) ∉ c.globalGroupLRU := by
    intro f hf h
    obtain ⟨t', r', hf', hr', _⟩ := (hl.inAll f g).mp h
    rw [hf] at hf'
    cases hf'
    cases hn.symm.trans hr'
  obtain ⟨_, _, he⟩ := he
  have hself : g ∈ (c'.track t).groupLRU ↔ gr.pinCount = 0 := by
    rw [ha.groupLRU]
    rcases he with ⟨h0, _, _, _, rfl, _⟩ | ⟨h0, _, _, rfl, _⟩
    · exact iff_of_true mem_cons_self h0
    · exact iff_of_false hold h0
  refine
    { cache := ha.cache
      groupAt := @fun t' g' hne => ext fun r' => ?_
      group := fun _ hr' => ha.otherGroup (Nat.ne_of_lt (hl.groupBound hr'))
      trackNodup := fun t' => ?_
      allNodup := ?_
      mem := @fun t' g' hne => ?_
      memAll := @fun f g' hne => ?_
      own := hself.trans ⟨fun h0 => ?_, fun ⟨_, r', hr', h0⟩ => hgroupAt hr' ▸ h0⟩
      ownAll := @fun f hf => ?_
      ownIter := @fun f r' hf hr' => ?_
      ownNoIter := @fun r' hc hr' => ?_ }
  · rw [ha.groupAt_iff hn]
    exact or_iff_left fun h => hne h.1
  · by_cases ht : t' = t
    · subst ht
      rw [ha.groupLRU]
      rcases he with ⟨_, _, _, _, rfl, _⟩ | ⟨_, _, _, rfl, _⟩
      · exact nodup_cons.mpr ⟨hold, hl.trackNodup t'⟩
      · exact hl.trackNodup t'
    · rw [ha.otherTrack ht]
      exact hl.trackNodup t'
  · rw [ha.globalGroupLRU]
    rcases he with ⟨_, hf, _, _, _, rfl⟩ | ⟨_, _, _, _, rfl⟩
    · exact nodup_cons.mpr ⟨holdAll hf, hl.allNodup⟩
    · exact hl.allNodup
  · by_cases ht : t' = t
    · subst ht
      have hg' : g' ≠ g := fun hg' => hne ⟨rfl, hg'⟩
      rw [ha.groupLRU]
      rcases he with ⟨_, _, _, _, rfl, _⟩ | ⟨_, _, _, rfl, _⟩ <;> simp [hg']
    · rw [ha.otherTrack ht]
  · rw [ha.globalGroupLRU]
    rcases he with ⟨_, hf, _, _, _, rfl⟩ | ⟨_, _, _, _, rfl⟩
    · have hfg : (f, g') ≠ (ftn, g) := by
        rintro ⟨⟩
        exact hne ⟨hf, rfl⟩
      exact mem_cons.trans (or_iff_right hfg)
    · exact Iff.rfl
  · rcases he with ⟨_, hf, _⟩ | ⟨hne, _⟩
    · exact ⟨⟨ftn, hf⟩, c.nextGroup, hnew, by rw [ha.group]; exact h0⟩
    · exact absurd h0 hne
  · rw [hself, ha.globalGroupLRU]
    rcases he with ⟨h0, hf', _, _, _, rfl⟩ | ⟨h0, _, _, _, rfl⟩
    · rw [hl.cacheOnce hf hf']
      exact iff_of_true mem_cons_self h0
    · exact iff_of_false (holdAll hf) h0
  · rw [hgroupAt hr']
    rcases he with ⟨h0, hf', h1, h2, _, _⟩ | ⟨h0, h1, h2, _, _⟩
    · rw [if_pos h0, if_pos h0, hl.cacheOnce hf hf']
      exact ⟨h1, h2⟩
    · rw [if_neg h0, if_neg h0]
      exact ⟨h1, h2⟩
  · rw [hgroupAt hr']
    rcases he with ⟨_, hf, _⟩ | ⟨_, h1, h2, _⟩
    · exact absurd ⟨ftn, hf⟩ hc
    · exact ⟨h1, h2⟩

theorem Lists.add (he : Enters c ftn t g gr lru all) :
    Lists (Function.update pins c.nextGroup gr.pinCount) c' := by
  refine hl.relists (ha.relists hl hn he) (fun r' hr' => ?_) (fun r' hr' => ?_) @fun r' hr' hno => ?_
  · rw [ha.nextGroup] at hr'
    by_cases hr : r' = c.nextGroup
    · subst hr
      rw [update_self, ha.group]
    · rw [update_of_ne hr, ha.otherGroup hr]
      exact hl.pinCount r' (Nat.lt_of_le_of_ne (Nat.le_of_lt_succ hr') hr)
  · rw [ha.nextGroup] at hr'
    rw [update_of_ne (Nat.ne_of_gt hr')]
    exact hl.pinBound r' (Nat.le_of_succ_le hr')
  · have hr : r' ≠ c.nextGroup := by
      rintro rfl
      exact hno t g ((ha.groupAt_iff hn).mpr (Or.inr ⟨⟨rfl, rfl⟩, rfl⟩))
    rw [ha.nextGroup] at hr'
    rw [ha.otherGroup hr]
    exact hl.unheld (Nat.lt_of_le_of_ne (Nat.le_of_lt_succ hr') hr) fun t' g' hg' =>
      hno t' g' ((ha.groupAt_iff hn).mpr (Or.inl hg'))

end adds

theorem Sound.add (hs : Sound pins lives c) (hn : c.groupAt t g = none) (he : Enters c ftn t g gr lru all) :
    Sound (Function.update pins c.nextGroup gr.pinCount) lives c' := by
  have hold : ∀ {t' g' r'}, c.groupAt t' g' = some r' → r' ≠ c.nextGroup := fun h =>
    Nat.ne_of_lt (hs.groupBound h)
  refine
    { toLists := .add ha hs.toLedger hn he
      toNamed := hs.toNamed.congr ha.cache ha.nextTrack
      groupBound := @fun t' g' r' h => ?_
      groupOnce := @fun t1 t2 g1 g2 r' h1 h2 => ?_
      groupBytes := fun r' => ?_
      total := by rw [ha.total, ha.cachedBytes hs.toLedger hn he.2.1]; exact hs.total
      noUnderflow := by rw [ha.underflow]; exact hs.noUnderflow
      liveCount := fun t' => by rw [(ha.marks t').2, ha.nextTrack]; exact hs.liveCount t'
      liveBound := by rw [ha.nextTrack]; exact hs.liveBound
      notEvicted := fun hf => by rw [ha.cache] at hf; rw [(ha.marks _).1]; exact hs.notEvicted hf
      cached := fun ht h => by
        rw [ha.nextTrack] at ht
        rw [(ha.marks _).1] at h
        exact ha.cached.mpr (hs.cached ht h)
      emptied := @fun t' g' r' h hg => ?_ }
  · rw [ha.nextGroup]
    rcases (ha.groupAt_iff hn).mp h with h | ⟨-, rfl⟩
    · exact Nat.lt_succ_of_lt (hs.groupBound h)
    · exact Nat.lt_succ_self _
  · rcases (ha.groupAt_iff hn).mp h1 with h1 | ⟨⟨rfl, rfl⟩, rfl⟩ <;>
      rcases (ha.groupAt_iff hn).mp h2 with h2 | ⟨⟨rfl, rfl⟩, heq⟩
    · exact hs.groupOnce h1 h2
    · exact absurd heq (hold h1)
    · exact absurd rfl (hold h2)
    · exact ⟨rfl, rfl⟩
  · by_cases hr : r' = c.nextGroup
    · subst hr
      rw [ha.group, he.2.1, CacheGroup.objectBytes, he.1]
      rfl
    · rw [ha.otherGroup hr]
      exact hs.groupBytes r'
  · rw [(ha.marks _).1] at h
    rcases (ha.groupAt_iff hn).mp hg with hg | ⟨-, rfl⟩
    · rw [ha.otherGroup (hold hg)]
      exact hs.emptied h hg
    · rw [ha.group]
      exact he.1

end add

theorem evictOldestGroupsLoop_drops (n : Nat) (hl : Ledger pins lives c) :
    Drops t c (evictOldestGroupsLoop t n c) := by
  induction n generalizing c with
  | zero => exact .refl c
  | succ n ih =>
    unfold evictOldestGroupsLoop
    split
    · cases hlast : (c.track t).groupLRU.getLast? with
      | none => exact .refl c
      | some g =>
        obtain ⟨ftn, r, hf, hr, -⟩ := hl.listed (mem_of_getLast? hlast)
        have he := evictGroup_evicts hr
        simp only
        rw [if_neg (by rw [show (c.track t).groups.lookup g = some r from hr]; exact some_ne_none r)]
        exact he.drops.trans (ih (hl.evictGroup he hf hr))
    · exact .refl c

theorem evictOldestGroupsIfNeeded_drops (hl : Ledger pins lives c) :
    Drops t c (c.evictOldestGroupsIfNeeded t) := by
  unfold evictOldestGroupsIfNeeded
  split
  · exact .refl c
  · exact evictOldestGroupsLoop_drops _ hl

theorem Drops.groupAt_none (hd : Drops t c c') (h : c.groupAt t g = none) : c'.groupAt t g = none := by
  cases h' : c'.groupAt t g with
  | none => rfl
  | some r =>
    rw [hd.owner h'] at h
    cases h

theorem getOrCreateGroupWithEviction_tidy (hs : Sound pins lives c) (hf : c.cache.lookup ftn = some t) :
    Tidy pins lives c (c.getOrCreateGroupWithEviction t g ftn).2 ∧
      (c.getOrCreateGroupWithEviction t g ftn).2.groupAt t g =
        some (c.getOrCreateGroupWithEviction t g ftn).1 ∧
      (c.getOrCreateGroupWithEviction t g ftn).2.cache.lookup ftn = some t := by
  unfold getOrCreateGroupWithEviction
  cases hg : c.groupAt t g with
  | some r =>
    rw [groupAt] at hg
    rw [hg]
    exact ⟨.refl hs, hg, hf⟩
  | none =>
    have htidy := evictOldestGroupsIfNeeded_tidy (t := t) hs
    have hd := evictOldestGroupsIfNeeded_drops (t := t) hs.toLedger
    have hn := hd.groupAt_none hg
    rw [groupAt] at hg
    rw [hg]
    simp only
    generalize c.evictOldestGroupsIfNeeded t = d at htidy hd hn
    have hfd : d.cache.lookup ftn = some t := by rw [hd.cache]; exact hf
    have hev : (d.track t).evicted = false := htidy.1.notEvicted hfd
    -- the new group is in no list yet, and its track holds it
    have ha : Adds d t g { lruIter := some g, globalLruIter := some (ftn, g) } (g :: (d.track t).groupLRU)
        ((ftn, g) :: d.globalGroupLRU) ((d.addGroup t g).addGroupToLRU ftn g d.nextGroup t) := by
      unfold addGroupToLRU
      rw [if_neg (by simp [addGroup, setTrack, setGroup]),
        if_neg (by simp [addGroup, setTrack, setGroup, hev, lookup_insert])]
      refine ⟨rfl, rfl, rfl, fun h => ?_, ?_, ?_, ?_, ?_, fun h => ?_, ?_, rfl, rfl, rfl⟩
      all_goals simp [addGroup, setTrack, setGroup]
      · simp [update_of_ne h]
      · simp [update_of_ne h]
    have he : Enters d ftn t g { lruIter := some g, globalLruIter := some (ftn, g) } (g :: (d.track t).groupLRU)
        ((ftn, g) :: d.globalGroupLRU) :=
      ⟨rfl, rfl, Or.inl ⟨rfl, hfd, rfl, rfl, rfl, rfl⟩⟩
    have hsound := Sound.add ha htidy.1 hn he
    have hpins : update pins d.nextGroup 0 = pins := by
      rw [← htidy.1.pinBound d.nextGroup (Nat.le_refl _)]
      exact update_eq_self _ _
    rw [hpins] at hsound
    refine ⟨htidy.trans ⟨hsound, ha.sheds htidy.1.toLedger hn rfl⟩, ?_, ?_⟩
    · exact (ha.groupAt_iff hn).mpr (Or.inr ⟨⟨rfl, rfl⟩, rfl⟩)
    · rw [ha.cache]
      exact hfd

theorem addPinned_sound (hs : Sound pins lives c) (hn : c.groupAt t g = none) :
    Sound (onePin pins c.nextGroup) lives ((c.addGroup t g).pinGroup c.nextGroup t) ∧
      Sheds pinned c ((c.addGroup t g).pinGroup c.nextGroup t) ∧
      ((c.addGroup t g).pinGroup c.nextGroup t).groupAt t g = some c.nextGroup := by
  have ha : Adds c t g { pinCount := 1 } (c.track t).groupLRU c.globalGroupLRU
      ((c.addGroup t g).pinGroup c.nextGroup t) := by
    unfold pinGroup
    simp only
    rw [if_pos (by simp [addGroup, setTrack, setGroup])]
    unfold removeGroupFromLRU
    rw [if_pos (by simp [addGroup, setTrack, setGroup])]
    refine ⟨rfl, rfl, rfl, fun h => ?_, ?_, ?_, ?_, ?_, fun h => ?_, ?_, rfl, rfl, rfl⟩
    all_goals simp [addGroup, setTrack, setGroup]
    · simp [update_of_ne h]
    · simp [update_of_ne h]
  have he : Enters c ⟨[], []⟩ t g { pinCount := 1 } (c.track t).groupLRU c.globalGroupLRU :=
    ⟨rfl, rfl, Or.inr ⟨Nat.one_ne_zero, rfl, rfl, rfl, rfl⟩⟩
  refine ⟨?_, ha.sheds hs.toLedger hn rfl, (ha.groupAt_iff hn).mpr (Or.inr ⟨⟨rfl, rfl⟩, rfl⟩)⟩
  have hsound := Sound.add ha hs hn he
  unfold onePin
  rw [hs.pinBound c.nextGroup (Nat.le_refl _)]
  exact hsound

/-! ## 3. New tracks and live writers -/

theorem addTrack_ne (h : t ≠ c.nextTrack) : (c.addTrack ftn).track t = c.track t := setTrack_ne h

theorem addTrack_new : (c.addTrack ftn).track c.nextTrack = {} := setTrack_self

theorem addTrack_groupAt (h : (c.addTrack ftn).groupAt t g = some r) :
    t ≠ c.nextTrack ∧ c.groupAt t g = some r := by
  by_cases ht : t = c.nextTrack
  · subst ht
    rw [groupAt, addTrack_new] at h
    cases h
  · rw [groupAt, addTrack_ne ht] at h
    exact ⟨ht, h⟩

theorem addTrack_lookup (hn : c.cache.lookup ftn = none) :
    (c.addTrack ftn).cache.lookup ftn' = some t ↔
      c.cache.lookup ftn' = some t ∨ ftn' = ftn ∧ t = c.nextTrack := by
  show (c.cache.insert ftn c.nextTrack).lookup ftn' = some t ↔ _
  by_cases h : ftn' = ftn
  · subst h
    rw [lookup_insert, hn]
    simp [eq_comm]
  · simp [lookup_insert_ne h, h]

theorem Named.addTrack (hn : Named c) (hf : c.cache.lookup ftn = none) : Named (c.addTrack ftn) where
  cacheBound h := by
    rcases (addTrack_lookup hf).mp h with h | ⟨-, rfl⟩
    · exact Nat.lt_succ_of_lt (hn.cacheBound h)
    · exact Nat.lt_succ_self _
  cacheOnce h h' := by
    rcases (addTrack_lookup hf).mp h with h | ⟨rfl, rfl⟩
    · rcases (addTrack_lookup hf).mp h' with h' | ⟨-, rfl⟩
      · exact hn.cacheOnce h h'
      · exact absurd (hn.cacheBound h) (Nat.lt_irrefl _)
    · rcases (addTrack_lookup hf).mp h' with h' | ⟨rfl, -⟩
      · exact absurd (hn.cacheBound h') (Nat.lt_irrefl _)
      · rfl

theorem addTrack_holds (hl : Ledger pins lives c) (hn : c.cache.lookup ftn = none) :
    (c.addTrack ftn).cache.lookup ftn' = some t ∧ (c.addTrack ftn).groupAt t g = some r ↔
      c.cache.lookup ftn' = some t ∧ c.groupAt t g = some r := by
  rw [addTrack_lookup hn]
  constructor
  · rintro ⟨hf, hg⟩
    obtain ⟨hne, hg⟩ := addTrack_groupAt hg
    exact ⟨hf.resolve_right fun h => hne h.2, hg⟩
  · rintro ⟨hf, hg⟩
    refine ⟨Or.inl hf, ?_⟩
    rw [groupAt, addTrack_ne (Nat.ne_of_lt (hl.cacheBound hf))]
    exact hg

theorem addTrack_tidy (hs : Sound pins lives c) (hn : c.cache.lookup ftn = none) :
    Tidy pins lives c (c.addTrack ftn) := by
  have hold : ∀ {f t}, c.cache.lookup f = some t → t ≠ c.nextTrack := fun h =>
    Nat.ne_of_lt (hs.cacheBound h)
  have hcached : ∀ {t}, (c.addTrack ftn).Cached t ↔ c.Cached t ∨ t = c.nextTrack := by
    intro t
    constructor
    · rintro ⟨f, hf⟩
      rcases (addTrack_lookup hn).mp hf with hf | ⟨-, rfl⟩
      · exact Or.inl ⟨f, hf⟩
      · exact Or.inr rfl
    · rintro (⟨f, hf⟩ | rfl)
      · exact ⟨f, (addTrack_lookup hn).mpr (Or.inl hf)⟩
      · exact ⟨ftn, (addTrack_lookup hn).mpr (Or.inr ⟨rfl, rfl⟩)⟩
  refine ⟨?_, ?_⟩
  · refine
      { pinCount := hs.pinCount
        pinBound := hs.pinBound
        trackNodup := fun t => ?_
        allNodup := hs.allNodup
        inTrack := fun t g => ?_
        inAll := fun f g => ?_
        iter := @fun f t g r hf hg => ?_
        noIter := @fun t g r hc hg => hs.noIter (fun h => hc (hcached.mpr (Or.inl h))) (addTrack_groupAt hg).2
        unheld := @fun r hr hno => by
          by_cases h : ∃ g, c.groupAt c.nextTrack g = some r
          · obtain ⟨g, hg⟩ := h
            exact (hs.noIter (fun ⟨f, hf⟩ => hold hf rfl) hg).1
          · refine hs.unheld hr fun t g hg => hno t g ?_
            have ht : t ≠ c.nextTrack := by
              rintro rfl
              exact h ⟨g, hg⟩
            rw [groupAt, addTrack_ne ht]
            exact hg
        toNamed := hs.toNamed.addTrack hn
        groupBound := fun hg => hs.groupBound (addTrack_groupAt hg).2
        groupOnce := fun hg hg' => hs.groupOnce (addTrack_groupAt hg).2 (addTrack_groupAt hg').2
        groupBytes := hs.groupBytes
        total := ?_
        noUnderflow := hs.noUnderflow
        liveCount := fun t ht => ?_
        liveBound := fun t ht => hs.liveBound t (Nat.le_of_succ_le ht)
        notEvicted := @fun f t hf => ?_
        cached := @fun t ht he => ?_
        emptied := @fun t g r he hg => ?_ }
    · by_cases ht : t = c.nextTrack
      · subst ht
        rw [addTrack_new]
        exact nodup_nil
      · rw [addTrack_ne ht]
        exact hs.trackNodup t
    · by_cases ht : t = c.nextTrack
      · subst ht
        rw [addTrack_new]
        refine iff_of_false not_mem_nil ?_
        rintro ⟨-, r, hr, -⟩
        exact (addTrack_groupAt hr).1 rfl
      · rw [addTrack_ne ht, hs.inTrack, hcached, groupAt, groupAt, addTrack_ne ht]
        simp only [ht, or_false]
        rfl
    · refine (hs.inAll f g).trans (exists_congr fun t => exists_congr fun r => ?_)
      rw [← and_assoc, ← and_assoc, addTrack_holds hs.toLedger hn]
      rfl
    · obtain ⟨hf, hg⟩ := (addTrack_holds hs.toLedger hn).mp ⟨hf, hg⟩
      exact hs.iter hf hg
    · show c.totalCachedBytes = Table.total _ (c.cache.insert ftn c.nextTrack)
      rw [Table.total_insert_new hn, hs.total]
      have hnew : (c.addTrack ftn).trackBytes c.nextTrack = 0 := by
        unfold trackBytes
        rw [addTrack_new]
        rfl
      rw [hnew, Nat.zero_add]
      refine Table.total_congr fun f t hf => ?_
      unfold trackBytes
      rw [addTrack_ne (hold hf)]
      rfl
    · by_cases hnew : t = c.nextTrack
      · subst hnew
        rw [addTrack_new, hs.liveBound _ (Nat.le_refl _)]
      · rw [addTrack_ne hnew]
        exact hs.liveCount t (Nat.lt_of_le_of_ne (Nat.le_of_lt_succ ht) hnew)
    · rcases (addTrack_lookup hn).mp hf with hf | ⟨-, rfl⟩
      · rw [addTrack_ne (hold hf)]
        exact hs.notEvicted hf
      · rw [addTrack_new]
    · by_cases hnew : t = c.nextTrack
      · exact hcached.mpr (Or.inr hnew)
      · rw [addTrack_ne hnew] at he
        exact hcached.mpr (Or.inl (hs.cached (Nat.lt_of_le_of_ne (Nat.le_of_lt_succ ht) hnew) he))
    · obtain ⟨hne, hg⟩ := addTrack_groupAt hg
      rw [addTrack_ne hne] at he
      exact hs.emptied he hg
  · refine
      { nextGroup := Nat.le_refl _
        nextTrack := Nat.le_succ _
        evicted := fun ht he => by rw [addTrack_ne (Nat.ne_of_lt ht)]; exact he
        cache := fun _ hf _ => (addTrack_lookup hn).mpr (Or.inl hf)
        owner := fun _ hg => (addTrack_groupAt hg).2
        held := fun _ ht hg _ => by rw [groupAt, addTrack_ne (Nat.ne_of_lt ht)]; exact hg
        entries := @fun f t loc e hf he => ?_ }
    obtain ⟨r, hr, ho⟩ := bind_eq_some_iff.mp he
    obtain ⟨hf, hr⟩ := (addTrack_holds hs.toLedger hn).mp ⟨hf, hr⟩
    exact ⟨hf, bind_eq_some_iff.mpr ⟨r, hr, ho⟩⟩

def setLive (c : MoqxCache) (t : TrackRef) (n : Nat) : MoqxCache :=
  c.setTrack t { c.track t with liveWritebackCount := n }

theorem setLive_track (n : Nat) (t' : TrackRef) :
    ((c.setLive t n).track t').groups = (c.track t').groups ∧
      ((c.setLive t n).track t').evicted = (c.track t').evicted ∧
      ((c.setLive t n).track t').groupLRU = (c.track t').groupLRU := by
  unfold setLive
  by_cases ht : t' = t
  · subst ht
    rw [setTrack_self]
    exact ⟨rfl, rfl, rfl⟩
  · rw [setTrack_ne ht]
    exact ⟨rfl, rfl, rfl⟩

theorem setLive_sameBooks (n : Nat) : c.SameBooks (c.setLive t n) :=
  ⟨rfl, rfl, rfl, rfl, rfl, rfl, fun t' => (setLive_track n t').1, fun t' => (setLive_track n t').2.2,
    fun _ => .refl _⟩

theorem Sound.setLive (hs : Sound pins lives c) (ht : t < c.nextTrack) (n : Nat) :
    Sound pins (Function.update lives t n) (c.setLive t n) ∧ Sheds pinned c (c.setLive t n) := by
  have hsame := @setLive_sameBooks c t n
  have hmarks := fun t' => (@setLive_track c t n t').2.1
  refine ⟨hs.relist hsame.holdings hmarks (hs.toLedger.relist hsame.holdings hs.noUnderflow
    (hs.toLists.sameBooks hsame) (fun t' ht' => ?_) fun t' ht' => ?_), hsame.holdings.sheds hmarks⟩
  · unfold MoqxCache.setLive
    by_cases heq : t' = t
    · subst heq
      rw [setTrack_self, update_self]
    · rw [setTrack_ne heq, update_of_ne heq]
      exact hs.liveCount t' ht'
  · rw [update_of_ne]
    · exact hs.liveBound t' ht'
    · rintro rfl
      exact absurd ht (Nat.not_lt.mpr ht')

end MoqxCache

end Moqx

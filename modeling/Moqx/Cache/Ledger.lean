/-
  Subject: The books of the cache: who holds which group, how many bytes, and which groups are listed
           as evictable.

  * `objectBytes`, `trackBytes`, `cachedBytes` -- the sums the counters stand for.
-/
import Moqx.Lib.Table
import Moqx.Cache.Writeback

namespace Moqx

variable {c c' c'' : MoqxCache} {t t' : TrackRef} {r r' : GroupRef} {g g' : Nat} {ftn : FullTrackName}
  {tr : CacheTrack}

/-! ## 1. What the counters stand for -/

def CacheGroup.objectBytes (g : CacheGroup) : Nat := Table.total (fun _ e => e.payloadSize) g.objects

namespace MoqxCache

def trackBytes (c : MoqxCache) (t : TrackRef) : Nat :=
  Table.total (fun _ r => (c.group r).totalBytes) (c.track t).groups

def cachedBytes (c : MoqxCache) : Nat := Table.total (fun _ t => c.trackBytes t) c.cache

abbrev groupAt (c : MoqxCache) (t : TrackRef) (g : Nat) : Option GroupRef := (c.track t).groups.lookup g

def Cached (c : MoqxCache) (t : TrackRef) : Prop := ∃ ftn, c.cache.lookup ftn = some t

end MoqxCache

/-! ## 2. What the books do not record -/

structure CacheTrack.Alike (tr tr' : CacheTrack) : Prop where
  groups : tr'.groups = tr.groups
  evicted : tr'.evicted = tr.evicted
  groupLRU : tr'.groupLRU = tr.groupLRU
  live : tr'.liveWritebackCount = tr.liveWritebackCount

structure CacheGroup.Alike (g g' : CacheGroup) : Prop where
  objects : g'.objects = g.objects
  totalBytes : g'.totalBytes = g.totalBytes
  pinCount : g'.pinCount = g.pinCount
  lruIter : g'.lruIter = g.lruIter
  globalLruIter : g'.globalLruIter = g.globalLruIter

abbrev CacheTrack.Marked (tr tr' : CacheTrack) : Prop :=
  tr' = { tr with gaps := tr'.gaps, cachedContent := tr'.cachedContent }

/-- The books of two caches are the same; the live writers and the marks of evicted tracks are not among
    them. -/
structure MoqxCache.SameBooks (c c' : MoqxCache) : Prop where
  cache : c'.cache = c.cache
  nextGroup : c'.nextGroup = c.nextGroup
  nextTrack : c'.nextTrack = c.nextTrack
  globalGroupLRU : c'.globalGroupLRU = c.globalGroupLRU
  total : c'.totalCachedBytes = c.totalCachedBytes
  underflow : c'.underflow = c.underflow
  groups : ∀ t, (c'.track t).groups = (c.track t).groups
  groupLRU : ∀ t, (c'.track t).groupLRU = (c.track t).groupLRU
  group : ∀ r, (c.group r).Alike (c'.group r)

structure MoqxCache.Alike (c c' : MoqxCache) : Prop extends SameBooks c c' where
  live : ∀ t, (c'.track t).liveWritebackCount = (c.track t).liveWritebackCount
  evicted : ∀ t, (c'.track t).evicted = (c.track t).evicted

theorem CacheTrack.Alike.refl (tr : CacheTrack) : tr.Alike tr := ⟨rfl, rfl, rfl, rfl⟩

theorem CacheGroup.Alike.refl (g : CacheGroup) : g.Alike g := ⟨rfl, rfl, rfl, rfl, rfl⟩

theorem CacheGroup.Alike.trans {a b c : CacheGroup} (h : a.Alike b) (h' : b.Alike c) : a.Alike c :=
  ⟨h'.objects.trans h.objects, h'.totalBytes.trans h.totalBytes, h'.pinCount.trans h.pinCount,
    h'.lruIter.trans h.lruIter, h'.globalLruIter.trans h.globalLruIter⟩

namespace MoqxCache

variable {gr : CacheGroup}

theorem SameBooks.trans (h : c.SameBooks c') (h' : c'.SameBooks c'') : c.SameBooks c'' :=
  ⟨h'.cache.trans h.cache, h'.nextGroup.trans h.nextGroup, h'.nextTrack.trans h.nextTrack,
    h'.globalGroupLRU.trans h.globalGroupLRU, h'.total.trans h.total, h'.underflow.trans h.underflow,
    fun t => (h'.groups t).trans (h.groups t), fun t => (h'.groupLRU t).trans (h.groupLRU t),
    fun r => (h.group r).trans (h'.group r)⟩

theorem Alike.refl (c : MoqxCache) : c.Alike c :=
  ⟨⟨rfl, rfl, rfl, rfl, rfl, rfl, fun _ => rfl, fun _ => rfl, fun r => .refl (c.group r)⟩,
    fun _ => rfl, fun _ => rfl⟩

theorem Alike.trans (h : c.Alike c') (h' : c'.Alike c'') : c.Alike c'' :=
  ⟨h.toSameBooks.trans h'.toSameBooks, fun t => (h'.live t).trans (h.live t),
    fun t => (h'.evicted t).trans (h.evicted t)⟩

theorem Alike.of (hc : c'.cache = c.cache) (hg : c'.nextGroup = c.nextGroup)
    (ht : c'.nextTrack = c.nextTrack) (hl : c'.globalGroupLRU = c.globalGroupLRU)
    (hb : c'.totalCachedBytes = c.totalCachedBytes) (hu : c'.underflow = c.underflow)
    (htrack : ∀ t, (c.track t).Alike (c'.track t)) (hgroup : ∀ r, (c.group r).Alike (c'.group r)) :
    c.Alike c' :=
  ⟨⟨hc, hg, ht, hl, hb, hu, fun t => (htrack t).groups, fun t => (htrack t).groupLRU, hgroup⟩,
    fun t => (htrack t).live, fun t => (htrack t).evicted⟩

@[simp] theorem setTrack_self : (c.setTrack t tr).track t = tr := Function.update_self ..

theorem setTrack_ne (h : t' ≠ t) : (c.setTrack t tr).track t' = c.track t' := Function.update_of_ne h ..

@[simp] theorem setGroup_self : (c.setGroup r gr).group r = gr := Function.update_self ..

theorem setGroup_ne (h : r' ≠ r) : (c.setGroup r gr).group r' = c.group r' := Function.update_of_ne h ..

theorem setTrack_alike (h : (c.track t).Alike tr) : c.Alike (c.setTrack t tr) := by
  refine .of rfl rfl rfl rfl rfl rfl (fun t' => ?_) fun r => .refl _
  by_cases ht : t' = t
  · subst ht
    rw [setTrack_self]
    exact h
  · rw [setTrack_ne ht]
    exact .refl _

theorem setGroup_alike (h : (c.group r).Alike gr) : c.Alike (c.setGroup r gr) := by
  refine .of rfl rfl rfl rfl rfl rfl (fun t => .refl _) fun r' => ?_
  by_cases hr : r' = r
  · subst hr
    rw [setGroup_self]
    exact h
  · rw [setGroup_ne hr]
    exact .refl _

end MoqxCache

namespace CacheTrack

variable {tr' : CacheTrack}
variable {current : AbsoluteLocation} {eot : Bool}

theorem Marked.trans {tr'' : CacheTrack} (h : tr.Marked tr') (h' : tr'.Marked tr'') : tr.Marked tr'' := by
  rw [Marked, h', h]

theorem Marked.alike (h : tr.Marked tr') : tr.Alike tr' := by
  rw [h]
  exact ⟨rfl, rfl, rfl, rfl⟩

theorem enforceGapLimitLoop_marked (n : Nat) (tr : CacheTrack) : tr.Marked (enforceGapLimitLoop n tr) := by
  induction n generalizing tr with
  | zero => rfl
  | succ n ih =>
    unfold enforceGapLimitLoop
    split
    · split
      · exact Marked.trans rfl (ih _)
      · rfl
    · rfl

theorem insertGap_marked (start stop : AbsoluteLocation) : tr.Marked (tr.insertGap start stop) :=
  Marked.trans rfl (enforceGapLimitLoop_marked _ _)

theorem forgetRange_marked (start stop : AbsoluteLocation) : tr.Marked (tr.forgetRange start stop) :=
  Marked.trans rfl (enforceGapLimitLoop_marked _ _)

theorem forgetGroup_marked (g : Nat) (seen : Option Nat) : tr.Marked (MoqxCache.forgetGroup tr g seen) := by
  unfold MoqxCache.forgetGroup
  split
  · exact (forgetRange_marked _ _).trans (forgetRange_marked _ _)
  · exact forgetRange_marked _ _

theorem updateLargest_eq (h : tr.updateLargest current eot = .ok tr') :
    tr' = { tr with endOfTrack := tr'.endOfTrack, largestGroupAndObject := tr'.largestGroupAndObject } := by
  unfold updateLargest at h
  split at h
  · split at h
    · cases h
    · cases h
      rfl
  · split at h
    · split at h
      · cases h
      · cases h
        rfl
    · cases h
      rfl

theorem updateLargest_alike (h : tr.updateLargest current eot = .ok tr') : tr.Alike tr' := by
  rw [updateLargest_eq h]
  exact ⟨rfl, rfl, rfl, rfl⟩

end CacheTrack

namespace MoqxCache

/-- At most the largest location of `t` and the mark of its end are set. -/
def SetsLargest (t : TrackRef) (c c' : MoqxCache) : Prop :=
  c' = c ∨ ∃ loc eot tr, (c.track t).updateLargest loc eot = .ok tr ∧ c' = c.setTrack t tr

theorem SetsLargest.alike (h : SetsLargest t c c') : c.Alike c' := by
  obtain rfl | ⟨_, _, tr, hl, rfl⟩ := h
  · exact .refl _
  · exact setTrack_alike (CacheTrack.updateLargest_alike hl)

/-! ## 3. The ledger -/

variable {α : Type*} {pinned' : GroupRef → Prop}

/-- The pins are counted, and the two lists hold exactly the groups of cached tracks that nobody has
    pinned. -/
structure Lists (pins : GroupRef → Nat) (c : MoqxCache) : Prop where
  pinCount : ∀ r, r < c.nextGroup → (c.group r).pinCount = pins r
  pinBound : ∀ r, c.nextGroup ≤ r → pins r = 0
  trackNodup : ∀ t, (c.track t).groupLRU.Nodup
  allNodup : c.globalGroupLRU.Nodup
  inTrack : ∀ t g, g ∈ (c.track t).groupLRU ↔
    c.Cached t ∧ ∃ r, c.groupAt t g = some r ∧ (c.group r).pinCount = 0
  inAll : ∀ ftn g, (ftn, g) ∈ c.globalGroupLRU ↔
    ∃ t r, c.cache.lookup ftn = some t ∧ c.groupAt t g = some r ∧ (c.group r).pinCount = 0
  iter : ∀ {ftn t g r}, c.cache.lookup ftn = some t → c.groupAt t g = some r →
    (c.group r).lruIter = (if (c.group r).pinCount = 0 then some g else none) ∧
      (c.group r).globalLruIter = if (c.group r).pinCount = 0 then some (ftn, g) else none
  noIter : ∀ {t g r}, ¬c.Cached t → c.groupAt t g = some r →
    (c.group r).lruIter = none ∧ (c.group r).globalLruIter = none
  unheld : ∀ {r}, r < c.nextGroup → (∀ t g, c.groupAt t g ≠ some r) → (c.group r).lruIter = none

/-- The cache names tracks that exist, and none of them twice. -/
structure Named (c : MoqxCache) : Prop where
  cacheBound : ∀ {ftn t}, c.cache.lookup ftn = some t → t < c.nextTrack
  cacheOnce : ∀ {ftn ftn' t}, c.cache.lookup ftn = some t → c.cache.lookup ftn' = some t → ftn = ftn'

/-- The books are right: every group has one holder, the counters are the sums they stand for, and the
    lists are right. -/
structure Ledger (pins : GroupRef → Nat) (lives : TrackRef → Nat) (c : MoqxCache) : Prop
    extends Lists pins c, Named c where
  groupBound : ∀ {t g r}, c.groupAt t g = some r → r < c.nextGroup
  groupOnce : ∀ {t t' g g' r}, c.groupAt t g = some r → c.groupAt t' g' = some r → t = t' ∧ g = g'
  groupBytes : ∀ r, (c.group r).totalBytes = (c.group r).objectBytes
  total : c.totalCachedBytes = c.cachedBytes
  noUnderflow : c.underflow = false
  liveCount : ∀ t, t < c.nextTrack → (c.track t).liveWritebackCount = lives t
  liveBound : ∀ t, c.nextTrack ≤ t → lives t = 0

/-- The books, and the marks: a track is marked once it has left the cache, and holds no object
    then. -/
structure Sound (pins : GroupRef → Nat) (lives : TrackRef → Nat) (c : MoqxCache) : Prop
    extends Ledger pins lives c where
  notEvicted : ∀ {ftn t}, c.cache.lookup ftn = some t → (c.track t).evicted = false
  cached : ∀ {t}, t < c.nextTrack → (c.track t).evicted = false → c.Cached t
  emptied : ∀ {t g r}, (c.track t).evicted = true → c.groupAt t g = some r → (c.group r).objects = ∅

section books

variable {pins pins' : GroupRef → Nat} {lives lives' : TrackRef → Nat}

/-- The same tracks, groups and entries; pins and lists may differ. -/
structure SameHoldings (c c' : MoqxCache) : Prop where
  cache : c'.cache = c.cache
  nextGroup : c'.nextGroup = c.nextGroup
  nextTrack : c'.nextTrack = c.nextTrack
  total : c'.totalCachedBytes = c.totalCachedBytes
  groups : ∀ t, (c'.track t).groups = (c.track t).groups
  objects : ∀ r, (c'.group r).objects = (c.group r).objects
  totalBytes : ∀ r, (c'.group r).totalBytes = (c.group r).totalBytes

theorem SameHoldings.groupAt (h : SameHoldings c c') (t : TrackRef) (g : Nat) :
    c'.groupAt t g = c.groupAt t g := by
  rw [MoqxCache.groupAt, h.groups t]

theorem SameHoldings.cached (h : SameHoldings c c') (t : TrackRef) : c'.Cached t ↔ c.Cached t := by
  rw [Cached, Cached, h.cache]

theorem SameBooks.holdings (h : c.SameBooks c') : SameHoldings c c' :=
  ⟨h.cache, h.nextGroup, h.nextTrack, h.total, h.groups, fun r => (h.group r).objects,
    fun r => (h.group r).totalBytes⟩

theorem SameBooks.groupAt (h : c.SameBooks c') (t : TrackRef) (g : Nat) : c'.groupAt t g = c.groupAt t g :=
  h.holdings.groupAt t g

theorem Lists.sameBooks (hl : Lists pins c) (h : c.SameBooks c') : Lists pins c' where
  pinCount r := by rw [(h.group r).pinCount, h.nextGroup]; exact hl.pinCount r
  pinBound := by rw [h.nextGroup]; exact hl.pinBound
  trackNodup t := by rw [h.groupLRU t]; exact hl.trackNodup t
  allNodup := by rw [h.globalGroupLRU]; exact hl.allNodup
  inTrack t g := by
    simp only [h.groupAt, h.holdings.cached, h.groupLRU t, (h.group _).pinCount]
    exact hl.inTrack t g
  inAll ftn g := by
    simp only [h.groupAt, h.cache, h.globalGroupLRU, (h.group _).pinCount]
    exact hl.inAll ftn g
  iter hf hg := by
    rw [h.cache] at hf
    rw [h.groupAt] at hg
    rw [(h.group _).lruIter, (h.group _).globalLruIter, (h.group _).pinCount]
    exact hl.iter hf hg
  noIter hc hg := by
    rw [h.holdings.cached] at hc
    rw [h.groupAt] at hg
    rw [(h.group _).lruIter, (h.group _).globalLruIter]
    exact hl.noIter hc hg
  unheld hr hn := by
    rw [h.nextGroup] at hr
    simp only [h.groupAt] at hn
    rw [(h.group _).lruIter]
    exact hl.unheld hr hn

theorem Named.congr (hn : Named c) (hcache : c'.cache = c.cache) (hnext : c'.nextTrack = c.nextTrack) : Named c' where
  cacheBound hf := by
    rw [hcache] at hf
    rw [hnext]
    exact hn.cacheBound hf
  cacheOnce hf hf' := by
    rw [hcache] at hf hf'
    exact hn.cacheOnce hf hf'

theorem Ledger.relist (hl : Ledger pins lives c) (h : SameHoldings c c') (hu : c'.underflow = false)
    (hlists : Lists pins' c') (hlive : ∀ t, t < c.nextTrack → (c'.track t).liveWritebackCount = lives' t)
    (hbound : ∀ t, c.nextTrack ≤ t → lives' t = 0) : Ledger pins' lives' c' where
  toLists := hlists
  toNamed := hl.toNamed.congr h.cache h.nextTrack
  groupBound := by simp only [h.groupAt, h.nextGroup]; exact hl.groupBound
  groupOnce := by simp only [h.groupAt]; exact hl.groupOnce
  groupBytes r := by
    rw [h.totalBytes, CacheGroup.objectBytes, h.objects]
    exact hl.groupBytes r
  total := by
    rw [h.total, hl.total]
    unfold MoqxCache.cachedBytes MoqxCache.trackBytes
    rw [h.cache]
    simp only [h.groups, h.totalBytes]
  noUnderflow := hu
  liveCount := by rw [h.nextTrack]; exact hlive
  liveBound := by rw [h.nextTrack]; exact hbound

theorem Ledger.sameBooks (hl : Ledger pins lives c) (h : c.SameBooks c')
    (hlive : ∀ t, (c'.track t).liveWritebackCount = (c.track t).liveWritebackCount) : Ledger pins lives c' :=
  hl.relist h.holdings (h.underflow.trans hl.noUnderflow) (hl.toLists.sameBooks h)
    (fun t ht => (hlive t).trans (hl.liveCount t ht)) hl.liveBound

/-- One group, `g` of the track `t`, may be another than before, or pinned or listed otherwise; the lists are
    right for it, and nothing is different for the others. -/
structure Relists (c : MoqxCache) (t : TrackRef) (g : Nat) (c' : MoqxCache) : Prop where
  cache : c'.cache = c.cache
  groupAt : ∀ {t' g'}, ¬(t' = t ∧ g' = g) → c'.groupAt t' g' = c.groupAt t' g'
  group : ∀ {t' g' r}, ¬(t' = t ∧ g' = g) → c.groupAt t' g' = some r → c'.group r = c.group r
  trackNodup : ∀ t', (c'.track t').groupLRU.Nodup
  allNodup : c'.globalGroupLRU.Nodup
  mem : ∀ {t' g'}, ¬(t' = t ∧ g' = g) → (g' ∈ (c'.track t').groupLRU ↔ g' ∈ (c.track t').groupLRU)
  memAll : ∀ {f g'}, ¬(c.cache.lookup f = some t ∧ g' = g) →
    ((f, g') ∈ c'.globalGroupLRU ↔ (f, g') ∈ c.globalGroupLRU)
  own : g ∈ (c'.track t).groupLRU ↔ c.Cached t ∧ ∃ r, c'.groupAt t g = some r ∧ (c'.group r).pinCount = 0
  ownAll : ∀ {f}, c.cache.lookup f = some t → ((f, g) ∈ c'.globalGroupLRU ↔ g ∈ (c'.track t).groupLRU)
  ownIter : ∀ {f r}, c.cache.lookup f = some t → c'.groupAt t g = some r →
    (c'.group r).lruIter = (if (c'.group r).pinCount = 0 then some g else none) ∧
      (c'.group r).globalLruIter = if (c'.group r).pinCount = 0 then some (f, g) else none
  ownNoIter : ∀ {r}, ¬c.Cached t → c'.groupAt t g = some r →
    (c'.group r).lruIter = none ∧ (c'.group r).globalLruIter = none

theorem Lists.relists (hl : Lists pins c) (h : Relists c t g c')
    (pinCount : ∀ r, r < c'.nextGroup → (c'.group r).pinCount = pins' r)
    (pinBound : ∀ r, c'.nextGroup ≤ r → pins' r = 0)
    (unheld : ∀ {r}, r < c'.nextGroup → (∀ t g, c'.groupAt t g ≠ some r) → (c'.group r).lruIter = none) :
    Lists pins' c' where
  pinCount := pinCount
  pinBound := pinBound
  trackNodup := h.trackNodup
  allNodup := h.allNodup
  inTrack t' g' := by
    rw [Cached, h.cache]
    by_cases hown : t' = t ∧ g' = g
    · obtain ⟨rfl, rfl⟩ := hown
      exact h.own
    · rw [h.mem hown, hl.inTrack, h.groupAt hown]
      refine and_congr_right fun _ => exists_congr fun r' => and_congr_right fun hr' => ?_
      rw [h.group hown hr']
  inAll f g' := by
    rw [h.cache]
    by_cases hown : c.cache.lookup f = some t ∧ g' = g
    · obtain ⟨hf, rfl⟩ := hown
      rw [h.ownAll hf, h.own, hf]
      constructor
      · intro ⟨_, r', hr'⟩
        exact ⟨t, r', rfl, hr'⟩
      · intro ⟨t', r', ht', hr'⟩
        cases ht'
        exact ⟨⟨f, hf⟩, r', hr'⟩
    · rw [h.memAll hown, hl.inAll]
      refine exists_congr fun t' => exists_congr fun r' => and_congr_right fun hf => ?_
      have hne : ¬(t' = t ∧ g' = g) := fun ⟨ht, hg⟩ => hown ⟨ht ▸ hf, hg⟩
      rw [h.groupAt hne]
      refine and_congr_right fun hr' => ?_
      rw [h.group hne hr']
  iter {f t' g' r'} hf hr' := by
    rw [h.cache] at hf
    by_cases hown : t' = t ∧ g' = g
    · obtain ⟨rfl, rfl⟩ := hown
      exact h.ownIter hf hr'
    · rw [h.groupAt hown] at hr'
      rw [h.group hown hr']
      exact hl.iter hf hr'
  noIter {t' g' r'} hc hr' := by
    rw [Cached, h.cache] at hc
    by_cases hown : t' = t ∧ g' = g
    · obtain ⟨rfl, rfl⟩ := hown
      exact h.ownNoIter hc hr'
    · rw [h.groupAt hown] at hr'
      rw [h.group hown hr']
      exact hl.noIter hc hr'
  unheld := unheld

theorem track_field (f : CacheTrack → α) (hother : ∀ {t'}, t' ≠ t → c'.track t' = c.track t')
    (hself : f (c'.track t) = f (c.track t)) (t' : TrackRef) : f (c'.track t') = f (c.track t') := by
  by_cases ht : t' = t
  · rw [ht]
    exact hself
  · rw [hother ht]

theorem group_field (f : CacheGroup → α) (hother : ∀ {r'}, r' ≠ r → c'.group r' = c.group r')
    (hself : f (c'.group r) = f (c.group r)) (r' : GroupRef) : f (c'.group r') = f (c.group r') := by
  by_cases hr : r' = r
  · rw [hr]
    exact hself
  · rw [hother hr]

theorem Sound.relist (hs : Sound pins lives c) (h : SameHoldings c c')
    (hmarks : ∀ t, (c'.track t).evicted = (c.track t).evicted) (hl : Ledger pins' lives' c') :
    Sound pins' lives' c' where
  toLedger := hl
  notEvicted hf := by
    rw [h.cache] at hf
    rw [hmarks]
    exact hs.notEvicted hf
  cached ht he := by
    rw [h.nextTrack] at ht
    rw [hmarks] at he
    exact (h.cached _).mpr (hs.cached ht he)
  emptied he hg := by
    rw [hmarks] at he
    rw [h.groupAt] at hg
    rw [h.objects]
    exact hs.emptied he hg

theorem Sound.alike (hs : Sound pins lives c) (h : c.Alike c') : Sound pins lives c' :=
  hs.relist h.holdings h.evicted (hs.toLedger.sameBooks h.toSameBooks h.live)

end books

/-! ## 4. What the holders of a track or a group rely on -/

def entryAt (c : MoqxCache) (t : TrackRef) (loc : AbsoluteLocation) : Option CacheEntry :=
  (c.groupAt t loc.group).bind fun r => (c.group r).objects.lookup loc.object

/-- A track leaves the cache only with the mark of an evicted one, and unless that happens it keeps its
    pinned groups; no group gets a second holder. -/
structure Keeps (pinned : GroupRef → Prop) (c c' : MoqxCache) : Prop where
  nextGroup : c.nextGroup ≤ c'.nextGroup
  nextTrack : c.nextTrack ≤ c'.nextTrack
  evicted : ∀ {t}, t < c.nextTrack → (c.track t).evicted = true → (c'.track t).evicted = true
  cache : ∀ {ftn t}, t < c.nextTrack → c.cache.lookup ftn = some t → (c'.track t).evicted = false →
    c'.cache.lookup ftn = some t
  owner : ∀ {t g r}, r < c.nextGroup → c'.groupAt t g = some r → c.groupAt t g = some r
  held : ∀ {t g r}, pinned r → t < c.nextTrack → c.groupAt t g = some r →
    (c'.track t).evicted = false → c'.groupAt t g = some r

/-- Nothing that is held goes away, and no entry is added or changed. -/
structure Sheds (pinned : GroupRef → Prop) (c c' : MoqxCache) : Prop extends Keeps pinned c c' where
  entries : ∀ {ftn t loc e}, c'.cache.lookup ftn = some t → c'.entryAt t loc = some e →
    c.cache.lookup ftn = some t ∧ c.entryAt t loc = some e

section holders

variable {pinned : GroupRef → Prop}

theorem Keeps.notEvicted (h : Keeps pinned c c') (ht : t < c.nextTrack)
    (he : (c'.track t).evicted = false) : (c.track t).evicted = false := by
  cases hv : (c.track t).evicted with
  | false => rfl
  | true =>
    rw [h.evicted ht hv] at he
    cases he

theorem Keeps.trans (h : Keeps pinned c c') (h' : Keeps pinned c' c'') : Keeps pinned c c'' where
  nextGroup := h.nextGroup.trans h'.nextGroup
  nextTrack := h.nextTrack.trans h'.nextTrack
  evicted ht he := h'.evicted (Nat.lt_of_lt_of_le ht h.nextTrack) (h.evicted ht he)
  cache ht hf he := by
    have ht' := Nat.lt_of_lt_of_le ht h.nextTrack
    exact h'.cache ht' (h.cache ht hf (h'.notEvicted ht' he)) he
  owner hr hg := h.owner hr (h'.owner (Nat.lt_of_lt_of_le hr h.nextGroup) hg)
  held hp ht hg he := by
    have ht' := Nat.lt_of_lt_of_le ht h.nextTrack
    exact h'.held hp ht' (h.held hp ht hg (h'.notEvicted ht' he)) he

theorem Keeps.mono (h : Keeps pinned c c') (himp : ∀ r, pinned' r → pinned r) :
    Keeps pinned' c c' :=
  { h with held := fun hp ht hg he => h.held (himp _ hp) ht hg he }

theorem Sheds.mono (h : Sheds pinned c c') (himp : ∀ r, pinned' r → pinned r) :
    Sheds pinned' c c' :=
  { h.toKeeps.mono himp with entries := h.entries }

theorem Sheds.trans (h : Sheds pinned c c') (h' : Sheds pinned c' c'') : Sheds pinned c c'' where
  toKeeps := h.toKeeps.trans h'.toKeeps
  entries hf he := by
    obtain ⟨hf', he'⟩ := h'.entries hf he
    exact h.entries hf' he'

theorem SameHoldings.entryAt (h : SameHoldings c c') (t : TrackRef) (loc : AbsoluteLocation) :
    c'.entryAt t loc = c.entryAt t loc := by
  unfold MoqxCache.entryAt
  rw [h.groupAt]
  simp only [h.objects]

theorem SameHoldings.sheds (h : SameHoldings c c') (hmarks : ∀ t, (c'.track t).evicted = (c.track t).evicted) :
    Sheds pinned c c' where
  nextGroup := Nat.le_of_eq h.nextGroup.symm
  nextTrack := Nat.le_of_eq h.nextTrack.symm
  evicted _ he := by rw [hmarks]; exact he
  cache _ hf _ := by rw [h.cache]; exact hf
  owner _ hg := by rw [h.groupAt] at hg; exact hg
  held _ _ hg _ := by rw [h.groupAt]; exact hg
  entries hf he := by
    rw [h.cache] at hf
    rw [h.entryAt] at he
    exact ⟨hf, he⟩

theorem Alike.sheds (h : c.Alike c') : Sheds pinned c c' := h.holdings.sheds h.evicted

theorem Alike.keeps (h : c.Alike c') : Keeps pinned c c' := h.sheds.toKeeps

theorem Sheds.refl (c : MoqxCache) : Sheds pinned c c := (Alike.refl c).sheds

end holders

end MoqxCache

end Moqx

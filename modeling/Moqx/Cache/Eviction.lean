/-
  Subject: Eviction keeps the books right and takes nothing away that is held.

  * `Ledger.evictGroup`, `evictTrack_sound` -- one group, one track.
-/
import Moqx.Cache.Ledger

namespace Moqx

open Table AList Option

namespace MoqxCache

variable {pins : GroupRef → Nat} {lives : TrackRef → Nat} {c c' : MoqxCache} {t t' : TrackRef}
  {r r' : GroupRef} {g g' : Nat} {ftn : FullTrackName}

/-! ## 1. One group -/

def without {α : Type*} [BEq α] (l : List α) : Option α → List α
  | none => l
  | some a => l.erase a

/-- All that evicting the group `r`, held by `t` under the id `g`, does to the books. -/
structure Evicts (c : MoqxCache) (t : TrackRef) (g : Nat) (r : GroupRef) (c' : MoqxCache) : Prop where
  cache : c'.cache = c.cache
  nextGroup : c'.nextGroup = c.nextGroup
  nextTrack : c'.nextTrack = c.nextTrack
  otherTrack : ∀ {t'}, t' ≠ t → c'.track t' = c.track t'
  groups : (c'.track t).groups = (c.track t).groups.erase g
  evicted : (c'.track t).evicted = (c.track t).evicted
  live : (c'.track t).liveWritebackCount = (c.track t).liveWritebackCount
  groupLRU : (c'.track t).groupLRU = without (c.track t).groupLRU (c.group r).lruIter
  otherGroup : ∀ {r'}, r' ≠ r → c'.group r' = c.group r'
  objects : (c'.group r).objects = (c.group r).objects
  totalBytes : (c'.group r).totalBytes = (c.group r).totalBytes
  pinCount : (c'.group r).pinCount = (c.group r).pinCount
  lruIter : (c'.group r).lruIter = none
  globalGroupLRU : c'.globalGroupLRU = without c.globalGroupLRU (c.group r).globalLruIter
  total : c'.totalCachedBytes = c.totalCachedBytes - (c.group r).totalBytes
  underflow : c'.underflow = (c.underflow || decide (c.totalCachedBytes < (c.group r).totalBytes))

/-- Taking a group out of the two lists. -/
structure Unlinks (c : MoqxCache) (t : TrackRef) (r : GroupRef) (c' : MoqxCache) : Prop where
  cache : c'.cache = c.cache
  nextGroup : c'.nextGroup = c.nextGroup
  nextTrack : c'.nextTrack = c.nextTrack
  otherTrack : ∀ {t'}, t' ≠ t → c'.track t' = c.track t'
  track : c'.track t = { c.track t with groupLRU := without (c.track t).groupLRU (c.group r).lruIter }
  otherGroup : ∀ {r'}, r' ≠ r → c'.group r' = c.group r'
  group : c'.group r = { c.group r with lruIter := none, globalLruIter := none }
  globalGroupLRU : c'.globalGroupLRU = without c.globalGroupLRU (c.group r).globalLruIter
  total : c'.totalCachedBytes = c.totalCachedBytes
  underflow : c'.underflow = c.underflow

theorem unlink_unlinks (c : MoqxCache) (t : TrackRef) (r : GroupRef) :
    Unlinks c t r ((c.unlinkFromTrack r t).unlinkFromAll r) := by
  unfold unlinkFromTrack
  cases hi : (c.group r).lruIter with
  | none =>
    unfold unlinkFromAll
    cases hg : (c.group r).globalLruIter with
    | none =>
      simp only
      exact ⟨rfl, rfl, rfl, fun _ => rfl, by rw [hi]; rfl, fun _ => rfl, by rw [← hi, ← hg], by rw [hg]; rfl, rfl, rfl⟩
    | some node =>
      simp only
      refine ⟨rfl, rfl, rfl, fun _ => rfl, by rw [hi]; rfl, fun h => setGroup_ne h, ?_, by rw [hg]; rfl, rfl, rfl⟩
      rw [setGroup_self, hi]
  | some g =>
    simp only
    unfold unlinkFromAll
    rw [setGroup_self]
    cases hg : (c.group r).globalLruIter with
    | none =>
      simp only
      refine ⟨rfl, rfl, rfl, fun h => setTrack_ne h, ?_, fun h => setGroup_ne h, ?_, by rw [hg]; rfl, rfl, rfl⟩
      · rw [hi]
        exact setTrack_self
      · rw [setGroup_self]
    | some node =>
      simp only
      refine ⟨rfl, rfl, rfl, fun h => setTrack_ne h, ?_, fun h => ?_, ?_, by rw [hg]; rfl, rfl, rfl⟩
      · rw [hi]
        exact setTrack_self
      · rw [setGroup_ne h]
        exact setGroup_ne h
      · rw [setGroup_self]

theorem evictGroup_evicts (h : c.groupAt t g = some r) : Evicts c t g r (c.evictGroup t g) := by
  have hu := unlink_unlinks c t r
  unfold evictGroup
  unfold groupAt at h
  rw [h]
  simp only
  generalize (c.unlinkFromTrack r t).unlinkFromAll r = d at hu
  have hf := (@CacheTrack.forgetGroup_marked (d.track t) g (d.group r).seenPriorGroupIdGap).alike
  have hgroup := hu.group
  have htrack := hu.track
  refine ⟨hu.cache, hu.nextGroup, hu.nextTrack, fun h => ?_, ?_, ?_, ?_, ?_, fun h => hu.otherGroup h,
    ?_, ?_, ?_, ?_, hu.globalGroupLRU, ?_, ?_⟩
  · rw [setTrack_ne h]
    exact (setTrack_ne h).trans (hu.otherTrack h)
  · rw [setTrack_self]
    show ((d.setTrack t _).track t).groups.erase g = _
    rw [setTrack_self, hf.groups, htrack]
  · rw [setTrack_self]
    show ((d.setTrack t _).track t).evicted = _
    rw [setTrack_self, hf.evicted, htrack]
  · rw [setTrack_self]
    show ((d.setTrack t _).track t).liveWritebackCount = _
    rw [setTrack_self, hf.live, htrack]
  · rw [setTrack_self]
    show ((d.setTrack t _).track t).groupLRU = _
    rw [setTrack_self, hf.groupLRU, htrack]
  · show (d.group r).objects = _
    rw [hgroup]
  · show (d.group r).totalBytes = _
    rw [hgroup]
  · show (d.group r).pinCount = _
    rw [hgroup]
  · show (d.group r).lruIter = none
    rw [hgroup]
  · show d.totalCachedBytes - (d.group r).totalBytes = _
    rw [hgroup, hu.total]
  · show (d.underflow || decide (d.totalCachedBytes < (d.group r).totalBytes)) = _
    rw [hgroup, hu.total, hu.underflow]

theorem mem_without {α : Type*} [BEq α] [LawfulBEq α] {l : List α} {i : Option α} {a : α} (hn : l.Nodup) :
    a ∈ without l i ↔ a ∈ l ∧ i ≠ some a := by
  cases i with
  | none => simp [without]
  | some b =>
    rw [without, hn.mem_erase_iff, and_comm]
    simp only [ne_eq, some.injEq, eq_comm]

theorem nodup_without {α : Type*} [BEq α] [LawfulBEq α] {l : List α} {i : Option α} (hn : l.Nodup) :
    (without l i).Nodup := by
  cases i with
  | none => exact hn
  | some b => exact hn.erase b

theorem Lists.mem_without (hl : Lists pins c) (hg : c.groupAt t g = some r) :
    g' ∈ without (c.track t).groupLRU (c.group r).lruIter ↔ g' ∈ (c.track t).groupLRU ∧ g' ≠ g := by
  rw [MoqxCache.mem_without (hl.trackNodup t)]
  refine and_congr_right fun h => not_congr ?_
  obtain ⟨⟨f, hf⟩, r', hr', hp⟩ := (hl.inTrack t g').mp h
  rw [(hl.iter hf hg).1]
  constructor
  · intro hi
    split at hi
    · exact (some.inj hi).symm
    · cases hi
  · intro heq
    rw [heq, hg] at hr'
    cases hr'
    rw [if_pos hp, heq]

theorem Lists.mem_without_all (hl : Lists pins c) (hg : c.groupAt t g = some r) :
    (ftn, g') ∈ without c.globalGroupLRU (c.group r).globalLruIter ↔
      (ftn, g') ∈ c.globalGroupLRU ∧ ¬(c.cache.lookup ftn = some t ∧ g' = g) := by
  rw [MoqxCache.mem_without hl.allNodup]
  refine and_congr_right fun h => not_congr ?_
  obtain ⟨t', r', hf, hr', hp⟩ := (hl.inAll ftn g').mp h
  constructor
  · intro hi
    by_cases hc : c.Cached t
    · obtain ⟨f', hf'⟩ := hc
      rw [(hl.iter hf' hg).2] at hi
      split at hi
      · cases hi
        exact ⟨hf', rfl⟩
      · cases hi
    · rw [(hl.noIter hc hg).2] at hi
      cases hi
  · intro ⟨hf', heq⟩
    rw [hf] at hf'
    cases hf'
    rw [heq, hg] at hr'
    cases hr'
    rw [(hl.iter hf hg).2, if_pos hp, heq]

section one

variable (he : Evicts c t g r c')
include he

theorem Evicts.groupAt_iff : c'.groupAt t' g' = some r' ↔
    c.groupAt t' g' = some r' ∧ ¬(t' = t ∧ g' = g) := by
  by_cases ht : t' = t
  · subst ht
    rw [groupAt, he.groups]
    by_cases hg : g' = g
    · subst hg
      simp [lookup_erase]
    · simp [lookup_erase_ne hg, hg]
  · rw [groupAt, he.otherTrack ht]
    simp [ht]

theorem Evicts.cached : c'.Cached t' ↔ c.Cached t' := by
  rw [Cached, Cached, he.cache]

theorem Evicts.trackEvicted (t' : TrackRef) : (c'.track t').evicted = (c.track t').evicted :=
  track_field (·.evicted) he.otherTrack he.evicted t'

theorem Evicts.trackLive (t' : TrackRef) :
    (c'.track t').liveWritebackCount = (c.track t').liveWritebackCount :=
  track_field (·.liveWritebackCount) he.otherTrack he.live t'

theorem Evicts.groupCounts (r' : GroupRef) : (c'.group r').objects = (c.group r').objects ∧
    (c'.group r').totalBytes = (c.group r').totalBytes ∧ (c'.group r').pinCount = (c.group r').pinCount :=
  ⟨group_field (·.objects) he.otherGroup he.objects r', group_field (·.totalBytes) he.otherGroup he.totalBytes r',
    group_field (·.pinCount) he.otherGroup he.pinCount r'⟩

theorem Evicts.trackBytes_other (ht : t' ≠ t) : c'.trackBytes t' = c.trackBytes t' := by
  unfold trackBytes
  rw [he.otherTrack ht]
  exact total_congr fun _ r' _ => (he.groupCounts r').2.1

theorem Evicts.trackBytes_self (hg : c.groupAt t g = some r) :
    c.trackBytes t = (c.group r).totalBytes + c'.trackBytes t := by
  unfold trackBytes
  rw [he.groups, total_erase hg]
  congr 1
  exact total_congr fun _ r' _ => ((he.groupCounts r').2.1).symm

theorem Evicts.cachedBytes (hl : Ledger pins lives c) (hf : c.cache.lookup ftn = some t)
    (hg : c.groupAt t g = some r) : c.cachedBytes = (c.group r).totalBytes + c'.cachedBytes := by
  have hdiff := @total_differ _ _ _ c.cache ftn (fun _ t => c.trackBytes t)
    (fun _ t => c'.trackBytes t) t hf fun f u hne hu => by
      refine (he.trackBytes_other ?_).symm
      rintro rfl
      exact hne (hl.cacheOnce hu hf)
  have hself := he.trackBytes_self hg
  unfold MoqxCache.cachedBytes
  rw [he.cache]
  omega

theorem Evicts.relists (hl : Ledger pins lives c) (hg : c.groupAt t g = some r) : Relists c t g c' := by
  have hgroupAt : c'.groupAt t g = none :=
    eq_none_iff_forall_ne_some.mpr fun r' h => (he.groupAt_iff.mp h).2 ⟨rfl, rfl⟩
  have hself : g ∉ (c'.track t).groupLRU := by
    rw [he.groupLRU, hl.mem_without hg]
    exact fun h => h.2 rfl
  refine
    { cache := he.cache
      groupAt := @fun t' g' hne => ?_
      group := @fun t' g' r' hne hr' => he.otherGroup fun heq => hne (hl.groupOnce (heq ▸ hr') hg)
      trackNodup := fun t' => ?_
      allNodup := by rw [he.globalGroupLRU]; exact nodup_without hl.allNodup
      mem := @fun t' g' hne => ?_
      memAll := fun hne => ?_
      own := iff_of_false hself fun ⟨_, r', hr', _⟩ => nomatch hgroupAt.symm.trans hr'
      ownAll := fun hf => iff_of_false (fun h => ?_) hself
      ownIter := fun _ hr' => nomatch hgroupAt.symm.trans hr'
      ownNoIter := fun _ hr' => nomatch hgroupAt.symm.trans hr' }
  · refine ext fun r' => ?_
    rw [he.groupAt_iff, and_iff_left hne]
  · by_cases ht : t' = t
    · rw [ht, he.groupLRU]
      exact nodup_without (hl.trackNodup t)
    · rw [he.otherTrack ht]
      exact hl.trackNodup t'
  · by_cases ht : t' = t
    · subst ht
      rw [he.groupLRU, hl.mem_without hg, and_iff_left fun hg' => hne ⟨rfl, hg'⟩]
    · rw [he.otherTrack ht]
  · rw [he.globalGroupLRU, hl.mem_without_all hg, and_iff_left hne]
  · rw [he.globalGroupLRU, hl.mem_without_all hg] at h
    exact h.2 ⟨hf, rfl⟩

theorem Ledger.evictGroup (hl : Ledger pins lives c) (hf : c.cache.lookup ftn = some t)
    (hg : c.groupAt t g = some r) : Ledger pins lives c' := by
  have hbytes := he.cachedBytes hl hf hg
  refine
    { toLists := hl.relists (he.relists hl hg) (fun r' => ?_) (by rw [he.nextGroup]; exact hl.pinBound)
        @fun r' hr' hn => ?_
      toNamed := hl.toNamed.congr he.cache he.nextTrack
      groupBound := fun h => by rw [he.nextGroup]; exact hl.groupBound (he.groupAt_iff.mp h).1
      groupOnce := fun h h' => hl.groupOnce (he.groupAt_iff.mp h).1 (he.groupAt_iff.mp h').1
      groupBytes := fun r' => ?_
      total := ?_
      noUnderflow := ?_
      liveCount := fun t' => by rw [he.trackLive, he.nextTrack]; exact hl.liveCount t'
      liveBound := by rw [he.nextTrack]; exact hl.liveBound }
  · rw [(he.groupCounts r').2.2, he.nextGroup]
    exact hl.pinCount r'
  · rw [he.nextGroup] at hr'
    by_cases hr : r' = r
    · subst hr
      exact he.lruIter
    · rw [he.otherGroup hr]
      refine hl.unheld hr' fun t' g' hg' => hn t' g' (he.groupAt_iff.mpr ⟨hg', ?_⟩)
      rintro ⟨rfl, rfl⟩
      rw [hg] at hg'
      exact hr (some.inj hg').symm
  · rw [(he.groupCounts r').2.1, CacheGroup.objectBytes, (he.groupCounts r').1]
    exact hl.groupBytes r'
  · rw [he.total, hl.total]
    omega
  · rw [he.underflow, hl.noUnderflow, hl.total]
    simp only [Bool.false_or, decide_eq_false_iff_not]
    omega

end one

variable {pinned : GroupRef → Prop} {c'' : MoqxCache}

theorem Evicts.entryAt_some {loc : AbsoluteLocation} {e : CacheEntry} (he : Evicts c t g r c')
    (h : c'.entryAt t' loc = some e) : c.entryAt t' loc = some e := by
  obtain ⟨r', hr', ho⟩ := bind_eq_some_iff.mp h
  refine bind_eq_some_iff.mpr ⟨r', (he.groupAt_iff.mp hr').1, ?_⟩
  rw [(he.groupCounts r').1] at ho
  exact ho

theorem Evicts.sheds (he : Evicts c t g r c') (hg : c.groupAt t g = some r) (hp : ¬pinned r) :
    Sheds pinned c c' where
  nextGroup := Nat.le_of_eq he.nextGroup.symm
  nextTrack := Nat.le_of_eq he.nextTrack.symm
  evicted _ h := by rw [he.trackEvicted]; exact h
  cache _ h _ := by rw [he.cache]; exact h
  owner _ h := (he.groupAt_iff.mp h).1
  held hr _ h _ := by
    refine he.groupAt_iff.mpr ⟨h, ?_⟩
    rintro ⟨rfl, rfl⟩
    rw [h] at hg
    cases hg
    exact hp hr
  entries hf h := by
    rw [he.cache] at hf
    exact ⟨hf, he.entryAt_some h⟩

theorem Sound.evictGroup (hs : Sound pins lives c) (he : Evicts c t g r c')
    (hf : c.cache.lookup ftn = some t) (hg : c.groupAt t g = some r) : Sound pins lives c' where
  toLedger := hs.toLedger.evictGroup he hf hg
  notEvicted h := by
    rw [he.cache] at h
    rw [he.trackEvicted]
    exact hs.notEvicted h
  cached ht h := by
    rw [he.nextTrack] at ht
    rw [he.trackEvicted] at h
    exact he.cached.mpr (hs.cached ht h)
  emptied h hg' := by
    rw [he.trackEvicted] at h
    rw [(he.groupCounts _).1]
    exact hs.emptied h (he.groupAt_iff.mp hg').1

/-! ## 2. One track -/

theorem setTrackLRU_alike {l : List FullTrackName} : c.Alike { c with trackLRU := l } :=
  .of rfl rfl rfl rfl rfl rfl (fun _ => .refl _) fun _ => .refl _

/-- At most the list of tracks and the place of `t` in it change. -/
def Enlists (t : TrackRef) (c c' : MoqxCache) : Prop :=
  c' = c ∨ ∃ l i, c' = { c with trackLRU := l }.setTrack t { c.track t with lruIter := i }

theorem removeTrackFromLRU_enlists : Enlists t c (c.removeTrackFromLRU t) := by
  unfold removeTrackFromLRU
  split
  · exact Or.inl rfl
  · exact Or.inr ⟨_, _, rfl⟩

theorem addTrackToLRU_enlists : Enlists t c (c.addTrackToLRU ftn t) := by
  unfold addTrackToLRU
  split
  · exact Or.inl rfl
  · exact Or.inr ⟨_, _, rfl⟩

theorem onTrackBecameEvictable_enlists : ∃ t, Enlists t c (c.onTrackBecameEvictable ftn) := by
  unfold onTrackBecameEvictable
  split
  · exact ⟨0, Or.inl rfl⟩
  · split
    · exact ⟨_, addTrackToLRU_enlists⟩
    · exact ⟨0, Or.inl rfl⟩

theorem Enlists.alike (h : Enlists t c c') : c.Alike c' := by
  obtain rfl | ⟨l, i, rfl⟩ := h
  · exact .refl _
  · exact Alike.trans setTrackLRU_alike (setTrack_alike ⟨rfl, rfl, rfl, rfl⟩)

theorem onTrackBecameEvictable_alike : c.Alike (c.onTrackBecameEvictable ftn) :=
  onTrackBecameEvictable_enlists.elim fun _ h => h.alike

theorem retireTrack_sameBooks : c.SameBooks (c.retireTrack t) := by
  refine SameBooks.trans ?_ (removeTrackFromLRU_enlists (t := t)).alike.toSameBooks
  refine ⟨rfl, rfl, rfl, rfl, rfl, rfl, fun t' => ?_, fun t' => ?_, fun _ => .refl _⟩
  all_goals
    by_cases ht : t' = t
    · subst ht
      rw [setTrack_self]
    · rw [setTrack_ne ht]

theorem retireTrack_live :
    ((c.retireTrack t).track t').liveWritebackCount = (c.track t').liveWritebackCount := by
  unfold retireTrack
  rw [removeTrackFromLRU_enlists.alike.live]
  by_cases ht : t' = t
  · subst ht
    rw [setTrack_self]
  · rw [setTrack_ne ht]

theorem retireTrack_evicted : ((c.retireTrack t).track t').evicted = (decide (t' = t) || (c.track t').evicted) := by
  unfold retireTrack
  rw [removeTrackFromLRU_enlists.alike.evicted]
  by_cases ht : t' = t
  · subst ht
    rw [setTrack_self]
    simp
  · rw [setTrack_ne ht]
    simp [ht]

/-- Some groups of one track are gone, and nothing else has changed that the holders rely on. -/
structure Drops (t : TrackRef) (c c' : MoqxCache) : Prop where
  cache : c'.cache = c.cache
  nextGroup : c'.nextGroup = c.nextGroup
  nextTrack : c'.nextTrack = c.nextTrack
  evicted : ∀ t', (c'.track t').evicted = (c.track t').evicted
  other : ∀ {t'} g, t' ≠ t → c'.groupAt t' g = c.groupAt t' g
  owner : ∀ {t' g r}, c'.groupAt t' g = some r → c.groupAt t' g = some r
  objects : ∀ r, (c'.group r).objects = (c.group r).objects

theorem Drops.refl (c : MoqxCache) : Drops t c c :=
  ⟨rfl, rfl, rfl, fun _ => rfl, fun _ _ => rfl, fun h => h, fun _ => rfl⟩

theorem Drops.trans (h : Drops t c c') (h' : Drops t c' c'') : Drops t c c'' where
  cache := h'.cache.trans h.cache
  nextGroup := h'.nextGroup.trans h.nextGroup
  nextTrack := h'.nextTrack.trans h.nextTrack
  evicted t' := (h'.evicted t').trans (h.evicted t')
  other g ht := (h'.other g ht).trans (h.other g ht)
  owner hg := h.owner (h'.owner hg)
  objects r := (h'.objects r).trans (h.objects r)

theorem Evicts.drops (he : Evicts c t g r c') : Drops t c c' where
  cache := he.cache
  nextGroup := he.nextGroup
  nextTrack := he.nextTrack
  evicted := he.trackEvicted
  other g' ht := by rw [groupAt, groupAt, he.otherTrack ht]
  owner h := (he.groupAt_iff.mp h).1
  objects r' := (he.groupCounts r').1

theorem evictGroups_spec (ids : List Nat) (hl : Ledger pins lives c) (hf : c.cache.lookup ftn = some t) :
    Ledger pins lives (ids.foldl (fun c g => c.evictGroup t g) c) ∧
      Drops t c (ids.foldl (fun c g => c.evictGroup t g) c) ∧
      ∀ g ∈ ids, (ids.foldl (fun c g => c.evictGroup t g) c).groupAt t g = none := by
  induction ids generalizing c with
  | nil => exact ⟨hl, .refl c, fun _ h => nomatch h⟩
  | cons g ids ih =>
    rw [List.foldl_cons]
    have hstep : Ledger pins lives (c.evictGroup t g) ∧ Drops t c (c.evictGroup t g) ∧
        (c.evictGroup t g).groupAt t g = none := by
      cases hg : c.groupAt t g with
      | none =>
        have hid : c.evictGroup t g = c := by
          unfold evictGroup
          unfold groupAt at hg
          rw [hg]
        rw [hid]
        exact ⟨hl, .refl c, hg⟩
      | some r =>
        have he := evictGroup_evicts hg
        refine ⟨hl.evictGroup he hf hg, he.drops, ?_⟩
        rw [groupAt, he.groups, lookup_erase]
    obtain ⟨hl1, hd1, hn1⟩ := hstep
    obtain ⟨hl2, hd2, hn2⟩ := ih hl1 (by rw [hd1.cache]; exact hf)
    refine ⟨hl2, hd1.trans hd2, fun g' hg' => ?_⟩
    rcases List.mem_cons.mp hg' with rfl | hg'
    · cases h : (ids.foldl (fun c g => c.evictGroup t g) (c.evictGroup t g')).groupAt t g' with
      | none => rfl
      | some r =>
        rw [hd2.owner h] at hn1
        cases hn1
    · exact hn2 g' hg'

theorem Ledger.eraseTrack (hl : Ledger pins lives c) (hf : c.cache.lookup ftn = some t)
    (hempty : ∀ g, c.groupAt t g = none) : Ledger pins lives { c with cache := c.cache.erase ftn } := by
  have hcached : ∀ {t'}, Cached { c with cache := c.cache.erase ftn } t' ↔ c.Cached t' ∧ t' ≠ t := by
    intro t'
    constructor
    · rintro ⟨f, h⟩
      obtain ⟨hne, h⟩ := lookup_erase_iff.mp h
      refine ⟨⟨f, h⟩, ?_⟩
      rintro rfl
      exact hne (hl.cacheOnce h hf)
    · rintro ⟨⟨f, h⟩, hne⟩
      refine ⟨f, lookup_erase_iff.mpr ⟨?_, h⟩⟩
      rintro rfl
      rw [hf] at h
      exact hne (some.inj h).symm
  refine
    { cacheBound := fun h => hl.cacheBound (lookup_erase_iff.mp h).2
      cacheOnce := fun h h' => hl.cacheOnce (lookup_erase_iff.mp h).2 (lookup_erase_iff.mp h').2
      groupBound := hl.groupBound
      groupOnce := hl.groupOnce
      groupBytes := hl.groupBytes
      total := ?_
      noUnderflow := hl.noUnderflow
      pinCount := hl.pinCount
      pinBound := hl.pinBound
      liveCount := hl.liveCount
      liveBound := hl.liveBound
      trackNodup := hl.trackNodup
      allNodup := hl.allNodup
      inTrack := fun t' g => ?_
      inAll := fun f g => ?_
      iter := fun h hg => hl.iter (lookup_erase_iff.mp h).2 hg
      noIter := @fun t' g r hc hg => ?_
      unheld := hl.unheld }
  · rw [hcached]
    refine (hl.inTrack t' g).trans ?_
    constructor
    · rintro ⟨hc, r, hr, hp⟩
      refine ⟨⟨hc, ?_⟩, r, hr, hp⟩
      rintro rfl
      rw [hempty] at hr
      cases hr
    · rintro ⟨⟨hc, -⟩, hr⟩
      exact ⟨hc, hr⟩
  · refine (hl.inAll f g).trans ?_
    constructor
    · rintro ⟨t', r, h, hr, hp⟩
      refine ⟨t', r, lookup_erase_iff.mpr ⟨?_, h⟩, hr, hp⟩
      rintro rfl
      rw [hf] at h
      cases h
      rw [hempty] at hr
      cases hr
    · rintro ⟨t', r, h, hr, hp⟩
      exact ⟨t', r, (lookup_erase_iff.mp h).2, hr, hp⟩
  · rw [hcached, not_and_not_right] at hc
    refine hl.noIter (fun hc' => ?_) hg
    cases hc hc'
    exact absurd (hempty g) (by rw [show c.groupAt t g = some r from hg]; exact some_ne_none r)
  · have hzero : c.trackBytes t = 0 := total_eq_zero fun g r h => by
      have := hempty g
      rw [groupAt, h] at this
      cases this
    have htotal := hl.total
    unfold cachedBytes at htotal ⊢
    rw [total_erase hf, hzero, Nat.zero_add] at htotal
    exact htotal

/-- What `evictTrack` leaves: the track is marked and empty, and everything else is as it was. -/
structure Retires (c : MoqxCache) (ftn : FullTrackName) (t : TrackRef) (c' : MoqxCache) : Prop where
  cache : c'.cache = c.cache.erase ftn
  nextGroup : c'.nextGroup = c.nextGroup
  nextTrack : c'.nextTrack = c.nextTrack
  evicted : ∀ t', (c'.track t').evicted = (decide (t' = t) || (c.track t').evicted)
  empty : ∀ g, c'.groupAt t g = none
  other : ∀ {t'} g, t' ≠ t → c'.groupAt t' g = c.groupAt t' g
  objects : ∀ r, (c'.group r).objects = (c.group r).objects

theorem evictTrack_retires (hl : Ledger pins lives c) (hf : c.cache.lookup ftn = some t) :
    Ledger pins lives (c.evictTrack ftn) ∧ Retires c ftn t (c.evictTrack ftn) := by
  have hb := @retireTrack_sameBooks c t
  have hl1 := hl.sameBooks hb fun _ => retireTrack_live
  have hf1 : (c.retireTrack t).cache.lookup ftn = some t := by rw [hb.cache]; exact hf
  obtain ⟨hl2, hd, hgone⟩ := evictGroups_spec (c.track t).groups.keys hl1 hf1
  unfold evictTrack
  rw [hf]
  simp only
  generalize (c.track t).groups.keys.foldl (fun c g => c.evictGroup t g) (c.retireTrack t) = d at *
  have hempty : ∀ g, d.groupAt t g = none := by
    intro g
    by_cases hk : g ∈ (c.track t).groups.keys
    · exact hgone g hk
    · cases h : d.groupAt t g with
      | none => rfl
      | some r =>
        have h' := hd.owner h
        rw [hb.groupAt] at h'
        have hsome : ((c.track t).groups.lookup g).isSome = true := isSome_of_eq_some h'
        exact absurd (mem_keys.mp (lookup_isSome.mp hsome)) hk
  refine ⟨hl2.eraseTrack (by rw [hd.cache]; exact hf1) hempty, ?_, ?_, ?_, fun t' => ?_, hempty, fun g ht => ?_, fun r => ?_⟩
  · show d.cache.erase ftn = _
    rw [hd.cache, hb.cache]
  · exact hd.nextGroup.trans hb.nextGroup
  · exact hd.nextTrack.trans hb.nextTrack
  · exact (hd.evicted t').trans retireTrack_evicted
  · exact (hd.other g ht).trans (hb.groupAt _ g)
  · exact (hd.objects r).trans (hb.group r).objects

theorem Retires.owner (hr : Retires c ftn t c') (h : c'.groupAt t' g = some r) :
    t' ≠ t ∧ c.groupAt t' g = some r := by
  by_cases ht : t' = t
  · subst ht
    rw [hr.empty] at h
    cases h
  · rw [hr.other g ht] at h
    exact ⟨ht, h⟩

theorem Retires.notEvicted (hr : Retires c ftn t c') (h : (c'.track t').evicted = false) :
    t' ≠ t ∧ (c.track t').evicted = false := by
  rw [hr.evicted] at h
  simpa using h

theorem Retires.sheds (hr : Retires c ftn t c') (hf : c.cache.lookup ftn = some t) :
    Sheds pinned c c' where
  nextGroup := Nat.le_of_eq hr.nextGroup.symm
  nextTrack := Nat.le_of_eq hr.nextTrack.symm
  evicted _ h := by rw [hr.evicted, h, Bool.or_true]
  cache _ h he := by
    rw [hr.cache]
    refine lookup_erase_iff.mpr ⟨?_, h⟩
    rintro rfl
    rw [hf] at h
    exact (hr.notEvicted he).1 (some.inj h).symm
  owner _ h := (hr.owner h).2
  held _ _ h he := by rw [hr.other _ (hr.notEvicted he).1]; exact h
  entries h he := by
    rw [hr.cache] at h
    refine ⟨(lookup_erase_iff.mp h).2, ?_⟩
    obtain ⟨r', hr', ho⟩ := bind_eq_some_iff.mp he
    rw [hr.objects] at ho
    exact bind_eq_some_iff.mpr ⟨r', (hr.owner hr').2, ho⟩

/-- **Evicting a track keeps the cache sound.** The track's own groups go even if they are pinned, and
    whoever holds them finds the track marked. -/
theorem evictTrack_sound (hs : Sound pins lives c) :
    Sound pins lives (c.evictTrack ftn) ∧ Sheds pinned c (c.evictTrack ftn) := by
  cases hf : c.cache.lookup ftn with
  | none =>
    have hid : c.evictTrack ftn = c := by
      unfold evictTrack
      rw [hf]
    rw [hid]
    exact ⟨hs, .refl c⟩
  | some t =>
    obtain ⟨hl, hr⟩ := evictTrack_retires hs.toLedger hf
    refine ⟨{ toLedger := hl, notEvicted := @fun f t' h => ?_, cached := @fun t' ht h => ?_, emptied := @fun t' g r h hg => ?_ },
      hr.sheds hf⟩
    · rw [hr.cache] at h
      obtain ⟨hne, h⟩ := lookup_erase_iff.mp h
      have ht : t' ≠ t := by
        rintro rfl
        exact hne (hs.cacheOnce h hf)
      rw [hr.evicted, hs.notEvicted h]
      simp [ht]
    · rw [hr.nextTrack] at ht
      obtain ⟨f, hf'⟩ := hs.cached ht (hr.notEvicted h).2
      refine ⟨f, ?_⟩
      rw [hr.cache]
      refine lookup_erase_iff.mpr ⟨?_, hf'⟩
      rintro rfl
      rw [hf] at hf'
      exact (hr.notEvicted h).1 (some.inj hf').symm
    · obtain ⟨ht, hg⟩ := hr.owner hg
      rw [hr.evicted] at h
      rw [hr.objects]
      exact hs.emptied (by simpa [ht] using h) hg

/-! ## 3. Making room -/

/-- What an operation that makes room is built of: it evicts groups, if `groups` holds, and tracks, if `tracks`
    holds. A node of a group that is gone is taken from its list. -/
inductive Purges (groups tracks : Prop) : MoqxCache → MoqxCache → Prop where
  | refl {c : MoqxCache} : Purges groups tracks c c
  | limits {c c' : MoqxCache} {maxTracks maxGroups bytes eviction : Nat} {default allowed : Option Int} :
      Purges groups tracks
        { c with
          maxCachedTracks := maxTracks
          maxCachedGroupsPerTrack := maxGroups
          maxCachedBytes := bytes
          minEvictionBytes := eviction
          defaultMaxCacheDuration := default
          maxAllowedCacheDuration := allowed } c' → Purges groups tracks c c'
  | group {c c' : MoqxCache} (t : TrackRef) (g : Nat) : groups → Purges groups tracks (c.evictGroup t g) c' →
      Purges groups tracks c c'
  | stale {c c' : MoqxCache} (t : TrackRef) : groups →
      Purges groups tracks
        { c.setTrack t { c.track t with groupLRU := (c.track t).groupLRU.dropLast } with underflow := true } c' →
      Purges groups tracks c c'
  | staleNode {c c' : MoqxCache} (node : FullTrackName × Nat) : groups →
      Purges groups tracks { c with globalGroupLRU := c.globalGroupLRU.erase node, underflow := true } c' →
      Purges groups tracks c c'
  | track {c c' : MoqxCache} (ftn : FullTrackName) : tracks → Purges groups tracks (c.evictTrack ftn) c' →
      Purges groups tracks c c'

section Purges

variable {groups tracks : Prop} {c c' c'' : MoqxCache}

theorem Purges.trans (h : Purges groups tracks c c') (h' : Purges groups tracks c' c'') :
    Purges groups tracks c c'' := by
  induction h with
  | refl => exact h'
  | limits _ ih => exact .limits (ih h')
  | group t g hp _ ih => exact .group t g hp (ih h')
  | stale t hp _ ih => exact .stale t hp (ih h')
  | staleNode node hp _ ih => exact .staleNode node hp (ih h')
  | track ftn hp _ ih => exact .track ftn hp (ih h')

theorem purgeAll_purges (names : List FullTrackName) : Purges False True c (c.purgeAll names).2 := by
  have hfold : ∀ s : Nat × MoqxCache, Purges False True s.2
      (names.foldl (fun s ftn => ((s.2.purgeTrack ftn).1 + s.1, (s.2.purgeTrack ftn).2)) s).2 := by
    induction names with
    | nil => exact fun _ => .refl
    | cons ftn names ih => exact fun s => .track ftn trivial (ih ((s.2.purgeTrack ftn).1 + s.1, _))
  exact hfold (0, c)

theorem evictOldestTrackIfNeeded_purges : Purges False True c c.evictOldestTrackIfNeeded.2 := by
  unfold evictOldestTrackIfNeeded
  split
  · exact .refl
  · split
    · exact .refl
    · exact .track _ trivial .refl

theorem makeRoom_purges :
    Purges False True c (if c.maxCachedTracks ≤ c.size then c.evictOldestTrackIfNeeded.2 else c) := by
  split
  · exact evictOldestTrackIfNeeded_purges
  · exact .refl

theorem setMaxCachedTracksLoop_purges (n : Nat) : Purges False True c (setMaxCachedTracksLoop n c) := by
  induction n generalizing c with
  | zero => exact .refl
  | succ n ih =>
    unfold setMaxCachedTracksLoop
    split
    · exact evictOldestTrackIfNeeded_purges.trans ih
    · exact .refl

theorem setMaxCachedTracks_purges (maxTracks : Nat) : Purges False True c (c.setMaxCachedTracks maxTracks) :=
  .limits (setMaxCachedTracksLoop_purges c.size)

theorem evictOldestGroupsLoop_purges (n : Nat) : Purges True False c (evictOldestGroupsLoop t n c) := by
  induction n generalizing c with
  | zero => exact .refl
  | succ n ih =>
    unfold evictOldestGroupsLoop
    split
    · split
      · exact .refl
      · split
        · exact .stale t trivial ih
        · exact .group t _ trivial ih
    · exact .refl

theorem evictOldestGroupsIfNeeded_purges : Purges True False c (c.evictOldestGroupsIfNeeded t) := by
  unfold evictOldestGroupsIfNeeded
  split
  · exact .refl
  · exact evictOldestGroupsLoop_purges _

theorem setMaxCachedGroupsPerTrack_purges (maxGroups : Nat) :
    Purges True False c (c.setMaxCachedGroupsPerTrack maxGroups) := by
  have hall : ∀ (l : List (Sigma fun _ : FullTrackName => TrackRef)) (d : MoqxCache),
      Purges True False d (l.foldl (fun c e => c.evictOldestGroupsIfNeeded e.2) d) := by
    intro l
    induction l with
    | nil => exact fun _ => .refl
    | cons e l ih => exact fun d => evictOldestGroupsIfNeeded_purges.trans (ih _)
  unfold setMaxCachedGroupsPerTrack
  simp only
  split
  · exact .limits (hall _ _)
  · exact .limits .refl

theorem evictForByteLimitLoop_purges {target : Nat} (nodes : List (FullTrackName × Nat)) :
    Purges True True c (evictForByteLimitLoop target nodes c) := by
  induction nodes generalizing c with
  | nil => exact .refl
  | cons node nodes ih =>
    unfold evictForByteLimitLoop
    split
    · split
      · exact .staleNode node trivial ih
      · split
        · exact .staleNode node trivial ih
        · split
          · exact ih
          · simp only
            split
            · exact .group _ _ trivial (.track _ trivial ih)
            · exact .group _ _ trivial ih
    · exact .refl

theorem evictForByteLimitIfNeeded_purges : Purges True True c c.evictForByteLimitIfNeeded.2 := by
  unfold evictForByteLimitIfNeeded
  split
  · exact .refl
  · exact evictForByteLimitLoop_purges _

theorem setMaxCachedBytes_purges (maxBytes : Nat) : Purges True True c (c.setMaxCachedBytes maxBytes) :=
  .limits evictForByteLimitIfNeeded_purges

end Purges

/-! ## 4. The limits -/

/-- A step of an operation: the cache stays sound, and nothing that is held goes away. -/
abbrev Tidy (pins : GroupRef → Nat) (lives : TrackRef → Nat) (c c' : MoqxCache) : Prop :=
  Sound pins lives c' ∧ Sheds (fun r => 0 < pins r) c c'

theorem Tidy.refl (hs : Sound pins lives c) : Tidy pins lives c c := ⟨hs, .refl c⟩

theorem Tidy.trans (h : Tidy pins lives c c') (h' : Tidy pins lives c' c'') :
    Tidy pins lives c c'' := ⟨h'.1, h.2.trans h'.2⟩

theorem Alike.tidy (h : c.Alike c') (hs : Sound pins lives c) : Tidy pins lives c c' :=
  ⟨hs.alike h, h.sheds⟩

theorem setLimits_alike {tracks groups bytes eviction : Nat} {default allowed : Option Int} :
    c.Alike
      { c with
        maxCachedTracks := tracks
        maxCachedGroupsPerTrack := groups
        maxCachedBytes := bytes
        minEvictionBytes := eviction
        defaultMaxCacheDuration := default
        maxAllowedCacheDuration := allowed } :=
  .of rfl rfl rfl rfl rfl rfl (fun _ => .refl _) fun _ => .refl _

theorem Purges.tidy {tracks : Prop} (h : Purges False tracks c c') (hs : Sound pins lives c) :
    Tidy pins lives c c' := by
  induction h with
  | refl => exact .refl hs
  | limits _ ih => exact (setLimits_alike.tidy hs).trans (ih (hs.alike setLimits_alike))
  | group _ _ hp => exact hp.elim
  | stale _ hp => exact hp.elim
  | staleNode _ hp => exact hp.elim
  | track ftn _ _ ih =>
    have hstep : Tidy pins lives _ (evictTrack _ ftn) := evictTrack_sound hs
    exact hstep.trans (ih hstep.1)

theorem Ledger.listed (hl : Ledger pins lives c) (h : g ∈ (c.track t).groupLRU) :
    ∃ ftn r, c.cache.lookup ftn = some t ∧ c.groupAt t g = some r ∧ ¬0 < pins r := by
  obtain ⟨⟨ftn, hf⟩, r, hr, hp⟩ := (hl.inTrack t g).mp h
  refine ⟨ftn, r, hf, hr, ?_⟩
  rw [← hl.pinCount r (hl.groupBound hr), hp]
  exact Nat.lt_irrefl 0

/-- What a limit on groups or bytes takes away: groups that nobody has pinned, and tracks that have no group
    left. -/
inductive Trims (pins : GroupRef → Nat) (c : MoqxCache) : MoqxCache → Prop where
  | refl : Trims pins c c
  | group {c' : MoqxCache} {ftn : FullTrackName} {t : TrackRef} {g : Nat} {r : GroupRef} : Trims pins c c' →
      c'.cache.lookup ftn = some t → c'.groupAt t g = some r → ¬0 < pins r → Trims pins c (c'.evictGroup t g)
  | track {c' : MoqxCache} {ftn : FullTrackName} {t : TrackRef} : Trims pins c c' →
      c'.cache.lookup ftn = some t → (c'.track t).groups.keys = [] → Trims pins c (c'.evictTrack ftn)

theorem Trims.trans (h : Trims pins c c') (h' : Trims pins c' c'') : Trims pins c c'' := by
  induction h' with
  | refl => exact h
  | group _ hf hg hr ih => exact ih.group hf hg hr
  | track _ hf hk ih => exact ih.track hf hk

theorem Trims.tidy (h : Trims pins c c') (hs : Sound pins lives c) : Tidy pins lives c c' := by
  induction h with
  | refl => exact .refl hs
  | group _ hf hg hr ih =>
    have he := evictGroup_evicts hg
    have hstep : Tidy pins lives _ _ := ⟨ih.1.evictGroup he hf hg, he.sheds hg hr⟩
    exact ih.trans hstep
  | track _ hf hk ih => exact ih.trans (evictTrack_sound ih.1)

theorem Trims.held (h : Trims pins c c') (hs : Sound pins lives c) (hp : 0 < pins r) (hg : c.groupAt t g = some r) :
    c'.groupAt t g = some r := by
  induction h with
  | refl => exact hg
  | @group d _ t' g' r' _ _ hr hn ih =>
    refine (evictGroup_evicts hr).groupAt_iff.mpr ⟨ih, fun ⟨ht, hid⟩ => ?_⟩
    subst ht hid
    rw [ih] at hr
    cases hr
    exact hn hp
  | @track d _ t' hd hf hk ih =>
    have hne : t ≠ t' := by
      intro heq
      subst heq
      have hmem : g ∈ (d.track t).groups.keys :=
        mem_keys.mp (lookup_isSome.mp (isSome_of_eq_some ih))
      rw [hk] at hmem
      cases hmem
    rw [(evictTrack_retires (hd.tidy hs).1.toLedger hf).2.other g hne]
    exact ih

theorem evictOldestGroupsLoop_trims (n : Nat) (hs : Sound pins lives c) :
    Trims pins c (evictOldestGroupsLoop t n c) := by
  induction n generalizing c with
  | zero => exact .refl
  | succ n ih =>
    unfold evictOldestGroupsLoop
    split
    · cases hlast : (c.track t).groupLRU.getLast? with
      | none => exact .refl
      | some g =>
        obtain ⟨ftn, r, hf, hr, hp⟩ := hs.listed (List.mem_of_getLast? hlast)
        simp only
        rw [if_neg (by rw [show (c.track t).groups.lookup g = some r from hr]; exact some_ne_none r)]
        have hstep : Trims pins c (c.evictGroup t g) := .group .refl hf hr hp
        exact hstep.trans (ih (hstep.tidy hs).1)
    · exact .refl

theorem evictOldestGroupsIfNeeded_trims (hs : Sound pins lives c) :
    Trims pins c (c.evictOldestGroupsIfNeeded t) := by
  unfold evictOldestGroupsIfNeeded
  split
  · exact .refl
  · exact evictOldestGroupsLoop_trims _ hs

theorem evictOldestGroupsIfNeeded_tidy (hs : Sound pins lives c) :
    Tidy pins lives c (c.evictOldestGroupsIfNeeded t) :=
  (evictOldestGroupsIfNeeded_trims hs).tidy hs

theorem evictTrack_global (hf : c.cache.lookup ftn = some t) (hk : (c.track t).groups.keys = []) :
    (c.evictTrack ftn).globalGroupLRU = c.globalGroupLRU := by
  unfold evictTrack
  rw [hf]
  simp only [hk, List.foldl_nil]
  exact retireTrack_sameBooks.globalGroupLRU

theorem evictForByteLimitLoop_trims (target : Nat) (nodes : List (FullTrackName × Nat))
    (hs : Sound pins lives c) (hn : nodes.Nodup) (hm : ∀ n ∈ nodes, n ∈ c.globalGroupLRU) :
    Trims pins c (evictForByteLimitLoop target nodes c) := by
  induction nodes generalizing c with
  | nil => exact .refl
  | cons node ahead ih =>
    obtain ⟨ftn, g⟩ := node
    rw [List.nodup_cons] at hn
    obtain ⟨t, r, hf, hr, hp⟩ := (hs.inAll ftn g).mp (hm _ List.mem_cons_self)
    have hpin : ¬0 < pins r := by
      rw [← hs.pinCount r (hs.groupBound hr), hp]
      exact Nat.lt_irrefl 0
    have hahead : ∀ n ∈ ahead, n ∈ c.globalGroupLRU := fun n h => hm n (List.mem_cons_of_mem _ h)
    unfold evictForByteLimitLoop
    split
    · simp only [hf]
      rw [if_neg (by rw [show (c.track t).groups.lookup g = some r from hr]; exact some_ne_none r)]
      split
      · exact ih hs hn.2 hahead
      · -- the node goes with its group, the nodes ahead stay
        have he := evictGroup_evicts hr
        have hstep : Trims pins c (c.evictGroup t g) := .group .refl hf hr hpin
        have hs' := (hstep.tidy hs).1
        have hahead' : ∀ n ∈ ahead, n ∈ (c.evictGroup t g).globalGroupLRU := by
          intro n h
          rw [he.globalGroupLRU, mem_without hs.allNodup]
          refine ⟨hahead n h, ?_⟩
          rw [(hs.iter hf hr).2, if_pos hp]
          intro heq
          cases heq
          exact hn.1 h
        have hf' : (c.evictGroup t g).cache.lookup ftn = some t := by rw [he.cache]; exact hf
        generalize c.evictGroup t g = d at hstep hs' hahead' hf'
        split
        · rename_i hempty
          rw [Bool.and_eq_true, List.isEmpty_iff] at hempty
          have htrack : Trims pins d (d.evictTrack ftn) := .track .refl hf' hempty.1
          refine (hstep.trans htrack).trans (ih (htrack.tidy hs').1 hn.2 fun n h => ?_)
          rw [evictTrack_global hf' hempty.1]
          exact hahead' n h
        · exact hstep.trans (ih hs' hn.2 hahead')
    · exact .refl

theorem evictForByteLimitIfNeeded_trims (hs : Sound pins lives c) :
    Trims pins c c.evictForByteLimitIfNeeded.2 := by
  unfold evictForByteLimitIfNeeded
  split
  · exact .refl
  · exact evictForByteLimitLoop_trims _ _ hs (List.nodup_reverse.mpr hs.allNodup)
      fun n h => List.mem_reverse.mp h

theorem evictForByteLimitIfNeeded_tidy (hs : Sound pins lives c) :
    Tidy pins lives c c.evictForByteLimitIfNeeded.2 :=
  (evictForByteLimitIfNeeded_trims hs).tidy hs

theorem setMaxCachedBytes_tidy (maxBytes : Nat) (hs : Sound pins lives c) :
    Tidy pins lives c (c.setMaxCachedBytes maxBytes) := by
  have h : Tidy pins lives c { c with maxCachedBytes := maxBytes } := setLimits_alike.tidy hs
  exact h.trans (evictForByteLimitIfNeeded_tidy h.1)

theorem setMaxCachedGroupsPerTrack_tidy (maxGroups : Nat) (hs : Sound pins lives c) :
    Tidy pins lives c (c.setMaxCachedGroupsPerTrack maxGroups) := by
  have h : Tidy pins lives c { c with maxCachedGroupsPerTrack := maxGroups } := setLimits_alike.tidy hs
  unfold setMaxCachedGroupsPerTrack
  simp only
  split
  · have main : ∀ (l : List (Sigma fun _ : FullTrackName => TrackRef)) (d : MoqxCache), Sound pins lives d →
        Tidy pins lives d (l.foldl (fun c e => c.evictOldestGroupsIfNeeded e.2) d) := by
      intro l
      induction l with
      | nil => exact fun d hd => .refl hd
      | cons e l ih =>
        intro d hd
        have hstep := evictOldestGroupsIfNeeded_tidy (t := e.2) hd
        exact hstep.trans (ih _ hstep.1)
    exact h.trans (main _ _ h.1)
  · exact h

end MoqxCache

end Moqx

/-
  Subject: The list of evictable tracks, and what the operations of the cache leave of it.

  A track is in use while it has a live subscription or a fetch in progress. Most operations do not
  change that, and change the list of evictable tracks only by evicting.

  * one lemma for each operation that is of one of these kinds.
-/
import Moqx.Cache.Entries
import Moqx.Cache.System

namespace Moqx

variable {payload : Payload}

/-! ## 1. Tracks that are used alike -/

/-- An end of the track that is known stays as it is. -/
def CacheTrack.KeepsEnd (tr tr' : CacheTrack) : Prop :=
  tr.endOfTrack = true → tr'.endOfTrack = true ∧ tr'.largestGroupAndObject = tr.largestGroupAndObject

theorem CacheTrack.KeepsEnd.trans {tr tr' tr'' : CacheTrack} (h : tr.KeepsEnd tr') (h' : tr'.KeepsEnd tr'') :
    tr.KeepsEnd tr'' := by
  intro hend
  obtain ⟨hend', hlargest⟩ := h hend
  obtain ⟨hend'', hlargest'⟩ := h' hend'
  exact ⟨hend'', hlargest'.trans hlargest⟩

/-- The same fetches in progress, place in the list, and live subscriptions, and a known end stays. -/
structure CacheTrack.SameUse (tr tr' : CacheTrack) : Prop where
  inProgress : tr'.fetchesInProgress = tr.fetchesInProgress
  lruIter : tr'.lruIter = tr.lruIter
  live : tr'.liveWritebackCount = tr.liveWritebackCount
  keepsEnd : tr.KeepsEnd tr'

structure MoqxCache.SameUse (c c' : MoqxCache) : Prop where
  cache : c'.cache = c.cache
  nextTrack : c'.nextTrack = c.nextTrack
  trackLRU : c'.trackLRU = c.trackLRU
  track : ∀ t, (c.track t).SameUse (c'.track t)

namespace CacheTrack

variable {tr tr' tr'' : CacheTrack}

theorem SameUse.refl (tr : CacheTrack) : tr.SameUse tr := ⟨rfl, rfl, rfl, fun h => ⟨h, rfl⟩⟩

theorem SameUse.trans (h : tr.SameUse tr') (h' : tr'.SameUse tr'') : tr.SameUse tr'' :=
  ⟨h'.inProgress.trans h.inProgress, h'.lruIter.trans h.lruIter, h'.live.trans h.live,
    h.keepsEnd.trans h'.keepsEnd⟩

theorem Marked.sameUse (h : tr.Marked tr') : tr.SameUse tr' := by
  rw [h]
  exact ⟨rfl, rfl, rfl, fun h => ⟨h, rfl⟩⟩

theorem updateLargest_sameUse {current : AbsoluteLocation} {eot : Bool}
    (h : tr.updateLargest current eot = .ok tr') : tr.SameUse tr' := by
  unfold updateLargest at h
  split at h
  · split at h
    · cases h
    · rename_i hend
      cases h
      exact ⟨rfl, rfl, rfl, fun h => absurd h hend⟩
  · split at h
    · split at h
      · cases h
      · cases h
        exact ⟨rfl, rfl, rfl, fun _ => ⟨rfl, rfl⟩⟩
    · cases h
      exact .refl tr

end CacheTrack

namespace MoqxCache

variable {c c' c'' : MoqxCache} {t : TrackRef} {r : GroupRef} {g : Nat} {ftn : FullTrackName}
  {tr : CacheTrack} {gr : CacheGroup} {w : ObjectWrite}
variable {groups : Prop} {loc : AbsoluteLocation} {t' : TrackRef}

theorem SameUse.refl (c : MoqxCache) : c.SameUse c := ⟨rfl, rfl, rfl, fun t => .refl (c.track t)⟩

theorem SameUse.trans (h : c.SameUse c') (h' : c'.SameUse c'') : c.SameUse c'' :=
  ⟨h'.cache.trans h.cache, h'.nextTrack.trans h.nextTrack, h'.trackLRU.trans h.trackLRU,
    fun t => (h.track t).trans (h'.track t)⟩

theorem setTrack_sameUse (h : (c.track t).SameUse tr) : c.SameUse (c.setTrack t tr) := by
  refine ⟨rfl, rfl, rfl, fun t' => ?_⟩
  by_cases ht : t' = t
  · subst ht
    rw [setTrack_self]
    exact h
  · rw [setTrack_ne ht]
    exact .refl _

theorem setGroup_sameUse : c.SameUse (c.setGroup r gr) := ⟨rfl, rfl, rfl, fun t => .refl (c.track t)⟩

/-! ## 2. Operations on groups -/

inductive Relinks : MoqxCache → MoqxCache → Prop where
  | refl (c : MoqxCache) : Relinks c c
  | trans {c c' c'' : MoqxCache} (h : Relinks c c') (h' : Relinks c' c'') : Relinks c c''
  | lists {c : MoqxCache} {l u : _} : Relinks c { c with globalGroupLRU := l, underflow := u }
  | track {c : MoqxCache} {t l : _} : Relinks c (c.setTrack t { c.track t with groupLRU := l })
  | group {c : MoqxCache} {r p i j : _} :
      Relinks c (c.setGroup r { c.group r with pinCount := p, lruIter := i, globalLruIter := j })

theorem addGroupToLRU_relinks : Relinks c (c.addGroupToLRU ftn g r t) := by
  unfold addGroupToLRU
  split
  · exact .lists
  · split
    · exact .refl c
    · exact (Relinks.lists.trans .track).trans .group

theorem unlink_relinks : Relinks c ((c.unlinkFromTrack r t).unlinkFromAll r) := by
  refine @Relinks.trans _ (c.unlinkFromTrack r t) _ ?_ ?_
  · unfold unlinkFromTrack
    split
    · exact .refl c
    · exact Relinks.track.trans .group
  · unfold unlinkFromAll
    split
    · exact .refl _
    · exact Relinks.lists.trans .group

theorem pinGroup_relinks : Relinks c (c.pinGroup r t) := by
  unfold pinGroup removeGroupFromLRU
  simp only
  split
  · split
    · exact .group
    · exact Relinks.group.trans unlink_relinks
  · exact .group

theorem unpinGroup_relinks : Relinks c (c.unpinGroup ftn g r t) := by
  unfold unpinGroup
  simp only
  split
  · exact (Relinks.group.trans .lists).trans addGroupToLRU_relinks
  · exact Relinks.group.trans .lists

theorem Relinks.sameUse (h : Relinks c c') : c.SameUse c' := by
  induction h with
  | refl c => exact .refl c
  | trans _ _ ih ih' => exact ih.trans ih'
  | lists => exact ⟨rfl, rfl, rfl, fun _ => .refl _⟩
  | track => exact setTrack_sameUse ⟨rfl, rfl, rfl, fun h => ⟨h, rfl⟩⟩
  | group => exact setGroup_sameUse

theorem evictGroup_sameUse : c.SameUse (c.evictGroup t g) := by
  unfold evictGroup
  split
  · exact .refl c
  · rename_i r _
    have hunlink := (@unlink_relinks c t r).sameUse
    simp only
    generalize (c.unlinkFromTrack r t).unlinkFromAll r = d at hunlink ⊢
    have hforget : d.SameUse (d.setTrack t (forgetGroup (d.track t) g (d.group r).seenPriorGroupIdGap)) :=
      setTrack_sameUse (CacheTrack.forgetGroup_marked _ _).sameUse
    refine (hunlink.trans hforget).trans (SameUse.trans ?_ (setTrack_sameUse ?_))
    · exact ⟨rfl, rfl, rfl, fun t => .refl _⟩
    · exact ⟨rfl, rfl, rfl, fun h => ⟨h, rfl⟩⟩

theorem evictGroups_sameUse (groups : List Nat) :
    c.SameUse (groups.foldl (fun c g => c.evictGroup t g) c) := by
  induction groups generalizing c with
  | nil => exact .refl c
  | cons g groups ih => exact evictGroup_sameUse.trans ih

theorem Purges.sameUse (h : Purges groups False c c') : c.SameUse c' := by
  induction h with
  | refl => exact .refl _
  | @limits c _ _ _ _ _ _ _ _ ih =>
    refine SameUse.trans ?_ ih
    exact ⟨rfl, rfl, rfl, fun t => .refl (c.track t)⟩
  | group _ _ _ _ ih => exact evictGroup_sameUse.trans ih
  | @stale c _ t _ _ ih =>
    have hlist : c.SameUse (c.setTrack t { c.track t with groupLRU := (c.track t).groupLRU.dropLast }) :=
      setTrack_sameUse ⟨rfl, rfl, rfl, fun h => ⟨h, rfl⟩⟩
    refine SameUse.trans ?_ ih
    exact ⟨rfl, rfl, rfl, hlist.track⟩
  | @staleNode c _ _ _ _ ih =>
    refine SameUse.trans ?_ ih
    exact ⟨rfl, rfl, rfl, fun t => .refl (c.track t)⟩
  | track _ hp => exact hp.elim

theorem addGroup_sameUse : c.SameUse (c.addGroup t g) := by
  have hset : c.SameUse (c.setTrack t
      { c.track t with groups := (c.track t).groups.insert g c.nextGroup }) :=
    setTrack_sameUse ⟨rfl, rfl, rfl, fun h => ⟨h, rfl⟩⟩
  exact ⟨rfl, rfl, rfl, hset.track⟩

theorem getOrCreateGroup_sameUse : c.SameUse (c.getOrCreateGroup t g).2 := by
  unfold getOrCreateGroup
  split
  · exact .refl c
  · exact addGroup_sameUse

theorem getOrCreateGroupWithEviction_sameUse :
    c.SameUse (c.getOrCreateGroupWithEviction t g ftn).2 := by
  unfold getOrCreateGroupWithEviction
  split
  · exact .refl c
  · exact (evictOldestGroupsIfNeeded_purges.sameUse.trans addGroup_sameUse).trans addGroupToLRU_relinks.sameUse

/-! ## 3. Writing -/

theorem sameUse_records : Records SameUse t :=
  ⟨.refl, .trans, fun h => setTrack_sameUse h.sameUse, fun _ => setGroup_sameUse⟩

theorem cacheObject_sameUse : c.SameUse (c.cacheObject r t w).2 := by
  unfold cacheObject
  split
  · exact .refl c
  · have hgaps := @processGapExtensions_records c t w.groupID _ sameUse_records
      (fun c => getOrCreateGroup_sameUse) w.objectID w.extensions
    split
    · rename_i heq
      rw [heq] at hgaps
      exact hgaps
    · rename_i d heq
      rw [heq] at hgaps
      have hmark : c.SameUse (d.markEnd r t w) := hgaps.trans (markEnd_records sameUse_records)
      simp only
      split
      · exact hmark
      · exact hmark.trans setGroup_sameUse
      · exact hmark.trans (setGroup_sameUse.trans (index_records sameUse_records))

theorem updateBytes_sameUse {old new : Nat} : c.SameUse (c.updateBytes old new) := by
  unfold updateBytes
  split
  · exact ⟨rfl, rfl, rfl, fun t => .refl (c.track t)⟩
  · exact ⟨rfl, rfl, rfl, fun t => .refl (c.track t)⟩

theorem getCachedObjectMaybe_sameUse {now : TimePoint} :
    c.SameUse (c.getCachedObjectMaybe t loc now).2 := by
  rcases @getCachedObjectMaybe_cases c t loc now with h | ⟨r, e, -, -, h⟩
  · rw [h]
    exact .refl c
  · rw [h]
    unfold dropExpired
    have hbytes : c.SameUse ((c.subGroupBytes r e.payloadSize).subBytes e.payloadSize) :=
      ⟨rfl, rfl, rfl, fun t => .refl (c.track t)⟩
    refine (hbytes.trans (setTrack_sameUse ?_)).trans setGroup_sameUse
    exact ⟨rfl, rfl, rfl, fun h => ⟨h, rfl⟩⟩

theorem SetsLargest.sameUse (h : SetsLargest t c c') : c.SameUse c' := by
  obtain rfl | ⟨_, _, tr, hl, rfl⟩ := h
  · exact .refl _
  · exact setTrack_sameUse (CacheTrack.updateLargest_sameUse hl)

theorem setTrack_updateLargest_sameUse {eot : Bool} (h : (c.track t).updateLargest loc eot = .ok tr) : c.SameUse (c.setTrack t tr) :=
  SetsLargest.sameUse (Or.inr ⟨_, _, _, h, rfl⟩)

/-! ## 4. The list -/

/-- The list of evictable tracks names cached ones, each once, and the tracks know their places. -/
structure Listed (c : MoqxCache) : Prop where
  nodup : c.trackLRU.Nodup
  mem : ∀ ftn, ftn ∈ c.trackLRU ↔ ∃ t, c.cache.lookup ftn = some t ∧ (c.track t).lruIter = some ftn
  iter : ∀ {ftn t ftn'}, c.cache.lookup ftn = some t → (c.track t).lruIter = some ftn' → ftn' = ftn
  noIter : ∀ {t}, t < c.nextTrack → ¬c.Cached t → (c.track t).lruIter = none

/-- Tracks may be evicted; one that stays keeps its uses and its place. -/
structure Passive (c c' : MoqxCache) : Prop where
  nextTrack : c'.nextTrack = c.nextTrack
  inProgress : ∀ t, (c'.track t).fetchesInProgress = (c.track t).fetchesInProgress
  live : ∀ t, (c'.track t).liveWritebackCount = (c.track t).liveWritebackCount
  keepsEnd : ∀ t, (c.track t).KeepsEnd (c'.track t)
  cache : ∀ {ftn t}, c'.cache.lookup ftn = some t → c.cache.lookup ftn = some t
  lruIter : ∀ {t}, c'.Cached t → (c'.track t).lruIter = (c.track t).lruIter
  listed : Listed c → Listed c'

theorem Passive.named (h : Passive c c') (hn : Named c) : Named c' where
  cacheBound hf := by
    rw [h.nextTrack]
    exact hn.cacheBound (h.cache hf)
  cacheOnce hf hf' := hn.cacheOnce (h.cache hf) (h.cache hf')

theorem Passive.cached (h : Passive c c') (ht : c'.Cached t) : c.Cached t := ht.imp fun _ => h.cache

theorem Passive.trans (h : Passive c c') (h' : Passive c' c'') : Passive c c'' where
  nextTrack := h'.nextTrack.trans h.nextTrack
  inProgress t := (h'.inProgress t).trans (h.inProgress t)
  live t := (h'.live t).trans (h.live t)
  keepsEnd t := (h.keepsEnd t).trans (h'.keepsEnd t)
  cache hf := h.cache (h'.cache hf)
  lruIter ht := (h'.lruIter ht).trans (h.lruIter (h'.cached ht))
  listed hl := h'.listed (h.listed hl)

theorem Listed.congr (hl : Listed c) (hcache : c'.cache = c.cache) (hnext : c'.nextTrack = c.nextTrack)
    (hlru : c'.trackLRU = c.trackLRU) (hiter : ∀ t, (c'.track t).lruIter = (c.track t).lruIter) : Listed c' where
  nodup := by rw [hlru]; exact hl.nodup
  mem ftn := by
    rw [hlru, hcache]
    simp only [hiter]
    exact hl.mem ftn
  iter hf hi := by
    rw [hcache] at hf
    rw [hiter] at hi
    exact hl.iter hf hi
  noIter ht hc := by
    rw [hnext] at ht
    unfold Cached at hc
    rw [hcache] at hc
    rw [hiter]
    exact hl.noIter ht hc

theorem Listed.sameUse (hl : Listed c) (h : c.SameUse c') : Listed c' :=
  hl.congr h.cache h.nextTrack h.trackLRU fun t => (h.track t).lruIter

theorem SameUse.passive (h : c.SameUse c') : Passive c c' where
  nextTrack := h.nextTrack
  inProgress t := (h.track t).inProgress
  live t := (h.track t).live
  keepsEnd t := (h.track t).keepsEnd
  cache hf := by rw [h.cache] at hf; exact hf
  lruIter _ := (h.track _).lruIter
  listed hl := hl.sameUse h

theorem Passive.refl (c : MoqxCache) : Passive c c := (SameUse.refl c).passive

/-! ## 5. Eviction of tracks -/

theorem Listed.remove (hl : Listed c) (hn : Named c) (ht : t < c.nextTrack) :
    Listed (c.removeTrackFromLRU t) ∧ ((c.removeTrackFromLRU t).track t).lruIter = none := by
  unfold removeTrackFromLRU
  cases hi : (c.track t).lruIter with
  | none => exact ⟨hl, hi⟩
  | some ftn =>
    simp only [setTrack_self, and_true]
    -- the name in the track's place is the track's own
    have hown : c.cache.lookup ftn = some t := by
      by_contra hne
      have hc : c.Cached t := by
        by_contra hc
        rw [hl.noIter ht hc] at hi
        cases hi
      obtain ⟨f, hf⟩ := hc
      cases hl.iter hf hi
      exact hne hf
    have hiter : ∀ t', (({ c with trackLRU := c.trackLRU.erase ftn }.setTrack t
        { c.track t with lruIter := none }).track t').lruIter = if t' = t then none else (c.track t').lruIter := by
      intro t'
      by_cases h : t' = t
      · subst h
        rw [setTrack_self, if_pos rfl]
      · rw [setTrack_ne h, if_neg h]
    refine ⟨hl.nodup.erase _, fun f => ?_, fun hf hi' => ?_, fun ht' hc => ?_⟩
    · show f ∈ c.trackLRU.erase ftn ↔ ∃ t', c.cache.lookup f = some t' ∧ _
      rw [hl.nodup.mem_erase_iff, hl.mem]
      simp only [hiter]
      constructor
      · intro ⟨hne, t', hf, hi'⟩
        refine ⟨t', hf, ?_⟩
        have ht' : t' ≠ t := by
          intro h
          subst h
          exact hne (hn.cacheOnce hf hown)
        rw [if_neg ht']
        exact hi'
      · intro ⟨t', hf, hi'⟩
        split at hi'
        · cases hi'
        · rename_i hne
          refine ⟨fun h => hne ?_, t', hf, hi'⟩
          subst h
          rw [hown] at hf
          exact (Option.some.inj hf).symm
    · rw [hiter] at hi'
      split at hi'
      · cases hi'
      · exact hl.iter hf hi'
    · rw [hiter]
      split
      · rfl
      · exact hl.noIter ht' hc

theorem Enlists.lruIter_ne (h : Enlists t c c') (hne : t' ≠ t) : (c'.track t').lruIter = (c.track t').lruIter := by
  obtain rfl | ⟨l, i, rfl⟩ := h
  · rfl
  · rw [setTrack_ne hne]

theorem Enlists.rest (h : Enlists t c c') (t' : TrackRef) :
    (c'.track t').fetchesInProgress = (c.track t').fetchesInProgress ∧ (c.track t').KeepsEnd (c'.track t') := by
  obtain rfl | ⟨l, i, rfl⟩ := h
  · exact ⟨rfl, fun h => ⟨h, rfl⟩⟩
  · by_cases h : t' = t
    · subst h
      rw [setTrack_self]
      exact ⟨rfl, fun h => ⟨h, rfl⟩⟩
    · rw [setTrack_ne h]
      exact ⟨rfl, fun h => ⟨h, rfl⟩⟩

theorem Listed.drop (hl : Listed c) (hf : c.cache.lookup ftn = some t)
    (hi : (c.track t).lruIter = none) : Listed { c with cache := c.cache.erase ftn } where
  nodup := hl.nodup
  mem f := by
    rw [hl.mem]
    simp only [Table.lookup_erase_iff]
    constructor
    · intro ⟨t', hf', hi'⟩
      refine ⟨t', ⟨fun h => ?_, hf'⟩, hi'⟩
      subst h
      rw [hf] at hf'
      cases hf'
      rw [hi] at hi'
      cases hi'
    · intro ⟨t', hf', hi'⟩
      exact ⟨t', hf'.2, hi'⟩
  iter hf' hi' := hl.iter (Table.lookup_erase_iff.mp hf').2 hi'
  noIter := @fun t' ht hc => by
    by_cases h : t' = t
    · subst h
      exact hi
    · refine hl.noIter ht fun ⟨f, hf'⟩ => hc ⟨f, Table.lookup_erase_iff.mpr ⟨?_, hf'⟩⟩
      intro hname
      subst hname
      rw [hf] at hf'
      exact h (Option.some.inj hf').symm

theorem evictTrack_passive (hn : Named c) : Passive c (c.evictTrack ftn) := by
  unfold evictTrack
  cases hf : c.cache.lookup ftn with
  | none => exact .refl c
  | some t =>
    simp only
    have hmark : c.SameUse (c.setTrack t { c.track t with evicted := true }) :=
      setTrack_sameUse ⟨rfl, rfl, rfl, fun h => ⟨h, rfl⟩⟩
    have hlist := @removeTrackFromLRU_enlists (c.setTrack t { c.track t with evicted := true }) t
    have hremove : Listed c → Listed (c.retireTrack t) ∧ ((c.retireTrack t).track t).lruIter = none :=
      fun hl => (hl.sameUse hmark).remove (hmark.passive.named hn) (hn.cacheBound hf)
    have hother : ∀ {t'}, t' ≠ t → ((c.retireTrack t).track t').lruIter = (c.track t').lruIter :=
      fun ht => (hlist.lruIter_ne ht).trans (hmark.track _).lruIter
    have hgroups := @evictGroups_sameUse (c.retireTrack t) t (c.track t).groups.keys
    generalize (c.track t).groups.keys.foldl (fun c g => c.evictGroup t g) (c.retireTrack t) = d at hgroups ⊢
    have hlookup : d.cache = c.cache := hgroups.cache.trans (hlist.alike.cache.trans hmark.cache)
    refine ⟨hgroups.nextTrack.trans (hlist.alike.nextTrack.trans hmark.nextTrack), fun t' => ?_, fun t' => ?_, fun t' => ?_,
      fun h => ?_, @fun t' h => ?_, fun hl => ?_⟩
    · exact (hgroups.track t').inProgress.trans ((hlist.rest t').1.trans (hmark.track t').inProgress)
    · exact (hgroups.track t').live.trans ((hlist.alike.live t').trans (hmark.track t').live)
    · exact ((hmark.track t').keepsEnd.trans (hlist.rest t').2).trans (hgroups.track t').keepsEnd
    · rw [hlookup] at h
      exact (Table.lookup_erase_iff.mp h).2
    · -- a track that is still cached is another one
      obtain ⟨f, h⟩ := h
      rw [hlookup] at h
      obtain ⟨hne, h⟩ := Table.lookup_erase_iff.mp h
      refine (hgroups.track t').lruIter.trans (hother ?_)
      intro ht
      subst ht
      exact hne (hn.cacheOnce h hf)
    · obtain ⟨hl', hi⟩ := hremove hl
      refine (hl'.sameUse hgroups).drop (t := t) ?_ ?_
      · rw [hlookup]
        exact hf
      · rw [(hgroups.track t).lruIter]
        exact hi

theorem Passive.andThen (h : Passive c c') (hn : Named c) (h' : Named c' → Passive c' c'') : Passive c c'' :=
  h.trans (h' (h.named hn))

/-- **Making room** takes tracks away, and changes nothing for those that stay. -/
theorem Purges.passive {tracks : Prop} (h : Purges groups tracks c c') (hn : Named c) : Passive c c' := by
  induction h with
  | refl => exact .refl _
  | limits _ ih => exact (Purges.sameUse (@limits True _ _ _ _ _ _ _ _ _ .refl)).passive.andThen hn ih
  | group t g _ _ ih => exact evictGroup_sameUse.passive.andThen hn ih
  | stale t _ _ ih => exact (Purges.sameUse (.stale t trivial .refl)).passive.andThen hn ih
  | staleNode node _ _ ih => exact (Purges.sameUse (.staleNode node trivial .refl)).passive.andThen hn ih
  | track ftn _ _ ih => exact (evictTrack_passive hn).andThen hn ih

/-- What an event that only concerns the cache does to it. -/
inductive CacheStep (c : MoqxCache) : MoqxCache → Prop where
  | lookup {t : TrackRef} {obj : AbsoluteLocation} {now : TimePoint} : CacheStep c (c.getCachedObjectMaybe t obj now).2
  | state {ftn : FullTrackName} {largest : Option AbsoluteLocation} {ext : Extensions} :
      CacheStep c (c.setTrackState ftn largest ext)
  | purges {c' : MoqxCache} {groups tracks : Prop} : Purges groups tracks c c' → CacheStep c c'

theorem cacheStep_does {op : CacheOp} : CacheStep c (System.cacheStep c op) := by
  cases op with
  | hasCachedObject ftn obj now =>
    simp only [System.cacheStep]
    split
    · exact .lookup
    · exact .purges (@Purges.refl True True c)
  | setTrackState => exact .state
  | purgeTrack ftn => exact .purges (@Purges.track True _ _ _ ftn trivial .refl)
  | purgeNamespace => exact .purges (purgeAll_purges _)
  | purge => exact .purges (purgeAll_purges _)
  | setMaxCachedTracks => exact .purges (setMaxCachedTracks_purges _)
  | setMaxCachedBytes => exact .purges (setMaxCachedBytes_purges _)
  | setMaxCachedGroupsPerTrack => exact .purges (setMaxCachedGroupsPerTrack_purges _)
  | setMinEvictionBytes | setDefaultMaxCacheDuration | setMaxAllowedCacheDuration => exact .purges (@Purges.limits True True _ _ _ _ _ _ _ _ .refl)
  | _ => exact .purges (@Purges.refl True True c)

theorem cacheObjectAndUpdateBytes_passive (hn : Named c) :
    Passive c (c.cacheObjectAndUpdateBytes r t w).2 := by
  have hwrite := @cacheObject_sameUse c t r w
  unfold cacheObjectAndUpdateBytes
  split
  · rename_i heq
    rw [heq] at hwrite
    exact hwrite.passive
  · rename_i d heq
    rw [heq] at hwrite
    have hbytes := hwrite.trans (@updateBytes_sameUse d (c.group r).totalBytes (d.group r).totalBytes)
    simp only
    generalize d.updateBytes (c.group r).totalBytes (d.group r).totalBytes = d' at hbytes ⊢
    have hclock : c.SameUse (d'.setTrack t { d'.track t with lastWrite := w.now }) :=
      hbytes.trans (setTrack_sameUse ⟨rfl, rfl, rfl, fun h => ⟨h, rfl⟩⟩)
    exact hclock.passive.andThen hn evictForByteLimitIfNeeded_purges.passive

/-! ## 6. Joining the list -/

theorem Listed.add (hl : Listed c) (hn : Named c) (hf : c.cache.lookup ftn = some t) :
    Listed (c.addTrackToLRU ftn t) ∧ ((c.addTrackToLRU ftn t).track t).lruIter = some ftn := by
  unfold addTrackToLRU
  cases hi : (c.track t).lruIter with
  | some ftn' =>
    cases hl.iter hf hi
    exact ⟨hl, hi⟩
  | none =>
    simp only [Option.isSome_none, Bool.false_eq_true, if_false, setTrack_self, and_true]
    have hiter : ∀ t', (({ c with trackLRU := ftn :: c.trackLRU }.setTrack t
        { c.track t with lruIter := some ftn }).track t').lruIter =
          if t' = t then some ftn else (c.track t').lruIter := by
      intro t'
      by_cases h : t' = t
      · subst h
        rw [setTrack_self, if_pos rfl]
      · rw [setTrack_ne h, if_neg h]
    refine ⟨List.nodup_cons.mpr ⟨fun hm => ?_, hl.nodup⟩, fun f => ?_, @fun f t' f' hf' hi' => ?_, @fun t' ht hc => ?_⟩
    · obtain ⟨t', hf', hi'⟩ := (hl.mem ftn).mp hm
      rw [hf] at hf'
      cases hf'
      rw [hi] at hi'
      cases hi'
    · show f ∈ ftn :: c.trackLRU ↔ ∃ t', c.cache.lookup f = some t' ∧ _
      rw [List.mem_cons, hl.mem]
      simp only [hiter]
      constructor
      · intro h
        rcases h with h | ⟨t', hf', hi'⟩
        · subst h
          exact ⟨t, hf, if_pos rfl⟩
        · refine ⟨t', hf', ?_⟩
          have hne : t' ≠ t := by
            intro h
            subst h
            rw [hi] at hi'
            cases hi'
          rw [if_neg hne]
          exact hi'
      · intro ⟨t', hf', hi'⟩
        split at hi'
        · rename_i h
          subst h
          exact Or.inl (Option.some.inj hi').symm
        · exact Or.inr ⟨t', hf', hi'⟩
    · rw [hiter] at hi'
      split at hi'
      · rename_i h
        subst h
        cases hi'
        exact hn.cacheOnce hf hf'
      · exact hl.iter hf' hi'
    · rw [hiter]
      have hne : t' ≠ t := by
        intro h
        subst h
        exact hc ⟨ftn, hf⟩
      rw [if_neg hne]
      exact hl.noIter ht hc

end MoqxCache

variable {c : MoqxCache} {now : TimePoint}

/-! ## 7. Live writers -/

open MoqxCache

theorem SubscribeWriteback.cacheHeader_passive {w : SubscribeWriteback} {header : ObjectHeader}
    {datagram : Bool} (hn : Named c) :
    Passive c (w.cacheHeader c header payload datagram now).2 := by
  unfold cacheHeader
  split
  · exact .refl c
  · split
    · exact .refl c
    · rename_i h
      have hgroup := ((setTrack_updateLargest_sameUse h).trans
        (@getOrCreateGroupWithEviction_sameUse _ w.track header.group w.ftn)).passive
      exact hgroup.trans (cacheObjectAndUpdateBytes_passive (hgroup.named hn))

end Moqx

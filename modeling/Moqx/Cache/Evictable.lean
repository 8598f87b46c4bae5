/-
  Subject: The list of evictable tracks, in every run.

  * `step_listing`, `reachable_listing` -- one event, and every run;
  * `track_limit_iff` -- which track a new one evicts.
-/
import Moqx.Fetch.InFlight

namespace Moqx

open MoqxCache List Function AList Option FetchWriteback

namespace MoqxCache

variable {c c' c'' : MoqxCache} {t : TrackRef} {ftn : FullTrackName}

/-! ## 1. Places in the list -/

/-- A cached track is an old one in its old place, or a new one that is listed; nothing is said of the tracks
    in `but`. -/
structure Places (but : TrackRef → Prop) (c c' : MoqxCache) : Prop where
  nextTrack : c.nextTrack ≤ c'.nextTrack
  cache : ∀ {ftn t}, c'.cache.lookup ftn = some t → ¬but t →
    c.cache.lookup ftn = some t ∧ (c'.track t).lruIter = (c.track t).lruIter ∨
      c.nextTrack ≤ t ∧ (c'.track t).lruIter.isSome
  listed : Listed c → Listed c'
  named : Named c'

section places

variable {but : TrackRef → Prop}

variable {s : FetchWriteback.State} {pins : GroupRef → Nat} {lives : TrackRef → Nat}

theorem Places.trans (h : Places but c c') (h' : Places but c' c'') : Places but c c'' where
  nextTrack := h.nextTrack.trans h'.nextTrack
  cache hf ht := by
    rcases h'.cache hf ht with ⟨hf', hi'⟩ | ⟨hn, hi'⟩
    · rcases h.cache hf' ht with ⟨hf, hi⟩ | ⟨hn, hi⟩
      · exact Or.inl ⟨hf, hi'.trans hi⟩
      · exact Or.inr ⟨hn, by rw [hi']; exact hi⟩
    · exact Or.inr ⟨h.nextTrack.trans hn, hi'⟩
  listed hl := h'.listed (h.listed hl)
  named := h'.named

theorem Places.weaken (h : Places (fun _ => False) c c') : Places but c c' :=
  { h with cache := fun hf _ => h.cache hf not_false }

theorem Passive.places (h : Passive c c') (hn : Named c) : Places but c c' where
  nextTrack := Nat.le_of_eq h.nextTrack.symm
  cache hf _ := Or.inl ⟨h.cache hf, h.lruIter ⟨_, hf⟩⟩
  listed := h.listed
  named := h.named hn

theorem Places.of_lruIter (hn : Named c) (hcache : c'.cache = c.cache) (hnext : c'.nextTrack = c.nextTrack)
    (hlru : c'.trackLRU = c.trackLRU) (hiter : ∀ t, (c'.track t).lruIter = (c.track t).lruIter) :
    Places but c c' where
  nextTrack := Nat.le_of_eq hnext.symm
  cache hf _ := by
    rw [hcache] at hf
    exact Or.inl ⟨hf, hiter _⟩
  listed hl := hl.congr hcache hnext hlru hiter
  named := hn.congr hcache hnext

theorem Places.refl (hn : Named c) : Places but c c := .of_lruIter hn rfl rfl rfl fun _ => rfl

theorem setTrack_places {tr : CacheTrack} (hn : Named c) (h : tr.lruIter = (c.track t).lruIter) :
    Places but c (c.setTrack t tr) := by
  refine .of_lruIter hn rfl rfl rfl fun t' => ?_
  by_cases ht : t' = t
  · subst ht
    rw [setTrack_self, h]
  · rw [setTrack_ne ht]

theorem SameUse.places (h : c.SameUse c') (hn : Named c) : Places but c c' := h.passive.places hn

/-! ## 2. Upstream fetches -/

theorem emplaceAndPinGroup_places {loc : AbsoluteLocation} {entry : FetchInProgressEntry} (hn : Named s.1) :
    Places but s.1 (FetchWriteback.emplaceAndPinGroup s loc entry).1 := by
  obtain ⟨c, w⟩ := s
  have hset : Places but c (c.setTrack w.track ((c.track w.track).emplaceFetch loc entry)) := setTrack_places hn rfl
  unfold emplaceAndPinGroup
  simp only
  generalize c.setTrack w.track ((c.track w.track).emplaceFetch loc entry) = d at hset ⊢
  split
  · exact hset.trans (pinGroup_relinks.sameUse.places hset.named)
  · have hgroup := (@evictOldestGroupsIfNeeded_purges w.track d).sameUse.trans
      (@addGroup_sameUse _ w.track loc.group)
    exact hset.trans ((hgroup.trans pinGroup_relinks.sameUse).places hset.named)

theorem eraseAndMakeGroupEvictable_places (hn : Named s.1) :
    Places but s.1 (FetchWriteback.eraseAndMakeGroupEvictable s).1 := by
  obtain ⟨c, w⟩ := s
  have hset : Places but c (c.setTrack w.track ((c.track w.track).eraseFetch w.id)) := setTrack_places hn rfl
  unfold eraseAndMakeGroupEvictable
  simp only
  split
  · exact .refl hn
  · split
    · exact hset
    · exact hset.trans (unpinGroup_relinks.sameUse.places hset.named)

theorem places_covers : FetchWriteback.Covers fun c c' => Named c → Places but c c' where
  refl _ hn := .refl hn
  trans h h' hn := (h hn).trans (h' (h hn).named)
  makeGroup _ _ _ _ hn := getOrCreateGroupWithEviction_sameUse.places hn
  write _ _ _ _ hn := (cacheObjectAndUpdateBytes_passive hn).places hn
  gap _ _ _ _ hn := (setTrack_sameUse (CacheTrack.insertGap_marked _ _).sameUse).places hn
  largest h hn := (setTrack_updateLargest_sameUse h).places hn
  publish s hn := by
    have hset : Places but s.1 (progressed s).1 := setTrack_places hn rfl
    have herase := hset.trans (eraseAndMakeGroupEvictable_places hset.named)
    exact updateInProgress_rule (P := fun s' => Places but s.1 s'.1) (fun _ => .refl hn)
      (eraseAndMakeGroupEvictable_places hn) hset herase (herase.trans (emplaceAndPinGroup_places herase.named)) id

/-! ## 3. Tracks that come, leave the list, or join it -/

theorem Listed.addTrack (hl : Listed c) (hn : Named c) (hnone : c.cache.lookup ftn = none) :
    Listed (c.addTrack ftn) := by
  have hself : (c.addTrack ftn).track c.nextTrack = {} := setTrack_self
  have hother : ∀ {t}, t ≠ c.nextTrack → (c.addTrack ftn).track t = c.track t := fun ht => setTrack_ne ht
  have hold : ∀ {f t}, c.cache.lookup f = some t → (c.addTrack ftn).track t = c.track t := fun hf =>
    hother (Nat.ne_of_lt (hn.cacheBound hf))
  refine ⟨hl.nodup, fun f => ?_, fun hf hi => ?_, @fun t ht hc => ?_⟩
  · rw [show (c.addTrack ftn).trackLRU = c.trackLRU from rfl, hl.mem]
    constructor
    · intro ⟨t, hf, hi⟩
      refine ⟨t, (addTrack_lookup hnone).mpr (Or.inl hf), ?_⟩
      rw [hold hf]
      exact hi
    · intro ⟨t, hf, hi⟩
      rcases (addTrack_lookup hnone).mp hf with hf | ⟨-, rfl⟩
      · rw [hold hf] at hi
        exact ⟨t, hf, hi⟩
      · rw [hself] at hi
        cases hi
  · rcases (addTrack_lookup hnone).mp hf with hf | ⟨-, rfl⟩
    · rw [hold hf] at hi
      exact hl.iter hf hi
    · rw [hself] at hi
      cases hi
  · by_cases h : t = c.nextTrack
    · subst h
      rw [hself]
    · rw [hother h]
      have hlt : t < c.nextTrack := Nat.lt_of_le_of_ne (Nat.lt_succ_iff.mp ht) h
      exact hl.noIter hlt fun ⟨f, hf⟩ => hc ⟨f, (addTrack_lookup hnone).mpr (Or.inl hf)⟩

theorem addTrack_places (hn : Named c) (hnone : c.cache.lookup ftn = none) :
    Places (· = c.nextTrack) c (c.addTrack ftn) where
  nextTrack := Nat.le_succ _
  cache hf ht := by
    rcases (addTrack_lookup hnone).mp hf with hf | ⟨-, rfl⟩
    · refine Or.inl ⟨hf, ?_⟩
      rw [show (c.addTrack ftn).track _ = c.track _ from setTrack_ne ht]
    · exact absurd rfl ht
  listed hl := hl.addTrack hn hnone
  named := hn.addTrack hnone

theorem Enlists.places (h : Enlists t c c') (hn : Named c) (hl : Listed c → Listed c') : Places (· = t) c c' where
  nextTrack := Nat.le_of_eq h.alike.nextTrack.symm
  cache hf hne := by
    rw [h.alike.cache] at hf
    exact Or.inl ⟨hf, h.lruIter_ne hne⟩
  listed := hl
  named := hn.congr h.alike.cache h.alike.nextTrack

theorem removeTrackFromLRU_places (hn : Named c) (ht : t < c.nextTrack) : Places (· = t) c (c.removeTrackFromLRU t) :=
  removeTrackFromLRU_enlists.places hn fun hl => (hl.remove hn ht).1

theorem addTrackToLRU_places (hn : Named c) (hf : c.cache.lookup ftn = some t) :
    Places (· = t) c (c.addTrackToLRU ftn t) :=
  addTrackToLRU_enlists.places hn fun hl => (hl.add hn hf).1

theorem addTrackToLRU_isSome : ((c.addTrackToLRU ftn t).track t).lruIter.isSome := by
  unfold addTrackToLRU
  split
  · assumption
  · rw [setTrack_self]
    rfl

theorem Places.settle (h : Places but c c') (hb : ∀ {t}, but t → c.nextTrack ≤ t ∧ (c'.track t).lruIter.isSome) :
    Places (fun _ => False) c c' :=
  { h with
    cache := fun {_ t} hf _ => by
      by_cases ht : but t
      · exact Or.inr (hb ht)
      · exact h.cache hf ht }

theorem getOrCreateTrack_places (hn : Named c) : Places (fun _ => False) c (c.getOrCreateTrack ftn).2 := by
  unfold getOrCreateTrack
  cases hf : c.cache.lookup ftn with
  | some t => exact .refl hn
  | none =>
    have hadd := addTrack_places hn hf
    have hnew : (c.addTrack ftn).cache.lookup ftn = some c.nextTrack := (addTrack_lookup hf).mpr (Or.inr ⟨rfl, rfl⟩)
    refine (hadd.trans (addTrackToLRU_places hadd.named hnew)).settle @fun t ht => ?_
    subst ht
    exact ⟨Nat.le_refl _, addTrackToLRU_isSome⟩

theorem properties_places : KeepsProperties (Places (fun _ => False) c) where
  created h := h.trans (getOrCreateTrack_places h.named)
  duration h := h.trans (setTrack_places h.named rfl)
  extensions h := h.trans (setTrack_places h.named rfl)
  largest h hl := h.trans (hl.sameUse.places h.named)

theorem findOrAddTrack_places (hl : Ledger pins lives c) :
    Places (· = (c.findOrAddTrack ftn).1) c (c.findOrAddTrack ftn).2 := by
  unfold findOrAddTrack
  cases hf : c.cache.lookup ftn with
  | some t => exact .refl hl.toNamed
  | none =>
    have hroom := makeRoom_purges.passive hl.toNamed
    have hnone := makeRoom_absent hl hf
    simp only
    generalize (if c.maxCachedTracks ≤ c.size then c.evictOldestTrackIfNeeded.2 else c) = d at hroom hnone ⊢
    exact (hroom.places hl.toNamed).trans (addTrack_places (hroom.named hl.toNamed) hnone)

theorem makeRoom_lookup (hb : Ledger pins lives c) (hl : Listed c) (hf : c.cache.lookup ftn = some t)
    (hi : (c.track t).lruIter = none) :
    (if c.maxCachedTracks ≤ c.size then c.evictOldestTrackIfNeeded.2 else c).cache.lookup ftn = some t := by
  split
  · unfold evictOldestTrackIfNeeded
    split
    · exact hf
    · cases hlast : c.trackLRU.getLast? with
      | none => exact hf
      | some oldest =>
        obtain ⟨u, hu, hiter⟩ := (hl.mem oldest).mp (mem_of_getLast? hlast)
        have hne : ftn ≠ oldest := by
          intro h
          subst h
          rw [hf] at hu
          cases hu
          rw [hi] at hiter
          cases hiter
        show (c.evictTrack oldest).cache.lookup ftn = some t
        rw [(evictTrack_retires hb hu).2.cache, lookup_erase_ne hne]
        exact hf
  · exact hf

theorem addFetchedTrack_places (hb : Sound pins lives c) (hl : Listed c) (hnone : c.cache.lookup ftn = none) :
    Places (fun _ => False) c (c.addFetchedTrack ftn).2 := by
  have hadd := addTrack_places hb.toNamed hnone
  have hnew : (c.addTrack ftn).cache.lookup ftn = some c.nextTrack := (addTrack_lookup hnone).mpr (Or.inr ⟨rfl, rfl⟩)
  have hi : ((c.addTrack ftn).track c.nextTrack).lruIter = none := by
    rw [show (c.addTrack ftn).track c.nextTrack = {} from setTrack_self]
  have hroom : Places (· = c.nextTrack) (c.addTrack ftn) _ := (makeRoom_purges.passive hadd.named).places hadd.named
  have hkept := makeRoom_lookup (addTrack_tidy hb hnone).1.toLedger (hadd.listed hl) hnew hi
  refine ((hadd.trans hroom).trans (addTrackToLRU_places hroom.named hkept)).settle @fun t ht => ?_
  subst ht
  exact ⟨Nat.le_refl _, addTrackToLRU_isSome⟩

end places

end MoqxCache

namespace System

variable {s s' : System} {t : TrackRef} {op : CacheOp}
variable {R : Nat → FetchWriteback → AbsoluteLocation → Prop} {f : RunningFetch} {proxyFin : Bool}
  {start stop : AbsoluteLocation} {order : GroupOrder} {call : FetchCall}
  {tracks groups bytes eviction : Nat}

variable {id : Nat} {c : MoqxCache} {w : FetchWriteback}

/-! ## 4. Who keeps a track -/

/-- Nobody keeps the track from being evicted: it has no open subscription, and no open writeback of it is
    among the fetches in progress. -/
def Unused (s : System) (t : TrackRef) : Prop :=
  s.lives t = 0 ∧ ∀ {id w}, s.writebacks.lookup id = some w → w.track = t → w.fetchInProgressIt = none

/-- The track has neither an open subscription nor an open writeback of a fetch. -/
def Deserted (s : System) (t : TrackRef) : Prop :=
  s.lives t = 0 ∧ ∀ {id w}, s.writebacks.lookup id = some w → w.track ≠ t

theorem Deserted.unused (h : s.Deserted t) : s.Unused t := ⟨h.1, fun hw ht => absurd ht (h.2 hw)⟩

theorem Books.deserted (hb : Books s) (ht : s.cache.nextTrack ≤ t) : s.Deserted t := by
  refine ⟨hb.sound.liveBound t ht, fun hw heq => ?_⟩
  have hlt := (hb.writebacks hw).track
  rw [heq] at hlt
  exact absurd hlt (Nat.not_lt.mpr ht)

theorem canEvict_iff (hb : Books s) (hf : InFlight R s) (ht : t < s.cache.nextTrack) : (s.cache.track t).canEvict = true ↔ s.Unused t := by
  unfold CacheTrack.canEvict
  rw [Bool.and_eq_true, beq_iff_eq, List.isEmpty_iff, hb.sound.liveCount t ht]
  refine and_congr_right fun _ => ⟨fun hempty id w hw htrack => ?_, fun h => hf.empty h⟩
  obtain ⟨hid, p, hp, -⟩ := hf.entered hw
  have hentries := hp t
  rw [if_pos htrack.symm, CacheTrack.entriesOf, hempty] at hentries
  cases hkey : w.fetchInProgressIt with
  | none => rfl
  | some key =>
    unfold FetchWriteback.entries at hentries
    rw [hkey] at hentries
    cases hentries

/-! ## 5. The invariant -/

/-- The list of evictable tracks: whoever is in it is unused, and a track that nobody has is in it. -/
structure Listing (s : System) : Prop where
  listed : Listed s.cache
  unused : ∀ {ftn t}, s.cache.cache.lookup ftn = some t → (s.cache.track t).lruIter.isSome → s.Unused t
  deserted : ∀ {ftn t}, s.cache.cache.lookup ftn = some t → s.Deserted t → (s.cache.track t).lruIter.isSome

/-- The tracks in `but` are looked at one by one; what is said of the others stays. -/
theorem Listing.frame {but : TrackRef → Prop} (h : Listing s) (hb : Books s) (hp : Places but s.cache s'.cache)
    (hunused : ∀ {t}, ¬but t → s.Unused t → s'.Unused t) (hdeserted : ∀ {t}, ¬but t → s'.Deserted t → s.Deserted t)
    (hbut : ∀ {ftn t}, but t → s'.cache.cache.lookup ftn = some t →
      ((s'.cache.track t).lruIter.isSome → s'.Unused t) ∧ (s'.Deserted t → (s'.cache.track t).lruIter.isSome)) :
    Listing s' where
  listed := hp.listed h.listed
  unused := @fun ftn t hf hi => by
    by_cases ht : but t
    · exact (hbut ht hf).1 hi
    · rcases hp.cache hf ht with ⟨hf, hiter⟩ | ⟨hnew, -⟩
      · rw [hiter] at hi
        exact hunused ht (h.unused hf hi)
      · exact hunused ht (hb.deserted hnew).unused
  deserted := @fun ftn t hf hd => by
    by_cases ht : but t
    · exact (hbut ht hf).2 hd
    · rcases hp.cache hf ht with ⟨hf, hiter⟩ | ⟨-, hi⟩
      · rw [hiter]
        exact h.deserted hf (hdeserted ht hd)
      · exact hi

theorem Listing.same (h : Listing s) (hb : Books s) (hp : Places (fun _ => False) s.cache s'.cache)
    (hs : s'.subscribes = s.subscribes) (hw : s'.writebacks = s.writebacks) : Listing s' := by
  have hlives : s'.lives = s.lives := by
    funext t
    unfold lives
    rw [hs]
  refine h.frame hb hp (fun _ hu => ?_) (fun _ hd => ?_) fun hbut => hbut.elim
  · unfold Unused
    rw [hlives, hw]
    exact hu
  · unfold Deserted at hd
    rw [hlives, hw] at hd
    exact hd

theorem Listing.setCache (h : Listing s) (hb : Books s) (hp : Places (fun _ => False) s.cache c) :
    Listing (s.setCache c) :=
  h.same hb hp rfl rfl

/-! ## 6. Opening and closing -/

theorem Listing.take (h : Listing s) (hb : Books s) (hp : Places (· = t) s.cache c) (ht : t < c.nextTrack)
    (hrest : Places (fun _ => False) (c.removeTrackFromLRU t) s'.cache)
    (hunused : ∀ {t'}, t' ≠ t → s.Unused t' → s'.Unused t')
    (hdeserted : ∀ {t'}, s'.Deserted t' → s.Deserted t') (htaken : ¬s'.Deserted t) : Listing s' := by
  have hremove := removeTrackFromLRU_places hp.named ht
  refine h.frame hb ((hp.trans hremove).trans hrest.weaken) hunused (fun _ => hdeserted) @fun ftn t' heq hf => ?_
  subst heq
  refine ⟨fun hi => ?_, fun hd => absurd hd htaken⟩
  have hnone : ((c.removeTrackFromLRU t').track t').lruIter = none :=
    ((hp.listed h.listed).remove hp.named ht).2
  rcases hrest.cache hf not_false with ⟨-, hiter⟩ | ⟨hnew, -⟩
  · rw [hiter, hnone] at hi
    cases hi
  · rw [removeTrackFromLRU_enlists.alike.nextTrack] at hnew
    exact absurd ht (Nat.not_lt.mpr hnew)

theorem Listing.release {ftn : FullTrackName} (h : Listing s) (hb : Books s)
    (hp : Places (fun _ => False) s.cache c) (hs' : s'.cache = c.onTrackBecameEvictable ftn)
    (hb' : Books s') (hf' : InFlight R s') (htracks : c.Cached t → c.cache.lookup ftn = some t)
    (hunused : ∀ {t'}, s.Unused t' → s'.Unused t')
    (hdeserted : ∀ {t'}, t' ≠ t → s'.Deserted t' → s.Deserted t') :
    Listing s' := by
  cases hl : c.cache.lookup ftn with
  | none =>
    have hsame : s'.cache = c := by
      rw [hs']
      unfold onTrackBecameEvictable
      rw [hl]
    have hp' : Places (· = t) s.cache s'.cache := by
      rw [hsame]
      exact hp.weaken
    refine h.frame hb hp' (fun _ => hunused) hdeserted @fun f t' heq hf => ?_
    subst heq
    rw [hsame] at hf
    rw [htracks ⟨f, hf⟩] at hl
    cases hl
  | some u =>
    have huse : (c.track u).canEvict = true ↔ s'.Unused u := by
      have hcache : s'.cache.cache = c.cache := by
        rw [hs']
        exact onTrackBecameEvictable_alike.cache
      have hlive : (s'.cache.track u).liveWritebackCount = (c.track u).liveWritebackCount := by
        rw [hs']
        exact onTrackBecameEvictable_alike.live u
      have htable : (s'.cache.track u).fetchesInProgress = (c.track u).fetchesInProgress := by
        rw [hs']
        exact onTrackBecameEvictable_sameTables.table u
      have hu : s'.cache.cache.lookup ftn = some u := by
        rw [hcache]
        exact hl
      rw [← canEvict_iff hb' hf' (hb'.sound.cacheBound hu)]
      unfold CacheTrack.canEvict
      rw [hlive, htable]
    -- the track that is released is the one of the name, or is not cached
    have hbut : ∀ {t'}, c.Cached t' → t' ≠ u → t' ≠ t := by
      intro t' hc hne heq
      subst heq
      rw [htracks hc] at hl
      exact hne (some.inj hl)
    by_cases hev : (c.track u).canEvict = true
    · have hadd : s'.cache = c.addTrackToLRU ftn u := by
        rw [hs']
        unfold onTrackBecameEvictable
        simp only [hl]
        rw [if_pos hev]
      have hplaces := addTrackToLRU_places hp.named hl
      have hp' : Places (fun t' => t' = u ∨ t' = t) s.cache s'.cache := by
        rw [hadd]
        refine hp.weaken.trans ?_
        exact { hplaces with cache := fun hf hne => hplaces.cache hf fun h => hne (Or.inl h) }
      refine h.frame hb hp' (fun _ => hunused) (fun hne => hdeserted fun h => hne (Or.inr h)) @fun f t' heq hf => ?_
      have hu : t' = u := by
        by_contra hne
        rw [hadd, addTrackToLRU_enlists.alike.cache] at hf
        exact hbut ⟨f, hf⟩ hne (heq.resolve_left hne)
      subst hu
      refine ⟨fun _ => huse.mp hev, fun _ => ?_⟩
      rw [hadd]
      exact addTrackToLRU_isSome
    · have hsame : s'.cache = c := by
        rw [hs']
        unfold onTrackBecameEvictable
        simp only [hl]
        rw [if_neg hev]
      have hp' : Places (fun t' => t' = t) s.cache s'.cache := by
        rw [hsame]
        exact hp.weaken
      refine h.frame hb hp' (fun _ => hunused) hdeserted @fun f t' heq hf => ?_
      subst heq
      rw [hsame] at hf
      rw [htracks ⟨f, hf⟩] at hl
      cases hl
      rw [hsame]
      refine ⟨fun hi => ?_, fun hd => absurd (huse.mpr hd.unused) hev⟩
      rcases hp.cache hf not_false with ⟨hold, hiter⟩ | ⟨hnew, -⟩
      · rw [hiter] at hi
        exact hunused (h.unused hold hi)
      · exact hunused (hb.deserted hnew).unused

/-! ## 7. Events -/

/-- The tables of fetches in progress, with nothing to say about the progress. -/
abbrev Registered (s : System) : Prop := InFlight (fun _ _ _ => True) s

theorem registered_carries : Carries (fun _ _ _ => True) (fun _ _ _ => True) s op where
  rest _ _ _ := trivial
  fetched _ _ := trivial
  upstream _ _ := trivial
  called := @fun id w p call now _ _ _ hp hfollow _ => by
    obtain ⟨p', henter⟩ := hfollow.enters
    exact ⟨p', henter.own hp, trivial⟩
  ended _ _ _ := trivial

section

variable (h : Listing s) (hb : Books s)

include h hb

theorem getSubscribeWriteback_listing {ftn : FullTrackName} :
    Listing (s.subscribed ftn) := by
  have hfind := @findOrAddTrack_places s.cache ftn _ _ hb.sound.toLedger
  have ht := (@findOrAddTrack_tidy _ _ _ ftn hb.sound).2.track
  have hlives : ∀ t, (s.subscribed ftn).lives t =
        if t = (s.cache.findOrAddTrack ftn).1 then s.lives (s.cache.findOrAddTrack ftn).1 + 1 else s.lives t := by
    intro t
    rw [lives_insert (hb.fresh s.next (Nat.le_refl _)).1 rfl]
    exact update_apply ..
  have hremove := removeTrackFromLRU_places hfind.named ht
  refine h.take hb hfind ht (setTrack_places hremove.named rfl) (fun hne hu => ⟨?_, hu.2⟩) (fun hd => ⟨?_, hd.2⟩)
    fun hd => ?_
  · rw [hlives, if_neg hne]
    exact hu.1
  · have hzero := hd.1
    rw [hlives] at hzero
    split at hzero
    · cases hzero
    · exact hzero
  · have hzero := hd.1
    rw [hlives, if_pos rfl] at hzero
    cases hzero

theorem closeSubscribe_listing {w : SubscribeWriteback} (hw : s.subscribes.lookup id = some w)
    (hb' : Books (s.unsubscribed id w)) (hf' : Registered (s.unsubscribed id w)) : Listing (s.unsubscribed id w) := by
  have hlives : ∀ t, (s.unsubscribed id w).lives t =
      if t = w.track then s.lives w.track - 1 else s.lives t := by
    intro t
    rw [lives_erase hw rfl]
    exact update_apply ..
  have hset : Places (fun _ => False) s.cache (s.cache.setTrack w.track { s.cache.track w.track with
      liveWritebackCount := (s.cache.track w.track).liveWritebackCount - 1 }) := setTrack_places hb.sound.toNamed rfl
  have hcount : Places (fun _ => False) s.cache (w.uncounted s.cache) :=
    hset.trans (.of_lruIter hset.named rfl rfl rfl fun _ => rfl)
  refine h.release (t := w.track) hb hcount rfl hb' hf' (fun ⟨f, hf⟩ => ?_) (fun hu => ⟨?_, hu.2⟩)
    fun hne hd => ⟨?_, hd.2⟩
  · exact (hb.subscribes hw).cache (hb.sound.notEvicted hf)
  · rw [hlives]
    split
    · rename_i heq
      rw [← heq, hu.1]
    · exact hu.1
  · have hzero := hd.1
    rw [hlives, if_neg hne] at hzero
    exact hzero

theorem openWriteback_listing (ht : f.track < s.cache.nextTrack) :
    Listing (s.openWriteback f proxyFin start stop order) := by
  have htrack : (FetchWriteback.make s.cache s.next proxyFin f.ftn f.track start stop order).track = f.track :=
    FetchRangeIterator.construct_track
  have hopened : (FetchWriteback.open (s.cache, .make s.cache s.next proxyFin f.ftn f.track start stop order)).2.track =
      f.track := by
    have hsame := @FetchWriteback.open_enters (s.cache, .make s.cache s.next proxyFin f.ftn f.track start stop order)
      start rfl
    exact hsame.same.range.track.trans htrack
  have hremove := removeTrackFromLRU_places hb.sound.toNamed ht
  have hlookup : ∀ {j w}, (s.openWriteback f proxyFin start stop order).writebacks.lookup j = some w →
      w.track = f.track ∨ s.writebacks.lookup j = some w := by
    intro j w hw
    rcases Table.lookup_insert_cases hw with ⟨-, rfl⟩ | ⟨-, hw⟩
    · exact Or.inl hopened
    · exact Or.inr hw
  refine h.take hb (Places.refl hb.sound.toNamed) ht ?_ (fun hne hu => ⟨hu.1, fun hw htr => ?_⟩)
    (fun hd => ⟨hd.1, @fun j w hw => ?_⟩) fun hd => ?_
  · show Places _ _ (FetchWriteback.open (s.cache, _)).1
    unfold FetchWriteback.open
    simp only
    rw [htrack]
    split
    · exact @emplaceAndPinGroup_places _ (s.cache.removeTrackFromLRU f.track, _) _ _ hremove.named
    · exact .refl hremove.named
  · rcases hlookup hw with heq | hw
    · exact absurd (htr.symm.trans heq) hne
    · exact hu.2 hw htr
  · have hne : j ≠ s.next := by
      intro heq
      subst heq
      rw [(hb.fresh s.next (Nat.le_refl _)).2.2.2] at hw
      cases hw
    exact hd.2 ((lookup_insert_ne hne).trans hw)
  · exact hd.2 (lookup_insert _) hopened

theorem closeWriteback_listing (hw : s.writebacks.lookup id = some w)
    (hb' : Books (s.closed id w)) (hf' : Registered (s.closed id w)) : Listing (s.closed id w) := by
  have herase := (eraseAndMakeGroupEvictable_calm (hb.good hw)).1
  refine h.release hb (eraseAndMakeGroupEvictable_places (s := (s.cache, w)) hb.sound.toNamed) rfl hb' hf' (t := w.track)
    (fun ⟨f, hf⟩ => ?_) (fun hu => ⟨hu.1, fun hw' => hu.2 (Table.lookup_erase_iff.mp hw').2⟩)
    fun hne hd => ⟨hd.1, @fun j w' hw' htr => ?_⟩
  · have htracks := herase.holds.toTracks
    have htr : (eraseAndMakeGroupEvictable (s.cache, w)).2.track = w.track := herase.same.range.track
    rw [herase.same.ftn, htr] at htracks
    exact htracks.cache (herase.sound.notEvicted hf)
  · by_cases hj : j = id
    · subst hj
      rw [hw] at hw'
      cases hw'
      exact hne htr.symm
    · exact hd.2 (Table.lookup_erase_iff.mpr ⟨hj, hw'⟩) htr

theorem Listing.replace {w' : FetchWriteback} (hw : s.writebacks.lookup id = some w)
    (hp : Places (fun _ => False) s.cache s'.cache) (hs : s'.subscribes = s.subscribes)
    (hw' : s'.writebacks = s.writebacks.insert id w') (htrack : w'.track = w.track)
    (hkey : w.fetchInProgressIt = none → w'.fetchInProgressIt = none) :
    Listing s' := by
  have hlives : s'.lives = s.lives := by
    funext t
    unfold lives
    rw [hs]
  refine h.frame hb hp (fun _ hu => ⟨?_, @fun j u hu' htr => ?_⟩) (fun _ hd => ⟨?_, @fun j u hu' htr => ?_⟩)
    fun hbut => hbut.elim
  · rw [hlives]
    exact hu.1
  · rw [hw'] at hu'
    rcases Table.lookup_insert_cases hu' with ⟨-, rfl⟩ | ⟨-, hu'⟩
    · exact hkey (hu.2 hw (htrack.symm.trans htr))
    · exact hu.2 hu' htr
  · rw [← hlives]
    exact hd.1
  · have hlookup := @hd.2 j
    rw [hw'] at hlookup
    by_cases hj : j = id
    · subst hj
      rw [hw] at hu'
      cases hu'
      exact hlookup (lookup_insert _) (htrack.trans htr)
    · exact hlookup ((lookup_insert_ne hj).trans hu') htr

end

theorem follows_key {p : AbsoluteLocation} {d d' : FetchWriteback.State}
    (h : FetchWriteback.Follows call p d d') (hkey : d.2.fetchInProgressIt = none) : d'.2.fetchInProgressIt = none := by
  cases h with
  | published h =>
    rw [h.key, hkey]
    unfold nextKey
    split <;> rfl
  | unmoved _ key => exact key.trans hkey
  | begun _ key => exact key.trans hkey

theorem writeback_listing {now : TimePoint} (h : Listing s) (hb : Books s)
    (hw : s.writebacks.lookup id = some w)
    (ha : (FetchWriteback.call (s.cache, w) now call).1 ≠ .aborted) :
    Listing (s.called id w now call) := by
  have hfollow := @call_follows (s.cache, w) ⟨0, 0⟩ call now hb.sound.toNamed ha
  obtain ⟨p, henter⟩ := hfollow.enters
  have hplaces := call_covers (s := (s.cache, w)) (@places_covers fun _ => False) ha hb.sound.toNamed
  exact h.replace hb hw hplaces rfl rfl henter.same.range.track (follows_key hfollow)

theorem fetchOk_listing {ok : FetchOk} {setExtensions : Bool} (h : Listing s) (hb : Books s)
    (hw : s.writebacks.lookup id = some w) (hs : s.fetchOk id w ok setExtensions = some s') :
    Listing s' := by
  obtain ⟨q, c, hq, hc, rfl⟩ := fetchOk_answers hs
  obtain ⟨henter, gaps, hq'⟩ := @setUpstreamEnd_enters (s.cache, w) q ⟨0, 0⟩ _ hq
  have hgaps : Places (fun _ => False) s.cache q.1 :=
    setUpstreamEnd_covers (s := (s.cache, w)) places_covers hq hb.sound.toNamed
  refine h.replace hb hw (hgaps.trans (hc.sameUse.places hgaps.named)) rfl rfl ?_ fun hkey => ?_
  · exact henter.same.range.track
  · rw [hq']
    exact hkey

theorem cacheStep_places (hn : Named c) : Places (fun _ => False) c (cacheStep c op) := by
  have hdoes := @cacheStep_does c op
  generalize cacheStep c op = c' at hdoes
  cases hdoes with
  | lookup => exact getCachedObjectMaybe_sameUse.places hn
  | state => exact properties_places.setTrackState (.refl hn)
  | purges hp => exact (hp.passive hn).places hn

/-- **One event** keeps the list of evictable tracks right. -/
theorem step_listing (hb : Books s) (hf : Registered s) (h : Listing s) (hs : s.step op = some s') : Listing s' := by
  have hb' := step_books hb hs
  have hf' := step_inFlight hb hf registered_carries hs
  have hn := hb.sound.toNamed
  cases step_does hs with
  | subscribe => exact getSubscribeWriteback_listing h hb
  | @begun _ groupID _ _ w r c _ _ hgroup =>
    have hu := @getOrCreateGroupWithEviction_sameUse s.cache w.track groupID w.ftn
    rw [hgroup] at hu
    exact h.same hb ((hu.trans pinGroup_relinks.sameUse).places hn) rfl rfl
  | header => exact h.same hb ((SubscribeWriteback.cacheHeader_passive hn).places hn) rfl rfl
  | closeSubscribe hw => exact closeSubscribe_listing h hb hw hb' hf'
  | subgroup => exact h.same hb ((SubgroupWriteback.call_passive hn).places hn) rfl rfl
  | closeSubgroup => exact h.same hb (unpinGroup_relinks.sameUse.places hn) rfl rfl
  | @fetch ftn _ _ _ ht =>
    obtain ⟨htidy, htracks⟩ := addFetchedTrack_tidy hb.sound ht
    have hadd : Listing (s.setCache (s.cache.addFetchedTrack ftn).2) :=
      h.same hb (addFetchedTrack_places hb.sound h.listed ht) rfl rfl
    exact openWriteback_listing hadd (hb.tidy htidy) htracks.track
  | lookup => exact h.same hb (getCachedObjectMaybe_sameUse.places hn) rfl rfl
  | fetchUpstream hfetch => exact openWriteback_listing h hb (hb.fetches hfetch).track
  | writeback hw ho => exact writeback_listing h hb hw ho
  | fetchOk hw hok => exact fetchOk_listing h hb hw hok
  | closeWriteback hw => exact closeWriteback_listing h hb hw hb' hf'
  | cache => exact h.setCache hb (cacheStep_places hn)
  | refused | serve | closeFetch => exact h.same hb (.refl hn) rfl rfl

theorem init_listing : Listing (init tracks groups bytes eviction) where
  listed :=
    { nodup := nodup_nil
      mem := fun _ => ⟨(fun h => nomatch h), fun ⟨_, hf, _⟩ => nomatch hf⟩
      iter := fun hf => nomatch hf
      noIter := fun ht => absurd ht (Nat.not_lt_zero _) }
  unused hf := nomatch hf
  deserted hf := nomatch hf

/-- **Every run** keeps the list of evictable tracks right. -/
theorem reachable_listing {ok : System → CacheOp → Prop}
    (h : Reachable ok (init tracks groups bytes eviction) s) : Books s ∧ Registered s ∧ Listing s := by
  induction h with
  | start => exact ⟨init_books, init_inFlight, init_listing⟩
  | step _ _ hs ih =>
    obtain ⟨hb, hf, hl⟩ := ih
    exact ⟨step_books hb hs, step_inFlight hb hf registered_carries hs, step_listing hb hf hl hs⟩

/-! ## 8. The limit on the number of tracks -/

variable {s₁ s₂ : System} {ftn : FullTrackName} {pins : GroupRef → Nat} {lives : TrackRef → Nat}

/-- The evictable track that was used least recently, if one track more would be too many. -/
def excess (c : MoqxCache) : Option FullTrackName :=
  if 0 < c.maxCachedTracks ∧ c.maxCachedTracks < c.size + 1 then c.trackLRU.getLast? else none

/-- Of the other tracks, the one that had to go is gone, and no more than that. -/
def MakesRoom (ftn : FullTrackName) (c c' : MoqxCache) : Prop :=
  ∀ f, f ≠ ftn → c'.cache.lookup f = if excess c = some f then none else c.cache.lookup f

theorem makeRoom_tracks (hl : Ledger pins lives c) (hlist : ∀ f ∈ c.trackLRU, ∃ t, c.cache.lookup f = some t)
    (f : FullTrackName) :
    (if c.maxCachedTracks ≤ c.size then c.evictOldestTrackIfNeeded.2 else c).cache.lookup f =
      if (0 < c.maxCachedTracks ∧ c.maxCachedTracks ≤ c.size) ∧ c.trackLRU.getLast? = some f then none
      else c.cache.lookup f := by
  unfold evictOldestTrackIfNeeded
  by_cases hfull : 0 < c.maxCachedTracks ∧ c.maxCachedTracks ≤ c.size
  · rw [if_pos hfull.2, if_neg (by omega)]
    cases hlast : c.trackLRU.getLast? with
    | none => simp
    | some oldest =>
      obtain ⟨t, ht⟩ := hlist oldest (mem_of_getLast? hlast)
      show (c.evictTrack oldest).cache.lookup f = _
      rw [(evictTrack_retires hl ht).2.cache]
      by_cases hf : f = oldest
      · rw [hf, lookup_erase, if_pos ⟨hfull, rfl⟩]
      · rw [lookup_erase_ne hf, if_neg fun h => hf (some.inj h.2).symm]
  · rw [if_neg (fun h : _ ∧ _ => hfull h.1)]
    split
    · rw [if_pos (by omega)]
    · rfl

theorem size_addTrack (hn : c.cache.lookup ftn = none) : (c.addTrack ftn).size = c.size + 1 := by
  show (c.cache.insert ftn c.nextTrack).keys.length = _
  rw [keys_insert, erase_of_not_mem (lookup_eq_none.mp hn)]
  rfl

theorem addTrack_lookup_ne {f : FullTrackName} (hf : f ≠ ftn) :
    (c.addTrack ftn).cache.lookup f = c.cache.lookup f := lookup_insert_ne hf

theorem openWriteback_cache : (s.openWriteback f proxyFin start stop order).cache.cache = s.cache.cache := by
  show (FetchWriteback.open (s.cache, _)).1.cache = _
  unfold FetchWriteback.open FetchWriteback.emplaceAndPinGroup
  simp only
  split
  · split
    · exact pinGroup_relinks.sameUse.cache.trans removeTrackFromLRU_enlists.alike.cache
    · exact (pinGroup_relinks.sameUse.cache.trans (addGroup_sameUse.cache.trans evictOldestGroupsIfNeeded_purges.sameUse.cache)).trans
        removeTrackFromLRU_enlists.alike.cache
  · exact removeTrackFromLRU_enlists.alike.cache

theorem getSubscribeWriteback_makesRoom (hs : Books s) (hl : Listing s) (hn : s.cache.cache.lookup ftn = none) :
    MakesRoom ftn s.cache (s.cache.getSubscribeWriteback ftn).1 := by
  intro f hf
  have hlist : ∀ f ∈ s.cache.trackLRU, ∃ t, s.cache.cache.lookup f = some t := fun f h =>
    ((hl.listed.mem f).mp h).imp fun _ h => h.1
  have hroom := makeRoom_tracks hs.sound.toLedger hlist f
  have hcache : (s.cache.getSubscribeWriteback ftn).1.cache = ((if s.cache.maxCachedTracks ≤ s.cache.size
      then s.cache.evictOldestTrackIfNeeded.2 else s.cache).addTrack ftn).cache := by
    unfold getSubscribeWriteback findOrAddTrack
    rw [hn]
    exact removeTrackFromLRU_enlists.alike.cache
  rw [hcache, addTrack_lookup_ne hf, hroom, excess]
  by_cases hfull : 0 < s.cache.maxCachedTracks ∧ s.cache.maxCachedTracks ≤ s.cache.size
  · rw [if_pos (show _ ∧ _ < _ from ⟨hfull.1, Nat.lt_succ_of_le hfull.2⟩)]
    simp only [hfull, true_and, and_self]
  · rw [if_neg fun h => hfull h.1, if_neg (show ¬(_ ∧ _ < _) by omega), if_neg nofun]

theorem fetch_tracks (hs : Books s) (hl : Listing s) (hn : s.cache.cache.lookup ftn = none)
    {f : FullTrackName} (hf : f ≠ ftn) :
    (s.fetch ftn start stop order).cache.cache.lookup f =
      if (0 < s.cache.maxCachedTracks ∧ s.cache.maxCachedTracks ≤ s.cache.size + 1) ∧
        s.cache.trackLRU.getLast? = some f then none else s.cache.cache.lookup f := by
  have hadd := (addTrack_tidy hs.sound hn).1.toLedger
  have hroom := makeRoom_tracks hadd (fun g hg => ?_) f
  · have hcache : (s.fetch ftn start stop order).cache.cache = (s.cache.addFetchedTrack ftn).2.cache := by
      simp only [System.fetch, hn]
      exact openWriteback_cache
    rw [hcache, addFetchedTrack, addTrackToLRU_enlists.alike.cache, hroom, size_addTrack hn, addTrack_lookup_ne hf]
    rfl
  · obtain ⟨t, ht, _⟩ := (hl.listed.mem g).mp hg
    exact ⟨t, (addTrack_lookup hn).mpr (Or.inl ht)⟩

/-- **The limit on the number of tracks.** A track that is not cached is added by a subscription and by a fetch.
    Both evict the evictable track that was used least recently, exactly if there would be too many tracks
    otherwise, and leave the same other tracks, if and only if it is not the case that there are evictable tracks
    and the new track just reaches the limit: a fetch evicts one then. -/
theorem track_limit_iff {ok : System → CacheOp → Prop} {tracks groups bytes eviction : Nat}
    (h : Reachable ok (init tracks groups bytes eviction) s) (hn : s.cache.cache.lookup ftn = none)
    {start «end» : AbsoluteLocation} {order : GroupOrder}
    (hs₁ : s.step (.getSubscribeWriteback ftn) = some s₁) (hs₂ : s.step (.fetch ftn start «end» order) = some s₂) :
    (MakesRoom ftn s.cache s₁.cache ∧ MakesRoom ftn s.cache s₂.cache ∧
      ∀ f, f ≠ ftn → s₁.cache.cache.lookup f = s₂.cache.cache.lookup f) ↔
    ¬(s.cache.size + 1 = s.cache.maxCachedTracks ∧ s.cache.trackLRU ≠ []) := by
  obtain ⟨hb, _, hl⟩ := reachable_listing h
  have hsub := getSubscribeWriteback_makesRoom hb hl hn
  cases hs₁
  cases hs₂
  constructor
  · intro ⟨_, hroom, _⟩ ⟨hsize, hne⟩
    have hlast := getLast?_eq_getLast_of_ne_nil hne
    obtain ⟨t, ht, _⟩ := (hl.listed.mem _).mp (getLast_mem hne)
    have hf : s.cache.trackLRU.getLast hne ≠ ftn := fun heq => nomatch (heq ▸ hn).symm.trans ht
    have hgone := (fetch_tracks hb hl hn hf).symm.trans (hroom _ hf)
    have hexcess : excess s.cache = none := if_neg (by omega)
    rw [if_pos ⟨by omega, hlast⟩, hexcess, if_neg nofun, ht] at hgone
    cases hgone
  · intro hfits
    have hfetch : MakesRoom ftn s.cache (s.fetch ftn start «end» order).cache := by
      intro f hf
      rw [fetch_tracks hb hl hn hf, excess]
      by_cases hfull : 0 < s.cache.maxCachedTracks ∧ s.cache.maxCachedTracks < s.cache.size + 1
      · rw [if_pos hfull]
        simp only [hfull.1, hfull.2.le, true_and, and_self]
      · have hkept : ¬((0 < s.cache.maxCachedTracks ∧ s.cache.maxCachedTracks ≤ s.cache.size + 1) ∧
            s.cache.trackLRU.getLast? = some f) := by
          intro ⟨hle, hlast⟩
          exact hfits ⟨by omega, ne_nil_of_mem (mem_of_getLast? hlast)⟩
        rw [if_neg hkept, if_neg hfull, if_neg nofun]
    exact ⟨hsub, hfetch, fun f hf => (hsub f hf).trans (hfetch f hf).symm⟩

/-- One track is cached and evictable, and two may be: a fetch of another one evicts it. -/
theorem fetch_evicts_below_limit :
    ∃ s s' t, Reachable (fun _ _ => True) (init 2 4 100 0) s ∧ s.cache.cache.lookup ⟨[], []⟩ = some t ∧
      s.cache.size + 1 = s.cache.maxCachedTracks ∧ s.cache.cache.lookup ⟨[], [1]⟩ = none ∧
      s.step (.fetch ⟨[], [1]⟩ ⟨0, 0⟩ ⟨0, 5⟩ .oldestFirst) = some s' ∧ s'.cache.cache.lookup ⟨[], []⟩ = none := by
  have h0 : Reachable (fun _ _ => True) (init 2 4 100 0) (init 2 4 100 0) := .start
  have h1 := h0.next (.getSubscribeWriteback ⟨[], []⟩) trivial rfl
  have h2 := h1.next (.closeSubscribe 0) trivial rfl
  exact ⟨_, _, _, h2, rfl, rfl, rfl, rfl, rfl⟩

/-- At the limit both make room. -/
theorem track_limit_iff_full :
    ∃ s s₁ s₂ : System, s.step (.getSubscribeWriteback ⟨[], [1]⟩) = some s₁ ∧
      s.step (.fetch ⟨[], [1]⟩ ⟨0, 0⟩ ⟨0, 5⟩ .oldestFirst) = some s₂ ∧
      s.cache.cache.lookup ⟨[], []⟩ = some 0 ∧ s₁.cache.cache.lookup ⟨[], []⟩ = none ∧
      MakesRoom ⟨[], [1]⟩ s.cache s₂.cache := by
  have h0 : Reachable (fun _ _ => True) (init 1 4 100 0) (init 1 4 100 0) := .start
  have h1 := h0.next (.getSubscribeWriteback ⟨[], []⟩) trivial rfl
  have h2 := h1.next (.closeSubscribe 0) trivial rfl
  have hroom := (@track_limit_iff _ _ _ ⟨[], [1]⟩ _ _ _ _ _ h2 rfl ⟨0, 0⟩ ⟨0, 5⟩ .oldestFirst rfl rfl).mpr
    (by decide)
  exact ⟨_, _, _, rfl, rfl, rfl, rfl, hroom.2.1⟩

end System

end Moqx

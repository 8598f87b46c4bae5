/-
  Subject: Live writers and tracks by name keep the books right.

  * `Does`, `call_does` -- all that a call on a subgroup's writeback does; `call_stores`, `close_sound`;
  * `open_sound`, `close_sound`, `begun_sound`, `cacheHeader_stores` -- a subscription;
  * `findOrAddTrack_tidy`, `getOrCreateTrack_tidy`, `KeepsProperties` -- tracks by name;
  * `expiry_obeys_duration_iff` -- how long the entries of a track are kept.
-/
import Moqx.Cache.Entries
import Moqx.Cache.System

namespace Moqx

open CacheTrack

variable {pins : GroupRef → Nat} {lives : TrackRef → Nat} {c c' : MoqxCache} {t : TrackRef}
  {ftn : FullTrackName} {pinned : GroupRef → Prop} {now : TimePoint}
variable {g : Nat} {r : GroupRef} {tr : CacheTrack}

open MoqxCache

/-- `t` is the track of the name `ftn`, unless it has been evicted. -/
structure MoqxCache.Tracks (c : MoqxCache) (ftn : FullTrackName) (t : TrackRef) : Prop where
  track : t < c.nextTrack
  cache : (c.track t).evicted = false → c.cache.lookup ftn = some t

theorem MoqxCache.Tracks.keep (h : c.Tracks ftn t) (hk : Keeps pinned c c') : c'.Tracks ftn t where
  track := Nat.lt_of_lt_of_le h.track hk.nextTrack
  cache he := hk.cache h.track (h.cache (hk.notEvicted h.track he)) he

theorem MoqxCache.Tracks.alike (h : c.Tracks ftn t) (ha : c.Alike c') : c'.Tracks ftn t :=
  h.keep (@Alike.keeps _ _ (fun _ => True) ha)

theorem MoqxCache.Holds.alike (h : Holds c ftn t g r) (ha : c.Alike c') :
    Holds c' ftn t g r :=
  h.keep (@Alike.keeps _ _ (fun _ => True) ha) trivial

theorem MoqxCache.Sound.tracks (hs : Sound pins lives c) (hf : c.cache.lookup ftn = some t) : c.Tracks ftn t :=
  ⟨hs.cacheBound hf, fun _ => hf⟩

theorem MoqxCache.Ledger.holds (hl : Ledger pins lives c) (ht : c.Tracks ftn t)
    (hg : c.groupAt t g = some r) : Holds c ftn t g r where
  track := ht.track
  group := hl.groupBound hg
  owner hg' := hl.groupOnce hg' hg
  cache := ht.cache
  held _ := hg

theorem CacheTrack.evicted_of_caching (h : ¬tr.shouldSkipCaching = true) :
    tr.evicted = false := by
  unfold shouldSkipCaching at h
  rw [Bool.or_eq_true, not_or] at h
  simpa using h.1

theorem MoqxCache.setTrack_updateLargest {loc : AbsoluteLocation} {eot : Bool}
    (h : (c.track t).updateLargest loc eot = .ok tr) : c.Alike (c.setTrack t tr) :=
  setTrack_alike (updateLargest_alike h)

/-! ## 1. Subgroups -/

namespace SubgroupWriteback

variable {w : SubgroupWriteback}
variable {length : Nat}

variable {objectID : Nat} {ext : Extensions} {payload : Payload}

/-- The group the writeback was opened on is the one of its track, as long as that is cached. -/
abbrev Holds (c : MoqxCache) (w : SubgroupWriteback) : Prop :=
  MoqxCache.Holds c w.ftn w.track w.group w.cacheGroup

def writeOf (w : SubgroupWriteback) (now : TimePoint) : SubgroupCall → ObjectWrite
  | .object objID payload ext => w.write objID .normal ext payload true now 0
  | .beginObject objectID length payload ext =>
    w.write objectID .normal ext payload (payload.length == length) now 0
  | .objectPayload payload =>
    w.write w.currentObject .normal noExtensions (some payload)
      (w.currentOffset + payload.length == w.currentLength) now w.currentOffset
  | .endOfGroup objectID => w.write objectID .endOfGroup noExtensions none true now 0
  | .endOfTrackAndGroup objectID => w.write objectID .endOfTrack noExtensions none true now 0

theorem writeOf_group {call : SubgroupCall} : (w.writeOf now call).groupID = w.group := by
  cases call <;> rfl

abbrev SameGroup (w w' : SubgroupWriteback) : Prop :=
  w'.ftn = w.ftn ∧ w'.track = w.track ∧ w'.group = w.group ∧ w'.cacheGroup = w.cacheGroup

/-- All that a call does: the largest location may move, and then the object may be written, unless the
    track is evicted. -/
inductive Does (c : MoqxCache) (w : SubgroupWriteback) (write : ObjectWrite) :
    MoqxCache × SubgroupWriteback → Prop where
  | sets {d : MoqxCache} {w' : SubgroupWriteback} (hl : SetsLargest w.track c d) (hw : w.SameGroup w') :
      Does c w write (d, w')
  | stores {d d' : MoqxCache} {w' : SubgroupWriteback} (he : (c.track w.track).evicted = false)
      (hl : SetsLargest w.track c d) (hd : (d.cacheObjectAndUpdateBytes w.cacheGroup w.track write).2 = d')
      (hw : w.SameGroup w') : Does c w write (d', w')

theorem cacheWhole_does {status : ObjectStatus} :
    Does c w (w.write objectID status ext payload true now 0) ((w.cacheWhole c objectID status ext payload now).2, w) := by
  unfold cacheWhole
  split
  · exact .sets (Or.inl rfl) ⟨rfl, rfl, rfl, rfl⟩
  · rename_i hskip
    split
    · exact .sets (Or.inl rfl) ⟨rfl, rfl, rfl, rfl⟩
    · rename_i hl
      exact .stores (evicted_of_caching hskip) (Or.inr ⟨_, _, _, hl, rfl⟩) rfl ⟨rfl, rfl, rfl, rfl⟩

theorem beginObject_does : Does c w (w.write objectID .normal ext payload (payload.length == length) now 0)
    (w.beginObject c objectID length payload ext now).2 := by
  unfold beginObject
  simp only
  split
  · exact .sets (Or.inl rfl) ⟨rfl, rfl, rfl, rfl⟩
  · rename_i hskip
    have he : (c.track w.track).evicted = false := by
      refine evicted_of_caching fun h => hskip ?_
      rw [h]
      rfl
    split
    · exact .sets (Or.inl rfl) ⟨rfl, rfl, rfl, rfl⟩
    · rename_i tr hl
      have hlargest : SetsLargest w.track c (c.setTrack w.track tr) := Or.inr ⟨_, _, _, hl, rfl⟩
      split
      · exact .sets hlargest ⟨rfl, rfl, rfl, rfl⟩
      · split
        · rename_i heq
          exact .stores he hlargest (congrArg Prod.snd heq) ⟨rfl, rfl, rfl, rfl⟩
        · rename_i heq
          exact .stores he hlargest (congrArg Prod.snd heq) ⟨rfl, rfl, rfl, rfl⟩

theorem objectPayload_does {payload : Bytes} :
    Does c w (w.writeOf now (.objectPayload payload)) (w.objectPayload c payload now).2 := by
  unfold objectPayload
  simp only
  split
  · exact .sets (Or.inl rfl) ⟨rfl, rfl, rfl, rfl⟩
  · rename_i hskip
    rw [Bool.or_eq_true, not_or] at hskip
    have he : (c.track w.track).evicted = false := by simpa using hskip.2
    split
    · exact .sets (Or.inl rfl) ⟨rfl, rfl, rfl, rfl⟩
    · split
      · rename_i heq
        exact .stores he (Or.inl rfl) (congrArg Prod.snd heq) ⟨rfl, rfl, rfl, rfl⟩
      · rename_i heq
        exact .stores he (Or.inl rfl) (congrArg Prod.snd heq) ⟨rfl, rfl, rfl, rfl⟩

theorem call_does {call : SubgroupCall} : Does c w (w.writeOf now call) (w.call c now call).2 := by
  cases call with
  | object => exact cacheWhole_does
  | beginObject => exact beginObject_does
  | objectPayload => exact objectPayload_does
  | endOfGroup => exact cacheWhole_does
  | endOfTrackAndGroup => exact cacheWhole_does

/-- **A call on a subgroup's writeback** keeps the books right. -/
theorem call_stores {call : SubgroupCall} (hs : Sound pins lives c) (hh : w.Holds c) :
    Sound pins lives (w.call c now call).2.1 ∧
      Stores (fun r => 0 < pins r) w.track (w.writeOf now call) c (w.call c now call).2.1 := by
  have hdoes := @call_does c now w call
  generalize (w.call c now call).2 = p at hdoes ⊢
  cases hdoes with
  | sets hl => exact ⟨hs.alike hl.alike, hl.alike.sheds.stores⟩
  | @stores d _ _ he hl hd =>
    subst hd
    have hh' := hh.alike hl.alike
    have he' : (d.track w.track).evicted = false := (hl.alike.evicted _).trans he
    have hw := cacheObjectAndUpdateBytes_stores (w := w.writeOf now call) (hs.alike hl.alike) (hh'.cache he') (by
      rw [writeOf_group]
      exact hh'.held he')
    exact ⟨hw.1, hl.alike.sheds.andStores hw.2⟩

theorem call_names {call : SubgroupCall} : w.SameGroup (w.call c now call).2.2 := by
  have hdoes := @call_does c now w call
  generalize (w.call c now call).2 = p at hdoes ⊢
  cases hdoes with
  | sets _ hw => exact hw
  | stores _ _ _ hw => exact hw

theorem close_sound (hs : Sound pins lives c) (hh : w.Holds c) (hp : 0 < pins w.cacheGroup) :
    Sound (unpin pins w.cacheGroup) lives (w.close c) ∧ Sheds pinned c (w.close c) :=
  unpinGroup_sound hs hh hp

end SubgroupWriteback

/-! ## 2. Subscriptions -/

/-- The write of an object that comes with its header. -/
def ObjectHeader.write (header : ObjectHeader) (payload : Payload) (datagram : Bool) (now : TimePoint) :
    ObjectWrite :=
  { groupID := header.group, subgroup := header.subgroup, objectID := header.id, status := header.status,
    extensions := header.extensions, payload := payload, complete := true,
    forwardingPreferenceIsDatagram := datagram, now := now }

namespace SubscribeWriteback

variable {w : SubscribeWriteback}

theorem open_sound (hs : Sound pins lives c) (ht : w.track < c.nextTrack) :
    Sound pins (Function.update lives w.track (lives w.track + 1)) (w.open c) ∧
      Sheds pinned c (w.open c) := by
  have ha : c.Alike (c.removeTrackFromLRU w.track) := removeTrackFromLRU_enlists.alike
  have hs' := hs.alike ha
  have ht' : w.track < (c.removeTrackFromLRU w.track).nextTrack := by rw [ha.nextTrack]; exact ht
  have hlive := @Sound.setLive _ _ _ _ pinned hs' ht' (lives w.track + 1)
  rw [← hs'.liveCount w.track ht'] at hlive ⊢
  exact ⟨hlive.1, ha.sheds.trans hlive.2⟩

def uncounted (c : MoqxCache) (w : SubscribeWriteback) : MoqxCache :=
  { c.setTrack w.track { c.track w.track with liveWritebackCount := (c.track w.track).liveWritebackCount - 1 } with
    underflow := c.underflow || (c.track w.track).liveWritebackCount == 0 }

theorem close_sound (hs : Sound pins lives c) (ht : w.track < c.nextTrack) (hp : 0 < lives w.track) :
    Sound pins (Function.update lives w.track (lives w.track - 1)) (w.close c) ∧
      Sheds pinned c (w.close c) := by
  have hlive := @Sound.setLive _ _ _ _ pinned hs ht (lives w.track - 1)
  have hcount := hs.liveCount w.track ht
  have hsame : c.setLive w.track (lives w.track - 1) = w.uncounted c := by
    have hu : (c.underflow || (c.track w.track).liveWritebackCount == 0) = c.underflow := by
      rw [hcount, beq_eq_false_iff_ne.mpr (Nat.ne_of_gt hp), Bool.or_false]
    rw [uncounted, hu, hcount]
    rfl
  rw [hsame] at hlive
  have ha := @onTrackBecameEvictable_alike (w.uncounted c) w.ftn
  exact ⟨hlive.1.alike ha, hlive.2.trans ha.sheds⟩

theorem begun_sound {groupID subgroupID : Nat} {r : GroupRef} (hs : Sound pins lives c)
    (ht : c.Tracks w.ftn w.track) (hskip : (c.track w.track).shouldSkipCaching = false)
    (hgroup : c.getOrCreateGroupWithEviction w.track groupID w.ftn = (r, c')) :
    Sound (onePin pins r) lives (c'.pinGroup r w.track) ∧ Sheds (fun r => 0 < pins r) c (c'.pinGroup r w.track) ∧
      SubgroupWriteback.Holds (c'.pinGroup r w.track)
        { group := groupID, subgroup := subgroupID, track := w.track, cacheGroup := r, ftn := w.ftn } := by
  have he := evicted_of_caching (Bool.eq_false_iff.mp hskip)
  obtain ⟨htidy, hg, -⟩ := @getOrCreateGroupWithEviction_tidy _ _ c w.track groupID w.ftn hs (ht.cache he)
  rw [hgroup] at htidy hg
  have hpin := @pinGroup_sound _ _ _ _ _ _ (fun r => 0 < pins r) htidy.1 hg
  have hholds := htidy.1.toLedger.holds (ht.keep htidy.2.toKeeps) hg
  refine ⟨hpin.1, htidy.2.trans hpin.2, ?_⟩
  exact hholds.keep (@pinGroup_sound _ _ _ _ _ _ (fun _ => True) htidy.1 hg).2.toKeeps trivial

theorem cacheHeader_stores {header : ObjectHeader} {payload : Payload} {datagram : Bool}
    (hs : Sound pins lives c) (ht : c.Tracks w.ftn w.track) :
    Sound pins lives (w.cacheHeader c header payload datagram now).2 ∧
      Stores (fun r => 0 < pins r) w.track (header.write payload datagram now) c
        (w.cacheHeader c header payload datagram now).2 := by
  unfold cacheHeader
  split
  · exact ⟨hs, (Sheds.refl c).stores⟩
  · rename_i hskip
    have he := evicted_of_caching hskip
    split
    · exact ⟨hs, (Sheds.refl c).stores⟩
    · rename_i tr hl
      have ha := setTrack_updateLargest hl
      have hf : (c.setTrack w.track tr).cache.lookup w.ftn = some w.track := ht.cache he
      obtain ⟨htidy, hg, hf'⟩ :=
        @getOrCreateGroupWithEviction_tidy _ _ (c.setTrack w.track tr) w.track header.group w.ftn (hs.alike ha) hf
      simp only
      generalize (c.setTrack w.track tr).getOrCreateGroupWithEviction w.track header.group w.ftn = p
        at htidy hg hf'
      have hw := cacheObjectAndUpdateBytes_stores (w := header.write payload datagram now) htidy.1 hf' hg
      exact ⟨hw.1, (ha.sheds.trans htidy.2).andStores hw.2⟩

end SubscribeWriteback

/-! ## 3. Tracks by name -/

namespace MoqxCache

theorem addTrack_tracks : (c.addTrack ftn).Tracks ftn c.nextTrack :=
  ⟨Nat.lt_succ_self _, fun _ => AList.lookup_insert _⟩

theorem evictTrack_absent {ftn' : FullTrackName} (hl : Ledger pins lives c) (hn : c.cache.lookup ftn = none) :
    (c.evictTrack ftn').cache.lookup ftn = none := by
  cases hf : c.cache.lookup ftn' with
  | none =>
    unfold evictTrack
    rw [hf]
    exact hn
  | some t =>
    rw [(evictTrack_retires hl hf).2.cache]
    cases h : (c.cache.erase ftn').lookup ftn with
    | none => rfl
    | some t' =>
      rw [(Table.lookup_erase_iff.mp h).2] at hn
      cases hn

theorem makeRoom_absent (hl : Ledger pins lives c) (hn : c.cache.lookup ftn = none) :
    (if c.maxCachedTracks ≤ c.size then c.evictOldestTrackIfNeeded.2 else c).cache.lookup ftn = none := by
  split
  · unfold evictOldestTrackIfNeeded
    split
    · exact hn
    · split
      · exact hn
      · exact evictTrack_absent hl hn
  · exact hn

/-- A property that the announced properties of a track do not disturb. -/
structure KeepsProperties (P : MoqxCache → Prop) : Prop where
  created : ∀ {d ftn}, P d → P (d.getOrCreateTrack ftn).2
  duration : ∀ {d t m}, P d → P (d.setTrack t { d.track t with maxCacheDuration := m })
  extensions : ∀ {d t ext}, P d → P (d.setTrack t { d.track t with extensions := ext })
  largest : ∀ {d d' t}, P d → SetsLargest t d d' → P d'

theorem KeepsProperties.applyCacheDuration {P : MoqxCache → Prop} {duration : Option Int} (hP : KeepsProperties P)
    (h : P c) : P (c.applyCacheDuration ftn duration) := by
  cases duration with
  | some dur => exact hP.duration (hP.created h)
  | none =>
    show P (c.clearMaxCacheDuration ftn)
    unfold clearMaxCacheDuration
    split
    · exact hP.duration h
    · exact h

theorem KeepsProperties.setTrackState {P : MoqxCache → Prop} {largest : Option AbsoluteLocation} {ext : Extensions}
    (hP : KeepsProperties P) (h : P c) : P (c.setTrackState ftn largest ext) := by
  have hcreated : P ((c.applyCacheDuration ftn (c.getEffectiveCacheDuration ext)).getOrCreateTrack ftn).2 :=
    hP.created (hP.applyCacheDuration h)
  unfold MoqxCache.setTrackState
  simp only
  generalize (c.applyCacheDuration ftn (c.getEffectiveCacheDuration ext)).getOrCreateTrack ftn = p at hcreated ⊢
  have hext : P (p.2.setTrack p.1 { p.2.track p.1 with extensions := ext }) := hP.extensions hcreated
  split
  · exact hext
  · split
    · rename_i hl
      exact hP.largest hext (Or.inr ⟨_, _, _, hl, rfl⟩)
    · exact hext

section tracks

variable (hs : Sound pins lives c)

include hs

theorem findOrAddTrack_tidy :
    Tidy pins lives c (c.findOrAddTrack ftn).2 ∧ (c.findOrAddTrack ftn).2.Tracks ftn (c.findOrAddTrack ftn).1 := by
  unfold findOrAddTrack
  cases hf : c.cache.lookup ftn with
  | some t => exact ⟨.refl hs, hs.tracks hf⟩
  | none =>
    have hroom := makeRoom_purges.tidy hs
    have hn := makeRoom_absent hs.toLedger hf
    simp only
    generalize (if c.maxCachedTracks ≤ c.size then c.evictOldestTrackIfNeeded.2 else c) = d at hroom hn
    exact ⟨hroom.trans (addTrack_tidy hroom.1 hn), addTrack_tracks⟩

theorem getOrCreateTrack_tidy : Tidy pins lives c (c.getOrCreateTrack ftn).2 := by
  unfold getOrCreateTrack
  cases hf : c.cache.lookup ftn with
  | some t => exact .refl hs
  | none =>
    have hadd := addTrack_tidy hs hf
    exact hadd.trans (addTrackToLRU_enlists.alike.tidy hadd.1)

theorem addFetchedTrack_tidy (hn : c.cache.lookup ftn = none) :
    Tidy pins lives c (c.addFetchedTrack ftn).2 ∧
      (c.addFetchedTrack ftn).2.Tracks ftn (c.addFetchedTrack ftn).1 := by
  have hadd := addTrack_tidy hs hn
  have hroom := makeRoom_purges.tidy hadd.1
  have hlru := (@addTrackToLRU_enlists _ c.nextTrack ftn).alike.tidy hroom.1
  exact ⟨hadd.trans (hroom.trans hlru), addTrack_tracks.keep (hroom.2.trans hlru.2).toKeeps⟩

theorem setTrack_tidy {tr : CacheTrack} (h : (c.track t).Alike tr) :
    Tidy pins lives c (c.setTrack t tr) :=
  (setTrack_alike h).tidy hs

end tracks

theorem properties_tidy : KeepsProperties (Tidy pins lives c) where
  created h := h.trans (getOrCreateTrack_tidy h.1)
  duration h := h.trans (setTrack_tidy h.1 ⟨rfl, rfl, rfl, rfl⟩)
  extensions h := h.trans (setTrack_tidy h.1 ⟨rfl, rfl, rfl, rfl⟩)
  largest h hl := h.trans (hl.alike.tidy h.1)

theorem recordUpstreamEndOfTrack_sets {fetchOk : FetchOk} :
    SetsLargest t c (c.recordUpstreamEndOfTrack t fetchOk) := by
  unfold recordUpstreamEndOfTrack
  split
  · exact Or.inl rfl
  · split
    · exact Or.inl rfl
    · split
      · rename_i hl
        exact Or.inr ⟨_, _, _, hl, rfl⟩
      · exact Or.inl rfl

/-! ## 4. How long an entry is kept -/

section duration

variable {largest : Option AbsoluteLocation} {extensions : Extensions} {loc : AbsoluteLocation} {e : CacheEntry}
  {d : Nat} {m : Int}

/-- The duration that a publisher's value stands for under the cap, if there is one. -/
def cappedDuration (c : MoqxCache) (d : Nat) : Int :=
  c.maxAllowedCacheDuration.elim (d : Int) (min (d : Int))

def Expires (c : MoqxCache) (t : TrackRef) (loc : AbsoluteLocation) (now : TimePoint) : Prop :=
  c.entryAt t loc ≠ none ∧ (c.getCachedObjectMaybe t loc now).2.entryAt t loc = none

theorem expires_iff (hm : (c.track t).maxCacheDuration = some m) (he : c.entryAt t loc = some e) :
    c.Expires t loc now ↔ int64 (m * 1000000) < int64 (now - e.cachedAt) := by
  obtain ⟨r, hg, ho⟩ := Option.bind_eq_some_iff.mp he
  have hduration : ((c.track t).maxCacheDuration.or c.defaultMaxCacheDuration).any (ageExceeds now e.cachedAt) =
      ageExceeds now e.cachedAt m := by
    rw [hm]
    rfl
  have hlookup : (c.getCachedObjectMaybe t loc now).2 =
      if ageExceeds now e.cachedAt m then c.dropExpired t r loc e.payloadSize else c := by
    unfold getCachedObjectMaybe
    simp only [show (c.track t).groups.lookup loc.group = some r from hg, ho, hduration]
    split
    · rfl
    · split <;> rfl
  unfold Expires
  rw [hlookup, he]
  by_cases hage : ageExceeds now e.cachedAt m
  · have hgone : (c.dropExpired t r loc e.payloadSize).entryAt t loc = none := by
      have hkept : (c.dropExpired t r loc e.payloadSize).groupAt t loc.group = some r := by
        simp only [dropExpired, eraseObject, groupAt, setGroup, setTrack_self]
        exact hg
      simp only [entryAt, hkept, Option.bind_some]
      simp only [dropExpired, eraseObject, setGroup_self, AList.lookup_erase]
    rw [if_pos hage, hgone]
    exact ⟨fun _ => of_decide_eq_true hage, fun _ => ⟨Option.some_ne_none _, rfl⟩⟩
  · rw [if_neg hage, he]
    exact ⟨fun h => absurd h.2 (Option.some_ne_none _), fun h => absurd (decide_eq_true h) hage⟩

theorem getOrCreateTrack_lookup : (c.getOrCreateTrack ftn).2.cache.lookup ftn = some (c.getOrCreateTrack ftn).1 := by
  unfold getOrCreateTrack
  cases hf : c.cache.lookup ftn with
  | some t => exact hf
  | none =>
    show ((c.addTrack ftn).addTrackToLRU ftn c.nextTrack).cache.lookup ftn = some c.nextTrack
    rw [(@addTrackToLRU_enlists (c.addTrack ftn) c.nextTrack ftn).alike.cache]
    exact AList.lookup_insert c.cache

theorem setTrackState_duration (hm : c.getEffectiveCacheDuration extensions = some m) :
    ∃ t, (c.setTrackState ftn largest extensions).cache.lookup ftn = some t ∧
      ((c.setTrackState ftn largest extensions).track t).maxCacheDuration = some m := by
  have hcreated := @getOrCreateTrack_lookup c ftn
  unfold setTrackState
  rw [hm]
  simp only [applyCacheDuration, setMaxCacheDuration]
  generalize c.getOrCreateTrack ftn = p at hcreated
  generalize hk : p.2.setTrack p.1 { p.2.track p.1 with maxCacheDuration := some m } = k
  have hcache : k.cache.lookup ftn = some p.1 := by
    rw [← hk]
    exact hcreated
  have hlasts : (k.track p.1).maxCacheDuration = some m := by
    rw [← hk, setTrack_self]
  have hagain : k.getOrCreateTrack ftn = (p.1, k) := by
    unfold getOrCreateTrack
    rw [hcache]
  rw [hagain]
  refine ⟨p.1, ?_⟩
  split
  · exact ⟨hcache, by rw [setTrack_self]; exact hlasts⟩
  · split
    · rename_i hl
      refine ⟨hcache, ?_⟩
      rw [setTrack_self, updateLargest_eq hl, setTrack_self]
      exact hlasts
    · exact ⟨hcache, by rw [setTrack_self]; exact hlasts⟩

/-- `c` with a group for the track `t` that holds one object, as old as the clock. -/
def withEntry (c : MoqxCache) (t : TrackRef) (e : CacheEntry) : MoqxCache :=
  (c.setTrack t { c.track t with groups := AList.singleton 0 0 }).setGroup 0
    { c.group 0 with objects := AList.singleton 0 e }

theorem withEntry_entryAt : (c.withEntry t e).entryAt t ⟨0, 0⟩ = some e := by
  have hgroup : (c.withEntry t e).groupAt t 0 = some 0 := by
    show (((c.setTrack t _).track t).groups).lookup 0 = some 0
    rw [setTrack_self]
    rfl
  unfold entryAt
  rw [hgroup]
  show (((c.withEntry t e).group 0).objects).lookup 0 = some e
  unfold withEntry
  rw [setGroup_self]
  rfl

theorem withEntry_duration : ((c.withEntry t e).track t).maxCacheDuration = (c.track t).maxCacheDuration := by
  show (((c.setTrack t _).track t).maxCacheDuration) = _
  rw [setTrack_self]

/-- **Expiry obeys the advertised duration**, at every age the clock can tell, exactly if the duration under
    the cap is one that a 64-bit count of nanoseconds can hold: the comparison converts it to one. -/
theorem expiry_obeys_duration_iff (hd : extensions.getIntExtension kMaxCacheDurationExtensionType = some d)
    (hwire : d < 2 ^ 62) (ht : (c.setTrackState ftn largest extensions).cache.lookup ftn = some t) :
    (∀ (c' : MoqxCache) loc (e : CacheEntry) now, (c'.track t).maxCacheDuration =
          ((c.setTrackState ftn largest extensions).track t).maxCacheDuration →
        c'.entryAt t loc = some e → Int64Range now → Int64Range e.cachedAt → Int64Range (now - e.cachedAt) →
        (c'.Expires t loc now ↔ c.cappedDuration d * 1000000 < now - e.cachedAt)) ↔
      Int64Range (c.cappedDuration d * 1000000) := by
  have heffective : c.getEffectiveCacheDuration extensions = some (c.cappedDuration d) := by
    have hint : int64 d = d := int64_of_range ⟨by omega, by omega⟩
    unfold getEffectiveCacheDuration cappedDuration
    rw [hd]
    cases c.maxAllowedCacheDuration with
    | none => exact congrArg some hint
    | some cap =>
      show some (min (int64 d) cap) = some (min (d : Int) cap)
      rw [hint]
  obtain ⟨t', ht', hlasts⟩ := @setTrackState_duration c ftn largest extensions _ heffective
  cases ht.symm.trans ht'
  generalize c.setTrackState ftn largest extensions = k at hlasts
  generalize c.cappedDuration d = m at hlasts
  constructor
  · intro h
    -- an entry cached at time 0, looked up at the ends of the clock's range
    have hend : ∀ now : TimePoint, Int64Range now → (int64 (m * 1000000) < now ↔ m * 1000000 < now) := by
      intro now hnow
      let e : CacheEntry := ⟨0, .normal, noExtensions, none, 0, true, false, 0⟩
      have hzero : now - e.cachedAt = now := Int.sub_zero now
      have := h (k.withEntry t e) ⟨0, 0⟩ e now withEntry_duration withEntry_entryAt hnow ⟨by decide, by decide⟩
        (by rw [hzero]; exact hnow)
      rw [expires_iff (withEntry_duration.trans hlasts) withEntry_entryAt, hzero, int64_of_range hnow] at this
      exact this
    obtain ⟨hlow, hhigh⟩ := int64_milliseconds m
    constructor
    · by_contra hm
      have := (hend (-2 ^ 63) ⟨by decide, by decide⟩).mpr (by omega)
      omega
    · by_contra hm
      have := (hend (2 ^ 63 - 1) ⟨by decide, by decide⟩).mp (by omega)
      omega
  · intro hm c' loc e now hsame he _ _ hage
    rw [expires_iff (hsame.trans hlasts) he, int64_of_range hm, int64_of_range hage]

/-- A duration of about 292 years, the first one that overflows: an object is expired when it is cached. -/
theorem expires_at_once :
    ∃ s s' s'' : System, (System.init 2 4 100 0).step
        (.setTrackState ⟨[], []⟩ none ⟨[(kMaxCacheDurationExtensionType, 9223372036855)]⟩) = some s ∧
      s.step (.getSubscribeWriteback ⟨[], []⟩) = some s' ∧
      s'.step (.datagram 0 ⟨0, 0, 0, .normal, noExtensions⟩ (some [7]) 5) = some s'' ∧
      s''.cache.Expires 0 ⟨0, 0⟩ 5 ∧ ¬ s''.cache.cappedDuration 9223372036855 * 1000000 < 5 - 5 := by
  refine ⟨_, _, _, rfl, rfl, rfl, ?_, by decide⟩
  rw [expires_iff (m := 9223372036855) rfl rfl]
  decide

/-- A minute: the entry is dropped one nanosecond after it. -/
theorem expiry_obeys_duration_iff_minute :
    (((MoqxCache.init 2 4 100 0).setTrackState ⟨[], []⟩ none ⟨[(kMaxCacheDurationExtensionType, 60000)]⟩).withEntry 0
      ⟨0, .normal, noExtensions, none, 0, true, false, 5⟩).Expires 0 ⟨0, 0⟩ 60000000006 := by
  have h := (@expiry_obeys_duration_iff (.init 2 4 100 0) 0 ⟨[], []⟩ none
    ⟨[(kMaxCacheDurationExtensionType, 60000)]⟩ 60000 rfl (by decide) rfl).mpr ⟨by decide, by decide⟩
  exact (h _ ⟨0, 0⟩ _ 60000000006 withEntry_duration withEntry_entryAt ⟨by decide, by decide⟩
    ⟨by decide, by decide⟩ ⟨by decide, by decide⟩).mpr (by decide)

end duration

end MoqxCache

end Moqx

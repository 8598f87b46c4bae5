/-
  Subject: Pinned groups, and what the lists of evictable tracks and groups say about the open writebacks.

  * `pinsKept`, `step_keeps` -- the pins an event leaves alone, and that nothing they hold goes away;
  * `step_held` -- a group that stays pinned stays;
  * all lists together.
-/
import Moqx.Cache.Evictable

namespace Moqx

open MoqxCache SubscribeWriteback

namespace System

variable {s s' : System} {t : TrackRef} {op : CacheOp}

/-! ## 1. Events -/

/-- The pins an event leaves alone: those of all writebacks but the one it concerns. -/
def pinsKept (s : System) : CacheOp → GroupRef → Nat
  | .writeback id _ _ => s.pinsBut id
  | .fetchOk id _ _ => s.pinsBut id
  | .closeWriteback id => s.pinsBut id
  | _ => s.pins

theorem openWriteback_keeps {f : RunningFetch} {proxyFin : Bool} {start «end» : AbsoluteLocation} {order : GroupOrder}
    (hb : Books s) (ht : s.cache.Tracks f.ftn f.track) :
    Keeps (fun r => 0 < s.pins r) s.cache (s.openWriteback f proxyFin start «end» order).cache :=
  (FetchWriteback.open_calm hb.sound ht).2.1.toKeeps

theorem step_keeps (hb : Books s) (hs : s.step op = some s') :
    Keeps (fun r => 0 < s.pinsKept op r) s.cache s'.cache := by
  cases step_does hs with
  | @subscribe ftn =>
    obtain ⟨htidy, htracks⟩ := @findOrAddTrack_tidy _ _ _ ftn hb.sound
    have hopen := @open_sound _ _ _ (fun r => 0 < s.pins r)
      ⟨(s.cache.findOrAddTrack ftn).1, ftn⟩ htidy.1 htracks.track
    exact (htidy.2.trans hopen.2).toKeeps
  | @begun _ _ subgroupID _ _ _ _ hw hskip hgroup =>
    exact (@begun_sound _ _ _ _ _ _ subgroupID _ hb.sound (hb.subscribes hw) hskip hgroup).2.1.toKeeps
  | @header _ _ _ _ datagram _ _ hw hop =>
    have hkept : s.pinsKept op = s.pins := by
      rw [hop]
      cases datagram <;> rfl
    rw [hkept]
    exact (cacheHeader_stores hb.sound (hb.subscribes hw)).2.toKeeps
  | closeSubscribe hw =>
    exact (close_sound hb.sound (hb.subscribes hw).track (lives_of_subscribe hw)).2.toKeeps
  | subgroup hw => exact (SubgroupWriteback.call_stores hb.sound (hb.subgroups hw)).2.toKeeps
  | closeSubgroup hw =>
    exact (SubgroupWriteback.close_sound hb.sound (hb.subgroups hw) (pins_of_subgroup hw)).2.toKeeps
  | fetch ht =>
    obtain ⟨htidy, htracks⟩ := addFetchedTrack_tidy hb.sound ht
    exact htidy.2.toKeeps.trans (openWriteback_keeps (hb.tidy htidy) htracks)
  | lookup hf => exact (getCachedObjectMaybe_tidy hb.sound (hb.fetches hf).track).2.toKeeps
  | fetchUpstream hf => exact openWriteback_keeps hb (hb.fetches hf)
  | writeback hw ho => exact (FetchWriteback.call_step (hb.good hw) ho).change.keeps
  | fetchOk hw hok =>
    obtain ⟨q, c, hq, hc, rfl⟩ := fetchOk_answers hok
    exact (FetchWriteback.setUpstreamEnd_calm (hb.good hw) hq).change.toKeeps.trans hc.alike.keeps
  | closeWriteback hw => exact (FetchWriteback.close_sound (hb.good hw)).2.toKeeps
  | cache hop =>
    have hkeeps := (@cacheStep_tidy s.cache op _ _ hb.sound).2.toKeeps
    cases op with
    | writeback => exact absurd rfl (hop _ _ _)
    | fetchOk | closeWriteback => exact (Sheds.refl _).toKeeps
    | _ => exact hkeeps
  | refused | serve | closeFetch => exact (Sheds.refl _).toKeeps

theorem withPin_own {base : GroupRef → Nat} {own : Option GroupRef} {r : GroupRef}
    (h : 0 < FetchWriteback.withPin base own r) (hbase : ¬0 < base r) : own = some r := by
  unfold FetchWriteback.withPin at h
  split at h
  · assumption
  · exact absurd h hbase

theorem own_pin_held {pinned : GroupRef → Prop} {w w' : FetchWriteback} {id g : Nat} {r : GroupRef} (hb : Books s)
    (hb' : Books s') (hk : Keeps pinned s.cache s'.cache) (hw : s.writebacks.lookup id = some w)
    (hw' : s'.writebacks = s.writebacks.insert id w') (hsub : s'.subgroups = s.subgroups)
    (hpin : 0 < s.pins r) (hpin' : 0 < s'.pins r) (hbut : ¬0 < s.pinsBut id r)
    (htrack : w'.track = w.track) (hg : s.cache.groupAt t g = some r) (he : (s'.cache.track t).evicted = false) :
    s'.cache.groupAt t g = some r := by
  rw [pins_eq_withPin hw] at hpin
  rw [pins_insert_fetch hw' hsub] at hpin'
  have hlookup : s'.writebacks.lookup id = some w' := by
    rw [hw']
    exact AList.lookup_insert _
  obtain ⟨key, -, hh⟩ := (hb.writebacks hw).pinned (withPin_own hpin hbut)
  obtain ⟨key', -, hh'⟩ := (hb'.writebacks hlookup).pinned (withPin_own hpin' hbut)
  obtain ⟨rfl, -⟩ := hh.owner hg
  rw [htrack] at hh'
  have hheld := hh'.held he
  obtain ⟨-, rfl⟩ := hb.sound.groupOnce (hk.owner hh.group hheld) hg
  exact hheld

/-- **A pinned group stays**: one that is pinned before and after an event is still held, unless its track is
    evicted. -/
theorem step_held {g : Nat} {r : GroupRef} (hb : Books s) (hs : s.step op = some s') (ht : t < s.cache.nextTrack)
    (hg : s.cache.groupAt t g = some r) (hpin : 0 < s.pins r) (hpin' : 0 < s'.pins r)
    (he : (s'.cache.track t).evicted = false) : s'.cache.groupAt t g = some r := by
  have hk := step_keeps hb hs
  have hb' := step_books hb hs
  by_cases hkept : 0 < s.pinsKept op r
  · exact hk.held hkept ht hg he
  · -- only the writeback of the event has pinned the group
    cases op with
    | writeback id call now =>
      obtain ⟨w, hw, hs⟩ := Option.bind_eq_some_iff.mp hs
      obtain ⟨ho, rfl⟩ := unlessAborted_some hs
      have hsame := (FetchWriteback.call_step (hb.good hw) ho).same
      exact own_pin_held hb hb' hk hw rfl rfl hpin hpin' hkept hsame.range.track hg he
    | fetchOk id ok setExtensions =>
      obtain ⟨w, hw, hs⟩ := Option.bind_eq_some_iff.mp hs
      obtain ⟨q, hq, hs⟩ := Option.bind_eq_some_iff.mp hs
      have hsame := (FetchWriteback.setUpstreamEnd_calm (hb.good hw) hq).same
      cases hs
      exact own_pin_held hb hb' hk hw rfl rfl hpin hpin' hkept hsame.range.track hg he
    | closeWriteback id =>
      obtain ⟨w, hw, hs⟩ := Option.bind_eq_some_iff.mp hs
      have herase : s'.pins = s.pinsBut id := by
        cases hs
        exact pins_erase_fetch rfl rfl
      rw [herase] at hpin'
      exact absurd hpin' hkept
    | _ => exact absurd hpin hkept

/-! ## 2. Pins and lists -/

/-- **Pins and lists agree.** In every state of every run:

    * a track that is not evicted has a name in the cache, and the list of its groups and the list over all
      tracks hold exactly its unpinned groups, once each;
    * a group's count of pins is the number of open writebacks that have pinned it;
    * every track in the list of tracks is in the cache and may be evicted, and no track is in it twice;
    * a track in the cache with neither a subscription nor a fetch open is in that list;
    * neither limit takes a pinned group away, and no event does, unless its track is evicted;
    * no entry of a list has ever been found stale, and no group has been listed that was listed. -/
theorem pins_and_lists_agree {tracks groups bytes eviction : Nat}
    (h : Reachable (fun _ _ => True) (init tracks groups bytes eviction) s) :
    (∀ t, t < s.cache.nextTrack → (s.cache.track t).evicted = false →
        ∃ ftn, s.cache.cache.lookup ftn = some t ∧ (s.cache.track t).groupLRU.Nodup ∧ s.cache.globalGroupLRU.Nodup ∧
          ∀ g, (g ∈ (s.cache.track t).groupLRU ↔
              ∃ r, (s.cache.track t).groups.lookup g = some r ∧ (s.cache.group r).pinCount = 0) ∧
            ((ftn, g) ∈ s.cache.globalGroupLRU ↔
              ∃ r, (s.cache.track t).groups.lookup g = some r ∧ (s.cache.group r).pinCount = 0)) ∧
      (∀ r, r < s.cache.nextGroup → (s.cache.group r).pinCount =
        Table.count (fun w : SubgroupWriteback => w.cacheGroup = r) s.subgroups +
          Table.count (fun w : FetchWriteback => w.pinnedGroup = some r) s.writebacks) ∧
      (s.cache.trackLRU.Nodup ∧ ∀ ftn ∈ s.cache.trackLRU,
        ∃ t, s.cache.cache.lookup ftn = some t ∧ (s.cache.track t).canEvict = true) ∧
      (∀ ftn t, s.cache.cache.lookup ftn = some t → (∀ id w, s.subscribes.lookup id = some w → w.track ≠ t) →
        (∀ id w, s.writebacks.lookup id = some w → w.track ≠ t) → ftn ∈ s.cache.trackLRU) ∧
      (∀ t g r, (s.cache.track t).groups.lookup g = some r → 0 < (s.cache.group r).pinCount →
        (∀ u, ((s.cache.evictOldestGroupsIfNeeded u).track t).groups.lookup g = some r) ∧
          (s.cache.evictForByteLimitIfNeeded.2.track t).groups.lookup g = some r ∧
          ∀ op s', s.step op = some s' → t < s.cache.nextTrack → 0 < (s'.cache.group r).pinCount →
            (s'.cache.track t).evicted = false → (s'.cache.track t).groups.lookup g = some r) ∧
      s.cache.underflow = false := by
  obtain ⟨hb, hf, hl⟩ := reachable_listing h
  have hs := hb.sound
  refine ⟨fun t ht he => ?_, fun r hr => hs.pinCount r hr, ⟨hl.listed.nodup, fun ftn hm => ?_⟩,
    fun ftn t hlook hsub hfetch => ?_, fun t g r hg hp => ?_, hs.noUnderflow⟩
  · obtain ⟨ftn, hlook⟩ := hs.cached ht he
    refine ⟨ftn, hlook, hs.trackNodup t, hs.allNodup, fun g => ⟨?_, ?_⟩⟩
    · exact (hs.inTrack t g).trans ⟨fun h => h.2, fun h => ⟨⟨ftn, hlook⟩, h⟩⟩
    · refine (hs.inAll ftn g).trans ⟨fun ⟨u, r, hu, hr⟩ => ?_, fun ⟨r, hr⟩ => ⟨t, r, hlook, hr⟩⟩
      rw [hlook] at hu
      cases hu
      exact ⟨r, hr⟩
  · obtain ⟨t, hlook, hi⟩ := (hl.listed.mem ftn).mp hm
    have hsome : (s.cache.track t).lruIter.isSome := by
      rw [hi]
      rfl
    exact ⟨t, hlook, (canEvict_iff hb hf (hs.cacheBound hlook)).mpr (hl.unused hlook hsome)⟩
  · have hlives : s.lives t = 0 := Table.count_eq_zero fun id w hw => hsub id w hw
    obtain ⟨ftn', hi⟩ := Option.isSome_iff_exists.mp (hl.deserted hlook ⟨hlives, fun hw => hfetch _ _ hw⟩)
    cases hl.listed.iter hlook hi
    exact (hl.listed.mem ftn).mpr ⟨t, hlook, hi⟩
  · have hpins := hp
    rw [hs.pinCount r (hs.groupBound hg)] at hpins
    refine ⟨fun u => (evictOldestGroupsIfNeeded_trims hs).held hs hpins hg,
      (evictForByteLimitIfNeeded_trims hs).held hs hpins hg, fun op s' hstep ht hp' he => ?_⟩
    refine step_held hb hstep ht hg hpins ?_ he
    have hb' := step_books hb hstep
    have hr : r < s'.cache.nextGroup := Nat.lt_of_lt_of_le (hs.groupBound hg) (step_keeps hb hstep).nextGroup
    rw [← hb'.sound.pinCount r hr]
    exact hp'

/-- A subgroup and an upstream fetch have pinned a group of one track, which the byte limit would evict. -/
theorem pins_and_lists_agree_two_pins :
    ∃ s, Reachable (fun _ _ => True) (init 4 4 1 0) s ∧ (s.cache.group 0).pinCount = 2 ∧
      (s.cache.evictForByteLimitIfNeeded.2.track 0).groups.lookup 0 = some 0 := by
  have h0 : Reachable (fun _ _ => True) (init 4 4 1 0) (init 4 4 1 0) := .start
  have h1 := h0.next (.getSubscribeWriteback ⟨[], []⟩) trivial rfl
  have h2 := h1.next (.beginSubgroup 0 0 0 true) trivial rfl
  have h3 := h2.next (.subgroup 1 (.object 0 (some [4, 5]) noExtensions) 0) trivial rfl
  have h4 := h3.next (.fetch ⟨[], []⟩ ⟨0, 0⟩ ⟨1, 0⟩ .oldestFirst) trivial rfl
  have h5 := h4.next (.fetchUpstream 2 true ⟨0, 1⟩ ⟨1, 0⟩ .oldestFirst) trivial rfl
  refine ⟨_, h5, rfl, ?_⟩
  exact ((pins_and_lists_agree h5).2.2.2.2.1 0 0 0 rfl (by decide)).2.1

/-- The writeback of a fetch that has ended is still there when another one of the track is closed, which lists the
    track: when it is closed itself, the track is listed already. -/
theorem track_listed_twice :
    ∃ s w, Reachable (fun _ _ => True) (init 4 4 100 0) s ∧ s.writebacks.lookup 0 = some w ∧
      (FetchWriteback.eraseAndMakeGroupEvictable (s.cache, w)).1.cache.lookup w.ftn = some 0 ∧
      ((FetchWriteback.eraseAndMakeGroupEvictable (s.cache, w)).1.track 0).canEvict = true ∧
      ((FetchWriteback.eraseAndMakeGroupEvictable (s.cache, w)).1.track 0).lruIter.isSome = true := by
  have h0 : Reachable (fun _ _ => True) (init 4 4 100 0) (init 4 4 100 0) := .start
  have h1 := h0.next (.fetch ⟨[], []⟩ ⟨0, 0⟩ ⟨0, 5⟩ .oldestFirst) trivial rfl
  have h2 := h1.next (.writeback 0 .endOfFetch 0) trivial rfl
  have h3 := h2.next (.fetch ⟨[], []⟩ ⟨1, 0⟩ ⟨1, 5⟩ .oldestFirst) trivial rfl
  have h4 := h3.next (.fetchUpstream 1 true ⟨1, 0⟩ ⟨1, 5⟩ .oldestFirst) trivial rfl
  have h5 := h4.next (.closeWriteback 2) trivial rfl
  exact ⟨_, _, h5, rfl, rfl, rfl, rfl⟩

end System

end Moqx

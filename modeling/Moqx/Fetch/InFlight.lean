/-
  Subject: Every entry among the fetches in progress belongs to an open writeback, in every run.

  * `step_inFlight` -- one event.
-/
import Moqx.Cache.Runs
import Moqx.Fetch.Registry

namespace Moqx

open MoqxCache FetchWriteback

/-! ## 1. Operations of the cache that touch no table -/

namespace MoqxCache

variable {c c' c'' : MoqxCache} {t : TrackRef} {ftn : FullTrackName}

structure SameTables (c c' : MoqxCache) : Prop where
  nextTrack : c.nextTrack ≤ c'.nextTrack
  table : ∀ t, (c'.track t).fetchesInProgress = (c.track t).fetchesInProgress

def FreshTables (c : MoqxCache) : Prop := ∀ t, c.nextTrack ≤ t → (c.track t).fetchesInProgress = []

theorem SameTables.refl (c : MoqxCache) : SameTables c c := ⟨Nat.le_refl _, fun _ => rfl⟩

theorem SameTables.trans (h : SameTables c c') (h' : SameTables c' c'') : SameTables c c'' :=
  ⟨h.nextTrack.trans h'.nextTrack, fun t => (h'.table t).trans (h.table t)⟩

theorem FreshTables.same (hf : FreshTables c) (h : SameTables c c') : FreshTables c' := fun t ht => by
  rw [h.table t]
  exact hf t (h.nextTrack.trans ht)

theorem Passive.sameTables (h : Passive c c') : SameTables c c' := ⟨Nat.le_of_eq h.nextTrack.symm, h.inProgress⟩

theorem SameUse.sameTables (h : c.SameUse c') : SameTables c c' := h.passive.sameTables

theorem Enlists.sameTables (h : Enlists t c c') : SameTables c c' :=
  ⟨Nat.le_of_eq h.alike.nextTrack.symm, fun t => (h.rest t).1⟩

theorem onTrackBecameEvictable_sameTables : SameTables c (c.onTrackBecameEvictable ftn) :=
  onTrackBecameEvictable_enlists.elim fun _ h => h.sameTables

theorem setTrack_sameTables {tr : CacheTrack} (h : tr.fetchesInProgress = (c.track t).fetchesInProgress) :
    SameTables c (c.setTrack t tr) := by
  refine ⟨Nat.le_refl _, fun t' => ?_⟩
  by_cases ht : t' = t
  · subst ht
    rw [setTrack_self, h]
  · rw [setTrack_ne ht]

theorem addTrack_sameTables (hf : FreshTables c) : SameTables c (c.addTrack ftn) :=
  ⟨Nat.le_succ _, (@setTrack_sameTables c c.nextTrack {} (hf _ (Nat.le_refl _)).symm).table⟩

theorem findOrAddTrack_sameTables (hn : Named c) (hf : FreshTables c) :
    SameTables c (c.findOrAddTrack ftn).2 := by
  have hroom := (makeRoom_purges.passive hn).sameTables
  unfold findOrAddTrack
  split
  · exact .refl c
  · exact hroom.trans (addTrack_sameTables (hf.same hroom))

theorem getSubscribeWriteback_sameTables (hn : Named c) (hf : FreshTables c) :
    SameTables c (c.getSubscribeWriteback ftn).1 := by
  have hadd := @findOrAddTrack_sameTables c ftn hn hf
  unfold getSubscribeWriteback
  generalize c.findOrAddTrack ftn = q at hadd ⊢
  refine (hadd.trans (@removeTrackFromLRU_enlists q.2 q.1).sameTables).trans ?_
  exact setTrack_sameTables rfl

theorem getOrCreateTrack_sameTables (hf : FreshTables c) : SameTables c (c.getOrCreateTrack ftn).2 := by
  unfold getOrCreateTrack
  split
  · exact .refl c
  · exact (addTrack_sameTables hf).trans addTrackToLRU_enlists.sameTables

theorem addFetchedTrack_sameTables (hn : Named c) (hf : FreshTables c) (hnew : c.cache.lookup ftn = none) :
    SameTables c (c.addFetchedTrack ftn).2 := by
  have hadd : SameTables c (c.addTrack ftn) := addTrack_sameTables hf
  exact (hadd.trans (makeRoom_purges.passive (hn.addTrack hnew)).sameTables).trans addTrackToLRU_enlists.sameTables

theorem properties_sameTables (hf : FreshTables c) : KeepsProperties (SameTables c) where
  created h := h.trans (getOrCreateTrack_sameTables (hf.same h))
  duration h := h.trans (setTrack_sameTables rfl)
  extensions h := h.trans (setTrack_sameTables rfl)
  largest h hl := h.trans hl.sameUse.sameTables

theorem SubgroupWriteback.call_passive {w : SubgroupWriteback} {now : TimePoint} {call : SubgroupCall}
    (hn : Named c) : Passive c (w.call c now call).2.1 := by
  have hdoes := @SubgroupWriteback.call_does c now w call
  generalize (w.call c now call).2 = p at hdoes ⊢
  cases hdoes with
  | sets hl => exact hl.sameUse.passive
  | stores _ hl hd =>
    subst hd
    have hlargest := hl.sameUse.passive
    exact hlargest.trans (cacheObjectAndUpdateBytes_passive (hlargest.named hn))

end MoqxCache

/-! ## 2. The invariant -/

namespace System

variable {s s' : System} {R R' : Nat → FetchWriteback → AbsoluteLocation → Prop} {op : CacheOp}

variable {id : Nat} {c : MoqxCache} {w : FetchWriteback}

/-- Every open writeback has the entry it remembers, with a progress that `R` describes, and nobody else
    has one. -/
structure InFlight (R : Nat → FetchWriteback → AbsoluteLocation → Prop) (s : System) : Prop where
  entered : ∀ {id w}, s.writebacks.lookup id = some w →
    w.id = id ∧ ∃ p, w.Recorded p s.cache ∧ R id w p
  gone : ∀ {id}, s.writebacks.lookup id = none → ∀ t, (s.cache.track t).entriesOf id = []

theorem InFlight.owner (h : InFlight R s) {t : TrackRef} {e : AbsoluteLocation × FetchInProgressEntry}
    (he : e ∈ (s.cache.track t).fetchesInProgress) :
    ∃ w p, s.writebacks.lookup e.2.writeback = some w ∧ w.track = t ∧ e ∈ w.entries p ∧ R e.2.writeback w p := by
  have hmem : e ∈ (s.cache.track t).entriesOf e.2.writeback := CacheTrack.mem_entriesOf.mpr ⟨he, rfl⟩
  rcases Option.eq_none_or_eq_some (s.writebacks.lookup e.2.writeback) with hw | ⟨w, hw⟩
  · rw [h.gone hw t] at hmem
    cases hmem
  · obtain ⟨hid, p, hp, hR⟩ := h.entered hw
    rw [← hid, hp t] at hmem
    split at hmem
    · rename_i ht
      exact ⟨w, p, hw, ht.symm, hmem, hR⟩
    · cases hmem

theorem InFlight.empty (h : InFlight R s) {t : TrackRef}
    (ht : ∀ {id w}, s.writebacks.lookup id = some w → w.track = t → w.fetchInProgressIt = none) :
    (s.cache.track t).fetchesInProgress = [] := by
  rw [List.eq_nil_iff_forall_not_mem]
  intro e he
  obtain ⟨w, p, hw, htrack, hmem, -⟩ := h.owner he
  unfold entries at hmem
  rw [ht hw htrack] at hmem
  cases hmem

theorem InFlight.fresh (h : InFlight R s) (hb : Books s) : FreshTables s.cache := fun t ht =>
  h.empty @fun id w hw htrack => by
    have hlt := (hb.writebacks hw).track
    rw [htrack] at hlt
    exact absurd hlt (Nat.not_lt.mpr ht)

/-- What a run has to show of `R`, for one event. -/
structure Carries (R R' : Nat → FetchWriteback → AbsoluteLocation → Prop) (s : System) (op : CacheOp) : Prop where
  rest : ∀ {id w p}, s.writebacks.lookup id = some w → R id w p → (∀ call now, op ≠ .writeback id call now) →
    R' id w p
  fetched : ∀ {ftn start «end» order}, op = .fetch ftn start «end» order → s.cache.cache.lookup ftn = none →
    R' s.next (FetchWriteback.open ((s.cache.addFetchedTrack ftn).2, .make (s.cache.addFetchedTrack ftn).2 s.next true
      ftn (s.cache.addFetchedTrack ftn).1 start (toExclusiveEnd «end») order)).2 start
  upstream : ∀ {id f lastObject start «end» order}, op = .fetchUpstream id lastObject start «end» order →
    s.fetches.lookup id = some f →
    R' s.next (FetchWriteback.open (s.cache, .make s.cache s.next lastObject f.ftn f.track start «end» order)).2 start
  called : ∀ {id w p call now}, op = .writeback id call now → s.writebacks.lookup id = some w →
    R id w p → w.Recorded p s.cache → FetchWriteback.Follows call p (s.cache, w) (FetchWriteback.call (s.cache, w) now call).2 →
    (FetchWriteback.call (s.cache, w) now call).1 ≠ .aborted →
    ∃ p', (FetchWriteback.call (s.cache, w) now call).2.2.Recorded p'
        (FetchWriteback.call (s.cache, w) now call).2.1 ∧
      R' id (FetchWriteback.call (s.cache, w) now call).2.2 p'
  ended : ∀ {id w p ok setExtensions loc gaps}, op = .fetchOk id ok setExtensions → s.writebacks.lookup id = some w →
    R id w p → R' id { w with upstreamEnd := some loc, pendingGaps := gaps } p

theorem InFlight.frame (h : InFlight R s) (hw : s'.writebacks = s.writebacks) (ht : SameTables s.cache s'.cache)
    (hR : ∀ {id w p}, s.writebacks.lookup id = some w → R id w p → R' id w p) : InFlight R' s' where
  entered hl := by
    rw [hw] at hl
    obtain ⟨hid, p, hp, hr⟩ := h.entered hl
    refine ⟨hid, p, hp.frame (fun t => ?_) (.refl _) rfl, hR hl hr⟩
    rw [CacheTrack.entriesOf, ht.table t]
    rfl
  gone hl t := by
    rw [hw] at hl
    rw [CacheTrack.entriesOf, ht.table t]
    exact h.gone hl t

theorem InFlight.setCache (h : InFlight R s) (ht : SameTables s.cache c)
    (hR : ∀ {id w p}, s.writebacks.lookup id = some w → R id w p → R' id w p) : InFlight R' (s.setCache c) :=
  h.frame rfl ht hR

theorem InFlight.replace {w' : FetchWriteback} {next : Nat} {p' : AbsoluteLocation} (h : InFlight R s)
    (hothers : ∀ {j} t, j ≠ id → (c.track t).entriesOf j = (s.cache.track t).entriesOf j) (hid : w'.id = id)
    (hp : w'.Recorded p' c) (hown : R' id w' p')
    (hR : ∀ {j w p}, s.writebacks.lookup j = some w → j ≠ id → R j w p → R' j w p) :
    InFlight R' { s with cache := c, writebacks := s.writebacks.insert id w', next := next } where
  entered := @fun j w hl => by
    rcases Table.lookup_insert_cases hl with ⟨rfl, rfl⟩ | ⟨hne, hl⟩
    · exact ⟨hid, p', hp, hown⟩
    · obtain ⟨hj, p, hp, hr⟩ := h.entered hl
      refine ⟨hj, p, hp.frame (fun t => ?_) (.refl _) rfl, hR hl hne hr⟩
      rw [hj]
      exact hothers t hne
  gone := @fun j hl t => by
    have hne : j ≠ id := by
      intro heq
      subst heq
      replace hl : (s.writebacks.insert j w').lookup j = none := hl
      rw [AList.lookup_insert] at hl
      cases hl
    replace hl : (s.writebacks.insert id w').lookup j = none := hl
    rw [AList.lookup_insert_ne hne] at hl
    show (c.track t).entriesOf j = []
    rw [hothers t hne]
    exact h.gone hl t

theorem InFlight.openWriteback {f : RunningFetch} {proxyFin : Bool} {start stop : AbsoluteLocation}
    {order : GroupOrder} (h : InFlight R s) (hnew : s.writebacks.lookup s.next = none)
    (hown : R' s.next (FetchWriteback.open (s.cache,
      .make s.cache s.next proxyFin f.ftn f.track start stop order)).2 start)
    (hR : ∀ {id w p}, s.writebacks.lookup id = some w → R id w p → R' id w p) :
    InFlight R' (s.openWriteback f proxyFin start stop order) := by
  have hmin : (make s.cache s.next proxyFin f.ftn f.track start stop order).fetchRangeIt.minLocation =
      start := FetchRangeIterator.construct_min
  have hopen := @open_enters (s.cache, .make s.cache s.next proxyFin f.ftn f.track start stop order)
    start rfl
  have hmake : (make s.cache s.next proxyFin f.ftn f.track start stop order).Recorded start s.cache := by
    intro t
    have hgone := h.gone hnew t
    refine Eq.trans hgone ?_
    split <;> rfl
  rw [hmin] at hopen
  exact h.replace (fun t hj => hopen.others t hj) hopen.id (hopen.own hmake) hown fun hl _ hr => hR hl hr

/-! ## 3. Events -/

theorem cacheStep_sameTables (hn : Named c) (hf : FreshTables c) :
    SameTables c (cacheStep c op) := by
  have hdoes := @cacheStep_does c op
  generalize cacheStep c op = c' at hdoes
  cases hdoes with
  | lookup => exact getCachedObjectMaybe_sameUse.sameTables
  | state => exact (properties_sameTables hf).setTrackState (.refl _)
  | purges hp => exact (hp.passive hn).sameTables

theorem closeWriteback_inFlight (h : InFlight R s) (hw : s.writebacks.lookup id = some w)
    (hR : ∀ {id w p}, s.writebacks.lookup id = some w → R id w p → R' id w p) :
    InFlight R' (s.closed id w) := by
  obtain ⟨hid, p, hp, -⟩ := h.entered hw
  have htable := @close_table (s.cache, w) p hp
  simp only [hid] at htable
  refine ⟨@fun j w' hl => ?_, @fun j hl t => ?_⟩
  · obtain ⟨hne, hl⟩ := Table.lookup_erase_iff.mp hl
    obtain ⟨hj, p', hp', hr⟩ := h.entered hl
    refine ⟨hj, p', hp'.frame (fun t => ?_) (.refl _) rfl, hR hl hr⟩
    rw [hj]
    exact (htable t j).trans (if_neg hne)
  · show ((close (s.cache, w)).track t).entriesOf j = []
    rw [htable t j]
    split
    · rfl
    · rename_i hne
      replace hl : (s.writebacks.erase id).lookup j = none := hl
      rw [AList.lookup_erase_ne hne] at hl
      exact h.gone hl t

theorem Answers.sameUse {c c' : MoqxCache} {t : TrackRef} (h : Answers t c c') : c.SameUse c' := by
  obtain ⟨d, rfl | ⟨ext, rfl⟩, hl⟩ := h
  · exact hl.sameUse
  · refine SameUse.trans (setTrack_sameUse ?_) hl.sameUse
    exact ⟨rfl, rfl, rfl, fun h => ⟨h, rfl⟩⟩

theorem fetchOk_inFlight {ok : FetchOk} {setExtensions : Bool} (h : InFlight R s)
    (hw : s.writebacks.lookup id = some w) (hs : s.fetchOk id w ok setExtensions = some s')
    (hown : ∀ {p loc gaps}, R id w p → R' id { w with upstreamEnd := some loc, pendingGaps := gaps } p)
    (hR : ∀ {id w p}, s.writebacks.lookup id = some w → R id w p → R' id w p) : InFlight R' s' := by
  obtain ⟨hid, p, hp, hr⟩ := h.entered hw
  obtain ⟨q, c, hq, hc, rfl⟩ := fetchOk_answers hs
  obtain ⟨henter, gaps, hq'⟩ := @setUpstreamEnd_enters (s.cache, w) q p _ hq
  have htable : ∀ {j} t, (c.track t).entriesOf j = (q.1.track t).entriesOf j := fun t => by
    rw [CacheTrack.entriesOf, hc.sameUse.sameTables.table t]
    rfl
  have hrec := (henter.own hp).frame (fun t => htable t) (.refl _) rfl
  refine h.replace (fun t hj => (htable t).trans (henter.others t ?_)) (henter.id.trans hid) hrec ?_
    fun hl _ hr => hR hl hr
  · rw [hid]
    exact hj
  · rw [hq']
    exact hown hr

theorem writeback_inFlight {call : FetchCall} {now : TimePoint} (h : InFlight R s) (hb : Books s)
    (hw : s.writebacks.lookup id = some w) (ha : (FetchWriteback.call (s.cache, w) now call).1 ≠ .aborted)
    (hc : Carries R R' s (.writeback id call now)) :
    InFlight R' (s.called id w now call) := by
  obtain ⟨hid, p, hp, hr⟩ := h.entered hw
  have hfollow := @call_follows (s.cache, w) p call now hb.sound.toNamed ha
  obtain ⟨p₀, henter⟩ := hfollow.enters
  obtain ⟨p', hp', hr'⟩ := hc.called rfl hw hr hp hfollow ha
  refine h.replace (fun t hj => henter.others t ?_) (henter.id.trans hid) hp' hr' fun hl hne hr => ?_
  · rw [hid]
    exact hj
  · refine hc.rest hl hr fun call' now' heq => ?_
    cases heq
    exact hne rfl

/-- **One event** keeps the tables of fetches in progress right. -/
theorem step_inFlight (hb : Books s) (h : InFlight R s) (hc : Carries R R' s op) (hs : s.step op = some s') :
    InFlight R' s' := by
  have hn := hb.sound.toNamed
  have hf := h.fresh hb
  by_cases hcall : ∃ id call now, op = .writeback id call now
  · obtain ⟨id, call, now, rfl⟩ := hcall
    cases step_does hs with
    | writeback hw ho => exact writeback_inFlight h hb hw ho hc
    | header _ hop => split at hop <;> cases hop
    | cache hop => exact absurd rfl (hop _ _ _)
  · have hrest : ∀ {id w p}, s.writebacks.lookup id = some w → R id w p → R' id w p :=
      fun hl hr => hc.rest hl hr fun call now hop => hcall ⟨_, call, now, hop⟩
    cases step_does hs with
    | subscribe => exact h.frame rfl (getSubscribeWriteback_sameTables hn hf) hrest
    | @begun _ groupID _ _ w r c _ _ hgroup =>
      have hu := @getOrCreateGroupWithEviction_sameUse s.cache w.track groupID w.ftn
      rw [hgroup] at hu
      exact h.frame rfl (hu.trans pinGroup_relinks.sameUse).sameTables hrest
    | header => exact h.frame rfl (SubscribeWriteback.cacheHeader_passive hn).sameTables hrest
    | @closeSubscribe id w hw =>
      have hset : SameTables s.cache (s.cache.setTrack w.track { s.cache.track w.track with
          liveWritebackCount := (s.cache.track w.track).liveWritebackCount - 1 }) := setTrack_sameTables rfl
      have hcount : SameTables s.cache (w.uncounted s.cache) := ⟨Nat.le_refl _, hset.table⟩
      exact h.frame rfl (hcount.trans onTrackBecameEvictable_sameTables) hrest
    | subgroup => exact h.frame rfl (SubgroupWriteback.call_passive hn).sameTables hrest
    | closeSubgroup => exact h.frame rfl unpinGroup_relinks.sameUse.sameTables hrest
    | @fetch ftn _ _ _ ht =>
      have hadd : InFlight R' (s.setCache (s.cache.addFetchedTrack ftn).2) :=
        h.frame rfl (addFetchedTrack_sameTables hn hf ht) hrest
      exact hadd.openWriteback (hb.fresh s.next (Nat.le_refl _)).2.2.2 (hc.fetched rfl ht) fun _ hr => hr
    | lookup => exact h.frame rfl getCachedObjectMaybe_sameUse.sameTables hrest
    | fetchUpstream hfetch =>
      exact h.openWriteback (hb.fresh s.next (Nat.le_refl _)).2.2.2 (hc.upstream rfl hfetch) hrest
    | writeback => exact absurd ⟨_, _, _, rfl⟩ hcall
    | fetchOk hw hok => exact fetchOk_inFlight h hw hok (fun hr => hc.ended rfl hw hr) hrest
    | closeWriteback hw => exact closeWriteback_inFlight h hw hrest
    | cache => exact h.setCache (cacheStep_sameTables hn hf) hrest
    | refused | serve | closeFetch => exact h.frame rfl (.refl _) hrest

theorem init_inFlight {tracks groups bytes eviction : Nat} : InFlight R (init tracks groups bytes eviction) where
  entered hl := nomatch hl
  gone _ _ := rfl

end System

end Moqx

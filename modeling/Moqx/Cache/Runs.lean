/-
  Subject: The books are right in every state of every run.

  * `step_books`, `reachable_books` -- one event, and every run;
  * the byte counters.
-/
import Moqx.Fetch.Books

namespace Moqx

open MoqxCache Table SubscribeWriteback

namespace System

variable {s s' : System} {pinned : GroupRef → Prop} {c : MoqxCache} {id : Nat}
variable {j tracks groups bytes eviction : Nat} {r : GroupRef} {ftn : FullTrackName}
  {now : TimePoint}

variable {w : FetchWriteback} {op : CacheOp}

/-! ## 1. What is open -/

def pins (s : System) (r : GroupRef) : Nat :=
  count (fun w : SubgroupWriteback => w.cacheGroup = r) s.subgroups +
    count (fun w : FetchWriteback => w.pinnedGroup = some r) s.writebacks

def lives (s : System) (t : TrackRef) : Nat :=
  count (fun w : SubscribeWriteback => w.track = t) s.subscribes

def pinsBut (s : System) (id : Nat) (r : GroupRef) : Nat :=
  count (fun w : SubgroupWriteback => w.cacheGroup = r) s.subgroups +
    count (fun w : FetchWriteback => w.pinnedGroup = some r) (s.writebacks.erase id)

theorem pinsBut_of_subgroup {w : SubgroupWriteback} (h : s.subgroups.lookup id = some w) :
    0 < s.pinsBut j w.cacheGroup :=
  Nat.lt_of_lt_of_le (count_pos (p := fun w' => w'.cacheGroup = w.cacheGroup) h rfl) (Nat.le_add_right _ _)

theorem pinsBut_of_fetch (h : s.writebacks.lookup id = some w) (hj : id ≠ j)
    (hr : w.pinnedGroup = some r) : 0 < s.pinsBut j r :=
  Nat.lt_of_lt_of_le (count_pos (lookup_erase_iff.mpr ⟨hj, h⟩) hr) (Nat.le_add_left _ _)

theorem pins_of_subgroup {w : SubgroupWriteback} (h : s.subgroups.lookup id = some w) : 0 < s.pins w.cacheGroup :=
  Nat.lt_of_lt_of_le (count_pos (p := fun w' => w'.cacheGroup = w.cacheGroup) h rfl) (Nat.le_add_right _ _)

theorem pins_of_fetch (h : s.writebacks.lookup id = some w) (hr : w.pinnedGroup = some r) :
    0 < s.pins r :=
  Nat.lt_of_lt_of_le (count_pos h hr) (Nat.le_add_left _ _)

theorem lives_of_subscribe {w : SubscribeWriteback} (h : s.subscribes.lookup id = some w) :
    0 < s.lives w.track := count_pos h rfl

theorem pins_eq_withPin (h : s.writebacks.lookup id = some w) :
    s.pins = FetchWriteback.withPin (s.pinsBut id) w.pinnedGroup := by
  funext r
  show _ + _ = _ + _ + _
  rw [count_erase h]
  omega

theorem pins_insert_fetch (hw : s'.writebacks = s.writebacks.insert id w) (hg : s'.subgroups = s.subgroups) :
    s'.pins = FetchWriteback.withPin (s.pinsBut id) w.pinnedGroup := by
  funext r
  show _ + _ = _ + _ + _
  rw [hw, hg, count_insert]
  omega

theorem pins_erase_fetch (hw : s'.writebacks = s.writebacks.erase id) (hg : s'.subgroups = s.subgroups) :
    s'.pins = s.pinsBut id := by
  funext r
  show _ + _ = _ + _
  rw [hw, hg]

theorem pinsBut_new (h : s.writebacks.lookup id = none) : s.pinsBut id = s.pins := by
  funext r
  show _ + _ = _ + _
  rw [erase_of_lookup_none h]

theorem pins_insert_subgroup {w : SubgroupWriteback} (hg : s'.subgroups = s.subgroups.insert id w)
    (hw : s'.writebacks = s.writebacks) (h : s.subgroups.lookup id = none) :
    s'.pins = onePin s.pins w.cacheGroup := by
  funext r
  unfold onePin
  by_cases hr : r = w.cacheGroup
  · subst hr
    rw [Function.update_self]
    show _ + _ = _ + _ + _
    rw [hg, hw, count_insert_new h, if_pos rfl]
    omega
  · rw [Function.update_of_ne hr]
    show _ + _ = _ + _
    rw [hg, hw, count_insert_new h, if_neg fun h => hr h.symm, Nat.zero_add]

theorem pins_erase_subgroup {w : SubgroupWriteback} (hg : s'.subgroups = s.subgroups.erase id)
    (hw : s'.writebacks = s.writebacks) (h : s.subgroups.lookup id = some w) :
    s'.pins = unpin s.pins w.cacheGroup := by
  funext r
  unfold unpin
  by_cases hr : r = w.cacheGroup
  · subst hr
    rw [Function.update_self]
    show _ + _ = _ + _ - _
    rw [hg, hw, count_erase h, if_pos rfl]
    omega
  · rw [Function.update_of_ne hr]
    show _ + _ = _ + _
    rw [hg, hw, count_erase h, if_neg fun h => hr h.symm, Nat.zero_add]

theorem pins_replace_subgroup {w w' : SubgroupWriteback} (hg : s'.subgroups = s.subgroups.insert id w')
    (hw : s'.writebacks = s.writebacks) (h : s.subgroups.lookup id = some w)
    (hgroup : w'.cacheGroup = w.cacheGroup) : s'.pins = s.pins := by
  funext r
  show _ + _ = _ + _
  rw [hg, hw, count_insert, count_erase h, hgroup]

theorem lives_insert {w : SubscribeWriteback} (h : s.subscribes.lookup id = none)
    (hs : s'.subscribes = s.subscribes.insert id w) :
    s'.lives = Function.update s.lives w.track (s.lives w.track + 1) := by
  funext t
  unfold lives
  rw [hs, count_insert_new h]
  by_cases ht : t = w.track
  · subst ht
    rw [if_pos rfl, Function.update_self, Nat.add_comm]
  · rw [if_neg fun h => ht h.symm, Function.update_of_ne ht, Nat.zero_add]

theorem lives_erase {w : SubscribeWriteback} (h : s.subscribes.lookup id = some w)
    (hs : s'.subscribes = s.subscribes.erase id) :
    s'.lives = Function.update s.lives w.track (s.lives w.track - 1) := by
  funext t
  unfold lives
  rw [hs]
  by_cases ht : t = w.track
  · subst ht
    rw [Function.update_self, count_erase h, if_pos rfl]
    omega
  · rw [Function.update_of_ne ht, count_erase h, if_neg fun h => ht h.symm, Nat.zero_add]

/-! ## 2. The invariant -/

/-- The cache is sound, everyone who holds a part of it can rely on it, and the numbers to come are not
    given yet. -/
structure Books (s : System) : Prop where
  sound : Sound s.pins s.lives s.cache
  subscribes : ∀ {id w}, s.subscribes.lookup id = some w → s.cache.Tracks w.ftn w.track
  subgroups : ∀ {id w}, s.subgroups.lookup id = some w → SubgroupWriteback.Holds s.cache w
  fetches : ∀ {id f}, s.fetches.lookup id = some f → s.cache.Tracks f.ftn f.track
  writebacks : ∀ {id w}, s.writebacks.lookup id = some w → FetchWriteback.Holds s.cache w
  fresh : ∀ id, s.next ≤ id → s.subscribes.lookup id = none ∧ s.subgroups.lookup id = none ∧
    s.fetches.lookup id = none ∧ s.writebacks.lookup id = none

/-- Whoever held something before the event still holds it, if its pin is counted in `pinned`; and what is
    new is fine. -/
theorem Books.frame {pins' : GroupRef → Nat} {lives' : TrackRef → Nat} (h : Books s)
    (hk : Keeps pinned s.cache s'.cache) (hpins : s'.pins = pins') (hlives : s'.lives = lives')
    (hsound : Sound pins' lives' s'.cache)
    (hsub : ∀ {id w}, s'.subscribes.lookup id = some w →
      s.subscribes.lookup id = some w ∨ s'.cache.Tracks w.ftn w.track)
    (hgroup : ∀ {id w}, s'.subgroups.lookup id = some w →
      s.subgroups.lookup id = some w ∧ pinned w.cacheGroup ∨ SubgroupWriteback.Holds s'.cache w)
    (hfetch : ∀ {id f}, s'.fetches.lookup id = some f →
      s.fetches.lookup id = some f ∨ s'.cache.Tracks f.ftn f.track)
    (hwrite : ∀ {id w}, s'.writebacks.lookup id = some w →
      s.writebacks.lookup id = some w ∧ (∀ {r}, w.pinnedGroup = some r → pinned r) ∨
        FetchWriteback.Holds s'.cache w)
    (hfresh : ∀ id, s'.next ≤ id → s'.subscribes.lookup id = none ∧ s'.subgroups.lookup id = none ∧
      s'.fetches.lookup id = none ∧ s'.writebacks.lookup id = none) : Books s' where
  sound := by
    rw [hpins, hlives]
    exact hsound
  subscribes hw := by
    rcases hsub hw with hw | hw
    · exact (h.subscribes hw).keep hk
    · exact hw
  subgroups hw := by
    rcases hgroup hw with ⟨hw, hp⟩ | hw
    · exact (h.subgroups hw).keep hk hp
    · exact hw
  fetches hw := by
    rcases hfetch hw with hw | hw
    · exact (h.fetches hw).keep hk
    · exact hw
  writebacks hw := by
    rcases hwrite hw with ⟨hw, hp⟩ | hw
    · have hh := h.writebacks hw
      refine { toTracks := hh.toTracks.keep hk, pinned := fun hr => ?_ }
      obtain ⟨key, hkey, hg⟩ := hh.pinned hr
      exact ⟨key, hkey, hg.keep hk (hp hr)⟩
    · exact hw
  fresh := hfresh

theorem Books.setCache (h : Books s) (hs : Sound s.pins s.lives c) (hk : Keeps (fun r => 0 < s.pins r) s.cache c) :
    Books (s.setCache c) :=
  @frame s _ _ (s.pins) (s.lives) h hk rfl rfl hs Or.inl (fun hw => Or.inl ⟨hw, pins_of_subgroup hw⟩) Or.inl
    (fun hw => Or.inl ⟨hw, pins_of_fetch hw⟩) h.fresh

theorem Books.tidy (h : Books s) (ht : Tidy s.pins s.lives s.cache c) : Books (s.setCache c) :=
  h.setCache ht.1 ht.2.toKeeps

theorem lookup_insert_fresh {β : Type*} {t : AList fun _ : Nat => β} {v : β} {n : Nat}
    (h : ∀ id, n ≤ id → t.lookup id = none) (hid : n + 1 ≤ id) : (t.insert n v).lookup id = none := by
  rw [AList.lookup_insert_ne (Nat.ne_of_gt hid)]
  exact h id (Nat.le_of_succ_le hid)

/-! ## 3. Events -/

/-- The system after an event of a subscription or of a fetch's writeback. -/
abbrev subscribed (s : System) (ftn : FullTrackName) : System :=
  { s with
    cache := (s.cache.getSubscribeWriteback ftn).1
    subscribes := s.subscribes.insert s.next (s.cache.getSubscribeWriteback ftn).2
    next := s.next + 1 }

abbrev unsubscribed (s : System) (id : Nat) (w : SubscribeWriteback) : System :=
  { s with cache := w.close s.cache, subscribes := s.subscribes.erase id }

abbrev called (s : System) (id : Nat) (w : FetchWriteback) (now : TimePoint) (call : FetchCall) : System :=
  { s with
    cache := (FetchWriteback.call (s.cache, w) now call).2.1
    writebacks := s.writebacks.insert id (FetchWriteback.call (s.cache, w) now call).2.2 }

abbrev closed (s : System) (id : Nat) (w : FetchWriteback) : System :=
  { s with cache := FetchWriteback.close (s.cache, w), writebacks := s.writebacks.erase id }

/-- At most the properties of the track and its largest location are set. -/
def Answers (t : TrackRef) (c c' : MoqxCache) : Prop :=
  ∃ d, (d = c ∨ ∃ ext, d = c.setTrack t { c.track t with extensions := ext }) ∧ SetsLargest t d c'

theorem Answers.alike {c c' : MoqxCache} (h : Answers t c c') : c.Alike c' := by
  obtain ⟨d, rfl | ⟨ext, rfl⟩, hl⟩ := h
  · exact hl.alike
  · refine Alike.trans (setTrack_alike ?_) hl.alike
    exact ⟨rfl, rfl, rfl, rfl⟩

theorem fetchOk_answers {ok : FetchOk} {setExtensions : Bool} (hs : s.fetchOk id w ok setExtensions = some s') :
    ∃ p c, FetchWriteback.setUpstreamEnd (s.cache, w) ok.endLocation = some p ∧ Answers p.2.track p.1 c ∧
      s' = { s with cache := c, writebacks := s.writebacks.insert id p.2 } := by
  obtain ⟨p, hp, hs⟩ := Option.bind_eq_some_iff.mp hs
  cases hs
  refine ⟨p, _, hp, ⟨_, ?_, recordUpstreamEndOfTrack_sets⟩, rfl⟩
  split
  · exact Or.inr ⟨_, rfl⟩
  · exact Or.inl rfl

section events

variable (h : Books s)

include h

theorem getSubscribeWriteback_books :
    Books (s.subscribed ftn) := by
  obtain ⟨htidy, htracks⟩ := @findOrAddTrack_tidy _ _ _ ftn h.sound
  unfold subscribed getSubscribeWriteback
  simp only
  generalize s.cache.findOrAddTrack ftn = p at htidy htracks ⊢
  have hopen := @open_sound _ _ p.2 (fun r => 0 < s.pins r) ⟨p.1, ftn⟩ htidy.1 htracks.track
  have hk := htidy.2.trans hopen.2
  refine h.frame hk.toKeeps rfl (lives_insert (h.fresh s.next (Nat.le_refl _)).1 rfl) hopen.1 (fun hw => ?_)
    (fun hw => Or.inl ⟨hw, pins_of_subgroup hw⟩) Or.inl (fun hw => Or.inl ⟨hw, pins_of_fetch hw⟩) fun id hid => ?_
  · rcases lookup_insert_cases hw with ⟨-, rfl⟩ | ⟨-, hw⟩
    · exact Or.inr (htracks.keep hopen.2.toKeeps)
    · exact Or.inl hw
  · obtain ⟨-, h2, h3, h4⟩ := h.fresh id (Nat.le_of_succ_le hid)
    exact ⟨lookup_insert_fresh (fun id hid => (h.fresh id hid).1) hid, h2, h3, h4⟩

theorem begun_books {w : SubscribeWriteback} {groupID subgroupID : Nat}
    (hw : s.subscribes.lookup id = some w)
    (hskip : (s.cache.track w.track).shouldSkipCaching = false)
    (hgroup : s.cache.getOrCreateGroupWithEviction w.track groupID w.ftn = (r, c)) :
    Books { s with
      cache := c.pinGroup r w.track
      subgroups := s.subgroups.insert s.next
        { group := groupID, subgroup := subgroupID, track := w.track, cacheGroup := r, ftn := w.ftn }
      next := s.next + 1 } := by
  obtain ⟨hs, hk, hh⟩ := @begun_sound _ _ _ _ w groupID subgroupID _ h.sound (h.subscribes hw)
    hskip hgroup
  refine h.frame hk.toKeeps (pins_insert_subgroup rfl rfl (h.fresh s.next (Nat.le_refl _)).2.1) rfl hs Or.inl
    (fun hw' => ?_) Or.inl (fun hw' => Or.inl ⟨hw', pins_of_fetch hw'⟩) fun id hid => ?_
  · rcases lookup_insert_cases hw' with ⟨-, rfl⟩ | ⟨-, hw'⟩
    · exact Or.inr hh
    · exact Or.inl ⟨hw', pins_of_subgroup hw'⟩
  · obtain ⟨h1, -, h3, h4⟩ := h.fresh id (Nat.le_of_succ_le hid)
    exact ⟨h1, lookup_insert_fresh (fun id hid => (h.fresh id hid).2.1) hid, h3, h4⟩

theorem closeSubscribe_books {w : SubscribeWriteback} (hw : s.subscribes.lookup id = some w) :
    Books (s.unsubscribed id w) := by
  obtain ⟨hs, hk⟩ := @close_sound _ _ _ (fun r => 0 < s.pins r) w h.sound (h.subscribes hw).track
    (lives_of_subscribe hw)
  refine h.frame hk.toKeeps rfl (lives_erase hw rfl) hs (fun hw' => Or.inl (lookup_erase_iff.mp hw').2)
    (fun hw' => Or.inl ⟨hw', pins_of_subgroup hw'⟩) Or.inl (fun hw' => Or.inl ⟨hw', pins_of_fetch hw'⟩) fun j hj => ?_
  obtain ⟨h1, h2, h3, h4⟩ := h.fresh j hj
  exact ⟨lookup_erase_none h1, h2, h3, h4⟩

theorem subgroup_books {w : SubgroupWriteback} {call : SubgroupCall}
    (hw : s.subgroups.lookup id = some w) :
    Books { s with
      cache := (w.call s.cache now call).2.1
      subgroups := s.subgroups.insert id (w.call s.cache now call).2.2 } := by
  obtain ⟨hs, hk⟩ := @SubgroupWriteback.call_stores _ _ _ now w call h.sound (h.subgroups hw)
  obtain ⟨h1, h2, h3, h4⟩ := @SubgroupWriteback.call_names s.cache now w call
  refine h.frame hk.toKeeps (pins_replace_subgroup rfl rfl hw h4) rfl hs Or.inl (fun hw' => ?_) Or.inl
    (fun hw' => Or.inl ⟨hw', pins_of_fetch hw'⟩) fun j hj => ?_
  · rcases lookup_insert_cases hw' with ⟨-, rfl⟩ | ⟨-, hw'⟩
    · refine Or.inr ?_
      unfold SubgroupWriteback.Holds
      rw [h1, h2, h3, h4]
      exact (h.subgroups hw).keep hk.toKeeps (pins_of_subgroup hw)
    · exact Or.inl ⟨hw', pins_of_subgroup hw'⟩
  · obtain ⟨f1, f2, f3, f4⟩ := h.fresh j hj
    refine ⟨f1, ?_, f3, f4⟩
    have hne : j ≠ id := by
      rintro rfl
      rw [hw] at f2
      cases f2
    exact (AList.lookup_insert_ne hne).trans f2

theorem closeSubgroup_books {w : SubgroupWriteback} (hw : s.subgroups.lookup id = some w) :
    Books { s with cache := w.close s.cache, subgroups := s.subgroups.erase id } := by
  obtain ⟨hs, hk⟩ := @SubgroupWriteback.close_sound _ _ _ (fun _ => True) w h.sound (h.subgroups hw)
    (pins_of_subgroup hw)
  refine h.frame hk.toKeeps (pins_erase_subgroup rfl rfl hw) rfl hs Or.inl
    (fun hw' => Or.inl ⟨(lookup_erase_iff.mp hw').2, trivial⟩) Or.inl
    (fun hw' => Or.inl ⟨hw', fun _ => trivial⟩) fun j hj => ?_
  obtain ⟨h1, h2, h3, h4⟩ := h.fresh j hj
  exact ⟨h1, lookup_erase_none h2, h3, h4⟩

theorem Books.fetchStep {next : Nat} (hnext : s.next ≤ next) (hid : id < next)
    (hg : FetchWriteback.Good (s.pinsBut id) s.lives (c, w))
    (hk : Keeps (fun r => 0 < s.pinsBut id r) s.cache c) :
    Books { s with cache := c, writebacks := s.writebacks.insert id w, next := next } := by
  refine h.frame hk (pins_insert_fetch rfl rfl) rfl hg.sound Or.inl
    (fun hw' => Or.inl ⟨hw', pinsBut_of_subgroup hw'⟩) Or.inl (fun hw' => ?_) fun j hj => ?_
  · rcases lookup_insert_cases hw' with ⟨-, rfl⟩ | ⟨hne, hw'⟩
    · exact Or.inr hg.holds
    · exact Or.inl ⟨hw', fun hr => pinsBut_of_fetch hw' hne hr⟩
  · obtain ⟨h1, h2, h3, h4⟩ := h.fresh j (Nat.le_trans hnext hj)
    exact ⟨h1, h2, h3, (AList.lookup_insert_ne (Nat.ne_of_gt (Nat.lt_of_lt_of_le hid hj))).trans h4⟩

theorem Books.id_lt (hw : s.writebacks.lookup id = some w) : id < s.next := by
  by_contra hge
  have hnone := (h.fresh id (Nat.not_lt.mp hge)).2.2.2
  rw [hw] at hnone
  cases hnone

theorem Books.good (hw : s.writebacks.lookup id = some w) :
    FetchWriteback.Good (s.pinsBut id) s.lives (s.cache, w) where
  sound := by
    have hs := h.sound
    rw [pins_eq_withPin hw] at hs
    exact hs
  holds := h.writebacks hw

theorem openWriteback_books {f : RunningFetch} {proxyFin : Bool} {start stop : AbsoluteLocation}
    {order : GroupOrder} (ht : s.cache.Tracks f.ftn f.track) :
    Books (s.openWriteback f proxyFin start stop order) := by
  have hnew : s.pinsBut s.next = s.pins := pinsBut_new (h.fresh s.next (Nat.le_refl _)).2.2.2
  obtain ⟨hg, hk, -⟩ := @FetchWriteback.open_calm s.pins s.lives s.cache f.track s.next proxyFin f.ftn start stop order
    h.sound ht
  refine h.fetchStep (Nat.le_succ _) (Nat.lt_succ_self _) ?_ ?_
  · rw [hnew]
    exact hg
  · rw [hnew]
    exact hk.toKeeps

theorem serve_books {t : TrackRef} (ht : s.cache.cache.lookup ftn = some t) :
    Books { s with fetches := s.fetches.insert s.next ⟨ftn, t⟩, next := s.next + 1 } := by
  refine h.frame (Sheds.refl _).toKeeps rfl rfl h.sound Or.inl (fun hw => Or.inl ⟨hw, pins_of_subgroup hw⟩)
    (fun hw => ?_) (fun hw => Or.inl ⟨hw, pins_of_fetch hw⟩) fun j hj => ?_
  · rcases lookup_insert_cases hw with ⟨-, rfl⟩ | ⟨-, hw⟩
    · exact Or.inr (h.sound.tracks ht)
    · exact Or.inl hw
  · obtain ⟨h1, h2, -, h4⟩ := h.fresh j (Nat.le_of_succ_le hj)
    exact ⟨h1, h2, lookup_insert_fresh (fun id hid => (h.fresh id hid).2.2.1) hj, h4⟩

theorem writeback_books {call : FetchCall} (hw : s.writebacks.lookup id = some w)
    (ha : (FetchWriteback.call (s.cache, w) now call).1 ≠ .aborted) :
    Books (s.called id w now call) := by
  have hstep := FetchWriteback.call_step (h.good hw) ha
  refine h.fetchStep (Nat.le_refl _) (h.id_lt hw) hstep.toGood ?_
  exact hstep.change.keeps

theorem fetchOk_books {ok : FetchOk} {setExtensions : Bool}
    (hw : s.writebacks.lookup id = some w) (hs : s.fetchOk id w ok setExtensions = some s') : Books s' := by
  obtain ⟨p, c, hp, hc, rfl⟩ := fetchOk_answers hs
  have hstep := FetchWriteback.setUpstreamEnd_calm (h.good hw) hp
  exact h.fetchStep (Nat.le_refl _) (h.id_lt hw)
    (hstep.toGood.frame (hstep.sound.alike hc.alike) hc.alike.keeps) (hstep.change.toKeeps.trans hc.alike.keeps)

theorem closeWriteback_books (hw : s.writebacks.lookup id = some w) :
    Books (s.closed id w) := by
  obtain ⟨hs, hk⟩ := FetchWriteback.close_sound (h.good hw)
  refine h.frame hk.toKeeps (pins_erase_fetch rfl rfl) rfl hs Or.inl
    (fun hw' => Or.inl ⟨hw', pinsBut_of_subgroup hw'⟩) Or.inl (fun hw' => ?_) fun j hj => ?_
  · obtain ⟨hne, hw'⟩ := lookup_erase_iff.mp hw'
    exact Or.inl ⟨hw', fun hr => pinsBut_of_fetch hw' hne hr⟩
  · obtain ⟨h1, h2, h3, h4⟩ := h.fresh j hj
    exact ⟨h1, h2, h3, lookup_erase_none h4⟩

end events

theorem cacheStep_tidy {pins : GroupRef → Nat} {lives : TrackRef → Nat} (hs : Sound pins lives c) :
    Tidy pins lives c (cacheStep c op) := by
  cases op with
  | hasCachedObject ftn obj now =>
    cases hf : c.cache.lookup ftn with
    | some t =>
      simp only [cacheStep, hf]
      exact getCachedObjectMaybe_tidy hs (hs.cacheBound hf)
    | none =>
      simp only [cacheStep, hf]
      exact .refl hs
  | setTrackState => exact properties_tidy.setTrackState (.refl hs)
  | purgeTrack => exact evictTrack_sound hs
  | purgeNamespace => exact (purgeAll_purges _).tidy hs
  | purge => exact (purgeAll_purges _).tidy hs
  | setMaxCachedTracks => exact (setMaxCachedTracks_purges _).tidy hs
  | setMaxCachedBytes => exact setMaxCachedBytes_tidy _ hs
  | setMinEvictionBytes => exact setLimits_alike.tidy hs
  | setMaxCachedGroupsPerTrack => exact setMaxCachedGroupsPerTrack_tidy _ hs
  | setDefaultMaxCacheDuration => exact setLimits_alike.tidy hs
  | setMaxAllowedCacheDuration => exact setLimits_alike.tidy hs
  | _ => exact .refl hs

/-- **One event** keeps the books right. -/
theorem step_books (h : Books s) (hs : s.step op = some s') : Books s' := by
  cases step_does hs with
  | subscribe => exact getSubscribeWriteback_books h
  | refused => exact h
  | begun hw hskip hgroup => exact begun_books h hw hskip hgroup
  | @header _ _ header payload datagram now w hw =>
    have hstores := @cacheHeader_stores _ _ _ now w header payload datagram h.sound (h.subscribes hw)
    exact h.setCache hstores.1 hstores.2.toKeeps
  | closeSubscribe hw => exact closeSubscribe_books h hw
  | subgroup hw => exact subgroup_books h hw
  | closeSubgroup hw => exact closeSubgroup_books h hw
  | serve ht => exact serve_books h ht
  | fetch ht =>
    obtain ⟨htidy, htracks⟩ := addFetchedTrack_tidy h.sound ht
    exact openWriteback_books (h.tidy htidy) htracks
  | lookup hf => exact h.tidy (getCachedObjectMaybe_tidy h.sound (h.fetches hf).track)
  | fetchUpstream hf => exact openWriteback_books h (h.fetches hf)
  | closeFetch =>
    refine h.frame (Sheds.refl _).toKeeps rfl rfl h.sound Or.inl (fun hw => Or.inl ⟨hw, pins_of_subgroup hw⟩)
      (fun hw => Or.inl (lookup_erase_iff.mp hw).2) (fun hw => Or.inl ⟨hw, pins_of_fetch hw⟩) fun j hj => ?_
    obtain ⟨h1, h2, h3, h4⟩ := h.fresh j hj
    exact ⟨h1, h2, lookup_erase_none h3, h4⟩
  | writeback hw ho => exact writeback_books h hw ho
  | fetchOk hw hok => exact fetchOk_books h hw hok
  | closeWriteback hw => exact closeWriteback_books h hw
  | cache => exact h.tidy (cacheStep_tidy h.sound)

theorem step_next (hs : s.step op = some s') : s.next ≤ s'.next := by
  cases step_does hs with
  | subscribe | begun | serve | fetch | fetchUpstream => exact Nat.le_succ _
  | fetchOk hw hok =>
    obtain ⟨p, -, hok⟩ := Option.bind_eq_some_iff.mp hok
    cases hok
    exact Nat.le_refl _
  | _ => exact Nat.le_refl _

theorem init_books : Books (init tracks groups bytes eviction) where
  sound :=
    { pinCount := fun _ hr => absurd hr (Nat.not_lt_zero _)
      pinBound := fun _ _ => rfl
      trackNodup := fun _ => List.nodup_nil
      allNodup := List.nodup_nil
      inTrack := fun _ _ => ⟨(fun h => nomatch h), fun ⟨⟨_, hf⟩, _⟩ => nomatch hf⟩
      inAll := fun _ _ => ⟨(fun h => nomatch h), fun ⟨_, _, hf, _⟩ => nomatch hf⟩
      iter := fun hf => nomatch hf
      noIter := fun _ hg => nomatch hg
      unheld := fun hr => absurd hr (Nat.not_lt_zero _)
      cacheBound := fun hf => nomatch hf
      cacheOnce := fun hf => nomatch hf
      groupBound := fun hg => nomatch hg
      groupOnce := fun hg => nomatch hg
      groupBytes := fun _ => rfl
      total := rfl
      noUnderflow := rfl
      liveCount := fun _ ht => absurd ht (Nat.not_lt_zero _)
      liveBound := fun _ _ => rfl
      notEvicted := fun hf => nomatch hf
      cached := fun ht => absurd ht (Nat.not_lt_zero _)
      emptied := fun _ hg => nomatch hg }
  subscribes hw := nomatch hw
  subgroups hw := nomatch hw
  fetches hw := nomatch hw
  writebacks hw := nomatch hw
  fresh _ _ := ⟨rfl, rfl, rfl, rfl⟩

/-- **Every run** keeps the books right. -/
theorem reachable_books {ok : System → CacheOp → Prop}
    (h : Reachable ok (init tracks groups bytes eviction) s) : Books s := by
  induction h with
  | start => exact init_books
  | step _ _ hs ih => exact step_books ih hs

/-! ## 4. The byte counters -/

/-- **Byte accounting is exact.** In every state of every run the total is the sum over the tracks in the
    cache of the sums over their groups, every group's counter is the sum of its entries' sizes, and no
    subtraction has failed its check. -/
theorem byte_accounting_exact {tracks groups bytes eviction : Nat}
    (h : Reachable (fun _ _ => True) (init tracks groups bytes eviction) s) :
    s.cache.totalCachedBytes =
        total (fun _ t => total (fun _ r => (s.cache.group r).totalBytes) (s.cache.track t).groups)
          s.cache.cache ∧
      (∀ r, (s.cache.group r).totalBytes = total (fun _ e => e.payloadSize) (s.cache.group r).objects) ∧
      s.cache.underflow = false := by
  have hb := (reachable_books h).sound
  exact ⟨hb.total, hb.groupBytes, hb.noUnderflow⟩

/-- A datagram of three bytes, and an object of two on a subgroup. -/
theorem byte_accounting_exact_two_objects :
    ∃ s, Reachable (fun _ _ => True) (init 4 4 100 0) s ∧ s.cache.totalCachedBytes = 5 ∧
      s.cache.totalCachedBytes = total
        (fun _ t => total (fun _ r => (s.cache.group r).totalBytes) (s.cache.track t).groups)
        s.cache.cache := by
  have h0 : Reachable (fun _ _ => True) (init 4 4 100 0) (init 4 4 100 0) := .start
  have h1 := h0.next (.getSubscribeWriteback ⟨[], []⟩) trivial rfl
  have h2 := h1.next (.datagram 0 ⟨0, 0, 0, .normal, noExtensions⟩ (some [1, 2, 3]) 0) trivial rfl
  have h3 := h2.next (.beginSubgroup 0 1 0 true) trivial rfl
  have h4 := h3.next (.subgroup 1 (.object 0 (some [4, 5]) noExtensions) 0) trivial rfl
  exact ⟨_, h4, rfl, (byte_accounting_exact h4).1⟩

end System

end Moqx

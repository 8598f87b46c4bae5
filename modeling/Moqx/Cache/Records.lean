/-
  Subject: The gaps, the entries and the index of a track in every run.

  * `step_coherent`, `reachable_coherent` -- they keep the records together;
  * no location is both cached and known not to exist; the index names the gaps and the complete entries.
-/
import Moqx.Fetch.Thorough

namespace Moqx

open MoqxCache Coherent CacheTrack AList Option

variable {strict : Prop} {U : TrackRef → AbsoluteLocation → Prop} {c : MoqxCache} {t : TrackRef}
  {ftn : FullTrackName} {now : TimePoint} {s : System} {tracks groups bytes eviction : Nat}

/-! ## 1. Events that contradict nothing -/

namespace MoqxCache

/-- The write denies no entry of the track. -/
structure Honest (c : MoqxCache) (t : TrackRef) (w : ObjectWrite) : Prop where
  object : w.objectID ≤ kEightByteLimit
  denies : ∀ l, c.Present t l → ¬w.Denies l

/-- The write announces no group as missing that has an entry, and goes to no group that another one has
    announced as missing. -/
structure Settled (c : MoqxCache) (t : TrackRef) (w : ObjectWrite) : Prop where
  announces : ∀ l, c.Present t l → ¬w.Announces l
  outside : ∀ g r n, c.groupAt t g = some r → (c.group r).seenPriorGroupIdGap = some n →
    ¬PriorRange g n w.location

end MoqxCache

namespace FetchWriteback

structure Thorough (c : MoqxCache) (w : FetchWriteback) (now : TimePoint) (call : FetchCall) : Prop where
  jumps : ∀ write, w.writeOf now call = some write → Jumps c.Present w write.location
  ends : call.endsStream = true → ∀ write, w.writeOf now call = some write → EndsAt c.Present w write.location
  here : call = .endOfFetch → EndsHere c.Present w

/-- The end that FETCH_OK gives leaves no entry of the track among the gaps held back. -/
structure Confirms (c : MoqxCache) (w : FetchWriteback) (ok : FetchOk) : Prop where
  object : ok.endLocation.object ≤ kEightByteLimit
  pending : ∀ p ∈ w.pendingGaps, p.2.object ≤ kEightByteLimit ∧
    ∀ l, c.Present w.track l → p.1 ≤ l → l ≤ p.2 → ¬l < ok.endLocation

end FetchWriteback

namespace System

/-- What an event writes, if it writes, and the track it writes to. -/
def writeOf (s : System) : CacheOp → Option (TrackRef × ObjectWrite)
  | .objectStream id header payload now =>
    (s.subscribes.lookup id).map fun w => (w.track, header.write payload false now)
  | .datagram id header payload now =>
    (s.subscribes.lookup id).map fun w => (w.track, header.write payload true now)
  | .subgroup id call now => (s.subgroups.lookup id).map fun w => (w.track, w.writeOf now call)
  | .writeback id call now =>
    (s.writebacks.lookup id).bind fun w => (w.writeOf now call).map fun write => (w.track, write)
  | _ => none

/-- A stream of an upstream fetch passes over no entry. -/
def Thorough (s : System) : CacheOp → Prop
  | .writeback id call now => ∀ w, s.writebacks.lookup id = some w → w.Thorough s.cache now call
  | .fetchOk id ok _ => ∀ w, s.writebacks.lookup id = some w → w.Confirms s.cache ok
  | _ => True

/-- The event says of no entry that it does not exist. -/
structure Truthful (s : System) (op : CacheOp) : Prop where
  honest : ∀ t w, s.writeOf op = some (t, w) → s.cache.Honest t w
  thorough : s.Thorough op

/-- Nor does it contradict what the groups have announced as missing. -/
structure Undisputed (s : System) (op : CacheOp) : Prop extends Truthful s op where
  settled : ∀ t w, s.writeOf op = some (t, w) → s.cache.Settled t w

end System

/-! ## 2. Calls of the writers -/

namespace MoqxCache

variable {write : ObjectWrite}

theorem onTrackBecameEvictable_content : SameContent c (c.onTrackBecameEvictable ftn) :=
  onTrackBecameEvictable_enlists.elim fun _ h => h.content

/-- The locations of the entries, and of the write that is about to be made. -/
def With (c : MoqxCache) (t : TrackRef) (loc : AbsoluteLocation) (t' : TrackRef) (l : AbsoluteLocation) : Prop :=
  c.Present t' l ∨ t' = t ∧ l = loc

theorem not_denies_self : ¬write.Denies write.location := by
  intro h
  cases h with
  | group _ _ ho => exact Nat.lt_irrefl _ ho
  | track _ hg => exact Nat.lt_irrefl _ hg
  | priorGroup _ _ hg => exact absurd hg (Nat.not_lt.mpr (Nat.sub_le _ _))
  | priorObject _ _ _ ho => exact absurd ho (Nat.not_lt.mpr (Nat.sub_le _ _))

theorem not_announces_self : ¬write.Announces write.location := by
  intro h
  obtain ⟨gap, -, hr⟩ := h
  exact Nat.lt_irrefl _ hr.2

theorem Honest.denies_with (h : c.Honest t write) (l : AbsoluteLocation) (hl : c.With t write.location t l) :
    ¬write.Denies l := by
  rcases hl with hl | ⟨-, rfl⟩
  · exact h.denies l hl
  · exact not_denies_self

theorem Settled.announces_with (h : c.Settled t write) (l : AbsoluteLocation) (hl : c.With t write.location t l) :
    ¬write.Announces l := by
  rcases hl with hl | ⟨-, rfl⟩
  · exact h.announces l hl
  · exact not_announces_self

theorem Coherent.with (h : Coherent strict c.Present c) (hh : c.Honest t write)
    (hs : strict → c.Settled t write) :
    Coherent strict (c.With t write.location) c ∧ Unopposed strict (c.With t write.location) t write :=
  ⟨h.widen hh.object fun hstrict => (hs hstrict).outside, Or.inr ⟨rfl, rfl⟩, hh.denies_with,
    fun hstrict => (hs hstrict).announces_with⟩

end MoqxCache

namespace SubgroupWriteback

theorem call_coherent {w : SubgroupWriteback} {call : SubgroupCall} (h : Coherent strict U c) (hh : w.Holds c)
    (hw : Unopposed strict U w.track (w.writeOf now call)) : Coherent strict U (w.call c now call).2.1 := by
  have hdoes := @call_does c now w call
  generalize (w.call c now call).2 = p at hdoes ⊢
  cases hdoes with
  | sets hl => exact h.same hl.content
  | stores he hl hd =>
    subst hd
    refine (h.same hl.content).cacheObjectAndUpdateBytes ?_ hw
    rw [writeOf_group]
    exact (hh.alike hl.alike).held ((hl.alike.evicted _).trans he)

end SubgroupWriteback

namespace SubscribeWriteback

variable {w : SubscribeWriteback}

theorem cacheHeader_coherent {header : ObjectHeader} {payload : Payload} {datagram : Bool}
    (h : Coherent strict U c) (hw : Unopposed strict U w.track (header.write payload datagram now)) :
    Coherent strict U (w.cacheHeader c header payload datagram now).2 := by
  unfold cacheHeader
  split
  · exact h
  · split
    · exact h
    · rename_i tr hl
      have hlargest := h.same (setTrack_updateLargest_content hl)
      obtain ⟨hgroup, hg⟩ :=
        @getOrCreateGroupWithEviction _ _ _ w.track header.group w.ftn hlargest
      simp only
      generalize (c.setTrack w.track tr).getOrCreateGroupWithEviction w.track header.group w.ftn = p at hgroup hg
      exact hgroup.cacheObjectAndUpdateBytes hg hw

theorem open_content : SameContent c (SubscribeWriteback.open c w) :=
  removeTrackFromLRU_enlists.content.trans (setTrack_content ⟨rfl, rfl, rfl, rfl⟩)

theorem close_content : SameContent c (w.close c) := by
  have hcount : SameContent c (w.uncounted c) := ⟨update_track ⟨rfl, rfl, rfl, rfl⟩, fun _ => .refl _, rfl⟩
  exact hcount.trans onTrackBecameEvictable_content

end SubscribeWriteback

/-! ## 3. Tracks by name -/

namespace MoqxCache

section

variable (h : Coherent strict U c)

include h

theorem Coherent.findOrAddTrack : Coherent strict U (c.findOrAddTrack ftn).2 := by
  unfold MoqxCache.findOrAddTrack
  split
  · exact h
  · exact (h.evicting makeRoom_purges.evicting).addTrack

theorem Coherent.getOrCreateTrack : Coherent strict U (c.getOrCreateTrack ftn).2 := by
  unfold MoqxCache.getOrCreateTrack
  split
  · exact h
  · exact h.addTrack.same addTrackToLRU_enlists.content

theorem Coherent.addFetchedTrack : Coherent strict U (c.addFetchedTrack ftn).2 :=
  ((@addTrack _ _ _ ftn h).evicting makeRoom_purges.evicting).same addTrackToLRU_enlists.content

end

theorem properties_coherent : KeepsProperties (Coherent strict U) where
  created := Coherent.getOrCreateTrack
  duration h := h.same (setTrack_content ⟨rfl, rfl, rfl, rfl⟩)
  extensions h := h.same (setTrack_content ⟨rfl, rfl, rfl, rfl⟩)
  largest h hl := h.same hl.content

end MoqxCache

namespace FetchWriteback

variable {s : State}
variable {loc : AbsoluteLocation}

theorem open_coherent (h : Coherent strict U s.1) : Coherent strict U («open» s).1 := by
  obtain ⟨c, w⟩ := s
  have hlru := h.same (@removeTrackFromLRU_enlists c w.track).content
  unfold «open»
  simp only
  split
  · exact @emplaceAndPinGroup_coherent _ _ (c.removeTrackFromLRU w.track, w) _ _ hlru
  · exact hlru

theorem Jumps.with {c : MoqxCache} {w : FetchWriteback} (h : Jumps c.Present w loc) :
    Jumps (c.With w.track loc) w loc := by
  refine ⟨h.fits, h.object, fun l hl hbelow hpassed => ?_⟩
  rcases hl with hl | ⟨-, rfl⟩
  · exact h.free l hl hbelow hpassed
  · exact passed_ne hpassed rfl

theorem EndsAt.with {c : MoqxCache} {w : FetchWriteback} (h : EndsAt c.Present w loc) :
    EndsAt (c.With w.track loc) w loc := by
  refine ⟨h.orderly, fun hvalid l hl hne hbelow hremaining => ?_⟩
  rcases hl with hl | ⟨-, rfl⟩
  · exact h.free hvalid l hl hne hbelow hremaining
  · exact hne rfl

theorem close_content : SameContent s.1 (close s) :=
  eraseAndMakeGroupEvictable_content.trans onTrackBecameEvictable_content

end FetchWriteback

/-! ## 4. One event -/

namespace System

variable {s' : System} {op : CacheOp}

theorem openWriteback_coherent {f : RunningFetch} {proxyFin : Bool} {start stop : AbsoluteLocation}
    {order : GroupOrder} (h : Coherent strict U s.cache) :
    Coherent strict U (s.openWriteback f proxyFin start stop order).cache :=
  @FetchWriteback.open_coherent _ _
    (s.cache, .make s.cache s.next proxyFin f.ftn f.track start stop order) h

theorem fetchOk_coherent {id : Nat} {w : FetchWriteback} {ok : FetchOk} {setExtensions : Bool}
    (h : Coherent strict s.cache.Present s.cache) (hc : w.Confirms s.cache ok)
    (hs : s.fetchOk id w ok setExtensions = some s') : Coherent strict s.cache.Present s'.cache := by
  obtain ⟨p, c, hp, ⟨d, hd, hl⟩, rfl⟩ := fetchOk_answers hs
  have hend := @FetchWriteback.setUpstreamEnd_coherent _ _ (s.cache, w) p ok.endLocation h hc.object hc.pending hp
  refine Coherent.same ?_ hl.content
  obtain rfl | ⟨ext, rfl⟩ := hd
  · exact hend
  · exact hend.same (setTrack_content ⟨rfl, rfl, rfl, rfl⟩)

theorem cacheStep_coherent {c : MoqxCache} (h : Coherent strict U c) : Coherent strict U (cacheStep c op) := by
  have hdoes := @cacheStep_does c op
  generalize cacheStep c op = c' at hdoes
  cases hdoes with
  | lookup => exact h.getCachedObjectMaybe
  | state => exact properties_coherent.setTrackState h
  | purges hp => exact h.evicting hp.evicting

/-- **One event** that contradicts no entry keeps the records together. -/
theorem step_coherent (hb : Books s) (h : Coherent strict s.cache.Present s.cache) (ht : s.Truthful op)
    (hsettled : strict → ∀ t w, s.writeOf op = some (t, w) → s.cache.Settled t w) (hs : s.step op = some s') :
    Coherent strict s'.cache.Present s'.cache := by
  suffices hU : ∃ U, Coherent strict U s'.cache by
    obtain ⟨U, hU⟩ := hU
    exact hU.tighten
  cases step_does hs with
  | @subscribe ftn => exact ⟨_, (@findOrAddTrack _ _ _ ftn h).same SubscribeWriteback.open_content⟩
  | refused => exact ⟨_, h⟩
  | @begun _ groupID _ _ w r c _ _ hgroup =>
    have hnew := (@getOrCreateGroupWithEviction _ _ _ w.track groupID w.ftn h).1
    rw [hgroup] at hnew
    exact ⟨_, hnew.same pinGroup_relinks.content⟩
  | @header _ id header payload datagram now w hw hop =>
    have hwrite : s.writeOf op = some (w.track, header.write payload datagram now) := by
      cases datagram with
      | false => simp only [hop, Bool.false_eq_true, if_false, writeOf, hw, map_some]
      | true => simp only [hop, if_true, writeOf, hw, map_some]
    obtain ⟨hfirst, hnext⟩ := h.with (ht.honest _ _ hwrite) fun hst => hsettled hst _ _ hwrite
    exact ⟨_, SubscribeWriteback.cacheHeader_coherent hfirst hnext⟩
  | closeSubscribe => exact ⟨_, h.same SubscribeWriteback.close_content⟩
  | @subgroup id call now w hw =>
    have hwrite : s.writeOf (.subgroup id call now) = some (w.track, w.writeOf now call) := by
      simp only [writeOf, hw, map_some]
    obtain ⟨hfirst, hnext⟩ := h.with (ht.honest _ _ hwrite) fun hst => hsettled hst _ _ hwrite
    exact ⟨_, SubgroupWriteback.call_coherent hfirst (hb.subgroups hw) hnext⟩
  | closeSubgroup => exact ⟨_, h.same unpinGroup_relinks.content⟩
  | serve => exact ⟨_, h⟩
  | @fetch ftn _ _ _ _ => exact ⟨_, openWriteback_coherent (@addFetchedTrack _ _ _ ftn h)⟩
  | lookup => exact ⟨_, h.getCachedObjectMaybe⟩
  | fetchUpstream => exact ⟨_, openWriteback_coherent h⟩
  | closeFetch => exact ⟨_, h⟩
  | @writeback id call now w hw ho =>
    have hthorough : w.Thorough s.cache now call := ht.thorough w hw
    cases hwo : w.writeOf now call with
    | none =>
      refine ⟨_, @FetchWriteback.call_coherent _ _ (s.cache, w) now h call ho (fun write hw' => ?_) (fun _ write hw' => ?_)
        hthorough.here⟩
      · rw [hwo] at hw'
        cases hw'
      · rw [hwo] at hw'
        cases hw'
    | some write =>
      have hwrite : s.writeOf (.writeback id call now) = some (w.track, write) := by
        simp only [writeOf, hw, bind_some, hwo, map_some]
      obtain ⟨hfirst, hnext⟩ := h.with (ht.honest _ _ hwrite) fun hst => hsettled hst _ _ hwrite
      refine ⟨_, @FetchWriteback.call_coherent _ _ (s.cache, w) now hfirst call ho (fun write' hw' => ?_) (fun hend write' hw' => ?_)
        fun hhere => ?_⟩
      · cases hwo.symm.trans hw'
        exact ⟨hnext.self, hnext.denies, hnext.announces, (hthorough.jumps _ hwo).with⟩
      · cases hwo.symm.trans hw'
        exact (hthorough.ends hend _ hwo).with
      · subst hhere
        cases hwo
  | fetchOk hw hok => exact ⟨_, fetchOk_coherent h (ht.thorough _ hw) hok⟩
  | @closeWriteback id w hw => exact ⟨_, h.same (@FetchWriteback.close_content (s.cache, w))⟩
  | cache => exact ⟨_, cacheStep_coherent h⟩

/-! ## 5. Every run -/

theorem init_coherent : Coherent strict (init tracks groups bytes eviction).cache.Present
    (init tracks groups bytes eviction).cache := by
  have hnone : ∀ t l, (init tracks groups bytes eviction).cache.entryAt t l = none := fun _ _ => rfl
  refine ⟨@fun _ _ _ h => ?_, @fun _ _ _ _ _ h => ?_, fun _ => Nat.zero_le _, @fun t l h => ?_, fun t _ => ?_⟩
  · cases h
  · cases h
  · obtain ⟨-, e, he⟩ := h
    cases (hnone t l).symm.trans he
  · refine ⟨@fun l h => ?_, @fun l h => ?_, fun _ l _ => ?_, fun _ _ _ _ _ h => ?_⟩
    · obtain ⟨e, he⟩ := h
      cases (hnone t l).symm.trans he
    · obtain ⟨e, he⟩ := h
      cases (hnone t l).symm.trans he
    · refine ⟨Or.inl, fun h => ?_⟩
      rcases h with h | h
      · exact h
      · obtain ⟨e, he, -⟩ := h
        cases (hnone t l).symm.trans he
    · cases h

/-- **The records stay together** in every run of such events. -/
theorem reachable_coherent {ok : System → CacheOp → Prop} (htruthful : ∀ s op, ok s op → s.Truthful op)
    (hsettled : strict → ∀ s op, ok s op → ∀ t w, s.writeOf op = some (t, w) → s.cache.Settled t w)
    (h : Reachable ok (init tracks groups bytes eviction) s) : Coherent strict s.cache.Present s.cache := by
  induction h with
  | start => exact init_coherent
  | step hr hok hs ih =>
    exact step_coherent (reachable_books hr) ih (htruthful _ _ hok) (fun hst => hsettled hst _ _ hok) hs

end System

/-! ## 6. No location is both -/

namespace MoqxCache

variable {r : GroupRef} {w : ObjectWrite}
variable {gap : Nat}

variable {l : AbsoluteLocation}

theorem Held.alike {c' : MoqxCache} (h : c.Held t l) (ha : c.Alike c') : c'.Held t l := by
  obtain ⟨e, he⟩ := h
  exact ⟨e, (entryAt_congr (ha.groups t) fun r _ => (ha.group r).objects).trans he⟩

/-- The write contradicts what the track knows, where it is compared: it goes to a gap, or it announces as
    missing an entry that is looked at. -/
inductive Contradicts (c : MoqxCache) (r : GroupRef) (t : TrackRef) (w : ObjectWrite) : Prop where
  | gap : (c.track t).gaps.contains w.location = true → Contradicts c r t w
  | priorGroup {gap : Nat} {l : AbsoluteLocation} : w.priorGroupGap = some gap →
      (c.group r).seenPriorGroupIdGap = none → c.Held t l → PriorRange w.groupID (min gap kMaxGapValidation) l →
      Contradicts c r t w
  | priorObject {gap : Nat} {l : AbsoluteLocation} : w.priorObjectGap = some gap → c.Held t l →
      l.group = w.groupID → w.objectID - min gap kMaxGapValidation ≤ l.object → l.object < w.objectID →
      Contradicts c r t w

theorem processPriorGroupGap_rejects (hg : c.groupAt t w.groupID = some r)
    (hseen : (c.group r).seenPriorGroupIdGap = none) (hl : c.Held t l)
    (hr : PriorRange w.groupID (min gap kMaxGapValidation) l) :
    ∃ e, (c.processPriorGroupGap t w.groupID gap).1 = .error e := by
  unfold processPriorGroupGap getOrCreateGroup
  rw [groupAt] at hg
  rw [hg]
  split
  · exact ⟨_, rfl⟩
  · rename_i hle
    have hpos : 0 < gap := by
      rcases Nat.eq_zero_or_pos gap with rfl | hpos
      · have := hr.1
        have := hr.2
        simp only [Nat.zero_min, Nat.sub_zero] at *
        omega
      · exact hpos
    have hheld : (c.setGroup r { c.group r with seenPriorGroupIdGap := some gap }).Held t l :=
      hl.alike (setGroup_alike ⟨rfl, rfl, rfl, rfl, rfl⟩)
    have hcovers : (c.setGroup r { c.group r with seenPriorGroupIdGap := some gap }).coversGroup t w.groupID
        (min gap kMaxGapValidation) = true := by
      by_contra hfalse
      rw [Bool.not_eq_true] at hfalse
      exact not_held_of_coversGroup hfalse hheld hr.1 hr.2 (by omega)
    simp only [hseen, if_pos hpos, hcovers, if_true]
    exact ⟨_, rfl⟩

theorem processPriorObjectGap_rejects (hg : c.groupAt t w.groupID = some r) (hl : c.Held t l)
    (hgroup : l.group = w.groupID) (hlow : w.objectID - min gap kMaxGapValidation ≤ l.object)
    (hhigh : l.object < w.objectID) :
    ∃ e, (c.processPriorObjectGap t w.groupID w.objectID gap).1 = .error e := by
  unfold processPriorObjectGap getOrCreateGroup
  have hg' := hg
  rw [groupAt] at hg'
  rw [hg']
  split
  · exact ⟨_, rfl⟩
  · rename_i hle
    have hpos : 0 < gap := by omega
    have hcovers : c.coversObject r w.objectID (min gap kMaxGapValidation) = true := by
      by_contra hfalse
      rw [Bool.not_eq_true] at hfalse
      exact not_held_of_coversObject hfalse (by rw [hgroup]; exact hg) hl hlow hhigh (by omega)
    simp only [if_pos hpos, hcovers, if_true]
    exact ⟨_, rfl⟩

theorem cacheObject_rejects (hg : c.groupAt t w.groupID = some r) (h : c.Contradicts r t w) :
    ∃ e, (c.cacheObject r t w).1 = .error e := by
  unfold cacheObject
  by_cases hgap : (c.track t).gaps.contains w.location = true
  · rw [if_pos hgap]
    exact ⟨_, rfl⟩
  · rw [if_neg hgap]
    suffices hext : ∃ e, (c.processGapExtensions t w.groupID w.objectID w.extensions).1 = .error e by
      obtain ⟨e, he⟩ := hext
      generalize c.processGapExtensions t w.groupID w.objectID w.extensions = p at he ⊢
      obtain ⟨reply, d⟩ := p
      simp only at he
      subst he
      exact ⟨_, rfl⟩
    unfold processGapExtensions
    cases h with
    | gap h => exact absurd h hgap
    | priorGroup hprior hseen hl hr =>
      obtain ⟨e, he⟩ := processPriorGroupGap_rejects hg hseen hl hr
      rw [ObjectWrite.priorGroupGap] at hprior
      rw [hprior]
      simp only [processIfPresent]
      generalize c.processPriorGroupGap t w.groupID _ = p at he ⊢
      obtain ⟨reply, d⟩ := p
      simp only at he
      subst he
      exact ⟨_, rfl⟩
    | priorObject hprior hl hgroup hlow hhigh =>
      have hfirst : c.Alike (processIfPresent w.priorGroupGap (fun gap c => c.processPriorGroupGap t w.groupID gap) c).2 :=
        processIfPresent_records (alike_records (t := t)) fun n => processPriorGroupGap_alike hg
      split
      · exact ⟨_, rfl⟩
      · rename_i d heq
        rw [ObjectWrite.priorGroupGap, heq] at hfirst
        rw [ObjectWrite.priorObjectGap] at hprior
        rw [hprior]
        exact processPriorObjectGap_rejects ((hfirst.groupAt t w.groupID).trans hg) (hl.alike hfirst) hgroup hlow hhigh

end MoqxCache

namespace System

/-- **No location is both cached and known not to exist**, in every run whose events deny no entry; and a write
    that is seen to contradict the gaps or the entries is refused. -/
theorem cached_object_not_in_gaps (h : Reachable Truthful (init tracks groups bytes eviction) s) (t : TrackRef) :
    (∀ l e, s.cache.entryAt t l = some e → (s.cache.track t).gaps.contains l = false) ∧
      ∀ r w, s.cache.groupAt t w.groupID = some r → s.cache.Contradicts r t w →
        ∃ e, (s.cache.cacheObject r t w).1 = .error e := by
  refine ⟨fun l e he => ?_, fun r w hg hc => cacheObject_rejects hg hc⟩
  have hcoherent : Coherent False s.cache.Present s.cache :=
    reachable_coherent (fun _ _ hok => hok) (fun hfalse => hfalse.elim) h
  by_cases hev : (s.cache.track t).evicted = false
  · exact (hcoherent.track t hev).apart ⟨e, he⟩
  · rw [Bool.not_eq_false] at hev
    obtain ⟨r, hr, ho⟩ := bind_eq_some_iff.mp he
    rw [(reachable_books h).sound.emptied hev hr] at ho
    cases ho

theorem truthful_of_none {op : CacheOp} (hw : s.writeOf op = none) (ht : s.Thorough op) : s.Truthful op := by
  refine ⟨fun t w h => ?_, ht⟩
  rw [hw] at h
  cases h

theorem truthful_of_normal {op : CacheOp} {t : TrackRef} {w : ObjectWrite} (hw : s.writeOf op = some (t, w))
    (ht : s.Thorough op) (hstatus : w.status = .normal) (hgroup : w.priorGroupGap = none)
    (hobject : w.objectID ≤ kMaxGapValidation) : s.Truthful op := by
  refine ⟨fun t' w' h => ?_, ht⟩
  cases hw.symm.trans h
  refine ⟨hobject.trans (by decide), fun l _ hdenies => ?_⟩
  cases hdenies with
  | group hend =>
    rw [hstatus] at hend
    rcases hend with hend | hend <;> cases hend
  | track hend =>
    rw [hstatus] at hend
    cases hend
  | priorGroup hgap =>
    rw [hgroup] at hgap
    cases hgap
  | priorObject _ _ _ hlt => omega

/-- An object before and an object behind one that is announced as missing. -/
theorem cached_object_not_in_gaps_two :
    ∃ s, Reachable Truthful (init 4 4 100 0) s ∧ (s.cache.track 0).gaps.contains ⟨0, 2⟩ = true ∧
      (s.cache.track 0).gaps.contains ⟨0, 3⟩ = false := by
  have h0 : Reachable Truthful (init 4 4 100 0) (init 4 4 100 0) := .start
  have h1 := h0.next (.getSubscribeWriteback ⟨[], []⟩) (truthful_of_none rfl trivial) rfl
  have h2 := h1.next (.objectStream 0 ⟨0, 0, 1, .normal, noExtensions⟩ (some [1]) 0)
    (truthful_of_normal rfl trivial rfl rfl (by decide)) rfl
  have h3 := h2.next (.objectStream 0 ⟨0, 0, 3, .normal, ⟨[(kPriorObjectIdGapExtensionType, 1)]⟩⟩ (some [2]) 0)
    (truthful_of_normal rfl trivial rfl rfl (by decide)) rfl
  exact ⟨_, h3, by decide +kernel, (cached_object_not_in_gaps h3 0).1 ⟨0, 3⟩ _ rfl⟩

/-- `END_OF_GROUP` at object 2 is accepted although object 5 of the group is cached. -/
theorem cached_object_in_gaps_end_of_group :
    ∃ s s', Reachable (fun _ _ => True) (init 4 4 100 0) s ∧
      s.step (.objectStream 0 ⟨0, 0, 2, .endOfGroup, noExtensions⟩ none 0) = some s' ∧
      (s.cache.cacheObject 0 0 (ObjectHeader.write ⟨0, 0, 2, .endOfGroup, noExtensions⟩ none false 0)).1 = .ok () ∧
      (s'.cache.entryAt 0 ⟨0, 5⟩).isSome = true ∧ (s'.cache.track 0).gaps.contains ⟨0, 5⟩ = true := by
  have h0 : Reachable (fun _ _ => True) (init 4 4 100 0) (init 4 4 100 0) := .start
  have h1 := h0.next (.getSubscribeWriteback ⟨[], []⟩) trivial rfl
  have h2 := h1.next (.objectStream 0 ⟨0, 0, 5, .normal, noExtensions⟩ (some [1]) 0) trivial rfl
  exact ⟨_, _, h2, rfl, rfl, rfl, by decide +kernel⟩

/-! ## 7. The index -/

/-- **The index is the gaps and the complete entries**, in every run whose events deny no entry and contradict
    no group that is announced as missing. -/
theorem cachedContent_iff (h : Reachable Undisputed (init tracks groups bytes eviction) s) {t : TrackRef}
    (ht : (s.cache.track t).evicted = false) {l : AbsoluteLocation} (hl : l.object ≤ kEightByteLimit) :
    (s.cache.track t).cachedContent.contains l = true ↔
      (s.cache.track t).gaps.contains l = true ∨ s.cache.Whole t l := by
  have hcoherent : Coherent True s.cache.Present s.cache :=
    reachable_coherent (fun _ _ hok => hok.toTruthful) (fun _ _ _ hok => hok.settled) h
  exact (hcoherent.track t ht).index trivial hl

theorem settled_of_no_groups {c : MoqxCache} {t : TrackRef} {w : ObjectWrite} (h : (c.track t).groups = ∅) :
    c.Settled t w := by
  have hnone : ∀ g, c.groupAt t g = none := by
    intro g
    rw [groupAt, h]
    exact lookup_empty g
  refine ⟨fun l hl => ?_, fun g r n hg => ?_⟩
  · obtain ⟨r, e, hr, -⟩ := hl.2.group
    cases (hnone _).symm.trans hr
  · cases (hnone g).symm.trans hg

/-- An object behind one that is announced as missing. -/
theorem cachedContent_iff_one :
    ∃ s, Reachable Undisputed (init 4 4 100 0) s ∧ (s.cache.track 0).gaps.contains ⟨0, 2⟩ = true ∧
      (s.cache.track 0).cachedContent.contains ⟨0, 3⟩ = true := by
  have h0 : Reachable Undisputed (init 4 4 100 0) (init 4 4 100 0) := .start
  have h1 := h0.next (.getSubscribeWriteback ⟨[], []⟩)
    ⟨truthful_of_none rfl trivial, fun _ _ h => nomatch h⟩ rfl
  have h2 := h1.next (.objectStream 0 ⟨0, 0, 3, .normal, ⟨[(kPriorObjectIdGapExtensionType, 1)]⟩⟩ (some [2]) 0)
    ⟨truthful_of_normal rfl trivial rfl rfl (by decide), fun t w h => by
      cases h
      exact settled_of_no_groups rfl⟩ rfl
  exact ⟨_, h2, by decide +kernel, (cachedContent_iff h2 rfl (by decide)).mpr (Or.inr ⟨_, rfl, rfl⟩)⟩

/-- Object 6 of group 1 is refused, because the prior-group gap it announces covers object 0 of group 0. The
    group keeps the announced gap all the same, and its eviction forgets object 0. -/
theorem cachedContent_forgets_cached :
    ∃ s, Reachable (fun _ _ => True) (init 4 4 100 0) s ∧ (s.cache.track 0).evicted = false ∧
      (s.cache.entryAt 0 ⟨0, 0⟩).map (·.complete) = some true ∧
      (s.cache.track 0).cachedContent.contains ⟨0, 0⟩ = false := by
  have h0 : Reachable (fun _ _ => True) (init 4 4 100 0) (init 4 4 100 0) := .start
  have h1 := h0.next (.getSubscribeWriteback ⟨[], []⟩) trivial rfl
  have h2 := h1.next (.objectStream 0 ⟨1, 0, 5, .normal, noExtensions⟩ (some [1]) 0) trivial rfl
  have h3 := h2.next (.objectStream 0 ⟨0, 0, 0, .normal, noExtensions⟩ (some [2]) 0) trivial rfl
  have h4 := h3.next (.objectStream 0 ⟨1, 0, 6, .normal, ⟨[(kPriorGroupIdGapExtensionType, 1)]⟩⟩ (some [3]) 0)
    trivial rfl
  have h5 := h4.next (.closeSubscribe 0) trivial rfl
  have h6 := h5.next (.setMaxCachedGroupsPerTrack 1) trivial rfl
  exact ⟨_, h6, rfl, rfl, by decide +kernel⟩

end System

end Moqx

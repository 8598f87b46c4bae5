/-
  Subject: The tables of fetches in progress, and the writebacks their entries belong to.

  * `CacheTrack.entriesOf` -- the entries of one writeback in the table of a track;
  * `Follows`, `call_follows` -- how the entry follows the cursor through the calls of a stream.
-/
import Moqx.Cache.TrackList
import Moqx.Fetch.Books

namespace Moqx

open MoqxCache List Function CacheTrack

/-! ## 1. The entries of one writeback -/

namespace CacheTrack

variable {t : CacheTrack} {key : AbsoluteLocation} {entry : FetchInProgressEntry} {id : WritebackId}

variable {id' : WritebackId} {p : AbsoluteLocation}

def entriesOf (t : CacheTrack) (id : WritebackId) : List (AbsoluteLocation × FetchInProgressEntry) :=
  t.fetchesInProgress.filter fun e => e.2.writeback == id

theorem mem_entriesOf {e : AbsoluteLocation × FetchInProgressEntry} :
    e ∈ t.entriesOf id ↔ e ∈ t.fetchesInProgress ∧ e.2.writeback = id := by
  unfold entriesOf
  rw [mem_filter, beq_iff_eq]

theorem SameUse.entriesOf {t' : CacheTrack} (h : t.SameUse t') : t'.entriesOf id = t.entriesOf id := by
  rw [CacheTrack.entriesOf, h.inProgress]
  rfl

theorem entriesOf_emplaceFetch_ne (h : entry.writeback ≠ id) :
    (t.emplaceFetch key entry).entriesOf id = t.entriesOf id := by
  unfold entriesOf emplaceFetch
  simp only
  rw [filter_append, filter_cons_of_neg (by simpa using h), ← filter_append,
    takeWhile_append_dropWhile]

theorem entriesOf_emplaceFetch_self (h : t.entriesOf entry.writeback = []) :
    (t.emplaceFetch key entry).entriesOf entry.writeback = [(key, entry)] := by
  unfold entriesOf at h ⊢
  rw [← takeWhile_append_dropWhile (p := fun e => decide (e.1 ≤ key)) (l := t.fetchesInProgress),
    filter_append, append_eq_nil_iff] at h
  unfold emplaceFetch
  simp only
  rw [filter_append, h.1, filter_cons_of_pos (by simp), h.2]
  rfl

theorem entriesOf_eraseFetch_ne (h : id ≠ id') :
    (t.eraseFetch id').entriesOf id = t.entriesOf id := by
  unfold entriesOf eraseFetch
  simp only
  rw [filter_filter]
  refine filter_congr fun e _ => ?_
  by_cases he : e.2.writeback = id
  · simp [he, h]
  · simp [he]

theorem entriesOf_eraseFetch_self : (t.eraseFetch id).entriesOf id = [] := by
  unfold entriesOf eraseFetch
  simp only
  rw [filter_filter, filter_eq_nil_iff]
  intro e _
  simp

theorem entriesOf_setProgress :
    (FetchWriteback.setProgress t id' p).entriesOf id = (t.entriesOf id).map fun e =>
      if e.2.writeback = id' then (e.1, { e.2 with progress := p }) else e := by
  unfold entriesOf FetchWriteback.setProgress
  simp only
  rw [filter_map]
  congr 1
  refine filter_congr fun e _ => ?_
  simp only [comp]
  split <;> rfl

theorem entriesOf_setProgress_ne (h : id ≠ id') :
    (FetchWriteback.setProgress t id' p).entriesOf id = t.entriesOf id := by
  rw [entriesOf_setProgress]
  refine (map_congr_left fun e he => ?_).trans (map_id _)
  rw [if_neg]
  · rfl
  · rw [(mem_entriesOf.mp he).2]
    exact h

theorem entriesOf_setProgress_self :
    (FetchWriteback.setProgress t id p).entriesOf id =
      (t.entriesOf id).map fun e => (e.1, { e.2 with progress := p }) := by
  rw [entriesOf_setProgress]
  exact map_congr_left fun e he => if_pos (mem_entriesOf.mp he).2

end CacheTrack

/-! ## 2. A writeback and its entry -/

namespace FetchWriteback

variable {s s' s'' : State} {p p' p'' : AbsoluteLocation}

variable {w : FetchWriteback} {c : MoqxCache} {loc : AbsoluteLocation} {fin : Bool}

/-- The entry a writeback has: under the key it remembers, to the end of its range. -/
def entries (w : FetchWriteback) (progress : AbsoluteLocation) : List (AbsoluteLocation × FetchInProgressEntry) :=
  w.fetchInProgressIt.toList.map fun key => (key, ⟨w.fetchRangeIt.maxLocation, progress, w.id⟩)

/-- The tables hold the writeback's entry, and no other one of it. -/
def Recorded (w : FetchWriteback) (progress : AbsoluteLocation) (c : MoqxCache) : Prop :=
  ∀ t, (c.track t).entriesOf w.id = if t = w.track then w.entries progress else []

theorem Recorded.gone (h : w.Recorded p c) (hn : w.fetchInProgressIt = none) (t : TrackRef) :
    (c.track t).entriesOf w.id = [] := by
  rw [h t]
  unfold entries
  rw [hn]
  split <;> rfl

theorem Recorded.any (h : w.Recorded p c) (hn : w.fetchInProgressIt = none) :
    w.Recorded p' c := by
  intro t
  rw [h t]
  unfold entries
  rw [hn]
  rfl

theorem Recorded.frame {w' : FetchWriteback} {c' : MoqxCache} (h : w.Recorded p c)
    (ht : ∀ t, (c'.track t).entriesOf w.id = (c.track t).entriesOf w.id) (hs : w.Same w')
    (hkey : w'.fetchInProgressIt = w.fetchInProgressIt) : w'.Recorded p c' := by
  intro t
  have htrack : w'.track = w.track := hs.range.track
  rw [htrack, hs.id, ht t, h t]
  unfold entries
  rw [hkey, hs.range.max, hs.id]

/-- A step of a writeback that keeps its record right, with progress `p` before and `p'` after it. -/
structure Enters (p p' : AbsoluteLocation) (s s' : State) : Prop where
  same : s.2.Same s'.2
  others : ∀ {id} t, id ≠ s.2.id → (s'.1.track t).entriesOf id = (s.1.track t).entriesOf id
  own : s.2.Recorded p s.1 → s'.2.Recorded p' s'.1

theorem Enters.id (h : Enters p p' s s') : s'.2.id = s.2.id := h.same.id

theorem Enters.trans (h : Enters p p' s s') (h' : Enters p' p'' s' s'') : Enters p p'' s s'' where
  same := h.same.trans h'.same
  others t hid := (h'.others t (by rw [h.id]; exact hid)).trans (h.others t hid)
  own hr := h'.own (h.own hr)

theorem Enters.of_same (h : ∀ t, (s'.1.track t).fetchesInProgress = (s.1.track t).fetchesInProgress)
    (hs : s.2.Same s'.2) (hkey : s'.2.fetchInProgressIt = s.2.fetchInProgressIt) : Enters p p s s' := by
  have ht : ∀ {id} t, (s'.1.track t).entriesOf id = (s.1.track t).entriesOf id := fun t => by
    rw [entriesOf, h t]
    rfl
  exact ⟨hs, fun t _ => ht t, fun hr => hr.frame (fun t => ht t) hs hkey⟩

theorem entriesOf_setTrack {t t' : TrackRef} {tr : CacheTrack} {id : WritebackId} :
    ((c.setTrack t tr).track t').entriesOf id =
      if t' = t then tr.entriesOf id else (c.track t').entriesOf id := by
  by_cases h : t' = t
  · subst h
    rw [setTrack_self, if_pos rfl]
  · rw [setTrack_ne h, if_neg h]

theorem emplaceAndPinGroup_table {entry : FetchInProgressEntry} {t : TrackRef} :
    ((emplaceAndPinGroup s loc entry).1.track t).fetchesInProgress =
      ((s.1.setTrack s.2.track ((s.1.track s.2.track).emplaceFetch loc entry)).track t).fetchesInProgress := by
  obtain ⟨c, w⟩ := s
  unfold emplaceAndPinGroup
  simp only
  split
  · exact (pinGroup_relinks.sameUse.track t).inProgress
  · exact ((evictOldestGroupsIfNeeded_purges.sameUse.trans (addGroup_sameUse.trans pinGroup_relinks.sameUse)).track t).inProgress

theorem emplaceAndPinGroup_writeback {entry : FetchInProgressEntry} :
    ∃ r, (emplaceAndPinGroup s loc entry).2 =
      { s.2 with fetchInProgressIt := some loc, pinnedGroup := some r } := ⟨_, rfl⟩

theorem emplaceAndPinGroup_enters (hn : s.2.fetchInProgressIt = none) :
    Enters p p' s (emplaceAndPinGroup s loc ⟨s.2.fetchRangeIt.maxLocation, p', s.2.id⟩) := by
  obtain ⟨r, hw⟩ := @emplaceAndPinGroup_writeback s loc ⟨s.2.fetchRangeIt.maxLocation, p', s.2.id⟩
  have htable : ∀ t id, ((emplaceAndPinGroup s loc ⟨s.2.fetchRangeIt.maxLocation, p', s.2.id⟩).1.track t).entriesOf id =
      ((s.1.setTrack s.2.track ((s.1.track s.2.track).emplaceFetch loc
        ⟨s.2.fetchRangeIt.maxLocation, p', s.2.id⟩)).track t).entriesOf id := by
    intro t id
    rw [entriesOf, emplaceAndPinGroup_table]
    rfl
  refine ⟨by rw [hw]; exact ⟨.refl _, rfl, rfl, rfl⟩, @fun id t hid => ?_, fun hr t => ?_⟩
  · rw [htable, entriesOf_setTrack]
    split
    · rename_i h
      subst h
      exact entriesOf_emplaceFetch_ne (Ne.symm hid)
    · rfl
  · rw [htable, entriesOf_setTrack, hw]
    have hgone := hr.gone hn
    by_cases ht : t = s.2.track
    · rw [if_pos ht, if_pos ht]
      exact entriesOf_emplaceFetch_self (hgone _)
    · rw [if_neg ht, if_neg ht]
      exact hgone t

theorem eraseAndMakeGroupEvictable_writeback :
    ∃ pin, (eraseAndMakeGroupEvictable s).2 = { s.2 with fetchInProgressIt := none, pinnedGroup := pin } := by
  obtain ⟨c, w⟩ := s
  unfold eraseAndMakeGroupEvictable
  simp only
  split
  · rename_i h
    exact ⟨w.pinnedGroup, by rw [← h]⟩
  · split
    · exact ⟨_, rfl⟩
    · exact ⟨_, rfl⟩

theorem eraseAndMakeGroupEvictable_enters : Enters p p' s (eraseAndMakeGroupEvictable s) := by
  obtain ⟨c, w⟩ := s
  unfold eraseAndMakeGroupEvictable
  simp only
  cases hkey : w.fetchInProgressIt with
  | none =>
    refine ⟨.refl _, fun _ _ => rfl, fun hr => ?_⟩
    exact hr.any hkey
  | some key =>
    simp only
    have herase : ∀ (d : MoqxCache) (w' : FetchWriteback),
        (c.setTrack w.track ((c.track w.track).eraseFetch w.id)).SameUse d →
        w.Same w' → w'.fetchInProgressIt = none → Enters p p' (c, w) (d, w') := by
      intro d w' hd hs hn
      refine ⟨hs, @fun id t hid => ?_, fun hr t => ?_⟩
      · rw [(hd.track t).entriesOf, entriesOf_setTrack]
        split
        · rename_i h
          subst h
          exact entriesOf_eraseFetch_ne hid
        · rfl
      · have hnone : w'.entries p' = [] := by
          unfold entries
          rw [hn]
          rfl
        simp only
        rw [(hd.track t).entriesOf, entriesOf_setTrack, hnone, hs.id, ite_self]
        split
        · exact entriesOf_eraseFetch_self
        · rename_i h
          exact (hr t).trans (if_neg h)
    split
    · exact herase _ _ (.refl _) ⟨.refl _, rfl, rfl, rfl⟩ rfl
    · exact herase _ _ unpinGroup_relinks.sameUse ⟨.refl _, rfl, rfl, rfl⟩ rfl

/-- The key of the entry after a cursor is published. -/
def nextKey (it : FetchRangeIterator) (key : Option AbsoluteLocation) : Option AbsoluteLocation :=
  if it.isValid then
    key.bind fun key =>
      if key.group < it.current.group then
        if it.current < it.maxLocation then some it.current else none
      else some key
  else none

theorem setProgress_enters :
    Enters p p' s (s.1.setTrack s.2.track (setProgress (s.1.track s.2.track) s.2.id p'), s.2) := by
  refine ⟨.refl _, @fun id t hid => ?_, fun hr t => ?_⟩
  · rw [entriesOf_setTrack]
    split
    · rename_i h
      subst h
      exact entriesOf_setProgress_ne hid
    · rfl
  · have h := hr t
    simp only
    rw [entriesOf_setTrack]
    by_cases ht : t = s.2.track
    · subst ht
      rw [if_pos rfl] at h
      rw [if_pos rfl, if_pos rfl, entriesOf_setProgress_self, h]
      unfold entries
      rw [map_map]
      rfl
    · rw [if_neg ht] at h
      rw [if_neg ht, if_neg ht]
      exact h

theorem followCursor_writeback (hv : s.2.fetchRangeIt.isValid = true) : ∃ pin,
    (followCursor s).2 =
      { s.2 with fetchInProgressIt := nextKey s.2.fetchRangeIt s.2.fetchInProgressIt, pinnedGroup := pin } := by
  obtain ⟨c, w⟩ := s
  simp only at hv
  unfold followCursor nextKey
  simp only [hv, if_true]
  cases hkey : w.fetchInProgressIt with
  | none => exact ⟨w.pinnedGroup, by simp only [Option.bind_none]; rw [← hkey]⟩
  | some key =>
    simp only [Option.bind_some]
    split
    · obtain ⟨pin, herase⟩ := @eraseAndMakeGroupEvictable_writeback
        (c.setTrack w.track (setProgress (c.track w.track) w.id w.fetchRangeIt.current), w)
      split
      · obtain ⟨r, hput⟩ := @emplaceAndPinGroup_writeback (eraseAndMakeGroupEvictable
          (c.setTrack w.track (setProgress (c.track w.track) w.id w.fetchRangeIt.current), w))
          w.fetchRangeIt.current ⟨w.fetchRangeIt.maxLocation, w.fetchRangeIt.current, w.id⟩
        rw [herase] at hput
        exact ⟨some r, hput⟩
      · exact ⟨pin, herase⟩
    · exact ⟨w.pinnedGroup, by rw [← hkey]⟩

theorem updateInProgress_writeback : ∃ pin baton, (updateInProgress s).2 =
    { s.2 with
      fetchInProgressIt := nextKey s.2.fetchRangeIt s.2.fetchInProgressIt
      pinnedGroup := pin
      inProgress := baton } := by
  unfold updateInProgress
  split
  · rename_i hv
    obtain ⟨pin, h⟩ := followCursor_writeback hv
    refine ⟨pin, false, ?_⟩
    simp only
    rw [h]
  · rename_i hv
    obtain ⟨pin, h⟩ := @eraseAndMakeGroupEvictable_writeback s
    refine ⟨pin, true, ?_⟩
    simp only
    rw [h]
    unfold nextKey
    rw [if_neg hv]

/-- **Publishing the cursor**: the entry's progress is the cursor's place. -/
theorem updateInProgress_enters : Enters p s.2.fetchRangeIt.current s (updateInProgress s) := by
  have hprogress : Enters p s.2.fetchRangeIt.current s (progressed s) := setProgress_enters
  have hgone := hprogress.trans
    (@eraseAndMakeGroupEvictable_enters (progressed s) _ s.2.fetchRangeIt.current)
  obtain ⟨pin, herase⟩ := @eraseAndMakeGroupEvictable_writeback (progressed s)
  have hput := @emplaceAndPinGroup_enters (eraseAndMakeGroupEvictable (progressed s)) s.2.fetchRangeIt.current
    s.2.fetchRangeIt.current s.2.fetchRangeIt.current (by rw [herase])
  rw [herase] at hput
  refine updateInProgress_rule (P := Enters p s.2.fetchRangeIt.current s) (fun hkey => ?_)
    eraseAndMakeGroupEvictable_enters hprogress hgone (hgone.trans hput) fun h => ?_
  · exact ⟨.refl _, fun _ _ => rfl, fun hr => hr.any hkey⟩
  · exact h.trans (.of_same (fun _ => rfl) ⟨.refl _, rfl, rfl, rfl⟩ rfl)

/-! ## 3. The calls of a stream -/

theorem Gapped.sameUse {t : TrackRef} {c' : MoqxCache} (h : Gapped t c c') : c.SameUse c' := by
  induction h with
  | refl => exact .refl _
  | gap start «end» _ ih => exact ih.trans (setTrack_sameUse (insertGap_marked _ _).sameUse)

theorem Enters.quiet (hq : Quiet s s') (hu : s.1.SameUse s'.1) : Enters p p s s' :=
  .of_same (fun t => (hu.track t).inProgress) hq.same hq.key

theorem next_enters : Enters p p s (next s) := .quiet next_quiet (.refl _)

theorem updateInProgress_current : (updateInProgress s).2.fetchRangeIt = s.2.fetchRangeIt := by
  obtain ⟨pin, baton, h⟩ := @updateInProgress_writeback s
  rw [h]

theorem updateInProgress_key :
    (updateInProgress s).2.fetchInProgressIt = nextKey s.2.fetchRangeIt s.2.fetchInProgressIt := by
  obtain ⟨pin, baton, h⟩ := @updateInProgress_writeback s
  rw [h]

/-- The writeback after a call that has published its cursor: the progress in the table is the cursor's
    place, and the key has followed. -/
structure Published (p : AbsoluteLocation) (s s' : State) : Prop extends
    Enters p s'.2.fetchRangeIt.current s s' where
  key : s'.2.fetchInProgressIt = nextKey s'.2.fetchRangeIt s.2.fetchInProgressIt

theorem Enters.published (h : Enters p p s s') (hkey : s'.2.fetchInProgressIt = s.2.fetchInProgressIt)
    (h' : Published p s' s'') : Published p s s'' where
  toEnters := h.trans h'.toEnters
  key := by rw [h'.key, hkey]

theorem updateInProgress_published : Published p s (updateInProgress s) where
  toEnters := by
    rw [updateInProgress_current]
    exact updateInProgress_enters
  key := by rw [updateInProgress_key, updateInProgress_current]

theorem endStream_published : Published p s (endStream s) := by
  have hcomplete : ∀ p, Enters p p (updateInProgress s) (endStream s) := fun p =>
    .of_same (fun _ => rfl) ⟨.refl _, rfl, rfl, rfl⟩ rfl
  have hcurrent : (endStream s).2.fetchRangeIt = s.2.fetchRangeIt := updateInProgress_current
  refine ⟨?_, ?_⟩
  · rw [hcurrent]
    exact updateInProgress_enters.trans (hcomplete _)
  · rw [hcurrent]
    exact updateInProgress_key

theorem onFetchStreamEnd_published (h : onFetchStreamEnd s = some s') : Published p s s' := by
  rw [onFetchStreamEnd_eq] at h
  obtain ⟨d, hd, rfl⟩ := Option.map_eq_some_iff.mp h
  split at hd
  · cases hd
    exact Enters.published (.quiet invalidate_quiet (.refl _)) rfl endStream_published
  · have hq := finishRange_quiet hd
    exact Enters.published (.quiet hq (finishRange_gapped hd).1.sameUse) hq.key endStream_published

theorem finishRange_published (h : finishRange s = some s') (hkey : Enters p p'' s'' s) :
    Published p s'' (endStream s') := by
  obtain ⟨hu, gaps, it, hw, -⟩ := finishRange_gapped h
  have hq := finishRange_quiet h
  have hend := Enters.published (.quiet hq hu.sameUse) hq.key (@endStream_published s' p'')
  have hinvalid : (endStream s').2.fetchRangeIt.isValid = false := by
    rw [show (endStream s').2.fetchRangeIt = s'.2.fetchRangeIt from updateInProgress_current, hw]
    rfl
  refine ⟨hkey.trans hend.toEnters, ?_⟩
  rw [hend.key]
  unfold nextKey
  rw [hinvalid]
  rfl

theorem afterObject_published (h : afterObject s fin = some s') : Published p s s' := by
  have hnext : Published p s (updateInProgress (next s)) :=
    Enters.published next_enters next_quiet.key updateInProgress_published
  rw [afterObject_eq] at h
  split at h
  · obtain ⟨d, hd, rfl⟩ := Option.map_eq_some_iff.mp h
    exact finishRange_published hd hnext.toEnters
  · cases h
    exact hnext

/-- How the entry follows a call: to the cursor, or not at all because the cursor has not moved, or not
    yet because an object has begun at a location ahead. -/
inductive Follows (call : FetchCall) (p : AbsoluteLocation) (s s' : State) : Prop where
  | published (h : Published p s s')
  | unmoved (h : Enters p p s s') (key : s'.2.fetchInProgressIt = s.2.fetchInProgressIt)
      (cursor : s'.2.fetchRangeIt = s.2.fetchRangeIt)
  | begun (h : Enters p p s s') (key : s'.2.fetchInProgressIt = s.2.fetchInProgressIt)
      (loc : AbsoluteLocation) (begins : call.begins = some loc) (range : s.2.inRange loc = true)
      (jumps : s.2.fetchRangeIt.current ≠ loc)
      (cursor : ∃ c : MoqxCache, s'.2.fetchRangeIt = s.2.fetchRangeIt.advanceTo c.group (c.track s.2.track) loc)

theorem Follows.enters {call : FetchCall} (h : Follows call p s s') : ∃ p', Enters p p' s s' := by
  cases h with
  | published h => exact ⟨_, h.toEnters⟩
  | unmoved h => exact ⟨_, h⟩
  | begun h => exact ⟨_, h⟩

theorem receive_track : (w.receive loc).track = w.track := by
  unfold receive
  split <;> rfl

theorem receive_cursor :
    (w.receive loc).fetchRangeIt = w.fetchRangeIt := by
  unfold receive
  split <;> rfl

theorem Alters.cursor {w' : FetchWriteback} (h : w.Alters w') : w'.fetchRangeIt = w.fetchRangeIt := by
  obtain ⟨subgroup, length, offset, accepted, rfl⟩ := h
  rfl

theorem Alters.enters (h : s.2.Alters w) : Enters p p s (s.1, w) := .quiet h.quiet (.refl _)

theorem cacheImpl_published {write : ObjectWrite} {reply : Reply} (hn : Named s.1)
    (h : cacheImpl s write fin = some (reply, s')) :
    Published p s s' ∨
      write.complete = false ∧ Enters p p s s' ∧ s'.2.fetchInProgressIt = s.2.fetchInProgressIt ∧
        (s'.2.fetchRangeIt = s.2.fetchRangeIt ∨ s.2.fetchRangeIt.current ≠ write.location ∧ ∃ c : MoqxCache,
          s'.2.fetchRangeIt = s.2.fetchRangeIt.advanceTo c.group (c.track s.2.track) write.location) := by
  obtain ⟨d, hd, hafter⟩ := cacheImpl_caches h
  have hgroup := (@getOrCreateGroupWithEviction_sameUse s.1 s.2.track write.groupID s.2.ftn).passive
  have hpassive : Passive s.1 (stored s write) :=
    hgroup.trans (cacheObjectAndUpdateBytes_passive (hgroup.named hn))
  have hreceive := @receive_quiet s write.location
  have hcached : Enters p p s (stored s write, s.2.receive write.location) :=
    .of_same hpassive.inProgress hreceive.same hreceive.key
  have hq := markNonExistentTo_quiet hd
  obtain ⟨hu, gaps, it, hw, hit⟩ := markNonExistentTo_gapped hd
  have hmoved : Enters p p s d := hcached.trans (.quiet hq hu.sameUse)
  have hkey : d.2.fetchInProgressIt = s.2.fetchInProgressIt := hq.key.trans hreceive.key
  cases hafter with
  | refused => exact Or.inl (hmoved.published hkey updateInProgress_published)
  | whole _ hl h =>
    have hlargest := hmoved.trans (.quiet (setLargest_quiet hl) (setTrack_updateLargest_sameUse hl))
    exact Or.inl (hlargest.published hkey (afterObject_published h))
  | part hc hl =>
    have hlargest := hmoved.trans (.quiet (setLargest_quiet hl) (setTrack_updateLargest_sameUse hl))
    refine Or.inr ⟨hc, hlargest, hkey, ?_⟩
    rw [hw]
    simp only [receive_cursor] at hit ⊢
    rcases hit with ⟨hit, -⟩ | ⟨hne, c, hit⟩
    · exact Or.inl hit
    · refine Or.inr ⟨hne, c, hit.trans ?_⟩
      rw [receive_track]

theorem afterChunk_follows {objectComplete : Bool} (h : afterChunk s objectComplete fin = some s') :
    Published p s s' ∨ s' = s := by
  rw [afterChunk_eq] at h
  split at h
  · obtain ⟨d, hd, rfl⟩ := Option.map_eq_some_iff.mp h
    have hmoved : Enters p p s d ∧ d.2.fetchInProgressIt = s.2.fetchInProgressIt := by
      split at hd
      · have hq := finishRange_quiet hd
        exact ⟨next_enters.trans (.quiet hq (finishRange_gapped hd).1.sameUse), hq.key⟩
      · cases hd
        exact ⟨next_enters, rfl⟩
    exact Or.inl (hmoved.1.published hmoved.2 updateInProgress_published)
  · cases h
    exact Or.inr rfl

theorem cacheChunk_passive {write : ObjectWrite} (hn : Named s.1) : Passive s.1 (cacheChunk s write).2.1 := by
  unfold cacheChunk
  split
  · exact .refl _
  · exact cacheObjectAndUpdateBytes_passive hn

theorem reset_published : Published p s (reset s) := by
  have hflags : Enters p p s (FetchWriteback.invalidate (s.1, { s.2 with wasReset := true, complete := true })) :=
    .of_same (fun _ => rfl) ⟨⟨rfl, rfl, rfl, rfl⟩, rfl, rfl, rfl⟩ rfl
  exact hflags.published rfl updateInProgress_published

theorem endOfUnknownRange_published {groupId objectId : Nat} :
    Published p s (endOfUnknownRange s groupId objectId fin) := by
  have hq := (@advanceTo_quiet s ⟨groupId, objectId⟩).trans next_quiet
  have hmoved : Enters p p s (next (advanceTo s ⟨groupId, objectId⟩)) := .quiet hq (.refl _)
  have hup := hmoved.published hq.key updateInProgress_published
  have hbaton : ∀ (d : State) p, Enters p p d (d.1, { d.2 with complete := d.2.complete || fin }) :=
    fun d p => .of_same (fun _ => rfl) ⟨.refl _, rfl, rfl, rfl⟩ rfl
  exact ⟨hup.toEnters.trans (hbaton _ _), hup.key⟩

/-- **A call of the stream** keeps the writeback's entry right, and touches no other. -/
theorem call_follows {call : FetchCall} {now : TimePoint} (hn : Named s.1)
    (h : (FetchWriteback.call s now call).1 ≠ .aborted) : Follows call p s (FetchWriteback.call s now call).2 := by
  have hdoes := call_does h
  generalize FetchWriteback.call s now call = res at hdoes
  cases hdoes with
  | idle ha => exact .unmoved ha.enters ha.quiet.key ha.cursor
  | ended _ _ _ h => exact .published (onFetchStreamEnd_published h)
  | @cached w w' write _ d ha _ _ range _ _ h part ha' =>
    have hflag := @Alters.enters s p w ha
    rcases @cacheImpl_published (s.1, w) d p _ write _ hn h with he | ⟨hc, he, hkey, hcursor⟩
    · have hp := hflag.published ha.quiet.key he
      refine .published ⟨?_, ?_⟩
      · rw [ha'.cursor]
        exact hp.toEnters.trans ha'.enters
      · rw [ha'.cursor]
        exact ha'.quiet.key.trans hp.key
    · have henters := (hflag.trans he).trans ha'.enters
      have hkey' := ha'.quiet.key.trans (hkey.trans ha.quiet.key)
      have hat : w.fetchRangeIt = s.2.fetchRangeIt := ha.cursor
      simp only [hat, track] at hcursor
      rcases hcursor with hcursor | ⟨hjump, c, hcursor⟩
      · exact .unmoved henters hkey' (ha'.cursor.trans hcursor)
      · exact .begun henters hkey' write.location (part hc) range hjump ⟨c, ha'.cursor.trans hcursor⟩
  | @refused payload _ _ _ _ _ _ h =>
    have hp := @cacheChunk_passive s (s.2.chunk payload now) hn
    rw [h] at hp
    exact .unmoved (.of_same hp.inProgress (.refl _) rfl) rfl rfl
  | @chunk payload _ c _ _ _ _ h after =>
    have hp := @cacheChunk_passive s (s.2.chunk payload now) hn
    rw [h] at hp
    have hcount : Enters p p s (c, { s.2 with currentOffset := s.2.currentOffset + payload.length }) :=
      .of_same hp.inProgress ⟨.refl _, rfl, rfl, rfl⟩ rfl
    rcases @afterChunk_follows _ _ p _ _ after with he | rfl
    · exact .published (hcount.published rfl he)
    · exact .unmoved hcount rfl rfl
  | reset => exact .published reset_published
  | unknown => exact .published endOfUnknownRange_published

/-! ## 4. Constructor and destructor -/

theorem open_writeback (h : w.cachingEnabled = true) :
    ∃ r, («open» (c, w)).2 =
      { w with fetchInProgressIt := some w.fetchRangeIt.minLocation, pinnedGroup := some r } := by
  unfold «open»
  simp only
  rw [if_pos h]
  exact emplaceAndPinGroup_writeback

theorem open_passThrough (h : w.cachingEnabled = false) :
    («open» (c, w)).2 = w := by
  unfold «open»
  simp only [h, Bool.false_eq_true, if_false]

theorem open_cachingEnabled :
    («open» (c, w)).2.cachingEnabled = w.cachingEnabled := by
  cases h : w.cachingEnabled with
  | true =>
    obtain ⟨r, hw⟩ := @open_writeback w c h
    rw [hw]
    exact h
  | false =>
    rw [open_passThrough h]
    exact h

theorem open_enters (hn : s.2.fetchInProgressIt = none) :
    Enters p s.2.fetchRangeIt.minLocation s («open» s) := by
  obtain ⟨c, w⟩ := s
  have hlru : ∀ t, ((c.removeTrackFromLRU w.track).track t).fetchesInProgress = (c.track t).fetchesInProgress :=
    fun t => (removeTrackFromLRU_enlists.rest t).1
  have hsame : Enters p p (c, w) (c.removeTrackFromLRU w.track, w) := .of_same hlru (.refl _) rfl
  unfold «open»
  simp only
  split
  · exact hsame.trans (emplaceAndPinGroup_enters hn)
  · exact ⟨.refl _, hsame.others, fun hr => (hsame.own hr).any hn⟩

theorem close_table (hr : s.2.Recorded p s.1) (t : TrackRef) (id : WritebackId) :
    ((close s).track t).entriesOf id = if id = s.2.id then [] else (s.1.track t).entriesOf id := by
  have herase := @eraseAndMakeGroupEvictable_enters s p p
  obtain ⟨pin, hw⟩ := @eraseAndMakeGroupEvictable_writeback s
  have hlist : ((close s).track t).entriesOf id = ((eraseAndMakeGroupEvictable s).1.track t).entriesOf id := by
    unfold close onTrackBecameEvictable
    split
    · rfl
    · split
      · rw [entriesOf, (addTrackToLRU_enlists.rest t).1]
        rfl
      · rfl
  rw [hlist]
  split
  · rename_i hid
    subst hid
    have hgone := (herase.own hr).gone (by rw [hw]) t
    rw [herase.id] at hgone
    exact hgone
  · rename_i hid
    exact herase.others t hid

theorem setUpstreamEnd_enters (h : setUpstreamEnd s loc = some s') :
    Enters p p s s' ∧ ∃ gaps, s'.2 = { s.2 with upstreamEnd := some loc, pendingGaps := gaps } := by
  obtain ⟨hu, gaps, hw⟩ := insertGaps_gapped h
  refine ⟨.of_same (fun t => (hu.sameUse.track t).inProgress) ?_ ?_, gaps, ?_⟩
  · rw [hw]
    exact ⟨.refl _, rfl, rfl, rfl⟩
  · rw [hw]
  · rw [hw]

end FetchWriteback

end Moqx

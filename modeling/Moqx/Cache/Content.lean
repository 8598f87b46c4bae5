/-
  Subject: What eviction does to the content of the cache.

  The content of a track is what a lookup can find out from it: its gaps, its index, and the objects of its
  groups. Everything that makes room is built from three steps.

  * `SameContent` -- the content stays as it is; only lists, pins and counters change;
  * `evictGroup_content` -- one group goes, with what was known about it;
  * `Evicting.gaps` -- no eviction adds a gap.
-/
import Moqx.Cache.TrackList

namespace Moqx

variable {c c' c'' : MoqxCache} {t t' : TrackRef} {r : GroupRef} {g : Nat} {ftn : FullTrackName}
  {tr tr' : CacheTrack} {l : AbsoluteLocation}

/-! ## 1. The same content -/

structure CacheTrack.SameContent (tr tr' : CacheTrack) : Prop where
  gaps : tr'.gaps = tr.gaps
  cachedContent : tr'.cachedContent = tr.cachedContent
  groups : tr'.groups = tr.groups
  evicted : tr'.evicted = tr.evicted

structure CacheGroup.SameContent (g g' : CacheGroup) : Prop where
  objects : g'.objects = g.objects
  seen : g'.seenPriorGroupIdGap = g.seenPriorGroupIdGap
  maxCachedObject : g'.maxCachedObject = g.maxCachedObject

structure MoqxCache.SameContent (c c' : MoqxCache) : Prop where
  track : ∀ t, (c.track t).SameContent (c'.track t)
  group : ∀ r, (c.group r).SameContent (c'.group r)
  nextGroup : c'.nextGroup = c.nextGroup

theorem CacheTrack.SameContent.refl (tr : CacheTrack) : tr.SameContent tr := ⟨rfl, rfl, rfl, rfl⟩

theorem CacheTrack.SameContent.trans {tr tr' tr'' : CacheTrack} (h : tr.SameContent tr') (h' : tr'.SameContent tr'') :
    tr.SameContent tr'' :=
  ⟨h'.gaps.trans h.gaps, h'.cachedContent.trans h.cachedContent, h'.groups.trans h.groups,
    h'.evicted.trans h.evicted⟩

theorem CacheGroup.SameContent.refl (g : CacheGroup) : g.SameContent g := ⟨rfl, rfl, rfl⟩

namespace MoqxCache

theorem SameContent.refl (c : MoqxCache) : SameContent c c := ⟨fun _ => .refl _, fun _ => .refl _, rfl⟩

theorem SameContent.trans (h : SameContent c c') (h' : SameContent c' c'') : SameContent c c'' where
  track t := (h.track t).trans (h'.track t)
  group r := ⟨(h'.group r).objects.trans (h.group r).objects, (h'.group r).seen.trans (h.group r).seen,
    (h'.group r).maxCachedObject.trans (h.group r).maxCachedObject⟩
  nextGroup := h'.nextGroup.trans h.nextGroup

theorem SameContent.groupAt (h : SameContent c c') (t : TrackRef) (g : Nat) : c'.groupAt t g = c.groupAt t g := by
  rw [MoqxCache.groupAt, (h.track t).groups, ← MoqxCache.groupAt]

theorem update_track {tr : CacheTrack} (h : (c.track t).SameContent tr) (t' : TrackRef) :
    (c.track t').SameContent (Function.update c.track t tr t') := by
  by_cases ht : t' = t
  · subst ht
    rw [Function.update_self]
    exact h
  · rw [Function.update_of_ne ht]
    exact .refl _

theorem update_group {gr : CacheGroup} (h : (c.group r).SameContent gr) (r' : GroupRef) :
    (c.group r').SameContent (Function.update c.group r gr r') := by
  by_cases hr : r' = r
  · subst hr
    rw [Function.update_self]
    exact h
  · rw [Function.update_of_ne hr]
    exact .refl _

theorem setTrack_content {tr : CacheTrack} (h : (c.track t).SameContent tr) : SameContent c (c.setTrack t tr) :=
  ⟨update_track h, fun _ => .refl _, rfl⟩

theorem setGroup_content {gr : CacheGroup} (h : (c.group r).SameContent gr) : SameContent c (c.setGroup r gr) :=
  ⟨fun _ => .refl _, update_group h, rfl⟩

theorem SetsLargest.content (h : SetsLargest t c c') : SameContent c c' := by
  obtain rfl | ⟨_, _, tr, hl, rfl⟩ := h
  · exact .refl _
  · rw [CacheTrack.updateLargest_eq hl]
    exact setTrack_content ⟨rfl, rfl, rfl, rfl⟩

theorem setTrack_updateLargest_content {tr : CacheTrack} {loc : AbsoluteLocation} {eot : Bool}
    (h : (c.track t).updateLargest loc eot = .ok tr) : SameContent c (c.setTrack t tr) :=
  SetsLargest.content (Or.inr ⟨_, _, _, h, rfl⟩)

theorem Enlists.content (h : Enlists t c c') : SameContent c c' := by
  obtain rfl | ⟨l, i, rfl⟩ := h
  · exact .refl _
  · exact ⟨update_track ⟨rfl, rfl, rfl, rfl⟩, fun _ => .refl _, rfl⟩

theorem Relinks.content (h : Relinks c c') : SameContent c c' := by
  induction h with
  | refl c => exact .refl c
  | trans _ _ ih ih' => exact ih.trans ih'
  | lists => exact ⟨fun _ => .refl _, fun _ => .refl _, rfl⟩
  | track => exact setTrack_content ⟨rfl, rfl, rfl, rfl⟩
  | group => exact setGroup_content ⟨rfl, rfl, rfl⟩

/-! ## 2. Evicting a group -/

end MoqxCache

namespace CacheTrack

theorem SameContent.enforceGapLimitLoop (n : Nat) (h : tr.SameContent tr') :
    (enforceGapLimitLoop n tr).SameContent (enforceGapLimitLoop n tr') := by
  induction n generalizing tr tr' with
  | zero => exact h
  | succ n ih =>
    unfold CacheTrack.enforceGapLimitLoop
    rw [h.gaps]
    split
    · split
      · refine ih ⟨rfl, ?_, h.groups, h.evicted⟩
        simp only
        rw [h.cachedContent]
      · exact h
    · exact h

theorem SameContent.forgetRange (start stop : AbsoluteLocation) (h : tr.SameContent tr') :
    (tr.forgetRange start stop).SameContent (tr'.forgetRange start stop) := by
  have hsize : (tr'.gaps.remove start stop).size = (tr.gaps.remove start stop).size := by rw [h.gaps]
  unfold CacheTrack.forgetRange CacheTrack.enforceGapLimit
  simp only
  rw [hsize]
  refine SameContent.enforceGapLimitLoop _ ⟨?_, ?_, h.groups, h.evicted⟩
  · simp only
    rw [h.gaps]
  · simp only
    rw [h.cachedContent]

theorem SameContent.forgetGroup (groupID : Nat) (seen : Option Nat) (h : tr.SameContent tr') :
    (MoqxCache.forgetGroup tr groupID seen).SameContent (MoqxCache.forgetGroup tr' groupID seen) := by
  unfold MoqxCache.forgetGroup
  simp only
  split
  · exact (h.forgetRange _ _).forgetRange _ _
  · exact h.forgetRange _ _

end CacheTrack

namespace MoqxCache

/-- The track without a group, and without what it knew about it. -/
def withoutGroup (tr : CacheTrack) (groupID : Nat) (seen : Option Nat) : CacheTrack :=
  { forgetGroup tr groupID seen with groups := tr.groups.erase groupID }

/-- **One group is evicted**: the track forgets it, and what it knew about it. -/
theorem evictGroup_content (h : c.groupAt t g = some r) :
    SameContent (c.setTrack t (withoutGroup (c.track t) g (c.group r).seenPriorGroupIdGap)) (c.evictGroup t g) := by
  have hunlink := (@unlink_relinks c t r).content
  rw [MoqxCache.groupAt] at h
  unfold evictGroup
  rw [h]
  simp only
  generalize (c.unlinkFromTrack r t).unlinkFromAll r = d at hunlink
  have hforget := (hunlink.track t).forgetGroup g (c.group r).seenPriorGroupIdGap
  refine ⟨fun t' => ?_, fun r' => hunlink.group r', hunlink.nextGroup⟩
  by_cases ht : t' = t
  · subst ht
    rw [setTrack_self, setTrack_self, (hunlink.group r).seen]
    show (withoutGroup (c.track t') g (c.group r).seenPriorGroupIdGap).SameContent
      { (d.setTrack t' (forgetGroup (d.track t') g (c.group r).seenPriorGroupIdGap)).track t' with groups := _ }
    rw [setTrack_self]
    refine ⟨hforget.gaps, hforget.cachedContent, ?_, hforget.evicted⟩
    show ((d.setTrack t' _).track t').groups.erase g = (c.track t').groups.erase g
    rw [setTrack_self, (CacheTrack.forgetGroup_marked g _).alike.groups, (hunlink.track t').groups]
  · rw [setTrack_ne ht, setTrack_ne ht]
    show (c.track t').SameContent ((d.setTrack t _).track t')
    rw [setTrack_ne ht]
    exact hunlink.track t'

/-! ## 3. Making room -/

inductive Evicting (c : MoqxCache) : MoqxCache → Prop where
  | refl : Evicting c c
  /-- Lists, pins and counters. -/
  | same {c' c'' : MoqxCache} : Evicting c c' → SameContent c' c'' → Evicting c c''
  /-- A track is marked as evicted. -/
  | mark {c' : MoqxCache} (t : TrackRef) : Evicting c c' →
      Evicting c (c'.setTrack t { c'.track t with evicted := true })
  | group {c' : MoqxCache} {r : GroupRef} (t : TrackRef) (g : Nat) : Evicting c c' → c'.groupAt t g = some r →
      Evicting c (c'.setTrack t (withoutGroup (c'.track t) g (c'.group r).seenPriorGroupIdGap))

theorem SameContent.evicting (h : SameContent c c') : Evicting c c' := .same .refl h

theorem Evicting.trans (h : Evicting c c') (h' : Evicting c' c'') : Evicting c c'' := by
  induction h' with
  | refl => exact h
  | same _ hs ih => exact ih.same hs
  | mark t _ ih => exact ih.mark t
  | group t g _ hg ih => exact ih.group t g hg

theorem evictGroup_evicting : Evicting c (c.evictGroup t g) := by
  cases h : c.groupAt t g with
  | none =>
    rw [MoqxCache.groupAt] at h
    unfold evictGroup
    rw [h]
    exact .refl
  | some r => exact .same (.group t g .refl h) (evictGroup_content h)

theorem evictGroups_evicting (ids : List Nat) : Evicting c (ids.foldl (fun c g => c.evictGroup t g) c) := by
  induction ids generalizing c with
  | nil => exact .refl
  | cons g ids ih =>
    rw [List.foldl_cons]
    exact evictGroup_evicting.trans ih

theorem evictTrack_evicting : Evicting c (c.evictTrack ftn) := by
  unfold evictTrack
  split
  · exact .refl
  · rename_i t _
    have hretire : Evicting c (c.retireTrack t) := (Evicting.mark t .refl).same removeTrackFromLRU_enlists.content
    exact (hretire.trans (evictGroups_evicting _)).same ⟨fun _ => .refl _, fun _ => .refl _, rfl⟩

/-- **Making room** is a number of evictions. -/
theorem Purges.evicting {groups tracks : Prop} (h : Purges groups tracks c c') : Evicting c c' := by
  induction h with
  | refl => exact .refl
  | limits _ ih =>
    refine Evicting.trans (SameContent.evicting ?_) ih
    exact ⟨fun _ => .refl _, fun _ => .refl _, rfl⟩
  | group _ _ _ _ ih => exact evictGroup_evicting.trans ih
  | stale t _ _ ih =>
    refine Evicting.trans (SameContent.evicting ?_) ih
    exact ⟨update_track ⟨rfl, rfl, rfl, rfl⟩, fun _ => .refl _, rfl⟩
  | staleNode _ _ _ ih =>
    refine Evicting.trans (SameContent.evicting ?_) ih
    exact ⟨fun _ => .refl _, fun _ => .refl _, rfl⟩
  | track _ _ _ ih => exact evictTrack_evicting.trans ih

end MoqxCache

/-! ## 4. Gaps that come and go -/

namespace CacheTrack

open LocationIntervalSet

variable {tr'' : CacheTrack} {X Y : AbsoluteLocation → Prop}

/-- Both the gaps and the index lose the locations of `X`. -/
structure Forgets (X : AbsoluteLocation → Prop) (tr tr' : CacheTrack) : Prop where
  gaps : ∀ l, tr'.gaps.contains l = true ↔ tr.gaps.contains l = true ∧ ¬X l
  cachedContent : ∀ l, tr'.cachedContent.contains l = true ↔ tr.cachedContent.contains l = true ∧ ¬X l

theorem Forgets.refl (tr : CacheTrack) : Forgets (fun _ => False) tr tr :=
  ⟨fun _ => by simp, fun _ => by simp⟩

theorem Forgets.trans (h : Forgets X tr tr') (h' : Forgets Y tr' tr'') : Forgets (fun l => X l ∨ Y l) tr tr'' where
  gaps l := by rw [h'.gaps, h.gaps, and_assoc, not_or]
  cachedContent l := by rw [h'.cachedContent, h.cachedContent, and_assoc, not_or]

theorem enforceGapLimitLoop_forgets (n : Nat) (tr : CacheTrack) :
    ∃ X, Forgets X tr (enforceGapLimitLoop n tr) ∧ ∀ l, X l → tr.gaps.contains l = true := by
  induction n generalizing tr with
  | zero => exact ⟨_, .refl tr, fun _ h => h.elim⟩
  | succ n ih =>
    unfold enforceGapLimitLoop
    split
    · split
      · rename_i lowest gaps hpop
        obtain ⟨X, hX, hgap⟩ := ih { tr with
          gaps := gaps, cachedContent := tr.cachedContent.remove lowest.1 lowest.2 }
        have hfirst : Forgets (Spans lowest.1 lowest.2) tr { tr with
            gaps := gaps, cachedContent := tr.cachedContent.remove lowest.1 lowest.2 } :=
          ⟨fun l => (popFront_some hpop l).1, fun l => contains_remove_iff⟩
        refine ⟨_, hfirst.trans hX, fun l h => ?_⟩
        rcases h with h | h
        · exact (popFront_some hpop l).2 h
        · exact ((popFront_some hpop l).1.mp (hgap l h)).1
      · exact ⟨_, .refl tr, fun _ h => h.elim⟩
    · exact ⟨_, .refl tr, fun _ h => h.elim⟩

theorem insertGap_forgets (start stop : AbsoluteLocation) (tr : CacheTrack) :
    ∃ X : AbsoluteLocation → Prop, ∀ l,
      ((tr.insertGap start stop).gaps.contains l = true ↔
        (Spans start stop l ∨ tr.gaps.contains l = true) ∧ ¬X l) ∧
      ((tr.insertGap start stop).cachedContent.contains l = true ↔
        (Spans start stop l ∨ tr.cachedContent.contains l = true) ∧ ¬X l) ∧
      (X l → Spans start stop l ∨ tr.gaps.contains l = true) := by
  obtain ⟨X, hX, hgap⟩ := enforceGapLimitLoop_forgets (tr.gaps.insert start stop).size
    { tr with gaps := tr.gaps.insert start stop, cachedContent := tr.cachedContent.insert start stop }
  refine ⟨X, fun l => ⟨(hX.gaps l).trans ?_, (hX.cachedContent l).trans ?_, fun h => ?_⟩⟩
  · rw [contains_insert_iff]
  · rw [contains_insert_iff]
  · exact contains_insert_iff.mp (hgap l h)

theorem forgetRange_forgets (start stop : AbsoluteLocation) (tr : CacheTrack) :
    ∃ X, Forgets X tr (tr.forgetRange start stop) ∧ (∀ l, Spans start stop l → X l) ∧
      ∀ l, X l → Spans start stop l ∨ tr.gaps.contains l = true := by
  obtain ⟨X, hX, hgap⟩ := enforceGapLimitLoop_forgets (tr.gaps.remove start stop).size
    { tr with gaps := tr.gaps.remove start stop, cachedContent := tr.cachedContent.remove start stop }
  have hfirst : Forgets (Spans start stop) tr
      { tr with gaps := tr.gaps.remove start stop, cachedContent := tr.cachedContent.remove start stop } :=
    ⟨fun l => contains_remove_iff, fun l => contains_remove_iff⟩
  refine ⟨_, hfirst.trans hX, fun l h => Or.inl h, fun l h => h.imp_right fun h => ?_⟩
  exact (contains_remove_iff.mp (hgap l h)).1

/-- The locations an evicted group is taken to have known about. -/
def GroupRange (groupID : Nat) (seen : Option Nat) (l : AbsoluteLocation) : Prop :=
  Spans ⟨groupID, 0⟩ ⟨groupID, kLocationMax.object⟩ l ∨
    0 < seen.getD 0 ∧ Spans ⟨groupID - seen.getD 0, 0⟩ ⟨groupID - 1, kLocationMax.object⟩ l

theorem forgetGroup_forgets (groupID : Nat) (seen : Option Nat) (tr : CacheTrack) :
    ∃ X, Forgets X tr (MoqxCache.forgetGroup tr groupID seen) ∧ (∀ l, GroupRange groupID seen l → X l) ∧
      ∀ l, X l → GroupRange groupID seen l ∨ tr.gaps.contains l = true := by
  unfold MoqxCache.forgetGroup GroupRange
  obtain ⟨X, hX, hrange, hgap⟩ := forgetRange_forgets ⟨groupID, 0⟩ ⟨groupID, kLocationMax.object⟩ tr
  simp only
  split
  · rename_i hseen
    obtain ⟨Y, hY, hrange', hgap'⟩ := forgetRange_forgets ⟨groupID - seen.getD 0, 0⟩
      ⟨groupID - 1, kLocationMax.object⟩ (tr.forgetRange ⟨groupID, 0⟩ ⟨groupID, kLocationMax.object⟩)
    refine ⟨_, hX.trans hY, fun l h => ?_, fun l h => ?_⟩
    · exact h.imp (hrange l) fun h => hrange' l h.2
    · rcases h with h | h
      · exact (hgap l h).imp_left Or.inl
      · exact (hgap' l h).imp (fun h => Or.inr ⟨hseen, h⟩) fun h => ((hX.gaps l).mp h).1
  · rename_i hseen
    refine ⟨X, hX, fun l h => ?_, fun l h => (hgap l h).imp_left Or.inl⟩
    rcases h with h | ⟨h, -⟩
    · exact hrange l h
    · exact absurd h hseen

end CacheTrack

namespace MoqxCache

/-- **No eviction adds a gap.** -/
theorem Evicting.gaps (h : Evicting c c') (hl : (c'.track t).gaps.contains l = true) :
    (c.track t).gaps.contains l = true := by
  induction h with
  | refl => exact hl
  | same _ hs ih =>
    rw [(hs.track t).gaps] at hl
    exact ih hl
  | @mark d t' _ ih =>
    refine ih ?_
    by_cases ht : t = t'
    · subst ht
      rw [setTrack_self] at hl
      exact hl
    · rw [setTrack_ne ht] at hl
      exact hl
  | @group d r t' g _ _ ih =>
    refine ih ?_
    by_cases ht : t = t'
    · subst ht
      rw [setTrack_self] at hl
      obtain ⟨X, hX, -⟩ := CacheTrack.forgetGroup_forgets g (d.group r).seenPriorGroupIdGap (d.track t)
      exact ((hX.gaps l).mp hl).1
    · rw [setTrack_ne ht] at hl
      exact hl

end MoqxCache

end Moqx

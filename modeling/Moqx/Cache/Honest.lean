/-
  Subject: Writes that keep a track's records together.

  A write may say that other locations do not exist: by the gaps it announces before it, and by a status
  that ends its group or the track. The announced gaps are compared with the entries, but only over the
  first `kMaxGapValidation` positions, and a status is not compared with anything.

  * `Coherent.cacheObject` -- a write that denies no entry keeps the records together.
-/
import Moqx.Cache.Coherent

namespace Moqx

open LocationIntervalSet CacheGroup AList Option AbsoluteLocation

/-! ## 1. What a write says about other locations -/

namespace ObjectWrite

def priorGroupGap (w : ObjectWrite) : Option Nat := w.extensions.getIntExtension kPriorGroupIdGapExtensionType

def priorObjectGap (w : ObjectWrite) : Option Nat := w.extensions.getIntExtension kPriorObjectIdGapExtensionType

/-- The write says that nothing is at the location, and does not look whether that is so. -/
inductive Denies (w : ObjectWrite) (l : AbsoluteLocation) : Prop where
  /-- Behind the end of the group. -/
  | group : w.status = .endOfGroup ∨ w.status = .endOfTrack → l.group = w.groupID → w.objectID < l.object →
      Denies w l
  /-- Behind the end of the track. -/
  | track : w.status = .endOfTrack → w.groupID < l.group → Denies w l
  /-- In a group of the prior-group gap, below the ones that are looked at. -/
  | priorGroup {gap : Nat} : w.priorGroupGap = some gap → w.groupID - gap ≤ l.group →
      l.group < w.groupID - kMaxGapValidation → Denies w l
  /-- At an object of the prior-object gap, below the ones that are looked at. -/
  | priorObject {gap : Nat} : w.priorObjectGap = some gap → l.group = w.groupID →
      w.objectID - gap ≤ l.object → l.object < w.objectID - kMaxGapValidation → Denies w l

/-- The location is in a group that the write announces as missing. -/
def Announces (w : ObjectWrite) (l : AbsoluteLocation) : Prop :=
  ∃ gap, w.priorGroupGap = some gap ∧ MoqxCache.PriorRange w.groupID gap l

end ObjectWrite

namespace MoqxCache

variable {strict : Prop} {U : TrackRef → AbsoluteLocation → Prop} {c c' : MoqxCache} {t : TrackRef}
  {r : GroupRef} {l : AbsoluteLocation} {w : ObjectWrite}
variable {count o gap : Nat} {next : AbsoluteLocation} {gr' : CacheGroup}

variable {g : Nat} {gr : CacheGroup} {b : Bool}

/-! ## 2. The announced gaps -/

theorem setSeen_confined {n : Nat} :
    Confined t r c (c.setGroup r { c.group r with seenPriorGroupIdGap := some n }) :=
  ⟨rfl, fun _ _ => rfl, rfl, fun _ hr => setGroup_ne hr⟩

theorem Coherent.setSeen {n : Nat} (h : Coherent strict U c) (hg : c.groupAt t g = some r)
    (hprior : strict → ∀ l, U t l → ¬PriorRange g n l) :
    Coherent strict U (c.setGroup r { c.group r with seenPriorGroupIdGap := some n }) := by
  refine h.confined (@setSeen_confined c t r n) hg ?_ fun he => ?_
  · rw [setGroup_self]
    exact h.small r
  have ha := h.track t he
  have hentry : ∀ l, (c.setGroup r { c.group r with seenPriorGroupIdGap := some n }).entryAt t l = c.entryAt t l := by
    intro l
    refine entryAt_congr rfl fun r' _ => ?_
    by_cases hr : r' = r
    · subst hr
      rw [setGroup_self]
    · rw [setGroup_ne hr]
  refine ⟨@fun l hl => ?_, @fun l hl => ?_, fun hs l hl => ?_, fun hs g' r' n' l hg' hseen hl => ?_⟩
  · rw [Held, hentry] at hl
    exact ha.held hl
  · rw [Held, hentry] at hl
    exact ha.apart hl
  · rw [Whole, hentry]
    exact ha.index hs hl
  · by_cases hr : r' = r
    · subst hr
      rw [setGroup_self] at hseen
      cases hseen
      obtain ⟨-, rfl⟩ := h.once hg hg'
      exact hprior hs l hl
    · rw [setGroup_ne hr] at hseen
      exact ha.prior hs hg' hseen hl

theorem not_held_of_coversGroup (h : c.coversGroup t g count = false) (hl : c.Held t l)
    (hlow : g - count ≤ l.group) (hhigh : l.group < g) (hcount : count ≤ g) : False := by
  obtain ⟨r, e, hr, ho⟩ := hl.group
  unfold coversGroup at h
  rw [List.any_eq_false] at h
  refine h l.group ?_ ?_
  · rw [List.mem_range'_1]
    omega
  · replace hr : (c.track t).groups.lookup l.group = some r := hr
    rw [hr]
    simp only [Bool.not_eq_true']
    have hmem : l.object ∈ (c.group r).objects.keys := mem_keys.mp (lookup_isSome.mp (by rw [ho]; rfl))
    cases hk : (c.group r).objects.keys with
    | nil =>
      rw [hk] at hmem
      cases hmem
    | cons => rfl

theorem not_held_of_coversObject (h : c.coversObject r o count = false)
    (hg : c.groupAt t l.group = some r) (hl : c.Held t l) (hlow : o - count ≤ l.object)
    (hhigh : l.object < o) (hcount : count ≤ o) : False := by
  obtain ⟨r', e, hr, ho⟩ := hl.group
  obtain rfl : r = r' := some.inj (hg.symm.trans hr)
  unfold coversObject at h
  rw [List.any_eq_false] at h
  refine h l.object ?_ ?_
  · rw [List.mem_range'_1]
    omega
  · rw [ho]
    rfl

/-- What a step of a write keeps: the records, and that the location of the write is no gap. -/
structure Kept (strict : Prop) (U : TrackRef → AbsoluteLocation → Prop) (t : TrackRef) (w : ObjectWrite)
    (c : MoqxCache) : Prop extends Coherent strict U c where
  clear : (c.track t).gaps.contains w.location = false

theorem Kept.insertGap {start stop : AbsoluteLocation} (h : Kept strict U t w c)
    (hfree : (c.track t).evicted = false → ∀ l, c.Held t l → ¬Spans start stop l)
    (hself : ¬Spans start stop w.location) :
    Kept strict U t w (c.setTrack t ((c.track t).insertGap start stop)) where
  toCoherent := h.toCoherent.insertGap hfree
  clear := by
    rw [setTrack_self]
    exact insertGap_gaps hself h.clear

/-- The write is at a location of `U`, and denies none of them. -/
structure Unopposed (strict : Prop) (U : TrackRef → AbsoluteLocation → Prop) (t : TrackRef) (w : ObjectWrite) :
    Prop where
  self : U t w.location
  denies : ∀ l, U t l → ¬w.Denies l
  announces : strict → ∀ l, U t l → ¬w.Announces l

section extensions

variable (h : Kept strict U t w c) (hw : Unopposed strict U t w) (hg : c.groupAt t w.groupID = some r)

include h hw hg

theorem Kept.processPriorGroupGap (hgap : w.priorGroupGap = some gap) :
    Kept strict U t w (c.processPriorGroupGap t w.groupID gap).2 ∧
      (c.processPriorGroupGap t w.groupID gap).2.groupAt t w.groupID = some r := by
  have halike := @processPriorGroupGap_alike c t r w.groupID gap hg
  refine ⟨?_, (halike.groupAt t w.groupID).trans hg⟩
  unfold MoqxCache.processPriorGroupGap getOrCreateGroup
  rw [groupAt] at hg
  rw [hg]
  split
  · exact h
  · rename_i hle
    simp only
    split
    · split
      · exact h
      · exact h
    · have hseen : Kept strict U t w (c.setGroup r { c.group r with seenPriorGroupIdGap := some gap }) :=
        ⟨h.toCoherent.setSeen hg fun hs l hl hr => hw.announces hs l hl ⟨gap, hgap, hr⟩, h.clear⟩
      generalize c.setGroup r { c.group r with seenPriorGroupIdGap := some gap } = d at hseen ⊢
      split
      · rename_i hpos
        split
        · exact hseen
        · rename_i hcovers
          rw [Bool.not_eq_true] at hcovers
          refine hseen.insertGap (fun he l hl hspan => ?_) fun hspan => ?_
          · have hU := (hseen.track t he).held hl
            obtain ⟨hlow, hhigh⟩ := spans_le hspan (hseen.valid hU) (Nat.le_refl _)
            rw [le_iff] at hlow hhigh
            simp only at hlow hhigh
            by_cases hfar : l.group < w.groupID - kMaxGapValidation
            · exact hw.denies l hU (.priorGroup hgap (by omega) hfar)
            · exact not_held_of_coversGroup hcovers hl (by omega) (by omega) (by omega)
          · obtain ⟨-, hhigh⟩ := spans_le hspan (hseen.valid hw.self) (Nat.le_refl _)
            rw [le_iff] at hhigh
            simp only [ObjectWrite.location] at hhigh
            omega
      · exact hseen

theorem Kept.processPriorObjectGap (hgap : w.priorObjectGap = some gap) :
    Kept strict U t w (c.processPriorObjectGap t w.groupID w.objectID gap).2 := by
  have hvalid : w.objectID ≤ kEightByteLimit := h.valid hw.self
  unfold MoqxCache.processPriorObjectGap getOrCreateGroup
  have hg' := hg
  rw [groupAt] at hg'
  rw [hg']
  split
  · exact h
  · rename_i hle
    split
    · rename_i hpos
      simp only
      split
      · exact h
      · rename_i hcovers
        rw [Bool.not_eq_true] at hcovers
        have hend : w.objectID - 1 ≤ kEightByteLimit := by omega
        refine h.insertGap (fun he l hl hspan => ?_) fun hspan => ?_
        · have hU := (h.track t he).held hl
          obtain ⟨hlow, hhigh⟩ := spans_le hspan (h.valid hU) hend
          rw [le_iff] at hlow hhigh
          simp only at hlow hhigh
          have hgroup : l.group = w.groupID := by omega
          by_cases hfar : l.object < w.objectID - kMaxGapValidation
          · exact hw.denies l hU (.priorObject hgap hgroup (by omega) hfar)
          · refine not_held_of_coversObject hcovers (by rw [hgroup]; exact hg) hl ?_ ?_ ?_
            · omega
            · omega
            · omega
        · obtain ⟨-, hhigh⟩ := spans_le hspan (h.valid hw.self) hend
          rw [le_iff] at hhigh
          simp only [ObjectWrite.location] at hhigh
          omega
    · exact h

theorem Kept.processGapExtensions :
    Kept strict U t w (c.processGapExtensions t w.groupID w.objectID w.extensions).2 := by
  have hfirst : Kept strict U t w (processIfPresent w.priorGroupGap
      (fun gap c => c.processPriorGroupGap t w.groupID gap) c).2 ∧
      (processIfPresent w.priorGroupGap
        (fun gap c => c.processPriorGroupGap t w.groupID gap) c).2.groupAt t w.groupID = some r := by
    unfold processIfPresent
    cases hgap : w.priorGroupGap with
    | none => exact ⟨h, hg⟩
    | some gap => exact h.processPriorGroupGap hw hg hgap
  unfold MoqxCache.processGapExtensions
  split
  · rename_i heq
    replace heq : processIfPresent w.priorGroupGap _ c = _ := heq
    rw [heq] at hfirst
    exact hfirst.1
  · rename_i d heq
    replace heq : processIfPresent w.priorGroupGap _ c = _ := heq
    rw [heq] at hfirst
    show Kept strict U t w (processIfPresent w.priorObjectGap _ d).2
    unfold processIfPresent
    cases hgap : w.priorObjectGap with
    | none => exact hfirst.1
    | some gap => exact hfirst.1.processPriorObjectGap hw hfirst.2 hgap

end extensions

/-! ## 3. The end of a group, and of the track -/

theorem setTrack_setTrack {tr tr' : CacheTrack} : (c.setTrack t tr).setTrack t tr' = c.setTrack t tr' := by
  unfold setTrack
  rw [Function.update_idem]

theorem Kept.endGroup (h : Kept strict U t w c) (hself : U t w.location)
    (hnext : w.location.nextInGroup = some next)
    (hdenies : ∀ l, U t l → l.group = w.groupID → ¬w.objectID < l.object) :
    Kept strict U t w (c.setTrack t ((c.track t).insertGap next ⟨w.groupID, kLocationMax.object⟩)) := by
  have hbehind : ∀ l, U t l → Spans next ⟨w.groupID, kLocationMax.object⟩ l →
      l.group = w.groupID ∧ w.objectID < l.object := by
    intro l hU hspan
    obtain ⟨hlow, hhigh⟩ := spans_le hspan (h.valid hU) (Nat.le_refl _)
    unfold nextInGroup at hnext
    split at hnext
    · cases hnext
      rw [le_iff] at hlow hhigh
      simp only [ObjectWrite.location] at hlow hhigh
      omega
    · cases hnext
  refine h.insertGap (fun he l hl hspan => ?_) fun hspan => ?_
  · have hU := (h.track t he).held hl
    obtain ⟨hgroup, hobject⟩ := hbehind l hU hspan
    exact hdenies l hU hgroup hobject
  · exact Nat.lt_irrefl _ (hbehind _ hself hspan).2

theorem Kept.endTrack (h : Kept strict U t w c) (hself : U t w.location)
    (hnext : (⟨w.groupID, 0⟩ : AbsoluteLocation).nextGroup = some next)
    (hdenies : ∀ l, U t l → ¬w.groupID < l.group) :
    Kept strict U t w (c.setTrack t ((c.track t).insertGap next kLocationMax)) := by
  have hbehind : ∀ l, U t l → Spans next kLocationMax l → w.groupID < l.group := by
    intro l hU hspan
    obtain ⟨hlow, -⟩ := spans_le hspan (h.valid hU) (Nat.le_refl _)
    unfold AbsoluteLocation.nextGroup at hnext
    split at hnext
    · cases hnext
      rw [le_iff] at hlow
      simp only at hlow
      omega
    · cases hnext
  refine h.insertGap (fun he l hl hspan => ?_) fun hspan => ?_
  · have hU := (h.track t he).held hl
    exact hdenies l hU (hbehind l hU hspan)
  · exact Nat.lt_irrefl _ (hbehind _ hself hspan)

theorem Kept.same (h : Kept strict U t w c) (hs : SameContent c c') : Kept strict U t w c' where
  toCoherent := h.toCoherent.same hs
  clear := by
    rw [(hs.track t).gaps]
    exact h.clear

theorem Kept.markEnd (h : Kept strict U t w c) (hw : Unopposed strict U t w) :
    Kept strict U t w (c.markEnd r t w) := by
  unfold MoqxCache.markEnd
  split
  · rename_i hstatus
    simp only
    refine Kept.same ?_ (setGroup_content ⟨rfl, rfl, rfl⟩)
    -- first the rest of the group, and then the groups behind it
    have hgroup : ∀ {next}, w.location.nextInGroup = some next → Kept strict U t w
        (c.setTrack t ((c.track t).insertGap next ⟨w.groupID, kLocationMax.object⟩)) := fun hnext =>
      h.endGroup hw.self hnext fun l hU hl hobject => hw.denies l hU (.group hstatus hl hobject)
    have hnone : Kept strict U t w (c.setTrack t (c.track t)) := h.same (setTrack_content (.refl _))
    split
    · rename_i hend
      split
      · rename_i next hnext
        have htrack : ∀ tr, Kept strict U t w (c.setTrack t tr) →
            Kept strict U t w (c.setTrack t (tr.insertGap next kLocationMax)) := by
          intro tr htr
          have := htr.endTrack hw.self hnext fun l hU hl => hw.denies l hU (.track hend hl)
          rwa [setTrack_setTrack, setTrack_self] at this
        refine htrack _ ?_
        split
        · exact hgroup ‹_›
        · exact hnone
      · split
        · exact hgroup ‹_›
        · exact hnone
    · split
      · exact hgroup ‹_›
      · exact hnone
  · exact h

/-! ## 4. The entry -/

/-- The entry is complete after the write if it was before, or if the write goes on to the index as a
    complete one. -/
theorem writeEntry_complete (h : gr.writeEntry w = .ok (gr', b)) :
    (∃ e, gr'.objects.lookup w.objectID = some e ∧ e.complete = true) ↔
      (∃ e, gr.objects.lookup w.objectID = some e ∧ e.complete = true) ∨ b = true ∧ w.complete = true := by
  unfold writeEntry at h
  cases hold : gr.objects.lookup w.objectID with
  | none =>
    rw [hold] at h
    simp only at h
    split at h
    · cases h
      simp [hold]
    · cases h
      simp [store, lookup_insert, CacheEntry.ofWrite]
  | some e =>
    rw [hold] at h
    simp only at h
    split at h
    · cases h
    · split at h
      · rename_i hc
        cases h
        simp [store, lookup_insert, CacheEntry.refresh_complete, hc]
      · rename_i hc
        have hcomplete : ((e.refresh w).extend w).complete = false := by
          rw [CacheEntry.extend_complete, CacheEntry.refresh_complete]
          simpa using hc
        split at h
        · rename_i hf
          cases h
          have hw : w.complete = true := by
            unfold CacheEntry.finishes at hf
            rw [Bool.and_eq_true] at hf
            exact hf.1
          simp [store, lookup_insert, hw]
        · cases h
          simp [store, lookup_insert, hcomplete, hc]

/-- What a write makes of the index and of the largest object of the group. -/
structure Indexed (t : TrackRef) (r : GroupRef) (w : ObjectWrite) (added : Prop) (c c' : MoqxCache) : Prop
    extends Confined t r c c' where
  gaps : (c'.track t).gaps = (c.track t).gaps
  evicted : (c'.track t).evicted = (c.track t).evicted
  cachedContent : ∀ l, l.object ≤ kEightByteLimit → ((c'.track t).cachedContent.contains l = true ↔
    (c.track t).cachedContent.contains l = true ∨ added ∧ l = w.location)
  objects : (c'.group r).objects = (c.group r).objects
  seen : (c'.group r).seenPriorGroupIdGap = (c.group r).seenPriorGroupIdGap
  maxCachedObject : (c'.group r).maxCachedObject ≤ max (c.group r).maxCachedObject w.objectID

theorem index_indexed (hl : w.objectID ≤ kEightByteLimit) :
    Indexed t r w (w.complete = true) c (c.index r t w) := by
  have hself : ∀ l, w.location ≤ l ∧ l ≤ w.location ↔ l = w.location := by
    intro l
    constructor
    · intro ⟨h1, h2⟩
      exact le_antisymm h2 h1
    · intro heq
      subst heq
      exact ⟨le_refl _, le_refl _⟩
  have hinsert : Indexed t r w (w.complete = true) c (if w.complete then
      c.setTrack t { c.track t with cachedContent := (c.track t).cachedContent.insert w.location w.location }
      else c) := by
    split
    · rename_i hc
      refine ⟨⟨rfl, fun t' ht => setTrack_ne ht, ?_, fun _ _ => rfl⟩, ?_, ?_, fun l hv => ?_, rfl, rfl,
        Nat.le_max_left _ _⟩
      · rw [setTrack_self]
      · rw [setTrack_self]
      · rw [setTrack_self]
      · rw [setTrack_self, contains_insert hl hl hv, hself]
        rw [eq_true hc, true_and, or_comm]
    · rename_i hc
      refine ⟨⟨rfl, fun _ _ => rfl, rfl, fun _ _ => rfl⟩, rfl, rfl, fun l hv => ?_, rfl, rfl, Nat.le_max_left _ _⟩
      rw [eq_false hc, false_and, or_false]
  unfold MoqxCache.index
  simp only
  generalize (if w.complete then
      c.setTrack t { c.track t with cachedContent := (c.track t).cachedContent.insert w.location w.location }
      else c) = d at hinsert ⊢
  split
  · refine ⟨⟨hinsert.nextGroup, hinsert.track, hinsert.groups, fun r' hr => ?_⟩, hinsert.gaps, hinsert.evicted,
      hinsert.cachedContent, ?_, ?_, ?_⟩
    · rw [setGroup_ne hr]
      exact hinsert.group r' hr
    · rw [setGroup_self]
      exact hinsert.objects
    · rw [setGroup_self]
      exact hinsert.seen
    · rw [setGroup_self]
      exact Nat.le_max_right _ _
  · exact hinsert

theorem writeEntry_other (h : gr.writeEntry w = .ok (gr', b)) (ho : o ≠ w.objectID) : gr'.objects.lookup o = gr.objects.lookup o := by
  rcases writeEntry_wrote h with rfl | ⟨e, -, rfl⟩
  · rfl
  · exact lookup_insert_ne ho

theorem Kept.indexed {added : Prop} (h : Kept strict U t w c) (hg : c.groupAt t w.groupID = some r)
    (hself : U t w.location) (hw : (c.group r).writeEntry w = .ok (gr, b))
    (hi : Indexed t r w added (c.setGroup r gr) c') (hadded : added ↔ b = true ∧ w.complete = true) :
    Coherent strict U c' := by
  have hwrote := (writeEntry_wrote hw).eq
  have hmax : gr.maxCachedObject = (c.group r).maxCachedObject := by rw [hwrote]
  have hseen : gr.seenPriorGroupIdGap = (c.group r).seenPriorGroupIdGap := by rw [hwrote]
  have hc : Confined t r c c' :=
    ⟨hi.nextGroup, hi.track, hi.groups, fun r' hr => (hi.group r' hr).trans (setGroup_ne hr)⟩
  have hobjects : (c'.group r).objects = gr.objects := by
    rw [hi.objects, setGroup_self]
  refine h.toCoherent.confined hc hg ?_ fun he => ?_
  · have hle := hi.maxCachedObject
    rw [setGroup_self, hmax] at hle
    exact hle.trans (max_le (h.small r) (h.valid hself))
  rw [hi.evicted] at he
  have ha := h.track t he
  have hother : ∀ l, l ≠ w.location → c'.entryAt t l = c.entryAt t l := by
    intro l hne
    by_cases hgroup : l.group = w.groupID
    · have hg' : c.groupAt t l.group = some r := by rw [hgroup, hg]
      rw [hc.entryAt hg', hobjects, writeEntry_other hw, entryAt, hg', bind_some]
      intro ho
      exact hne (ext' hgroup ho)
    · exact hc.entryAt_other h.toCoherent hg hgroup
  have hwhole : c'.Whole t w.location ↔ c.Whole t w.location ∨ added := by
    have hnew : c'.entryAt t w.location = gr.objects.lookup w.objectID := by
      rw [hc.entryAt hg, hobjects]
      rfl
    have hold : c.entryAt t w.location = (c.group r).objects.lookup w.objectID := by
      rw [entryAt, show c.groupAt t w.location.group = some r from hg, bind_some]
      rfl
    unfold Whole
    rw [hnew, hold, hadded]
    exact writeEntry_complete hw
  refine ⟨@fun l hl => ?_, @fun l hl => ?_, fun hs l hl => ?_, fun hs g' r' n l hg' hseen' => ?_⟩
  · by_cases heq : l = w.location
    · subst heq
      exact hself
    · rw [Held, hother l heq] at hl
      exact ha.held hl
  · rw [hi.gaps]
    by_cases heq : l = w.location
    · subst heq
      exact h.clear
    · rw [Held, hother l heq] at hl
      exact ha.apart hl
  · rw [hi.gaps, hi.cachedContent l hl]
    show (c.track t).cachedContent.contains l = true ∨ _ ↔ (c.track t).gaps.contains l = true ∨ _
    rw [ha.index hs hl]
    by_cases heq : l = w.location
    · subst heq
      rw [hwhole]
      simp only [and_true]
      exact or_assoc
    · have hsame : c'.Whole t l ↔ c.Whole t l := by
        unfold Whole
        rw [hother l heq]
      rw [hsame]
      simp only [heq, and_false, or_false]
  · rw [hc.groupAt] at hg'
    refine ha.prior hs hg' ?_
    by_cases hr : r' = r
    · subst hr
      rw [hi.seen, setGroup_self, hseen] at hseen'
      exact hseen'
    · rw [hc.group r' hr] at hseen'
      exact hseen'

/-! ## 5. The write -/

/-- **A write** that denies no entry keeps the records together, whether it is accepted or not. -/
theorem Coherent.cacheObject (h : Coherent strict U c) (hg : c.groupAt t w.groupID = some r)
    (hw : Unopposed strict U t w) : Coherent strict U (c.cacheObject r t w).2 := by
  have halike := @processGapExtensions_alike c t r w.groupID w.objectID w.extensions hg
  unfold MoqxCache.cacheObject
  split
  · exact h
  · rename_i hclear
    rw [Bool.not_eq_true] at hclear
    have hgaps := Kept.processGapExtensions ⟨h, hclear⟩ hw hg
    split
    · rename_i heq
      rw [heq] at hgaps
      exact hgaps.toCoherent
    · rename_i d heq
      rw [heq] at hgaps halike
      have hmark := @Kept.markEnd _ _ _ _ r _ hgaps hw
      have hg' : (d.markEnd r t w).groupAt t w.groupID = some r :=
        ((markEnd_records alike_records).groupAt t w.groupID).trans ((halike.groupAt t w.groupID).trans hg)
      simp only
      generalize d.markEnd r t w = m at hmark hg' ⊢
      split
      · exact hmark.toCoherent
      · rename_i gr hentry
        refine @Kept.indexed _ _ _ _ _ _ _ gr false False hmark hg' hw.self hentry ?_ (by simp)
        refine ⟨⟨rfl, fun _ _ => rfl, rfl, fun _ _ => rfl⟩, rfl, rfl, fun l _ => ?_, rfl, rfl, Nat.le_max_left _ _⟩
        tauto
      · rename_i gr hentry
        exact hmark.indexed hg' hw.self hentry (index_indexed (h.valid hw.self)) (by simp)

theorem updateBytes_content {old new : Nat} : SameContent c (c.updateBytes old new) := by
  unfold updateBytes
  split
  · exact ⟨fun _ => .refl _, fun _ => .refl _, rfl⟩
  · exact ⟨fun _ => .refl _, fun _ => .refl _, rfl⟩

theorem Coherent.cacheObjectAndUpdateBytes (h : Coherent strict U c) (hg : c.groupAt t w.groupID = some r)
    (hw : Unopposed strict U t w) : Coherent strict U (c.cacheObjectAndUpdateBytes r t w).2 := by
  have hobject := h.cacheObject hg hw
  unfold MoqxCache.cacheObjectAndUpdateBytes
  generalize c.cacheObject r t w = res at hobject ⊢
  obtain ⟨reply, d⟩ := res
  cases reply with
  | error e => exact hobject
  | ok =>
    simp only
    have hbytes := hobject.same (@updateBytes_content d (c.group r).totalBytes (d.group r).totalBytes)
    generalize d.updateBytes (c.group r).totalBytes (d.group r).totalBytes = u at hbytes ⊢
    have hlast : SameContent u (u.setTrack t { u.track t with lastWrite := w.now }) :=
      setTrack_content ⟨rfl, rfl, rfl, rfl⟩
    exact (hbytes.same hlast).evicting evictForByteLimitIfNeeded_purges.evicting

theorem Coherent.getOrCreateGroupWithEviction {ftn : FullTrackName} (h : Coherent strict U c) :
    Coherent strict U (c.getOrCreateGroupWithEviction t g ftn).2 ∧
      (c.getOrCreateGroupWithEviction t g ftn).2.groupAt t g = some (c.getOrCreateGroupWithEviction t g ftn).1 := by
  unfold MoqxCache.getOrCreateGroupWithEviction
  split
  · rename_i r hr
    exact ⟨h, hr⟩
  · rename_i hnone
    have hadded := h.makeGroup hnone
    simp only
    refine ⟨hadded.same addGroupToLRU_relinks.content, ?_⟩
    rw [addGroupToLRU_relinks.content.groupAt, addGroup_groupAt]

end MoqxCache

end Moqx

/-
  Subject: What a track records about its locations fits together.

  A track keeps three records: the known gaps, the entries of its groups, and the index. No location may be
  both a gap and an entry, and the index has to name the gaps and the complete entries. Nothing in the cache
  compares the three, so each operation has to keep them together.

  * one lemma for each way a record changes: a gap is recorded, a group is evicted or added, an entry expires;
  * `Coherent.evicting` -- making room, however much.

  The predicate has two parameters. `strict` says whether the index is included. `U` bounds the entries: it
  is fixed during one operation, so that what the operation may find in the middle is known beforehand.
-/
import Moqx.Cache.Content

namespace Moqx

open LocationIntervalSet AbsoluteLocation AList Option

namespace MoqxCache

variable {strict : Prop} {U : TrackRef → AbsoluteLocation → Prop} {c c' : MoqxCache} {t t' : TrackRef}
  {r r' : GroupRef} {g n : Nat} {l : AbsoluteLocation} {ftn : FullTrackName}
variable {tr : CacheTrack} {start stop : AbsoluteLocation} {g' size : Nat}

/-! ## 1. The records of a track -/

def Held (c : MoqxCache) (t : TrackRef) (l : AbsoluteLocation) : Prop := ∃ e, c.entryAt t l = some e

def Whole (c : MoqxCache) (t : TrackRef) (l : AbsoluteLocation) : Prop :=
  ∃ e, c.entryAt t l = some e ∧ e.complete = true

/-- The location is in one of the `n` groups below `g`. -/
def PriorRange (g n : Nat) (l : AbsoluteLocation) : Prop := g - n ≤ l.group ∧ l.group < g

/-- The records of a track fit together. A group that has announced that others are missing takes what is
    known about those with it when it is evicted, so they must not hold anything. -/
structure Agrees (strict : Prop) (U : AbsoluteLocation → Prop) (c : MoqxCache) (t : TrackRef) : Prop where
  held : ∀ {l}, c.Held t l → U l
  apart : ∀ {l}, c.Held t l → (c.track t).gaps.contains l = false
  index : strict → ∀ {l}, l.object ≤ kEightByteLimit →
    ((c.track t).cachedContent.contains l = true ↔ (c.track t).gaps.contains l = true ∨ c.Whole t l)
  prior : strict → ∀ {g r n l}, c.groupAt t g = some r → (c.group r).seenPriorGroupIdGap = some n → U l →
    ¬PriorRange g n l

structure Coherent (strict : Prop) (U : TrackRef → AbsoluteLocation → Prop) (c : MoqxCache) : Prop where
  bound : ∀ {t g r}, c.groupAt t g = some r → r < c.nextGroup
  once : ∀ {t t' g g' r}, c.groupAt t g = some r → c.groupAt t' g' = some r → t = t' ∧ g = g'
  small : ∀ r, (c.group r).maxCachedObject ≤ kEightByteLimit
  valid : ∀ {t l}, U t l → l.object ≤ kEightByteLimit
  track : ∀ t, (c.track t).evicted = false → Agrees strict (U t) c t

theorem Whole.held (h : c.Whole t l) : c.Held t l := by
  obtain ⟨e, he, -⟩ := h
  exact ⟨e, he⟩

theorem Held.group (h : c.Held t l) :
    ∃ r e, c.groupAt t l.group = some r ∧ (c.group r).objects.lookup l.object = some e := by
  obtain ⟨e, he⟩ := h
  obtain ⟨r, hr, ho⟩ := bind_eq_some_iff.mp he
  exact ⟨r, e, hr, ho⟩

/-! ## 2. Frames -/

theorem entryAt_congr (hgroups : (c'.track t).groups = (c.track t).groups)
    (hobjects : ∀ r, c.groupAt t l.group = some r → (c'.group r).objects = (c.group r).objects) :
    c'.entryAt t l = c.entryAt t l := by
  unfold entryAt
  have hgroup : c'.groupAt t l.group = c.groupAt t l.group := by rw [groupAt, hgroups]
  rw [hgroup]
  cases hr : c.groupAt t l.group with
  | none => rfl
  | some r =>
    rw [bind_some, bind_some, hobjects r hr]

theorem Agrees.frame {U : AbsoluteLocation → Prop} (h : Agrees strict U c t)
    (htrack : (c.track t).SameContent (c'.track t))
    (hgroup : ∀ g r, c.groupAt t g = some r → (c.group r).SameContent (c'.group r)) : Agrees strict U c' t := by
  have hentry : ∀ l, c'.entryAt t l = c.entryAt t l := fun l =>
    entryAt_congr htrack.groups fun r hr => (hgroup _ r hr).objects
  refine ⟨@fun l hl => h.held ?_, @fun l hl => ?_, fun hs l hl => ?_, fun hs g r n l hg hseen => ?_⟩
  · rw [Held, ← hentry]
    exact hl
  · rw [htrack.gaps]
    refine h.apart ?_
    rw [Held, ← hentry]
    exact hl
  · rw [htrack.gaps, htrack.cachedContent, Whole, hentry]
    exact h.index hs hl
  · rw [groupAt, htrack.groups] at hg
    rw [(hgroup g r hg).seen] at hseen
    exact h.prior hs hg hseen

theorem Coherent.same (h : Coherent strict U c) (hs : SameContent c c') : Coherent strict U c' where
  bound hg := by
    rw [hs.groupAt] at hg
    rw [hs.nextGroup]
    exact h.bound hg
  once hg hg' := by
    rw [hs.groupAt] at hg hg'
    exact h.once hg hg'
  small r := by
    rw [(hs.group r).maxCachedObject]
    exact h.small r
  valid := h.valid
  track t he := by
    rw [(hs.track t).evicted] at he
    exact (h.track t he).frame (hs.track t) fun _ r _ => hs.group r

theorem Coherent.setTrack (h : Coherent strict U c)
    (hgroups : ∀ {g r}, tr.groups.lookup g = some r → c.groupAt t g = some r)
    (hagrees : tr.evicted = false → Agrees strict (U t) (c.setTrack t tr) t) :
    Coherent strict U (c.setTrack t tr) := by
  have hold : ∀ {t' g r}, (c.setTrack t tr).groupAt t' g = some r → c.groupAt t' g = some r := by
    intro t' g r hg
    by_cases ht : t' = t
    · subst ht
      rw [groupAt, setTrack_self] at hg
      exact hgroups hg
    · rw [groupAt, setTrack_ne ht] at hg
      exact hg
  refine ⟨fun hg => h.bound (hold hg), fun hg hg' => h.once (hold hg) (hold hg'), h.small, h.valid,
    fun t' he => ?_⟩
  by_cases ht : t' = t
  · subst ht
    rw [setTrack_self] at he
    exact hagrees he
  · rw [setTrack_ne ht] at he
    refine (h.track t' he).frame ?_ fun _ _ _ => .refl _
    rw [setTrack_ne ht]
    exact .refl _

/-- A track and one of its groups change; the others are as they were. -/
structure Confined (t : TrackRef) (r : GroupRef) (c c' : MoqxCache) : Prop where
  nextGroup : c'.nextGroup = c.nextGroup
  track : ∀ t', t' ≠ t → c'.track t' = c.track t'
  groups : (c'.track t).groups = (c.track t).groups
  group : ∀ r', r' ≠ r → c'.group r' = c.group r'

theorem Confined.groupAt (hc : Confined t r c c') (t' : TrackRef) (g' : Nat) :
    c'.groupAt t' g' = c.groupAt t' g' := by
  by_cases ht : t' = t
  · subst ht
    rw [MoqxCache.groupAt, hc.groups]
  · rw [MoqxCache.groupAt, hc.track t' ht]

theorem Confined.entryAt (hc : Confined t r c c') (hg : c.groupAt t l.group = some r) :
    c'.entryAt t l = (c'.group r).objects.lookup l.object := by
  rw [MoqxCache.entryAt, hc.groupAt, hg, bind_some]

theorem Confined.entryAt_other (hc : Confined t r c c') (h : Coherent strict U c) (hg : c.groupAt t g = some r)
    (hne : l.group ≠ g) : c'.entryAt t l = c.entryAt t l :=
  entryAt_congr hc.groups fun r' hr' => by
    rw [hc.group]
    intro hr
    subst hr
    exact hne (h.once hr' hg).2

theorem Coherent.confined (h : Coherent strict U c) (hc : Confined t r c c') (hg : c.groupAt t g = some r)
    (hsmall : (c'.group r).maxCachedObject ≤ kEightByteLimit)
    (hagrees : (c'.track t).evicted = false → Agrees strict (U t) c' t) : Coherent strict U c' := by
  refine ⟨fun hg' => ?_, fun hg' hg'' => ?_, fun r' => ?_, h.valid, fun t' he => ?_⟩
  · rw [hc.groupAt] at hg'
    rw [hc.nextGroup]
    exact h.bound hg'
  · rw [hc.groupAt] at hg' hg''
    exact h.once hg' hg''
  · by_cases hr : r' = r
    · subst hr
      exact hsmall
    · rw [hc.group r' hr]
      exact h.small r'
  · by_cases ht : t' = t
    · subst ht
      exact hagrees he
    · rw [hc.track t' ht] at he
      refine (h.track t' he).frame ?_ fun g' r' hg' => ?_
      · rw [hc.track t' ht]
        exact .refl _
      · rw [hc.group]
        · exact .refl _
        · intro hr
          subst hr
          exact ht (h.once hg' hg).1

/-! ## 3. Gaps -/

theorem Coherent.insertGap (h : Coherent strict U c)
    (hfree : (c.track t).evicted = false → ∀ l, c.Held t l → ¬Spans start stop l) :
    Coherent strict U (c.setTrack t ((c.track t).insertGap start stop)) := by
  have halike := (@CacheTrack.insertGap_marked (c.track t) start stop).alike
  have hgroups : ((c.setTrack t ((c.track t).insertGap start stop)).track t).groups = (c.track t).groups := by
    rw [setTrack_self]
    exact halike.groups
  have hentry : ∀ l, (c.setTrack t ((c.track t).insertGap start stop)).entryAt t l = c.entryAt t l := fun l =>
    entryAt_congr hgroups fun _ _ => rfl
  refine h.setTrack (fun hg => by rw [halike.groups] at hg; exact hg) fun he => ?_
  rw [halike.evicted] at he
  have ha := h.track t he
  obtain ⟨X, hX⟩ := CacheTrack.insertGap_forgets start stop (c.track t)
  refine ⟨@fun l hl => ?_, @fun l hl => ?_, fun hs l hl => ?_, fun hs g r n l hg hseen => ?_⟩
  · rw [Held, hentry] at hl
    exact ha.held hl
  · rw [Held, hentry] at hl
    rw [setTrack_self, ← Bool.not_eq_true, (hX l).1]
    intro hgap
    rcases hgap.1 with hspan | hold
    · exact hfree he l hl hspan
    · rw [ha.apart hl] at hold
      cases hold
  · have hwhole : (c.setTrack t ((c.track t).insertGap start stop)).Whole t l ↔ c.Whole t l := by
      unfold Whole
      rw [hentry]
    rw [setTrack_self, (hX l).1, (hX l).2.1, ha.index hs hl, hwhole]
    -- what is forgotten are gaps, so no entry is
    have hkept : c.Whole t l → ¬X l := by
      intro hw hx
      rcases (hX l).2.2 hx with hspan | hold
      · exact hfree he l hw.held hspan
      · rw [ha.apart hw.held] at hold
        cases hold
    tauto
  · rw [groupAt, hgroups] at hg
    exact ha.prior hs hg hseen

theorem insertGap_gaps (hspan : ¬Spans start stop l) (hl : tr.gaps.contains l = false) : (tr.insertGap start stop).gaps.contains l = false := by
  obtain ⟨X, hX⟩ := CacheTrack.insertGap_forgets start stop tr
  rw [← Bool.not_eq_true, (hX l).1]
  intro hgap
  rcases hgap.1 with h | h
  · exact hspan h
  · rw [hl] at h
    cases h

/-! ## 4. Groups come and go -/

theorem not_groupRange {seen : Option Nat} (hl : l.object ≤ kEightByteLimit) (hne : l.group ≠ g)
    (hprior : ∀ n, seen = some n → ¬PriorRange g n l) : ¬CacheTrack.GroupRange g seen l := by
  intro h
  rcases h with h | ⟨hpos, h⟩
  · rw [spans_iff (Nat.zero_le _) (Nat.le_refl _) hl, le_iff, le_iff] at h
    simp only at h
    omega
  · rw [spans_iff (Nat.zero_le _) (Nat.le_refl _) hl, le_iff, le_iff] at h
    cases seen with
    | none => exact absurd hpos (Nat.lt_irrefl 0)
    | some n =>
      refine hprior n rfl ?_
      simp only [getD_some] at h hpos
      unfold PriorRange
      omega

theorem Coherent.withoutGroup (h : Coherent strict U c) (hg : c.groupAt t g = some r) :
    Coherent strict U (c.setTrack t (withoutGroup (c.track t) g (c.group r).seenPriorGroupIdGap)) := by
  have hlookup : ∀ {g' r'}, (MoqxCache.withoutGroup (c.track t) g (c.group r).seenPriorGroupIdGap).groups.lookup g' =
      some r' ↔ g' ≠ g ∧ c.groupAt t g' = some r' := Table.lookup_erase_iff
  have hentry : ∀ l e, (c.setTrack t (MoqxCache.withoutGroup (c.track t) g (c.group r).seenPriorGroupIdGap)).entryAt
      t l = some e ↔ l.group ≠ g ∧ c.entryAt t l = some e := by
    intro l e
    unfold entryAt groupAt
    rw [setTrack_self, bind_eq_some_iff, bind_eq_some_iff]
    constructor
    · intro ⟨r', hr', ho⟩
      exact ⟨(hlookup.mp hr').1, r', (hlookup.mp hr').2, ho⟩
    · intro ⟨hne, r', hr', ho⟩
      exact ⟨r', hlookup.mpr ⟨hne, hr'⟩, ho⟩
  refine h.setTrack (fun hg' => (hlookup.mp hg').2) fun he => ?_
  replace he : (c.track t).evicted = false := by
    rw [← (CacheTrack.forgetGroup_marked g (c.group r).seenPriorGroupIdGap).alike.evicted]
    exact he
  have ha := h.track t he
  obtain ⟨X, hX, hrange, hgap⟩ := CacheTrack.forgetGroup_forgets g (c.group r).seenPriorGroupIdGap (c.track t)
  have hgaps : ∀ l, ((c.setTrack t (MoqxCache.withoutGroup (c.track t) g
      (c.group r).seenPriorGroupIdGap)).track t).gaps.contains l = true ↔
        (c.track t).gaps.contains l = true ∧ ¬X l := by
    intro l
    rw [setTrack_self]
    exact hX.gaps l
  refine ⟨@fun l hl => ?_, @fun l hl => ?_, fun hs l hl => ?_, fun hs g' r' n' l hg' hseen => ?_⟩
  · obtain ⟨e, hl⟩ := hl
    exact ha.held ⟨e, ((hentry l e).mp hl).2⟩
  · obtain ⟨e, hl⟩ := hl
    rw [← Bool.not_eq_true, hgaps, ha.apart ⟨e, ((hentry l e).mp hl).2⟩]
    simp
  · have hwhole : (c.setTrack t (MoqxCache.withoutGroup (c.track t) g (c.group r).seenPriorGroupIdGap)).Whole t l ↔
        l.group ≠ g ∧ c.Whole t l := by
      constructor
      · intro ⟨e, hl, hc⟩
        exact ⟨((hentry l e).mp hl).1, e, ((hentry l e).mp hl).2, hc⟩
      · intro ⟨hne, e, hl, hc⟩
        exact ⟨e, (hentry l e).mpr ⟨hne, hl⟩, hc⟩
    -- an entry is forgotten just if it was in the group
    have hforgot : c.Whole t l → (X l ↔ l.group = g) := by
      intro hw
      constructor
      · intro hx
        rcases hgap l hx with hr | hr
        · by_contra hne
          exact not_groupRange hl hne (fun n hn => ha.prior hs hg hn (ha.held hw.held)) hr
        · rw [ha.apart hw.held] at hr
          cases hr
      · intro heq
        refine hrange l (Or.inl ?_)
        rw [spans_iff (Nat.zero_le _) (Nat.le_refl _) hl]
        rw [le_iff, le_iff]
        exact ⟨Or.inr ⟨heq.symm, Nat.zero_le _⟩, Or.inr ⟨heq, hl⟩⟩
    rw [hgaps, hwhole]
    refine Iff.trans (b := ((c.track t).cachedContent.contains l = true ∧ ¬X l)) ?_ ?_
    · rw [setTrack_self]
      exact hX.cachedContent l
    · rw [ha.index hs hl]
      tauto
  · rw [groupAt, setTrack_self] at hg'
    exact ha.prior hs (hlookup.mp hg').2 hseen

theorem Coherent.mark (h : Coherent strict U c) :
    Coherent strict U (c.setTrack t { c.track t with evicted := true }) :=
  h.setTrack (fun hg => hg) fun he => nomatch he

/-- **Making room** keeps the records together. -/
theorem Coherent.evicting (h : Coherent strict U c) (he : Evicting c c') : Coherent strict U c' := by
  induction he with
  | refl => exact h
  | same _ hs ih => exact ih.same hs
  | mark t _ ih => exact ih.mark
  | group t g _ hg ih => exact ih.withoutGroup hg

theorem addGroup_groupAt : (c.addGroup t g).groupAt t g = some c.nextGroup := by
  show (((c.setGroup c.nextGroup {}).setTrack t _).track t).groups.lookup g = _
  rw [setTrack_self]
  exact lookup_insert _

theorem addGroup_groupAt_ne (h : ¬(t' = t ∧ g' = g)) :
    (c.addGroup t g).groupAt t' g' = c.groupAt t' g' := by
  show (((c.setGroup c.nextGroup {}).setTrack t _).track t').groups.lookup g' = _
  by_cases ht : t' = t
  · subst ht
    rw [setTrack_self]
    exact lookup_insert_ne fun hg => h ⟨rfl, hg⟩
  · rw [setTrack_ne ht]
    rfl

theorem addGroup_groupAt_cases (h : (c.addGroup t g).groupAt t' g' = some r') :
    (t' = t ∧ g' = g ∧ r' = c.nextGroup) ∨ c.groupAt t' g' = some r' := by
  by_cases heq : t' = t ∧ g' = g
  · obtain ⟨rfl, rfl⟩ := heq
    rw [addGroup_groupAt] at h
    exact Or.inl ⟨rfl, rfl, (some.inj h).symm⟩
  · rw [addGroup_groupAt_ne heq] at h
    exact Or.inr h

theorem addGroup_group (h : r' ≠ c.nextGroup) : (c.addGroup t g).group r' = c.group r' := setGroup_ne h

theorem addGroup_group_new : (c.addGroup t g).group c.nextGroup = {} := setGroup_self

theorem addGroup_track (t' : TrackRef) : ((c.addGroup t g).track t').gaps = (c.track t').gaps ∧
    ((c.addGroup t g).track t').cachedContent = (c.track t').cachedContent ∧
    ((c.addGroup t g).track t').evicted = (c.track t').evicted := by
  show (((c.setGroup c.nextGroup {}).setTrack t _).track t').gaps = _ ∧
    (((c.setGroup c.nextGroup {}).setTrack t _).track t').cachedContent = _ ∧
    (((c.setGroup c.nextGroup {}).setTrack t _).track t').evicted = _
  by_cases ht : t' = t
  · subst ht
    rw [setTrack_self]
    exact ⟨rfl, rfl, rfl⟩
  · rw [setTrack_ne ht]
    exact ⟨rfl, rfl, rfl⟩

theorem Coherent.addGroup (h : Coherent strict U c) (hnone : c.groupAt t g = none) :
    Coherent strict U (c.addGroup t g) := by
  have hfresh : ∀ {t' g' r'}, c.groupAt t' g' = some r' → r' ≠ c.nextGroup := fun hr => Nat.ne_of_lt (h.bound hr)
  have hentry : ∀ t' l, (c.addGroup t g).entryAt t' l = c.entryAt t' l := by
    intro t' l
    unfold entryAt
    by_cases heq : t' = t ∧ l.group = g
    · obtain ⟨rfl, rfl⟩ := heq
      rw [addGroup_groupAt, hnone, bind_some, addGroup_group_new]
      rfl
    · rw [addGroup_groupAt_ne heq]
      cases hr : c.groupAt t' l.group with
      | none => rfl
      | some r' => rw [bind_some, bind_some, addGroup_group (hfresh hr)]
  refine ⟨fun hg => ?_, fun hg hg' => ?_, fun r' => ?_, h.valid, fun t' he => ?_⟩
  · show _ < c.nextGroup + 1
    rcases addGroup_groupAt_cases hg with ⟨-, -, hr⟩ | hr
    · rw [hr]
      exact Nat.lt_succ_self _
    · exact Nat.lt_succ_of_lt (h.bound hr)
  · rcases addGroup_groupAt_cases hg with ⟨rfl, rfl, hr⟩ | hr
    · rcases addGroup_groupAt_cases hg' with ⟨rfl, rfl, -⟩ | hr'
      · exact ⟨rfl, rfl⟩
      · exact absurd hr (hfresh hr')
    · rcases addGroup_groupAt_cases hg' with ⟨-, -, hr'⟩ | hr'
      · exact absurd hr' (hfresh hr)
      · exact h.once hr hr'
  · by_cases hr : r' = c.nextGroup
    · subst hr
      rw [addGroup_group_new]
      exact Nat.zero_le _
    · rw [addGroup_group hr]
      exact h.small r'
  · obtain ⟨hgaps, hcontent, hevicted⟩ := @addGroup_track c t g t'
    rw [hevicted] at he
    have ha := h.track t' he
    refine ⟨@fun l hl => ?_, @fun l hl => ?_, fun hs l hl => ?_, fun hs g' r' n l hg hseen => ?_⟩
    · rw [Held, hentry] at hl
      exact ha.held hl
    · rw [Held, hentry] at hl
      rw [hgaps]
      exact ha.apart hl
    · rw [hgaps, hcontent, Whole, hentry]
      exact ha.index hs hl
    · rcases addGroup_groupAt_cases hg with ⟨-, -, rfl⟩ | hr
      · rw [addGroup_group_new] at hseen
        cases hseen
      · rw [addGroup_group (hfresh hr)] at hseen
        exact ha.prior hs hr hseen

theorem Evicting.groupAt (h : Evicting c c') (hg : c'.groupAt t g = some r) : c.groupAt t g = some r := by
  induction h with
  | refl => exact hg
  | same _ hs ih =>
    rw [hs.groupAt] at hg
    exact ih hg
  | @mark d t' _ ih =>
    refine ih ?_
    by_cases ht : t = t'
    · subst ht
      rw [MoqxCache.groupAt, setTrack_self] at hg
      exact hg
    · rw [MoqxCache.groupAt, setTrack_ne ht] at hg
      exact hg
  | @group d r' t' g' _ _ ih =>
    refine ih ?_
    by_cases ht : t = t'
    · subst ht
      rw [MoqxCache.groupAt, setTrack_self] at hg
      exact (Table.lookup_erase_iff.mp hg).2
    · rw [MoqxCache.groupAt, setTrack_ne ht] at hg
      exact hg

theorem Coherent.makeGroup (h : Coherent strict U c) (hnone : c.groupAt t g = none) :
    Coherent strict U ((c.evictOldestGroupsIfNeeded t).addGroup t g) := by
  have hroom : Evicting c (c.evictOldestGroupsIfNeeded t) := evictOldestGroupsIfNeeded_purges.evicting
  refine (h.evicting hroom).addGroup ?_
  cases hr : (c.evictOldestGroupsIfNeeded t).groupAt t g with
  | none => rfl
  | some r =>
    have hold := hroom.groupAt hr
    rw [hnone] at hold
    cases hold

theorem Coherent.addTrack (h : Coherent strict U c) : Coherent strict U (c.addTrack ftn) := by
  have hnew : Coherent strict U (c.setTrack c.nextTrack {}) := by
    refine h.setTrack (fun hg => nomatch hg) fun _ => ?_
    have hgroup : ∀ g, (c.setTrack c.nextTrack {}).groupAt c.nextTrack g = none := by
      intro g
      rw [groupAt, setTrack_self]
      rfl
    have hentry : ∀ l, (c.setTrack c.nextTrack {}).entryAt c.nextTrack l = none := by
      intro l
      rw [entryAt, hgroup]
      rfl
    refine ⟨@fun l hl => ?_, @fun l hl => ?_, fun hs l hl => ?_, fun hs g r n l hg => ?_⟩
    · obtain ⟨e, hl⟩ := hl
      rw [hentry] at hl
      cases hl
    · obtain ⟨e, hl⟩ := hl
      rw [hentry] at hl
      cases hl
    · rw [setTrack_self, Whole, hentry]
      constructor
      · intro hc
        exact Or.inl hc
      · intro hc
        rcases hc with hc | ⟨e, he, -⟩
        · exact hc
        · cases he
    · rw [hgroup] at hg
      cases hg
  exact hnew.same ⟨fun _ => .refl _, fun _ => .refl _, rfl⟩

/-! ## 5. Entries expire -/

theorem dropExpired_confined {size : Nat} : Confined t r c (c.dropExpired t r l size) := by
  unfold MoqxCache.dropExpired
  refine ⟨rfl, fun t' ht => ?_, ?_, fun r' hr => ?_⟩
  · exact setTrack_ne ht
  · show ((((c.subGroupBytes r size).subBytes size).setTrack t _).track t).groups = _
    rw [setTrack_self]
  · rw [eraseObject, setGroup_ne hr]
    exact Function.update_of_ne hr _ _

theorem dropExpired_track : (c.dropExpired t r l size).track t =
    { c.track t with cachedContent := (c.track t).cachedContent.remove l l } := setTrack_self

theorem dropExpired_group : (c.dropExpired t r l size).group r =
    { c.group r with
      objects := (c.group r).objects.erase l.object, totalBytes := (c.group r).totalBytes - size } := by
  unfold MoqxCache.dropExpired
  rw [eraseObject, setGroup_self]
  simp [MoqxCache.setTrack, subBytes, subGroupBytes]

theorem Coherent.dropExpired {e : CacheEntry} (h : Coherent strict U c)
    (hg : c.groupAt t l.group = some r) (ho : (c.group r).objects.lookup l.object = some e) :
    Coherent strict U (c.dropExpired t r l size) := by
  have hc := @dropExpired_confined c t r l size
  refine h.confined hc hg ?_ fun he => ?_
  · rw [dropExpired_group]
    exact h.small r
  rw [dropExpired_track] at he
  have ha := h.track t he
  have hheld : c.Held t l := ⟨e, bind_eq_some_iff.mpr ⟨r, hg, ho⟩⟩
  have hvalid := h.valid (ha.held hheld)
  have hentry : ∀ l' e', (c.dropExpired t r l size).entryAt t l' = some e' ↔ l' ≠ l ∧ c.entryAt t l' = some e' := by
    intro l' e'
    by_cases hgroup : l'.group = l.group
    · have hg' : c.groupAt t l'.group = some r := by rw [hgroup, hg]
      rw [hc.entryAt hg', dropExpired_group, Table.lookup_erase_iff, entryAt, hg', bind_some,
        Ne, Ne, eq_iff]
      simp [hgroup]
    · rw [hc.entryAt_other h hg hgroup]
      simp [eq_iff, hgroup]
  refine ⟨@fun l' hl => ?_, @fun l' hl => ?_, fun hs l' hl => ?_, fun hs g' r' n l' hg' hseen => ?_⟩
  · obtain ⟨e', hl⟩ := hl
    exact ha.held ⟨e', ((hentry l' e').mp hl).2⟩
  · obtain ⟨e', hl⟩ := hl
    rw [dropExpired_track]
    exact ha.apart ⟨e', ((hentry l' e').mp hl).2⟩
  · have hwhole : (c.dropExpired t r l size).Whole t l' ↔ l' ≠ l ∧ c.Whole t l' := by
      unfold Whole
      simp only [hentry]
      tauto
    have hself : l ≤ l' ∧ l' ≤ l ↔ l' = l := by
      constructor
      · rintro ⟨h1, h2⟩
        exact le_antisymm h2 h1
      · intro heq
        subst heq
        exact ⟨le_refl _, le_refl _⟩
    rw [dropExpired_track, contains_remove hvalid hvalid hl, ha.index hs hl, hwhole, hself]
    -- the location is no gap, because it had an entry
    have hgap : (c.track t).gaps.contains l' = true → l' ≠ l := by
      intro hgap heq
      subst heq
      rw [ha.apart hheld] at hgap
      cases hgap
    tauto
  · rw [hc.groupAt] at hg'
    refine ha.prior hs hg' ?_
    by_cases hr : r' = r
    · subst hr
      rw [dropExpired_group] at hseen
      exact hseen
    · rw [hc.group r' hr] at hseen
      exact hseen

theorem Coherent.getCachedObjectMaybe {now : TimePoint} (h : Coherent strict U c) :
    Coherent strict U (c.getCachedObjectMaybe t l now).2 := by
  rcases @getCachedObjectMaybe_cases c t l now with heq | ⟨r, e, hg, he, heq⟩
  · rw [heq]
    exact h
  · rw [heq]
    exact h.dropExpired hg he

/-! ## 6. The bound on the entries -/

def Present (c : MoqxCache) (t : TrackRef) (l : AbsoluteLocation) : Prop :=
  (c.track t).evicted = false ∧ c.Held t l

theorem Coherent.tighten (h : Coherent strict U c) : Coherent strict c.Present c where
  bound := h.bound
  once := h.once
  small := h.small
  valid hl := h.valid ((h.track _ hl.1).held hl.2)
  track t he :=
    have ha := h.track t he
    { held := fun hl => ⟨he, hl⟩
      apart := ha.apart
      index := ha.index
      prior := fun hs _ _ _ _ hg hseen hl => ha.prior hs hg hseen (ha.held hl.2) }

theorem Coherent.widen (h : Coherent strict U c) (hl : l.object ≤ kEightByteLimit)
    (hprior : strict → ∀ g r n, c.groupAt t g = some r → (c.group r).seenPriorGroupIdGap = some n →
      ¬PriorRange g n l) : Coherent strict (fun t' l' => U t' l' ∨ t' = t ∧ l' = l) c where
  bound := h.bound
  once := h.once
  small := h.small
  valid hl' := by
    rcases hl' with hl' | ⟨-, rfl⟩
    · exact h.valid hl'
    · exact hl
  track t' he :=
    have ha := h.track t' he
    { held := fun hl' => Or.inl (ha.held hl')
      apart := ha.apart
      index := ha.index
      prior := fun hs g r n l' hg hseen hl' => by
        rcases hl' with hl' | ⟨rfl, rfl⟩
        · exact ha.prior hs hg hseen hl'
        · exact hprior hs g r n hg hseen }

end MoqxCache

end Moqx

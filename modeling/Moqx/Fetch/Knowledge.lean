/-
  Subject: What a track knows: the locations it holds an object for and those it knows not to exist.

  * `getCachedObjectMaybe_some`, `getCachedObjectMaybe_none` -- what a lookup can do;
  * `getCachedObjectMaybe_knowledge`, `getCachedObjectMaybe_ok` -- it keeps what the track knows.
-/
import Moqx.Fetch.Plan

namespace Moqx

open LocationIntervalSet MoqxCache List Function AList Option

/-! ## 1. The track -/

def entryAt (c : MoqxCache) (tr : TrackRef) (l : AbsoluteLocation) : Option CacheEntry :=
  ((c.track tr).groups.lookup l.group).bind fun r => (c.group r).objects.lookup l.object

def CompleteAt (c : MoqxCache) (tr : TrackRef) (l : AbsoluteLocation) : Prop :=
  ∃ e, entryAt c tr l = some e ∧ e.complete = true

/-- Object ids are varints not above the group's largest, groups are separate, and the lookup index
    holds nothing but gaps and complete objects. -/
structure TrackOk (c : MoqxCache) (tr : TrackRef) : Prop where
  object_le : ∀ g r o e, (c.track tr).groups.lookup g = some r →
    (c.group r).objects.lookup o = some e → o ≤ (c.group r).maxCachedObject
  max_le : ∀ g r, (c.track tr).groups.lookup g = some r →
    (c.group r).maxCachedObject ≤ kEightByteLimit
  separate : ∀ g g' r, (c.track tr).groups.lookup g = some r →
    (c.track tr).groups.lookup g' = some r → g = g'
  content : ∀ l : AbsoluteLocation, l.object ≤ kEightByteLimit →
    (c.track tr).cachedContent.contains l = true →
    (c.track tr).gaps.contains l = true ∨ CompleteAt c tr l

/-- The lookup index holds exactly the gaps and the complete objects. -/
structure TrackSound (c : MoqxCache) (tr : TrackRef) : Prop extends TrackOk c tr where
  indexed : ∀ l : AbsoluteLocation, l.object ≤ kEightByteLimit →
    (c.track tr).gaps.contains l = true ∨ CompleteAt c tr l →
    (c.track tr).cachedContent.contains l = true

def PastGroupEnd (c : MoqxCache) (tr : TrackRef) (l : AbsoluteLocation) : Prop :=
  ∃ r, (c.track tr).groups.lookup l.group = some r ∧ (c.group r).endOfGroup = true ∧
    (c.group r).maxCachedObject < l.object

def PastTrackEnd (t : CacheTrack) (l : AbsoluteLocation) : Prop :=
  t.endOfTrack = true ∧ ∃ largest, t.largestGroupAndObject = some largest ∧ largest < l

theorem pastTrackEnd_iff {t : CacheTrack} {it : FetchRangeIterator} :
    (t.endOfTrack && t.largestGroupAndObject.any (· < it.current) || !it.isValid) = true ↔
      PastTrackEnd t it.current ∨ it.isValid = false := by
  simp [PastTrackEnd, Option.any_eq_true]

def Known (c : MoqxCache) (tr : TrackRef) (l : AbsoluteLocation) : Prop :=
  (c.track tr).gaps.contains l = true ∨ PastGroupEnd c tr l ∨ PastTrackEnd (c.track tr) l

/-- From one state of the cache to a later one a track only gains knowledge. -/
structure Grows (c c' : MoqxCache) (tr : TrackRef) : Prop where
  groups : ∀ g r, (c.track tr).groups.lookup g = some r → (c'.track tr).groups.lookup g = some r
  max : ∀ g r, (c.track tr).groups.lookup g = some r →
    (c.group r).maxCachedObject ≤ (c'.group r).maxCachedObject
  gaps : ∀ l : AbsoluteLocation, (c.track tr).gaps.contains l = true →
    (c'.track tr).gaps.contains l = true
  known : ∀ l, Known c tr l → Known c' tr l

theorem Grows.refl (c : MoqxCache) (tr : TrackRef) : Grows c c tr :=
  ⟨fun _ _ h => h, fun _ _ _ => Nat.le_refl _, fun _ h => h, fun _ h => h⟩

theorem Grows.trans {c c' c'' : MoqxCache} {tr : TrackRef} (h : Grows c c' tr)
    (h' : Grows c' c'' tr) : Grows c c'' tr :=
  ⟨fun g r hg => h'.groups g r (h.groups g r hg),
    fun g r hg => Nat.le_trans (h.max g r hg) (h'.max g r (h.groups g r hg)),
    fun l hl => h'.gaps l (h.gaps l hl), fun l hl => h'.known l (h.known l hl)⟩

/-! ## 2. The lookup -/

section lookup

variable {c c' : MoqxCache} {tr : TrackRef} {current : AbsoluteLocation} {now : TimePoint}
  {e : CacheEntry}

theorem getCachedObjectMaybe_some (h : c.getCachedObjectMaybe tr current now = (some e, c')) :
    c' = c ∧ entryAt c tr current = some e ∧ e.complete = true := by
  unfold getCachedObjectMaybe at h
  simp only at h
  split at h
  · simp at h
  · rename_i r hr
    split at h
    · simp at h
    · rename_i entry he
      split at h
      · simp at h
      · split at h
        · simp at h
        · rename_i hc
          simp only [Prod.mk.injEq, some.injEq] at h
          obtain ⟨rfl, rfl⟩ := h
          exact ⟨rfl, by simp [entryAt, hr, he], by simpa using hc⟩

/-- What a lookup can do that finds nothing: leave the cache as it is, where no complete object is
    at the location, or drop the expired entry there. -/
theorem getCachedObjectMaybe_none (h : c.getCachedObjectMaybe tr current now = (none, c')) :
    (c' = c ∧ ¬CompleteAt c tr current) ∨
      ∃ r e, (c.track tr).groups.lookup current.group = some r ∧
        (c.group r).objects.lookup current.object = some e ∧
        c'.track = Function.update c.track tr { c.track tr with
          cachedContent := (c.track tr).cachedContent.remove current current } ∧
        c'.group = Function.update c.group r { c.group r with
          objects := (c.group r).objects.erase current.object
          totalBytes := (c.group r).totalBytes - e.payloadSize } := by
  unfold getCachedObjectMaybe at h
  simp only at h
  split at h
  · rename_i hr
    simp only [Prod.mk.injEq, true_and] at h
    refine Or.inl ⟨h.symm, ?_⟩
    rintro ⟨e, he, -⟩
    simp [entryAt, hr] at he
  · rename_i r hr
    split at h
    · rename_i ho
      simp only [Prod.mk.injEq, true_and] at h
      refine Or.inl ⟨h.symm, ?_⟩
      rintro ⟨e, he, -⟩
      simp [entryAt, hr, ho] at he
    · rename_i entry ho
      split at h
      · simp only [Prod.mk.injEq, true_and] at h
        refine Or.inr ⟨r, entry, hr, ho, ?_, ?_⟩
        · rw [← h]; rfl
        · rw [← h]
          simp [eraseObject, setGroup, setTrack, subBytes,
            subGroupBytes]
      · split at h
        · rename_i hc
          simp only [Prod.mk.injEq, true_and] at h
          refine Or.inl ⟨h.symm, ?_⟩
          rintro ⟨e, he, hce⟩
          simp only [entryAt, hr, bind_some, ho, some.injEq] at he
          subst he
          simp [hce] at hc
        · simp at h

/-- Two states of the cache that know the same of a track. -/
structure SameKnowledge (c c' : MoqxCache) (tr : TrackRef) : Prop where
  groups : (c'.track tr).groups = (c.track tr).groups
  gaps : (c'.track tr).gaps = (c.track tr).gaps
  endOfTrack : (c'.track tr).endOfTrack = (c.track tr).endOfTrack
  largest : (c'.track tr).largestGroupAndObject = (c.track tr).largestGroupAndObject
  max : ∀ r, (c'.group r).maxCachedObject = (c.group r).maxCachedObject
  endOfGroup : ∀ r, (c'.group r).endOfGroup = (c.group r).endOfGroup

theorem SameKnowledge.refl (c : MoqxCache) (tr : TrackRef) : SameKnowledge c c tr :=
  ⟨rfl, rfl, rfl, rfl, fun _ => rfl, fun _ => rfl⟩

theorem SameKnowledge.trans {c c' c'' : MoqxCache} {tr : TrackRef} (h : SameKnowledge c c' tr)
    (h' : SameKnowledge c' c'' tr) : SameKnowledge c c'' tr :=
  ⟨h'.groups.trans h.groups, h'.gaps.trans h.gaps, h'.endOfTrack.trans h.endOfTrack,
    h'.largest.trans h.largest, fun r => (h'.max r).trans (h.max r),
    fun r => (h'.endOfGroup r).trans (h.endOfGroup r)⟩

theorem SameKnowledge.known_iff (h : SameKnowledge c c' tr) (l : AbsoluteLocation) :
    Known c' tr l ↔ Known c tr l := by
  simp only [Known, PastGroupEnd, PastTrackEnd, h.groups, h.gaps, h.endOfTrack, h.largest, h.max,
    h.endOfGroup]

theorem SameKnowledge.grows (h : SameKnowledge c c' tr) : Grows c c' tr :=
  ⟨fun g r hg => by rw [h.groups]; exact hg, fun _ r _ => by rw [h.max],
    fun l hl => by rw [h.gaps]; exact hl, fun l hl => (h.known_iff l).mpr hl⟩

theorem getCachedObjectMaybe_knowledge (h : c.getCachedObjectMaybe tr current now = (none, c')) :
    SameKnowledge c c' tr := by
  rcases getCachedObjectMaybe_none h with ⟨rfl, -⟩ | ⟨r, e, -, -, ht, hg⟩
  · exact .refl c' tr
  · refine ⟨by rw [ht]; simp, by rw [ht]; simp, by rw [ht]; simp, by rw [ht]; simp, ?_, ?_⟩
    · intro r'
      rw [hg, update_apply]
      split
      · rename_i hr'; subst hr'; rfl
      · rfl
    · intro r'
      rw [hg, update_apply]
      split
      · rename_i hr'; subst hr'; rfl
      · rfl

theorem lookup_after_expiry {r r' o : Nat} {e' : CacheEntry}
    (hg : c'.group = Function.update c.group r { c.group r with
          objects := (c.group r).objects.erase current.object
          totalBytes := (c.group r).totalBytes - e.payloadSize })
    (h : (c'.group r').objects.lookup o = some e') :
    (c.group r').objects.lookup o = some e' := by
  rw [hg, update_apply] at h
  split at h
  · rename_i hr
    subst hr
    simp only at h
    by_cases ho : o = current.object
    · subst ho
      rw [lookup_erase] at h
      cases h
    · rwa [lookup_erase_ne ho] at h
  · exact h

theorem getCachedObjectMaybe_ok (hok : TrackOk c tr)
    (h : c.getCachedObjectMaybe tr current now = (none, c')) : TrackOk c' tr := by
  rcases getCachedObjectMaybe_none h with ⟨rfl, -⟩ | ⟨r, e, hr, he, ht, hg⟩
  · exact hok
  · have hk := getCachedObjectMaybe_knowledge h
    refine ⟨?_, ?_, ?_, ?_⟩
    · intro g r' o e' hg' ho
      rw [hk.groups] at hg'
      rw [hk.max]
      exact hok.object_le g r' o e' hg' (lookup_after_expiry hg ho)
    · intro g r' hg'
      rw [hk.groups] at hg'
      rw [hk.max]
      exact hok.max_le g r' hg'
    · intro g g' r' h1 h2
      rw [hk.groups] at h1 h2
      exact hok.separate g g' r' h1 h2
    · intro l hl hc
      rw [hk.gaps]
      have hc' : ((c.track tr).cachedContent.remove current current).contains l = true := by
        simpa [ht] using hc
      rcases hok.content l hl (contains_of_remove hc') with hgap | hcomp
      · exact Or.inl hgap
      · refine Or.inr ?_
        obtain ⟨e', he', hce'⟩ := hcomp
        refine ⟨e', ?_, hce'⟩
        have hne : l ≠ current := by
          intro heq
          rw [heq, not_contains_remove_self] at hc'
          cases hc'
        simp only [entryAt, hk.groups] at he' ⊢
        cases hlg : (c.track tr).groups.lookup l.group with
        | none => simp [hlg] at he'
        | some r' =>
          simp only [hlg, bind_some] at he' ⊢
          rw [hg, update_apply]
          split
          · rename_i hrr
            subst hrr
            have hgrp : l.group = current.group := hok.separate _ _ _ hlg hr
            have hobj : l.object ≠ current.object := by
              intro ho
              exact hne (AbsoluteLocation.ext' hgrp ho)
            simp only
            rwa [lookup_erase_ne hobj]
          · exact he'

theorem getCachedObjectMaybe_not_indexed (hok : TrackOk c tr)
    (h : c.getCachedObjectMaybe tr current now = (none, c')) (hl : current.object ≤ kEightByteLimit)
    (hgap : (c'.track tr).gaps.contains current = false) :
    (c'.track tr).cachedContent.contains current = false := by
  rw [(getCachedObjectMaybe_knowledge h).gaps] at hgap
  rcases getCachedObjectMaybe_none h with ⟨rfl, hn⟩ | ⟨r, e, -, -, ht, -⟩
  · by_contra hc
    rw [Bool.not_eq_false] at hc
    rcases hok.content current hl hc with hg | hcomp
    · rw [hg] at hgap; cases hgap
    · exact hn hcomp
  · rw [ht, update_self]
    exact not_contains_remove_self

variable {v v' : FetchVars}

theorem FetchVars.visit_some {b : Boundary}
    (h : v.visit c false now = (some b, c', v')) :
    v' = v ∧ (b = .gap ∧ c.getCachedObjectMaybe v.it.track v.it.current now = (none, c') ∧
        (c'.track v.it.track).gaps.contains v.it.current = true ∨
      ∃ e, b = .hit e ∧ c' = c ∧ entryAt c v.it.track v.it.current = some e) := by
  unfold FetchVars.visit at h
  simp only [Bool.false_eq_true, if_false] at h
  cases hget : c.getCachedObjectMaybe v.it.track v.it.current now with
  | mk found c'' =>
    rw [hget] at h
    cases found with
    | some e =>
      simp only [Prod.mk.injEq, some.injEq] at h
      obtain ⟨rfl, rfl, rfl⟩ := h
      obtain ⟨rfl, he, -⟩ := getCachedObjectMaybe_some hget
      exact ⟨rfl, Or.inr ⟨e, rfl, rfl, he⟩⟩
    | none =>
      simp only at h
      split at h
      · rename_i hgap
        simp only [Prod.mk.injEq, some.injEq] at h
        obtain ⟨rfl, rfl, rfl⟩ := h
        exact ⟨rfl, Or.inl ⟨rfl, rfl, hgap⟩⟩
      · simp at h

theorem FetchVars.visit_none (h : v.visit c false now = (none, c', v')) :
    c.getCachedObjectMaybe v.it.track v.it.current now = (none, c') ∧
      (c'.track v.it.track).gaps.contains v.it.current = false ∧
      v' = { v with
        fetchStart := some (v.fetchStart.getD v.it.current)
        it := v.it.skipUncached (c'.track v.it.track) } := by
  unfold FetchVars.visit at h
  simp only [Bool.false_eq_true, if_false] at h
  cases hget : c.getCachedObjectMaybe v.it.track v.it.current now with
  | mk found c'' =>
    rw [hget] at h
    cases found with
    | some e => simp at h
    | none =>
      simp only at h
      split at h
      · simp at h
      · rename_i hgap
        simp only [Prod.mk.injEq, true_and] at h
        obtain ⟨rfl, rfl⟩ := h
        exact ⟨rfl, by simpa using hgap, rfl⟩

theorem FetchVars.visit_knowledge {b : Option Boundary} (h : v.visit c false now = (b, c', v')) :
    SameKnowledge c c' v.it.track := by
  cases b with
  | none => exact getCachedObjectMaybe_knowledge (FetchVars.visit_none h).1
  | some b =>
    obtain ⟨-, ⟨-, hget, -⟩ | ⟨e, -, rfl, -⟩⟩ := FetchVars.visit_some h
    · exact getCachedObjectMaybe_knowledge hget
    · exact .refl _ _

end lookup

/-! ## 3. One turn -/

section turn

open FetchRun

variable {tr : TrackRef} {s s' : FetchRun} {now : TimePoint} {answer : Answer}

theorem atEnd_of_turn (hs : turn answer now s = some s') : (s.vars.atEnd s.cache).1 = false := by
  cases hd : (s.vars.atEnd s.cache).1 with
  | true => simp [turn, hd] at hs
  | false => rfl

theorem atEnd_of_stop (hs : turn answer now s = none) : (s.vars.atEnd s.cache).1 = true := by
  cases hd : (s.vars.atEnd s.cache).1 with
  | true => rfl
  | false =>
    unfold turn at hs
    simp only [hd, Bool.false_eq_true, if_false] at hs
    split at hs <;> cases hs

theorem foldl_answer_id (hid : ∀ r c, answer r c = c)
    (requests : List (AbsoluteLocation × AbsoluteLocation)) (c : MoqxCache) :
    requests.foldl (fun c r => answer r c) c = c := by
  induction requests generalizing c with
  | nil => rfl
  | cons r rest ih => rw [foldl_cons, hid, ih]

theorem turn_knowledge (hid : ∀ r c, answer r c = c)
    (htr : (s.vars.atEnd s.cache).2.it.track = tr) (hs : turn answer now s = some s') :
    SameKnowledge s.cache s'.cache tr := by
  unfold turn at hs
  simp only [atEnd_of_turn hs, Bool.false_eq_true, if_false] at hs
  rcases hv : (s.vars.atEnd s.cache).2.visit s.cache false now with ⟨ob, c, v⟩
  have hk := FetchVars.visit_knowledge hv
  rw [htr] at hk
  rw [hv] at hs
  cases ob with
  | none =>
    simp only [some.injEq] at hs
    subst hs
    exact hk
  | some b =>
    simp only [foldl_answer_id hid, some.injEq] at hs
    subst hs
    exact hk

end turn

/-! ## 4. What a fetch has sent -/

section sent

variable {before : AbsoluteLocation → AbsoluteLocation → Prop} {start stop upto upto' : AbsoluteLocation}
  {sent new : List Sent} {known : AbsoluteLocation → Prop}

/-- Everything sent lies in the range, each piece before the next, all of it before `upto`. -/
structure Ordered (before : AbsoluteLocation → AbsoluteLocation → Prop)
    (start «end» upto : AbsoluteLocation) (sent : List Sent) : Prop where
  sorted : sent.Pairwise fun a b => ∀ x y, a.covers x → b.covers y → before x y
  within : ∀ e ∈ sent, ∀ l, e.covers l → start ≤ l ∧ l < «end»
  upto : ∀ e ∈ sent, ∀ l, e.covers l → before l upto

/-- Everything of the range before `upto` has been sent or is known not to exist. -/
def Covered (before : AbsoluteLocation → AbsoluteLocation → Prop) (known : AbsoluteLocation → Prop)
    (start «end» upto : AbsoluteLocation) (sent : List Sent) : Prop :=
  ∀ l : AbsoluteLocation, l.object ≤ kEightByteLimit → start ≤ l → l < «end» → before l upto →
    (∃ e ∈ sent, e.covers l) ∨ known l

theorem Ordered.nil : Ordered before start stop upto [] :=
  ⟨List.Pairwise.nil, fun _ h => absurd h not_mem_nil, fun _ h => absurd h not_mem_nil⟩

theorem Ordered.append (ho : Ordered before start stop upto sent)
    (hmono : ∀ l, before l upto → before l upto')
    (hsorted : new.Pairwise fun a b => ∀ x y, a.covers x → b.covers y → before x y)
    (hnew : ∀ e ∈ new, ∀ l, e.covers l →
      (∀ x, before x upto → before x l) ∧ start ≤ l ∧ l < stop ∧ before l upto') :
    Ordered before start stop upto' (sent ++ new) := by
  refine ⟨?_, ?_, ?_⟩
  · refine pairwise_append.mpr ⟨ho.sorted, hsorted, ?_⟩
    intro a ha b hb x y hx hy
    exact (hnew b hb y hy).1 x (ho.upto a ha x hx)
  · intro e he l hl
    rcases mem_append.mp he with he | he
    · exact ho.within e he l hl
    · exact ⟨(hnew e he l hl).2.1, (hnew e he l hl).2.2.1⟩
  · intro e he l hl
    rcases mem_append.mp he with he | he
    · exact hmono l (ho.upto e he l hl)
    · exact (hnew e he l hl).2.2.2

theorem Covered.append (hc : Covered before known start stop upto sent)
    (hnew : ∀ l : AbsoluteLocation, l.object ≤ kEightByteLimit → start ≤ l → l < stop →
      ¬before l upto → before l upto' → (∃ e ∈ new, e.covers l) ∨ known l) :
    Covered before known start stop upto' (sent ++ new) := by
  intro l hl h1 h2 hb
  by_cases hu : before l upto
  · rcases hc l hl h1 h2 hu with ⟨e, he, hel⟩ | hk
    · exact Or.inl ⟨e, mem_append_left _ he, hel⟩
    · exact Or.inr hk
  · rcases hnew l hl h1 h2 hu hb with ⟨e, he, hel⟩ | hk
    · exact Or.inl ⟨e, mem_append_right _ he, hel⟩
    · exact Or.inr hk

theorem Ordered.advance (ho : Ordered before start stop upto sent)
    (hmono : ∀ l, before l upto → before l upto') : Ordered before start stop upto' sent :=
  ⟨ho.sorted, ho.within, fun e he l hl => hmono l (ho.upto e he l hl)⟩

theorem Covered.advance (hc : Covered before known start stop upto sent)
    (hnew : ∀ l : AbsoluteLocation, l.object ≤ kEightByteLimit → start ≤ l → l < stop →
      ¬before l upto → before l upto' → known l) :
    Covered before known start stop upto' sent := by
  intro l hl h1 h2 hb
  by_cases hu : before l upto
  · exact hc l hl h1 h2 hu
  · exact Or.inr (hnew l hl h1 h2 hu hb)

theorem Covered.mono {known' : AbsoluteLocation → Prop}
    (hc : Covered before known start stop upto sent) (hk : ∀ l, known l → known' l) :
    Covered before known' start stop upto sent := by
  intro l hl h1 h2 hb
  exact (hc l hl h1 h2 hb).imp id (hk l)

end sent

/-! ## 5. A small track -/

def sampleEntry : CacheEntry where
  subgroup := 0
  status := .normal
  extensions := noExtensions
  payload := none
  payloadSize := 0
  complete := true
  forwardingPreferenceIsDatagram := false
  cachedAt := 0

/-- A cache whose track `0` holds the object `{5, 0}` and knows nothing else. -/
def oneObject : MoqxCache :=
  ((init 0 0 0 0).setGroup 0
      { objects := (∅ : AList fun _ : Nat => CacheEntry).insert 0 sampleEntry }).setTrack 0
    { groups := (∅ : AList fun _ : Nat => GroupRef).insert 5 0
      cachedContent := empty.insert ⟨5, 0⟩ ⟨5, 0⟩ }

theorem oneObject_groups {g r : Nat} (h : (oneObject.track 0).groups.lookup g = some r) :
    g = 5 ∧ r = 0 := by
  change (insert 5 0 (∅ : AList fun _ : Nat => GroupRef)).lookup g = some r at h
  by_cases hg : g = 5
  · subst hg
    rw [lookup_insert] at h
    exact ⟨rfl, (some.inj h).symm⟩
  · rw [lookup_insert_ne hg] at h
    cases h

theorem oneObject_objects {o : Nat} {e : CacheEntry}
    (h : (oneObject.group 0).objects.lookup o = some e) : o = 0 := by
  change (insert 0 sampleEntry (∅ : AList fun _ : Nat => CacheEntry)).lookup o = some e at h
  by_contra ho
  rw [lookup_insert_ne ho] at h
  cases h

theorem oneObject_content {l : AbsoluteLocation} (hl : l.object ≤ kEightByteLimit) :
    (oneObject.track 0).cachedContent.contains l = true ↔ l = ⟨5, 0⟩ := by
  show (empty.insert ⟨5, 0⟩ ⟨5, 0⟩).contains l = true ↔ _
  rw [contains_insert (Nat.zero_le _) (Nat.zero_le _) hl]
  have hempty : empty.contains l = false := rfl
  rw [hempty]
  simp only [Bool.false_eq_true, or_false]
  exact ⟨fun h => le_antisymm h.2 h.1, fun h => ⟨h.ge, h.le⟩⟩

theorem oneObject_complete (l : AbsoluteLocation) : CompleteAt oneObject 0 l ↔ l = ⟨5, 0⟩ := by
  constructor
  · intro h
    obtain ⟨e, he, -⟩ := h
    unfold entryAt at he
    cases hg : (oneObject.track 0).groups.lookup l.group with
    | none => simp [hg] at he
    | some r =>
      rw [hg, bind_some] at he
      obtain ⟨h1, rfl⟩ := oneObject_groups hg
      exact AbsoluteLocation.ext' h1 (oneObject_objects he)
  · intro h
    subst h
    exact ⟨sampleEntry, rfl, rfl⟩

theorem oneObject_state : TrackSound oneObject 0 := by
  refine ⟨⟨?_, ?_, ?_, ?_⟩, ?_⟩
  · intro g r o e hg ho
    obtain ⟨rfl, rfl⟩ := oneObject_groups hg
    rw [oneObject_objects ho]
    exact Nat.zero_le _
  · intro g r hg
    obtain ⟨rfl, rfl⟩ := oneObject_groups hg
    exact Nat.zero_le _
  · intro g g' r h1 h2
    exact (oneObject_groups h1).1.trans (oneObject_groups h2).1.symm
  · intro l hl hc
    exact Or.inr ((oneObject_complete l).mpr ((oneObject_content hl).mp hc))
  · intro l hl h
    rcases h with h | h
    · cases h
    · exact (oneObject_content hl).mpr ((oneObject_complete l).mp h)

theorem oneObject_not_known {l : AbsoluteLocation} : ¬Known oneObject 0 l := by
  intro h
  rcases h with h | ⟨r, hr, heog, -⟩ | ⟨h, -⟩
  · cases h
  · obtain ⟨-, rfl⟩ := oneObject_groups hr
    cases heog
  · cases h

end Moqx

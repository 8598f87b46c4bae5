/-
  Subject: What the filter of a track tells the rankings, and what they hold of the track then.

  * `checkProperties_checked` -- every observer sees the properties of an object;
  * `notifyTrackEnded_ended` -- every observer drops the track;
  * `onRanking_wired`, `retro_observers` -- the two ways a ranking learns of a track.
-/
import Moqx.TopN.Model
import Moqx.TopN.Values

namespace Moqx

open List Function AList Option

namespace RankingRelay

open PropertyRanking

variable {relay'' : RankingRelay} {value : Nat} {extensions : Extensions} {s : RankingRelay × Bool}

/-! ## 1. One ranking, one filter -/

section modify

variable (relay : RankingRelay) (ref ref' : RankingRef) (ftn ftn' : FullTrackName)

theorem modifyRanking_self (f : PropertyRanking → PropertyRanking) :
    (relay.modifyRanking ref f).ranking ref = f (relay.ranking ref) := update_self ..

theorem modifyRanking_ne {ref ref' : RankingRef} (h : ref' ≠ ref) (f : PropertyRanking → PropertyRanking) :
    (relay.modifyRanking ref f).ranking ref' = relay.ranking ref' := update_of_ne h ..

theorem modifyFilter_self (f : TopNFilter → TopNFilter) :
    (relay.modifyFilter ftn f).topNFilter ftn = (relay.topNFilter ftn).map f := update_self ..

theorem modifyFilter_ne {ftn ftn' : FullTrackName} (h : ftn' ≠ ftn) (f : TopNFilter → TopNFilter) :
    (relay.modifyFilter ftn f).topNFilter ftn' = relay.topNFilter ftn' := update_of_ne h ..

theorem observerFor_modifyFilter {f : TopNFilter → TopNFilter} (h : ∀ filter, (f filter).observers = filter.observers)
    (propertyType : Nat) : (relay.modifyFilter ftn f).observerFor ftn' propertyType =
      relay.observerFor ftn' propertyType := by
  rw [observerFor, observerFor]
  by_cases hftn : ftn' = ftn
  · subst hftn
    rw [modifyFilter_self]
    cases relay.topNFilter ftn' with
    | none => rfl
    | some filter => simp only [map_some, bind_some, h]
  · rw [modifyFilter_ne relay hftn]

theorem observerFor_insert (entry : ObserverEntry) (propertyType propertyType' : Nat)
    (h : (relay.topNFilter ftn).isSome = true) :
    (relay.modifyFilter ftn fun f => { f with observers := f.observers.insert propertyType entry }).observerFor
        ftn propertyType' =
      if propertyType' = propertyType then some entry else relay.observerFor ftn propertyType' := by
  obtain ⟨filter, hf⟩ := isSome_iff_exists.1 h
  rw [observerFor, observerFor, modifyFilter_self, hf, map_some, bind_some, bind_some]
  split
  · rename_i heq
    subst heq
    exact lookup_insert _
  · rename_i hne
    exact lookup_insert_ne hne

end modify

variable {ftn : FullTrackName} {relay relay' : RankingRelay} {T : Nat} {entry : ObserverEntry}

/-- The rankings keep their order, what they hold of other tracks, and what is known of other filters. -/
structure OtherTracks (relay relay' : RankingRelay) (ftn : FullTrackName) : Prop where
  types : relay'.propertyType = relay.propertyType
  next : relay'.nextRanking = relay.nextRanking
  filters : ∀ ftn', ftn' ≠ ftn → relay'.topNFilter ftn' = relay.topNFilter ftn'
  rank : (∀ ref, RankInv (relay.ranking ref)) → ∀ ref, RankInv (relay'.ranking ref)
  values : (∀ ref, RankInv (relay.ranking ref)) → ∀ ref ftn', ftn' ≠ ftn →
    (relay'.ranking ref).sortValue ftn' = (relay.ranking ref).sortValue ftn'

/-- So does the tree, and the track keeps its filter. -/
structure Elsewhere (relay relay' : RankingRelay) (ftn : FullTrackName) : Prop extends
    OtherTracks relay relay' ftn where
  tree : relay'.tree = relay.tree
  filter : (relay'.topNFilter ftn).isSome = (relay.topNFilter ftn).isSome

theorem Elsewhere.refl (relay : RankingRelay) (ftn : FullTrackName) : Elsewhere relay relay ftn :=
  ⟨⟨rfl, rfl, fun _ _ => rfl, id, fun _ _ _ _ => rfl⟩, rfl, rfl⟩

theorem Elsewhere.trans (h : Elsewhere relay relay' ftn) (h' : Elsewhere relay' relay'' ftn) : Elsewhere relay relay'' ftn where
  types := h'.types.trans h.types
  next := h'.next.trans h.next
  filters ftn' hne := (h'.filters ftn' hne).trans (h.filters ftn' hne)
  rank hr := h'.rank (h.rank hr)
  values hr ref ftn' hne := (h'.values (h.rank hr) ref ftn' hne).trans (h.values hr ref ftn' hne)
  tree := h'.tree.trans h.tree
  filter := h'.filter.trans h.filter

theorem elsewhere_modifyFilter (relay : RankingRelay) (ftn : FullTrackName) (f : TopNFilter → TopNFilter) :
    Elsewhere relay (relay.modifyFilter ftn f) ftn :=
  ⟨⟨rfl, rfl, fun _ hne => modifyFilter_ne relay hne f, id, fun _ _ _ _ => rfl⟩, rfl, by
    rw [modifyFilter_self, isSome_map]⟩

theorem elsewhere_modifyRanking (relay : RankingRelay) (ref : RankingRef) (ftn : FullTrackName)
    {f : PropertyRanking → PropertyRanking}
    (h : RankInv (relay.ranking ref) → ∃ value, Ranked (f (relay.ranking ref)) fun ftn' =>
      if ftn' = ftn then value else (relay.ranking ref).sortValue ftn') :
    Elsewhere relay (relay.modifyRanking ref f) ftn := by
  refine ⟨⟨rfl, rfl, fun _ _ => rfl, fun hr ref' => ?_, fun hr ref' ftn' hne => ?_⟩, rfl, rfl⟩
  · by_cases href : ref' = ref
    · obtain ⟨value, hv⟩ := h (hr ref)
      rw [href, modifyRanking_self]
      exact hv.rank
    · rw [modifyRanking_ne relay href]
      exact hr ref'
  · by_cases href : ref' = ref
    · obtain ⟨value, hv⟩ := h (hr ref)
      rw [href, modifyRanking_self, hv.values, if_neg hne]
    · rw [modifyRanking_ne relay href]

/-! ## 2. The properties of an object -/

/-- The entry of an observer once an object was checked. -/
def ObserverEntry.sees (entry : ObserverEntry) (value : Option Nat) : ObserverEntry :=
  { entry with lastSeenValue := value.or entry.lastSeenValue }

/-- The value that a ranking holds once an object was checked: what it was told has changed. -/
def ObserverEntry.tells (entry : ObserverEntry) (value : Option Nat) (held : Option Nat) : Option Nat :=
  if value.isNone ∨ entry.lastSeenValue = value then held else held.map fun old => value.getD old

/-- What was done once the observers in `done` were told of an object. -/
structure Checked (ftn : FullTrackName) (extensions : Extensions) (done : List Nat)
    (relay relay' : RankingRelay) : Prop where
  elsewhere : Elsewhere relay relay' ftn
  observers : ∀ T, relay'.observerFor ftn T = (relay.observerFor ftn T).map fun e =>
    if T ∈ done then ObserverEntry.sees e (extensions.getIntExtension T) else e
  told : ∀ T e, relay.observerFor ftn T = some e → (relay'.ranking e.observer).sortValue ftn =
    if T ∈ done then ObserverEntry.tells e (extensions.getIntExtension T)
      ((relay.ranking e.observer).sortValue ftn)
    else (relay.ranking e.observer).sortValue ftn
  held : ∀ ref, (relay'.ranking ref).sortValue ftn = none ↔ (relay.ranking ref).sortValue ftn = none

structure CheckedOne (ftn : FullTrackName) (T : Nat) (entry : ObserverEntry) (value : Nat)
    (relay relay' : RankingRelay) : Prop where
  elsewhere : Elsewhere relay relay' ftn
  observer : ∀ T', relay'.observerFor ftn T' =
    if T' = T then some (ObserverEntry.sees entry (some value)) else relay.observerFor ftn T'
  others : ∀ ref, ref ≠ entry.observer → relay'.ranking ref = relay.ranking ref
  told : (∀ ref, RankInv (relay.ranking ref)) → (relay'.ranking entry.observer).sortValue ftn =
    ObserverEntry.tells entry (some value) ((relay.ranking entry.observer).sortValue ftn)

theorem sweep_ranked {r : PropertyRanking} (h : RankInv r) (activity : PropertyRanking.Activity)
    (ftn : FullTrackName) : Ranked (r.sweepIdle activity).1 fun ftn' =>
      if ftn' = ftn then r.sortValue ftn else r.sortValue ftn' := by
  have hswept := (Ranked.of_rank h).sweepIdle activity
  refine ⟨hswept.rank, fun ftn' => ?_⟩
  rw [hswept.values]
  split
  · rename_i heq
    rw [heq]
  · rfl

theorem filter_of_observer (h : relay.observerFor ftn T = some entry) :
    (relay.topNFilter ftn).isSome = true := by
  cases hf : relay.topNFilter ftn with
  | none =>
    rw [observerFor, hf] at h
    cases h
  | some => rfl

theorem noteValue_one (he : relay.observerFor ftn T = some entry) (value : Nat) (now : TimePoint) :
    CheckedOne ftn T entry value relay (relay.noteValue ftn T entry value now) := by
  have htouch : ∀ T', (relay.modifyFilter ftn fun f =>
      { f with activityTarget := f.activityTarget.map fun _ => now }).observerFor ftn T' =
      relay.observerFor ftn T' := fun T' => observerFor_modifyFilter relay ftn ftn (by intro _; rfl) T'
  have hfirst := elsewhere_modifyFilter relay ftn fun f =>
    { f with activityTarget := f.activityTarget.map fun _ => now }
  rw [noteValue]
  dsimp only
  split
  · rename_i hseen
    refine ⟨hfirst, fun T' => ?_, fun _ _ => rfl, fun _ => ?_⟩
    · rw [htouch]
      split
      · rename_i heq
        rw [heq, he, ObserverEntry.sees, some_or, ← hseen]
      · rfl
    · rw [ObserverEntry.tells, if_pos (.inr hseen)]
      rfl
  · rename_i hseen
    refine ⟨hfirst.trans ((elsewhere_modifyFilter _ ftn _).trans (elsewhere_modifyRanking _ entry.observer ftn
      fun hr => ⟨_, updateSortValue_ranked hr ftn value _⟩)), fun T' => ?_, fun ref hne => ?_, fun hr => ?_⟩
    · refine (observerFor_insert _ ftn _ T T' ?_).trans ?_
      · rw [hfirst.filter]
        exact filter_of_observer he
      · rw [htouch]
        rfl
    · exact modifyRanking_ne _ hne _
    · rw [modifyRanking_self]
      refine ((updateSortValue_ranked (hr entry.observer) ftn value _).values ftn).trans ?_
      rw [if_pos rfl, ObserverEntry.tells, if_neg]
      · rfl
      · simp [hseen]

theorem CheckedOne.then (h : CheckedOne ftn T entry value relay relay')
    (he : Elsewhere relay' relay'' ftn)
    (hobs : ∀ T', relay''.observerFor ftn T' = relay'.observerFor ftn T')
    (hothers : ∀ ref, ref ≠ entry.observer → relay''.ranking ref = relay'.ranking ref)
    (hsame : (∀ ref, RankInv (relay'.ranking ref)) → (relay''.ranking entry.observer).sortValue ftn =
      (relay'.ranking entry.observer).sortValue ftn) : CheckedOne ftn T entry value relay relay'' where
  elsewhere := h.elsewhere.trans he
  observer T' := (hobs T').trans (h.observer T')
  others ref hne := (hothers ref hne).trans (h.others ref hne)
  told hr := (hsame (h.elsewhere.rank hr)).trans (h.told hr)

/-- **One observer** in the loop of `checkProperties`. -/
theorem checkProperty_one (now : TimePoint) (allows : Bool)
    (he : s.1.observerFor ftn T = some entry) (hv : extensions.getIntExtension T = some value) :
    CheckedOne ftn T entry value s.1 (checkProperty ftn extensions now allows s T).1 := by
  have hnoted := noteValue_one he value now
  rw [checkProperty, he, hv]
  dsimp only
  split
  · dsimp only
    refine hnoted.then (elsewhere_modifyRanking _ entry.observer ftn fun hr => ⟨_, sweep_ranked hr _ ftn⟩)
      (fun _ => rfl) (fun ref hne => modifyRanking_ne _ hne _) fun hr => ?_
    rw [modifyRanking_self, (sweep_ranked (hr _) _ ftn).values, if_pos rfl]
  · exact hnoted

theorem Checked.refl (ftn : FullTrackName) (extensions : Extensions) (relay : RankingRelay) :
    Checked ftn extensions [] relay relay where
  elsewhere := .refl relay ftn
  observers T := by
    simp
  told T e _ := by
    simp
  held _ := Iff.rfl

theorem Checked.step {now : TimePoint} {allows : Bool} {done : List Nat}
    (hr : ∀ ref, RankInv (relay.ranking ref))
    (htyped : ∀ T e, relay.observerFor ftn T = some e → relay.propertyType e.observer = T)
    (h : Checked ftn extensions done relay s.1) (hT : T ∉ done) :
    Checked ftn extensions (T :: done) relay (checkProperty ftn extensions now allows s T).1 := by
  have hobs : s.1.observerFor ftn T = relay.observerFor ftn T := by
    rw [h.observers]
    simp [hT]
  -- nothing is done where there is no observer or no value
  have hskip : (relay.observerFor ftn T = none ∨ extensions.getIntExtension T = none) →
      Checked ftn extensions (T :: done) relay s.1 := by
    intro hno
    refine ⟨h.elsewhere, fun T' => ?_, fun T' e he => ?_, h.held⟩
    · rw [h.observers]
      by_cases hT' : T' = T
      · subst hT'
        rcases hno with hno | hno
        · rw [hno]
          rfl
        · simp [hT, hno, ObserverEntry.sees]
      · simp [hT']
    · rw [h.told T' e he]
      by_cases hT' : T' = T
      · subst hT'
        rcases hno with hno | hno
        · rw [hno] at he
          cases he
        · simp [hT, hno, ObserverEntry.tells]
      · simp [hT']
  cases he : relay.observerFor ftn T with
  | none =>
    have hsame : checkProperty ftn extensions now allows s T = s := by
      rw [checkProperty, hobs, he]
    rw [hsame]
    exact hskip (.inl he)
  | some entry =>
    cases hv : extensions.getIntExtension T with
    | none =>
      have hsame : checkProperty ftn extensions now allows s T = s := by
        rw [checkProperty, hobs, he, hv]
      rw [hsame]
      exact hskip (.inr hv)
    | some value =>
      have hone := checkProperty_one now allows (hobs.trans he) hv
      have hheld : (s.1.ranking entry.observer).sortValue ftn = (relay.ranking entry.observer).sortValue ftn := by
        rw [h.told T entry he, if_neg hT]
      refine ⟨h.elsewhere.trans hone.elsewhere, fun T' => ?_, fun T' e he' => ?_, fun ref => ?_⟩
      · rw [hone.observer, h.observers]
        by_cases hT' : T' = T
        · subst hT'
          simp [he, hv]
        · simp [hT']
      · by_cases hT' : T' = T
        · subst hT'
          rw [he] at he'
          cases he'
          rw [hone.told (h.elsewhere.rank hr), hheld, hv]
          simp
        · -- a ranking is the observer of its own property only
          have hne : e.observer ≠ entry.observer := fun heq =>
            hT' ((htyped T' e he').symm.trans ((congrArg relay.propertyType heq).trans (htyped T entry he)))
          rw [hone.others _ hne, h.told T' e he']
          simp [hT']
      · by_cases href : ref = entry.observer
        · rw [href, hone.told (h.elsewhere.rank hr), ← h.held, ObserverEntry.tells]
          split
          · rfl
          · rw [map_eq_none_iff]
        · rw [hone.others ref href]
          exact h.held ref

theorem checkLoop_checked (extensions : Extensions) (now : TimePoint) (allows : Bool)
    (hr : ∀ ref, RankInv (relay.ranking ref))
    (htyped : ∀ T e, relay.observerFor ftn T = some e → relay.propertyType e.observer = T)
    (ks done : List Nat) (s : RankingRelay × Bool) (hnd : (ks ++ done).Nodup)
    (h : Checked ftn extensions done relay s.1) :
    ∃ done', (∀ T, T ∈ ks ++ done → T ∈ done') ∧
      Checked ftn extensions done' relay (ks.foldl (checkProperty ftn extensions now allows) s).1 := by
  induction ks generalizing done s with
  | nil => exact ⟨done, fun _ => id, h⟩
  | cons T ks ih =>
    have hT : T ∉ done := fun hT => (nodup_cons.1 hnd).1 (mem_append_right _ hT)
    obtain ⟨done', hdone, h'⟩ := ih (T :: done) _ (nodup_middle.2 hnd) (h.step hr htyped hT)
    refine ⟨done', fun T' hT' => hdone T' ?_, h'⟩
    rw [mem_append, mem_cons]
    rcases mem_cons.1 hT' with h | h
    · exact .inr (.inl h)
    · exact (mem_append.1 h).imp id .inr

/-- **An object**: every observer sees its properties. -/
theorem checkProperties_checked (extensions : Extensions) (now : TimePoint)
    (hr : ∀ ref, RankInv (relay.ranking ref))
    (htyped : ∀ T e, relay.observerFor ftn T = some e → relay.propertyType e.observer = T) :
    ∃ done, (∀ T e, relay.observerFor ftn T = some e → T ∈ done) ∧
      Checked ftn extensions done relay (relay.checkProperties ftn extensions now) := by
  rw [checkProperties]
  cases hf : relay.topNFilter ftn with
  | none =>
    refine ⟨[], fun T e he => ?_, .refl ftn extensions relay⟩
    rw [observerFor, hf] at he
    cases he
  | some filter =>
    obtain ⟨done, hdone, h⟩ := checkLoop_checked extensions now (filter.activityThrottleAllows now) hr htyped
      filter.observers.keys [] (relay, false) (by rw [append_nil]; exact filter.observers.keys_nodup)
      (.refl ftn extensions relay)
    refine ⟨done, fun T e he => hdone T ?_, ?_⟩
    · rw [observerFor, hf, Option.bind_some] at he
      rw [append_nil, ← AList.mem_keys, ← AList.lookup_isSome, he]
      rfl
    · dsimp only
      split
      · refine ⟨h.elsewhere.trans (elsewhere_modifyFilter _ ftn _), fun T => ?_, h.told, h.held⟩
        rw [observerFor_modifyFilter _ ftn ftn (by intro _; rfl)]
        exact h.observers T
      · exact h

/-! ## 3. The end of a track -/

theorem endLoop (ftn : FullTrackName) (l : List (Sigma fun _ : Nat => ObserverEntry)) (relay : RankingRelay) :
    let relay' := l.foldl
      (fun relay e => relay.modifyRanking e.2.observer fun r => (r.removeTrack ftn).1) relay
    Elsewhere relay relay' ftn ∧ relay'.topNFilter = relay.topNFilter ∧
      ((∀ ref, RankInv (relay.ranking ref)) → ∀ ref,
        ((∃ e ∈ l, e.2.observer = ref) → (relay'.ranking ref).sortValue ftn = none) ∧
        ((relay.ranking ref).sortValue ftn = none → (relay'.ranking ref).sortValue ftn = none)) := by
  induction l generalizing relay with
  | nil => exact ⟨.refl relay ftn, rfl, fun _ ref => ⟨fun ⟨_, hmem, _⟩ => absurd hmem not_mem_nil, id⟩⟩
  | cons e l ih =>
    have hone : Elsewhere relay (relay.modifyRanking e.2.observer fun r => (r.removeTrack ftn).1) ftn :=
      elsewhere_modifyRanking relay e.2.observer ftn fun hr => ⟨_, removeTrack_ranked hr ftn⟩
    obtain ⟨helse, hfilters, hrest⟩ := ih (relay.modifyRanking e.2.observer fun r => (r.removeTrack ftn).1)
    refine ⟨hone.trans helse, hfilters, fun hr ref => ?_⟩
    obtain ⟨hin, hstays⟩ := hrest (hone.rank hr) ref
    have hgone : ref = e.2.observer → ((relay.modifyRanking e.2.observer fun r =>
        (r.removeTrack ftn).1).ranking ref).sortValue ftn = none := by
      intro heq
      rw [heq, modifyRanking_self, (removeTrack_ranked (hr e.2.observer) ftn).values, if_pos rfl]
    refine ⟨fun hmem => ?_, fun hnone => hstays ?_⟩
    · obtain ⟨e', hmem, href⟩ := hmem
      rcases mem_cons.1 hmem with heq | hmem
      · rw [heq] at href
        exact hstays (hgone href.symm)
      · exact hin ⟨e', hmem, href⟩
    · by_cases heq : ref = e.2.observer
      · exact hgone heq
      · rw [modifyRanking_ne relay heq]
        exact hnone

/-- **The end of a track**: every observer drops it. -/
theorem notifyTrackEnded_ended (relay : RankingRelay) (ftn : FullTrackName)
    (hr : ∀ ref, RankInv (relay.ranking ref)) :
    Elsewhere relay (relay.notifyTrackEnded ftn) ftn ∧
    (relay.notifyTrackEnded ftn).topNFilter = relay.topNFilter ∧
    ∀ ref, ((∃ T e, relay.observerFor ftn T = some e ∧ e.observer = ref) ∨
        (relay.ranking ref).sortValue ftn = none) →
      ((relay.notifyTrackEnded ftn).ranking ref).sortValue ftn = none := by
  rw [notifyTrackEnded]
  cases hf : relay.topNFilter ftn with
  | none =>
    refine ⟨.refl relay ftn, rfl, fun ref h => ?_⟩
    rcases h with ⟨T, e, he, -⟩ | h
    · rw [observerFor, hf] at he
      cases he
    · exact h
  | some filter =>
    obtain ⟨helse, hfilters, hrest⟩ := endLoop ftn filter.observers.entries relay
    refine ⟨helse, hfilters, fun ref h => ?_⟩
    rcases h with ⟨T, e, he, href⟩ | h
    · rw [observerFor, hf, bind_some] at he
      exact (hrest hr ref).1 ⟨⟨T, e⟩, mem_lookup_iff.1 he, href⟩
    · exact (hrest hr ref).2 h

/-! ## 4. A ranking learns of a track -/

theorem onRanking_wired (ftn : FullTrackName) (session : SessionRef) (extensions : Extensions)
    (l : List (Nat × RankingRef)) (relay : RankingRelay) (hf : (relay.topNFilter ftn).isSome = true)
    (hr : ∀ ref, RankInv (relay.ranking ref)) (htyped : ∀ e ∈ l, relay.propertyType e.2 = e.1) :
    let relay' := l.foldl (onRanking ftn session extensions) relay
    Elsewhere relay relay' ftn ∧
    (∀ T, (∀ ref, (T, ref) ∉ l) → relay'.observerFor ftn T = relay.observerFor ftn T) ∧
    (∀ T ref, (T, ref) ∈ l → ∃ ref', (T, ref') ∈ l ∧ relay'.observerFor ftn T = some ⟨none, ref'⟩) ∧
    ∀ ref, (relay'.ranking ref).sortValue ftn =
      if (relay.propertyType ref, ref) ∈ l then
        some (((relay.ranking ref).sortValue ftn).getD
          ((extensions.getIntExtension (relay.propertyType ref)).getD 0))
      else (relay.ranking ref).sortValue ftn := by
  induction l generalizing relay with
  | nil => exact ⟨.refl relay ftn, fun _ _ => rfl, fun _ _ h => absurd h not_mem_nil, fun _ => by simp⟩
  | cons e l ih =>
    obtain ⟨T₀, ref₀⟩ := e
    have hregister := registerTrack_ranked (hr ref₀) ftn (extensions.getIntExtension T₀) session
    have hone : Elsewhere relay (onRanking ftn session extensions relay (T₀, ref₀)) ftn :=
      (elsewhere_modifyRanking relay ref₀ ftn fun _ => ⟨_, hregister⟩).trans (elsewhere_modifyFilter _ ftn _)
    have hobs : ∀ T, (onRanking ftn session extensions relay (T₀, ref₀)).observerFor ftn T =
        if T = T₀ then some ⟨none, ref₀⟩ else relay.observerFor ftn T :=
      fun T => observerFor_insert _ ftn ⟨none, ref₀⟩ T₀ T hf
    have hval : ∀ ref, ((onRanking ftn session extensions relay (T₀, ref₀)).ranking ref).sortValue ftn =
        if ref = ref₀ then some (((relay.ranking ref).sortValue ftn).getD
          ((extensions.getIntExtension (relay.propertyType ref)).getD 0))
        else (relay.ranking ref).sortValue ftn := by
      intro ref
      show ((relay.modifyRanking ref₀ fun r =>
        (r.registerTrack ftn (extensions.getIntExtension T₀) session).1).ranking ref).sortValue ftn = _
      split
      · rename_i heq
        rw [heq, htyped _ mem_cons_self, modifyRanking_self, hregister.values, if_pos rfl]
      · rename_i hne
        rw [modifyRanking_ne relay hne]
    obtain ⟨helse, hfree, hbound, hvalues⟩ := ih (onRanking ftn session extensions relay (T₀, ref₀))
      (hone.filter.trans hf) (hone.rank hr) (fun e he => by
        rw [hone.types]
        exact htyped e (mem_cons_of_mem _ he))
    refine ⟨hone.trans helse, fun T hT => ?_, fun T ref hmem => ?_, fun ref => ?_⟩
    · refine (hfree T fun ref hmem => hT ref (mem_cons_of_mem _ hmem)).trans ((hobs T).trans ?_)
      rw [if_neg]
      intro heq
      exact hT ref₀ (heq ▸ mem_cons_self)
    · by_cases hlater : ∃ ref, (T, ref) ∈ l
      · obtain ⟨ref', hmem'⟩ := hlater
        obtain ⟨ref'', hmem'', h⟩ := hbound T ref' hmem'
        exact ⟨ref'', mem_cons_of_mem _ hmem'', h⟩
      · have hhere : (T, ref) = (T₀, ref₀) := (mem_cons.1 hmem).resolve_right fun h => hlater ⟨ref, h⟩
        injection hhere with hT href
        refine ⟨ref₀, hT ▸ mem_cons_self, ?_⟩
        refine (hfree T fun ref' hmem' => hlater ⟨ref', hmem'⟩).trans ((hobs T).trans (if_pos hT))
    · refine (hvalues ref).trans ?_
      rw [hval, hone.types]
      by_cases heq : ref = ref₀
      · have hhead : (relay.propertyType ref, ref) ∈ (T₀, ref₀) :: l := by
          rw [heq, htyped _ mem_cons_self]
          exact mem_cons_self
        rw [if_pos heq, if_pos hhead]
        split <;> rfl
      · rw [if_neg heq]
        have hiff : (relay.propertyType ref, ref) ∈ (T₀, ref₀) :: l ↔ (relay.propertyType ref, ref) ∈ l := by
          rw [mem_cons, Prod.mk.injEq]
          exact ⟨fun h => h.resolve_left fun h => heq h.2, .inr⟩
        simp only [hiff]

theorem retro_observers (propertyType : Nat) (ref : RankingRef) (l : List RetroTrack) (relay : RankingRelay) :
    let relay' := l.foldl
      (fun relay t => relay.modifyFilter t.ftn (·.registerObserver propertyType ref)) relay
    relay'.tree = relay.tree ∧ relay'.propertyType = relay.propertyType ∧
    relay'.nextRanking = relay.nextRanking ∧ relay'.ranking = relay.ranking ∧
    (∀ ftn, (relay'.topNFilter ftn).isSome = (relay.topNFilter ftn).isSome) ∧
    ∀ ftn T, relay'.observerFor ftn T =
      if T = propertyType ∧ (∃ t ∈ l, t.ftn = ftn) ∧ (relay.topNFilter ftn).isSome = true then some ⟨none, ref⟩
      else relay.observerFor ftn T := by
  induction l generalizing relay with
  | nil =>
    refine ⟨rfl, rfl, rfl, rfl, fun _ => rfl, fun ftn T => ?_⟩
    rw [if_neg]
    · rfl
    · intro h
      obtain ⟨-, ⟨t, hmem, -⟩, -⟩ := h
      exact not_mem_nil hmem
  | cons t l ih =>
    obtain ⟨htree, htypes, hnext, hranking, hsome, hobs⟩ :=
      ih (relay.modifyFilter t.ftn (·.registerObserver propertyType ref))
    have hsome' : ∀ ftn, ((relay.modifyFilter t.ftn (·.registerObserver propertyType ref)).topNFilter ftn).isSome =
        (relay.topNFilter ftn).isSome := by
      intro ftn
      by_cases hftn : ftn = t.ftn
      · rw [hftn, modifyFilter_self, isSome_map]
      · rw [modifyFilter_ne relay hftn]
    refine ⟨htree, htypes, hnext, hranking, fun ftn => (hsome ftn).trans (hsome' ftn), fun ftn T => ?_⟩
    refine (hobs ftn T).trans ?_
    rw [hsome']
    by_cases hfilter : (relay.topNFilter ftn).isSome = true
    · by_cases hftn : ftn = t.ftn
      · subst hftn
        rw [show (relay.modifyFilter t.ftn (·.registerObserver propertyType ref)).observerFor t.ftn T = _ from
          observerFor_insert relay t.ftn ⟨none, ref⟩ propertyType T hfilter]
        by_cases hT : T = propertyType
        · simp [hT, hfilter]
        · simp [hT]
      · have hother : (relay.modifyFilter t.ftn (·.registerObserver propertyType ref)).observerFor ftn T =
            relay.observerFor ftn T := by
          rw [observerFor, modifyFilter_ne relay hftn]
          rfl
        rw [hother]
        have hiff : (∃ t' ∈ t :: l, t'.ftn = ftn) ↔ ∃ t' ∈ l, t'.ftn = ftn := by
          simp [Ne.symm hftn]
        simp only [hiff]
    · have hother : (relay.modifyFilter t.ftn (·.registerObserver propertyType ref)).observerFor ftn T =
          relay.observerFor ftn T := by
        rw [observerFor, observerFor]
        have hnone : relay.topNFilter ftn = none := by
          rw [Bool.not_eq_true, isSome_eq_false_iff, isNone_iff_eq_none] at hfilter
          exact hfilter
        have hnone' : (relay.modifyFilter t.ftn (·.registerObserver propertyType ref)).topNFilter ftn = none := by
          have := hsome' ftn
          rw [hnone] at this
          exact isNone_iff_eq_none.1 (isSome_eq_false_iff.1 this)
        rw [hnone, hnone']
      rw [hother]
      simp [hfilter]

theorem retro_values (ref : RankingRef) (l : List RetroTrack) (relay : RankingRelay)
    (hr : RankInv (relay.ranking ref)) :
    let relay' := l.foldl
      (fun relay t => relay.modifyRanking ref fun r =>
        (r.registerTrack t.ftn t.initialPropertyValue t.publishSession).1) relay
    relay'.tree = relay.tree ∧ relay'.propertyType = relay.propertyType ∧
    relay'.nextRanking = relay.nextRanking ∧ relay'.topNFilter = relay.topNFilter ∧
    (∀ ref', ref' ≠ ref → relay'.ranking ref' = relay.ranking ref') ∧
    Ranked (relay'.ranking ref) fun ftn =>
      match l.find? fun t => t.ftn = ftn with
      | some t => some (((relay.ranking ref).sortValue ftn).getD (t.initialPropertyValue.getD 0))
      | none => (relay.ranking ref).sortValue ftn := by
  induction l generalizing relay with
  | nil => exact ⟨rfl, rfl, rfl, rfl, fun _ _ => rfl, .of_rank hr⟩
  | cons t l ih =>
    have hregister := registerTrack_ranked hr t.ftn t.initialPropertyValue t.publishSession
    have hself := modifyRanking_self relay ref fun r =>
      (r.registerTrack t.ftn t.initialPropertyValue t.publishSession).1
    obtain ⟨htree, htypes, hnext, hfilters, hother, hranked⟩ := ih (relay.modifyRanking ref fun r =>
      (r.registerTrack t.ftn t.initialPropertyValue t.publishSession).1) (by
        rw [hself]
        exact hregister.rank)
    refine ⟨htree, htypes, hnext, hfilters, fun ref' hne => (hother ref' hne).trans (modifyRanking_ne relay hne _),
      hranked.rank, fun ftn => ?_⟩
    refine (hranked.values ftn).trans ?_
    rw [hself, hregister.values, find?_cons]
    by_cases hftn : ftn = t.ftn
    · subst hftn
      simp only [if_true, decide_true]
      split <;> rfl
    · have hne : decide (t.ftn = ftn) = false := decide_eq_false (Ne.symm hftn)
      rw [if_neg hftn, hne]

end RankingRelay

end Moqx

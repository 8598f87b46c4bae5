/-
  Subject: Every ranking on the path of a track is fed by its filter, and cleaned at its end.

  * `Inv`, one lemma per event -- the filter has an observer for every ranking on the path;
  * `rankings_fed_and_cleaned` -- the result, and `shared_property_starves`, what happens without
    the condition.
-/
import Moqx.TopN.Attached
import Moqx.TopN.Calls

namespace Moqx

open PropertyRanking NamespaceTree List Function AList Option

variable {w : Watched} {cfg : RankingConfig}

/-! ## 1. What a ranking should hold -/

/-- What was seen of a track since a ranking has learned of it: the value it came with, and the properties
    of its objects, the last one first. -/
structure Journal where
  initial : Nat := 0
  objects : List Extensions := []

def Journal.seen (j : Journal) (propertyType : Nat) : Option Nat :=
  j.objects.findSome? (·.getIntExtension propertyType)

/-- The last value of a property, or the initial one. -/
def Journal.current (j : Journal) (propertyType : Nat) : Nat := (j.seen propertyType).getD j.initial

namespace RankingRelay

variable {ftn : FullTrackName} {ref : RankingRef} {T : Nat}

/-- The value that an event gives a ranking that learns of the track in it. -/
def Event.initial (propertyType : Nat) (ftn : FullTrackName) : Event → Nat
  | .publish _ _ extensions _ => (extensions.getIntExtension propertyType).getD 0
  | .subscribeNamespace _ _ _ retroTracks =>
    ((retroTracks.find? fun t => t.ftn = ftn).bind (·.initialPropertyValue)).getD 0
  | _ => 0

/-- The object that an event brings through the filter of a track. -/
def Event.objects (ftn : FullTrackName) : Event → List Extensions
  | .object ftn' extensions _ => if ftn = ftn' then [extensions] else []
  | _ => []

/-- The relay, and a journal for every ranking and track. -/
structure Watched where
  relay : RankingRelay := {}
  journal : RankingRef → FullTrackName → Journal := fun _ _ => {}

/-- As long as a ranking does not hold a track its journal starts anew with every event. -/
def Watched.step (cfg : RankingConfig) (w : Watched) (e : Event) : Watched where
  relay := w.relay.step cfg e
  journal ref ftn :=
    if (w.relay.ranking ref).sortValue ftn = none then
      { initial := e.initial ((w.relay.step cfg e).propertyType ref) ftn }
    else { w.journal ref ftn with objects := e.objects ftn ++ (w.journal ref ftn).objects }

/-! ## 2. Runs -/

/-- One publisher at a time, walks that come to every track, and calls on the tree that are about routes. -/
def Admissible (relay : RankingRelay) : Event → Prop
  | .publish ftn _ _ _ => relay.tree.publishedBy ftn = none
  | .subscribeNamespace ns _ _ retroTracks =>
    (retroTracks.map (·.ftn)).Nodup ∧ ∀ ftn session,
      (∃ t ∈ retroTracks, t.ftn = ftn ∧ t.publishSession = session) ↔
        ns <+: ftn.trackNamespace ∧ relay.tree.publishedBy ftn = some session
  | .tree op => match op with
    | .setPublisher .. | .updateRoute .. | .unpublishNamespace .. => True
    | _ => False
  | _ => True

/-- No two rankings of one property on the path of a track: on the path of a track that is published, and
    where a ranking is made, on the path of every track below. -/
def Separate (relay : RankingRelay) : Event → Prop
  | .publish ftn _ _ _ => ∀ k k' propertyType,
    k <:+ ftn.trackNamespace.reverse → k' <:+ ftn.trackNamespace.reverse →
    (relay.tree.rankingAt k propertyType).isSome = true →
    (relay.tree.rankingAt k' propertyType).isSome = true → k = k'
  | .subscribeNamespace ns _ info _ => ∀ f, info.trackFilter = some f →
    relay.tree.rankingAt ns.reverse f.propertyType = none →
    ∀ ftn, (relay.tree.publishedBy ftn).isSome = true → ns <+: ftn.trackNamespace →
      ∀ k, k <:+ ftn.trackNamespace.reverse → relay.tree.rankingAt k f.propertyType = none
  | _ => True

inductive Reachable (cfg : RankingConfig) (condition : RankingRelay → Event → Prop) : Watched → Prop
  | start : Reachable cfg condition {}
  | event {w : Watched} {e : Event} (h : Reachable cfg condition w) (ha : w.relay.Admissible e)
    (hc : condition w.relay e) : Reachable cfg condition (w.step cfg e)

/-! ## 3. The invariant -/

/-- The observer of a ranking, and what the ranking holds, are up to date for a track. -/
def Fed (w : Watched) (ftn : FullTrackName) (T : Nat) (ref : RankingRef) : Prop :=
  ∃ e, w.relay.observerFor ftn T = some e ∧ e.observer = ref ∧
    e.lastSeenValue = (w.journal ref ftn).seen T ∧
    (w.relay.ranking ref).sortValue ftn = some ((w.journal ref ftn).current T)

/-- Every ranking hangs on one node, under its own property. -/
structure Hung (relay : RankingRelay) : Prop where
  balanced : Balanced (· ≤ ·) relay.tree
  typed : ∀ k T ref, relay.tree.rankingAt k T = some ref → ref < relay.nextRanking ∧ relay.propertyType ref = T
  apart : ∀ k k' T T' ref, relay.tree.rankingAt k T = some ref → relay.tree.rankingAt k' T' = some ref → k = k'

/-- What holds of each track: the rankings on its path are fed while it is published, and no other ranking holds
    it. -/
structure Tracked (w : Watched) (ftn : FullTrackName) : Prop where
  unused : ∀ ref, w.relay.nextRanking ≤ ref → (w.relay.ranking ref).sortValue ftn = none
  observers : ∀ T e, w.relay.observerFor ftn T = some e →
    e.observer < w.relay.nextRanking ∧ w.relay.propertyType e.observer = T
  held : ∀ k T ref, w.relay.tree.rankingAt k T = some ref → (w.relay.ranking ref).sortValue ftn ≠ none →
    (w.relay.tree.publishedBy ftn).isSome = true ∧ k <:+ ftn.trackNamespace.reverse
  filter : (w.relay.tree.publishedBy ftn).isSome = true → (w.relay.topNFilter ftn).isSome = true
  fed : (w.relay.tree.publishedBy ftn).isSome = true → ∀ k T ref, k <:+ ftn.trackNamespace.reverse →
    w.relay.tree.rankingAt k T = some ref → Fed w ftn T ref

structure Inv (w : Watched) : Prop where
  hung : Hung w.relay
  rank : ∀ ref, RankInv (w.relay.ranking ref)
  track : ∀ ftn, Tracked w ftn

theorem rankInv_new (cfg : RankingConfig) : RankInv (newRanking cfg) where
  sorted := List.Pairwise.nil
  names_nodup := nodup_nil
  seq_distinct := nodup_nil
  seq_lt _ h := absurd h not_mem_nil
  index_mem _ h := absurd h not_mem_nil
  mem_index _ _ h := by cases h
  counts _ := rfl
  ranks h := by cases h

theorem rankingAt_empty (k : NodeKey) (T : Nat) : ({} : NamespaceTree).rankingAt k T = none := by
  rw [rankingAt]
  split <;> rfl

theorem publishedBy_empty (ftn : FullTrackName) : ({} : NamespaceTree).publishedBy ftn = none := by
  rw [publishedBy, contentAt]
  split <;> rfl

theorem inv_start : Inv {} where
  hung :=
    { balanced := empty_balanced countRel_le
      typed := fun k T ref h => by
        rw [rankingAt_empty] at h
        cases h
      apart := fun k k' T T' ref h => by
        rw [rankingAt_empty] at h
        cases h }
  rank _ := rankInv_new ⟨0, 0, 0⟩
  track ftn := by
    refine ⟨fun _ _ => rfl, (fun _ _ h => nomatch h), fun _ _ _ _ h => absurd rfl h, fun h => ?_, fun h => ?_⟩
    · rw [publishedBy_empty] at h
      cases h
    · rw [publishedBy_empty] at h
      cases h

theorem Fed.frame {w' : Watched} (h : Fed w ftn T ref)
    (hobs : w'.relay.observerFor ftn T = w.relay.observerFor ftn T)
    (hval : (w'.relay.ranking ref).sortValue ftn = (w.relay.ranking ref).sortValue ftn)
    (hj : w'.journal ref ftn = w.journal ref ftn) : Fed w' ftn T ref := by
  obtain ⟨e, he, href, hseen, hcur⟩ := h
  exact ⟨e, hobs.trans he, href, by rw [hj]; exact hseen, by rw [hval, hj]; exact hcur⟩

theorem Fed.holds (h : Fed w ftn T ref) :
    (w.relay.ranking ref).sortValue ftn ≠ none := by
  obtain ⟨e, -, -, -, hcur⟩ := h
  rw [hcur]
  exact some_ne_none _

theorem journal_held (cfg : RankingConfig) (e : Event) (h : (w.relay.ranking ref).sortValue ftn ≠ none) :
    (w.step cfg e).journal ref ftn =
      { w.journal ref ftn with objects := e.objects ftn ++ (w.journal ref ftn).objects } := if_neg h

theorem journal_fresh (cfg : RankingConfig) (e : Event) (h : (w.relay.ranking ref).sortValue ftn = none) :
    (w.step cfg e).journal ref ftn =
      { initial := e.initial ((w.relay.step cfg e).propertyType ref) ftn } := if_pos h

theorem Hung.step {relay : RankingRelay} (h : Hung relay) (relay' : RankingRelay) (op : NamespaceTree.Op)
    (htree : relay'.tree = relay.tree.step op) (htypes : relay'.propertyType = relay.propertyType)
    (hnext : relay'.nextRanking = relay.nextRanking) : Hung relay' ∧
      ∀ k T ref, relay'.tree.rankingAt k T = some ref → relay.tree.rankingAt k T = some ref := by
  have hsame : ∀ k T ref, relay'.tree.rankingAt k T = some ref → relay.tree.rankingAt k T = some ref := by
    intro k T ref hk
    rw [htree] at hk
    rw [← step_rankingAt h.balanced op (attached_of_rankingAt hk)]
    exact hk
  refine ⟨⟨?_, fun k T ref hk => ?_, fun k k' T T' ref hk hk' => ?_⟩, hsame⟩
  · rw [htree]
    exact ((step_edited relay.tree op).counts h.balanced).1
  · rw [htypes, hnext]
    exact h.typed k T ref (hsame k T ref hk)
  · exact h.apart k k' T T' ref (hsame k T ref hk) (hsame k' T' ref hk')

theorem Hung.same {relay relay' : RankingRelay} (h : Hung relay) (htree : relay'.tree = relay.tree)
    (htypes : relay'.propertyType = relay.propertyType) (hnext : relay'.nextRanking = relay.nextRanking) :
    Hung relay' := by
  refine ⟨?_, ?_, ?_⟩
  · rw [htree]
    exact h.balanced
  · rw [htree, htypes, hnext]
    exact h.typed
  · rw [htree]
    exact h.apart

theorem tells_current {j : Journal} {entry : ObserverEntry} (h : entry.lastSeenValue = j.seen T)
    (value : Option Nat) :
    ObserverEntry.tells entry value (some (j.current T)) = some ((value.or (j.seen T)).getD j.initial) := by
  rw [ObserverEntry.tells, h]
  cases value with
  | none => rfl
  | some v =>
    by_cases hv : j.seen T = some v
    · simp [Journal.current, hv]
    · simp [hv]

theorem Tracked.frame {cfg : RankingConfig} {e : Event} (h : Tracked w ftn)
    (hnext : (w.relay.step cfg e).nextRanking = w.relay.nextRanking)
    (htypes : (w.relay.step cfg e).propertyType = w.relay.propertyType)
    (hfilter : (w.relay.step cfg e).topNFilter ftn = w.relay.topNFilter ftn)
    (hvalues : ∀ ref, ((w.relay.step cfg e).ranking ref).sortValue ftn = (w.relay.ranking ref).sortValue ftn)
    (hat : ∀ k T ref, (w.relay.step cfg e).tree.rankingAt k T = some ref → w.relay.tree.rankingAt k T = some ref)
    (hpub : (w.relay.step cfg e).tree.publishedBy ftn = w.relay.tree.publishedBy ftn)
    (hobjects : e.objects ftn = []) : Tracked (w.step cfg e) ftn := by
  have hobs : ∀ T, (w.relay.step cfg e).observerFor ftn T = w.relay.observerFor ftn T := fun T => by
    rw [observerFor, hfilter]
    rfl
  have hsome := congrArg isSome hpub
  refine ⟨fun ref hle => (hvalues ref).trans (h.unused ref (hnext ▸ hle)), fun T entry he => ?_,
    fun k T ref hk hval => ?_, fun hp => ?_, fun hp k T ref hs hk => ?_⟩
  · have hold := h.observers T entry ((hobs T).symm.trans he)
    exact ⟨hnext.symm ▸ hold.1, (congrFun htypes _).trans hold.2⟩
  · have hold := h.held k T ref (hat k T ref hk) fun hn => hval ((hvalues ref).trans hn)
    exact ⟨hsome.trans hold.1, hold.2⟩
  · exact (congrArg isSome hfilter).trans (h.filter (hsome.symm.trans hp))
  · have hold := h.fed (hsome.symm.trans hp) k T ref hs (hat k T ref hk)
    refine hold.frame (hobs T) (hvalues ref) ?_
    rw [journal_held cfg e hold.holds, hobjects]
    rfl

theorem Inv.event {cfg : RankingConfig} (h : Inv w) {e : Event} (ftn : FullTrackName)
    (hother : OtherTracks w.relay (w.relay.step cfg e) ftn) (hhung : Hung (w.relay.step cfg e))
    (hat : ∀ k T ref, (w.relay.step cfg e).tree.rankingAt k T = some ref → w.relay.tree.rankingAt k T = some ref)
    (hpub : ∀ ftn', ftn' ≠ ftn → (w.relay.step cfg e).tree.publishedBy ftn' = w.relay.tree.publishedBy ftn')
    (hobjects : ∀ ftn', ftn' ≠ ftn → e.objects ftn' = []) (hown : Tracked (w.step cfg e) ftn) :
    Inv (w.step cfg e) := by
  refine ⟨hhung, hother.rank h.rank, fun ftn' => ?_⟩
  by_cases hne : ftn' = ftn
  · rw [hne]
    exact hown
  · exact (h.track ftn').frame hother.next hother.types (hother.filters ftn' hne)
      (fun ref => hother.values h.rank ref ftn' hne) hat (hpub ftn' hne) (hobjects ftn' hne)

/-! ## 4. Objects and the end of a track -/

section events

variable (h : Inv w)

include h

theorem Inv.object (ftn : FullTrackName) (extensions : Extensions) (now : TimePoint) :
    Inv (w.step cfg (.object ftn extensions now)) := by
  obtain ⟨done, hdone, hc⟩ := checkProperties_checked extensions now h.rank
    (fun T e he => ((h.track ftn).observers T e he).2)
  have helse := hc.elsewhere
  refine h.event ftn helse.toOtherTracks (h.hung.same helse.tree helse.types helse.next)
    (fun k T ref hk => helse.tree ▸ hk) (fun ftn' _ => congrArg (publishedBy · ftn') helse.tree)
    (fun ftn' hne => if_neg hne)
    ⟨fun ref hle => (hc.held ref).2 ((h.track ftn).unused ref (helse.next ▸ hle)), fun T e he => ?_,
      fun k T ref hk hval => ?_, fun hp => helse.filter.trans ((h.track ftn).filter (helse.tree ▸ hp)),
      fun hp k T ref hs hk => ?_⟩
  · obtain ⟨e₀, he₀, rfl⟩ := map_eq_some_iff.1 ((hc.observers T).symm.trans he)
    have hold := (h.track ftn).observers T e₀ he₀
    refine ⟨helse.next.symm ▸ ?_, (congrFun helse.types _).trans ?_⟩
    · split <;> exact hold.1
    · split <;> exact hold.2
  · have hold := (h.track ftn).held k T ref (helse.tree ▸ hk) fun hn => hval ((hc.held ref).2 hn)
    exact ⟨(congrArg (fun t => (publishedBy t ftn).isSome) helse.tree).trans hold.1, hold.2⟩
  · have hold : Fed w ftn T ref := (h.track ftn).fed (helse.tree ▸ hp) k T ref hs (helse.tree ▸ hk)
    have hj := journal_held cfg (.object ftn extensions now) hold.holds
    obtain ⟨e, he, href, hseen, hcur⟩ := hold
    have hin := hdone T e he
    have hseen' : ((w.step cfg (.object ftn extensions now)).journal ref ftn).seen T =
        (extensions.getIntExtension T).or ((w.journal ref ftn).seen T) := by
      rw [hj, Journal.seen, Event.objects, if_pos rfl, singleton_append, findSome?_cons]
      cases extensions.getIntExtension T <;> rfl
    refine ⟨ObserverEntry.sees e (extensions.getIntExtension T), ?_, href, ?_, ?_⟩
    · refine (hc.observers T).trans ?_
      rw [he, map_some, if_pos hin]
    · rw [hseen', ← hseen]
      rfl
    · have htold := hc.told T e he
      rw [if_pos hin, href, hcur, tells_current hseen] at htold
      refine htold.trans ?_
      rw [Journal.current, hseen', hj]

theorem publishDone_spec (ftn : FullTrackName) (kept : Bool) :
    OtherTracks w.relay (w.relay.publishDone ftn kept) ftn ∧
    (w.relay.publishDone ftn kept).tree =
      w.relay.tree.step (.unpublishTrack ftn.trackNamespace ftn.trackName) ∧
    (∀ T, (w.relay.publishDone ftn kept).observerFor ftn T = w.relay.observerFor ftn T) ∧
    ∀ ref, ((∃ T e, w.relay.observerFor ftn T = some e ∧ e.observer = ref) ∨
        (w.relay.ranking ref).sortValue ftn = none) →
      ((w.relay.publishDone ftn kept).ranking ref).sortValue ftn = none := by
  have hended := elsewhere_modifyFilter w.relay ftn fun f => { f with ended := true }
  have hobs : ∀ T, (w.relay.modifyFilter ftn fun f => { f with ended := true }).observerFor ftn T =
      w.relay.observerFor ftn T := fun T => observerFor_modifyFilter w.relay ftn ftn (by intro _; rfl) T
  obtain ⟨helse, hfilters, hgone⟩ := notifyTrackEnded_ended
    (w.relay.modifyFilter ftn fun f => { f with ended := true }) ftn h.rank
  have hall := (hended.trans helse).toOtherTracks
  have htree := (hended.trans helse).tree
  have hobs' : ∀ T, ((w.relay.modifyFilter ftn fun f => { f with ended := true }).notifyTrackEnded ftn).observerFor
      ftn T = w.relay.observerFor ftn T := fun T => by
    rw [observerFor, hfilters]
    exact hobs T
  have hgone' : ∀ ref, ((∃ T e, w.relay.observerFor ftn T = some e ∧ e.observer = ref) ∨
      (w.relay.ranking ref).sortValue ftn = none) → (((w.relay.modifyFilter ftn fun f =>
        { f with ended := true }).notifyTrackEnded ftn).ranking ref).sortValue ftn = none := by
    intro ref href
    refine hgone ref (href.imp (fun hin => ?_) id)
    obtain ⟨T, e, he, href⟩ := hin
    exact ⟨T, e, (hobs T).trans he, href⟩
  rw [publishDone]
  split
  · exact ⟨⟨hall.types, hall.next, hall.filters, hall.rank, hall.values⟩, by rw [htree]; rfl, hobs', hgone'⟩
  · refine ⟨⟨hall.types, hall.next, fun ftn' hne => ?_, hall.rank, hall.values⟩, by rw [← htree]; rfl, fun T => ?_,
      hgone'⟩
    · exact (modifyFilter_ne _ hne _).trans (hall.filters ftn' hne)
    · exact (observerFor_modifyFilter _ ftn ftn (by intro _; rfl) T).trans (hobs' T)

theorem publishDone_dropped (ftn : FullTrackName) (kept : Bool) {k : NodeKey} {T : Nat} {ref : RankingRef}
    (hk : w.relay.tree.rankingAt k T = some ref) :
    ((w.relay.publishDone ftn kept).ranking ref).sortValue ftn = none := by
  obtain ⟨-, -, -, hgone⟩ := publishDone_spec h ftn kept
  by_cases hval : (w.relay.ranking ref).sortValue ftn = none
  · exact hgone ref (.inr hval)
  · obtain ⟨hp, hs⟩ := (h.track ftn).held k T ref hk hval
    obtain ⟨e, he, href, -⟩ := (h.track ftn).fed hp k T ref hs hk
    exact hgone ref (.inl ⟨T, e, he, href⟩)

theorem Inv.publishDone (ftn : FullTrackName) (kept : Bool) : Inv (w.step cfg (.publishDone ftn kept)) := by
  obtain ⟨hother, htree, hobs, hgone⟩ := publishDone_spec h ftn kept
  obtain ⟨hhung, hat⟩ := h.hung.step _ _ htree hother.types hother.next
  have hpub : ∀ ftn', (w.relay.publishDone ftn kept).tree.publishedBy ftn' =
      if ftn' = ftn then none else w.relay.tree.publishedBy ftn' := fun ftn' => by
    rw [htree]
    exact unpublishTrack_publishedBy h.hung.balanced ftn ftn'
  have hnot : ((w.relay.publishDone ftn kept).tree.publishedBy ftn).isSome ≠ true := by
    rw [hpub, if_pos rfl]
    exact Bool.false_ne_true
  refine h.event ftn hother hhung hat (fun ftn' hne => (hpub ftn').trans (if_neg hne)) (fun _ _ => rfl)
    ⟨fun ref hle => hgone ref (.inr ((h.track ftn).unused ref (hother.next ▸ hle))), fun T e he => ?_,
      fun k T ref hk hval => absurd (publishDone_dropped h ftn kept (hat k T ref hk)) hval,
      fun hp => absurd hp hnot, fun hp => absurd hp hnot⟩
  have hold := (h.track ftn).observers T e ((hobs T).symm.trans he)
  exact ⟨hother.next.symm ▸ hold.1, (congrFun hother.types _).trans hold.2⟩

/-! ## 5. A track is published -/

theorem Inv.publish {ftn : FullTrackName} (session : SessionRef) (extensions : Extensions) (now : TimePoint)
    (hnew : w.relay.tree.publishedBy ftn = none)
    (hsep : w.relay.Separate (.publish ftn session extensions now)) :
    Inv (w.step cfg (.publish ftn session extensions now)) := by
  obtain ⟨result, hadd, hresult⟩ := w.relay.tree.addPublish_rankings ftn session
  have hpub := addPublish_publishedBy h.hung.balanced ftn session
  have hattached : (w.relay.tree.step (.addPublish ftn session)).attached ftn.trackNamespace.reverse = true := by
    refine attached_of_published ?_
    rw [hpub, if_pos rfl]
    rfl
  -- the relay before the rankings are told
  let filter : TopNFilter := { activityTarget := some now, activityThreshold := cfg.activityThreshold }
  let relay₁ : RankingRelay := { w.relay with
    tree := w.relay.tree.step (.addPublish ftn session)
    topNFilter := update w.relay.topNFilter ftn (some filter) }
  have hstep : w.relay.step cfg (.publish ftn session extensions now) =
      result.rankings.foldl (onRanking ftn session extensions) relay₁ := by
    rw [RankingRelay.step, RankingRelay.publish, hadd]
  obtain ⟨hhung₁, hat⟩ := h.hung.step relay₁ (.addPublish ftn session) rfl rfl rfl
  have hmem : ∀ T ref, (T, ref) ∈ result.rankings ↔
      ∃ k, k <:+ ftn.trackNamespace.reverse ∧ relay₁.tree.rankingAt k T = some ref := fun T ref => by
    rw [hresult]
    exact mem_rankingsUp hattached
  have hfilter₁ : relay₁.topNFilter ftn = some filter := update_self ..
  obtain ⟨helse, hfree, hbound, hvalues⟩ := onRanking_wired ftn session extensions result.rankings relay₁
    (by rw [hfilter₁]; rfl) h.rank fun e he => by
      obtain ⟨k, -, hk⟩ := (hmem e.1 e.2).1 he
      exact (h.hung.typed k e.1 e.2 (hat k e.1 e.2 hk)).2
  rw [← hstep] at helse hfree hbound hvalues
  have hother : OtherTracks w.relay (w.relay.step cfg (.publish ftn session extensions now)) ftn :=
    ⟨helse.types, helse.next, fun ftn' hne => (helse.filters ftn' hne).trans (update_of_ne hne ..),
      helse.rank, helse.values⟩
  have hat' : ∀ k T ref, (w.relay.step cfg (.publish ftn session extensions now)).tree.rankingAt k T = some ref →
      relay₁.tree.rankingAt k T = some ref := fun k T ref hk => helse.tree ▸ hk
  have hpub' : ∀ ftn', (w.relay.step cfg (.publish ftn session extensions now)).tree.publishedBy ftn' =
      if ftn' = ftn then some session else w.relay.tree.publishedBy ftn' := fun ftn' =>
    (congrArg (publishedBy · ftn') helse.tree).trans (hpub ftn')
  -- no ranking on the path holds a track that is not published
  have hunheld : ∀ k T ref, relay₁.tree.rankingAt k T = some ref → (w.relay.ranking ref).sortValue ftn = none := by
    intro k T ref hk
    by_contra hval
    have := ((h.track ftn).held k T ref (hat k T ref hk) hval).1
    rw [hnew] at this
    cases this
  have htypes : ∀ k T ref, relay₁.tree.rankingAt k T = some ref → w.relay.propertyType ref = T :=
    fun k T ref hk => (h.hung.typed k T ref (hat k T ref hk)).2
  have hin : ∀ ref, (w.relay.propertyType ref, ref) ∈ result.rankings → ref < w.relay.nextRanking := by
    intro ref hr
    obtain ⟨k, -, hk⟩ := (hmem _ _).1 hr
    exact (h.hung.typed k _ ref (hat k _ ref hk)).1
  refine h.event ftn hother (hhung₁.same helse.tree helse.types helse.next)
    (fun k T ref hk => hat k T ref (hat' k T ref hk)) (fun ftn' hne => (hpub' ftn').trans (if_neg hne))
    (fun _ _ => rfl) ⟨fun ref hle => ?_, fun T e he => ?_, fun k T ref hk hval => ?_, fun _ => ?_,
      fun _ k T ref hs hk => ?_⟩
  · have hle' : w.relay.nextRanking ≤ ref := helse.next ▸ hle
    refine (hvalues ref).trans ?_
    rw [if_neg fun hr => absurd (hin ref hr) (Nat.not_lt.2 hle')]
    exact (h.track ftn).unused ref hle'
  · by_cases hT : ∃ ref, (T, ref) ∈ result.rankings
    · obtain ⟨ref, href⟩ := hT
      obtain ⟨ref', href', hobs⟩ := hbound T ref href
      have heq : e = ⟨none, ref'⟩ := some.inj (he.symm.trans hobs)
      obtain ⟨k, -, hk⟩ := (hmem T ref').1 href'
      have := h.hung.typed k T ref' (hat k T ref' hk)
      rw [heq]
      exact ⟨helse.next.symm ▸ this.1, (congrFun helse.types _).trans this.2⟩
    · have hnone := hfree T fun ref href => hT ⟨ref, href⟩
      have hempty : relay₁.observerFor ftn T = none := by
        rw [observerFor, hfilter₁]
        rfl
      exact absurd (he.symm.trans (hnone.trans hempty)) (some_ne_none e)
  · refine ⟨by rw [show (w.step cfg _).relay.tree.publishedBy ftn = _ from hpub' ftn, if_pos rfl]; rfl, ?_⟩
    by_contra hs
    refine hval ((hvalues ref).trans ?_)
    rw [if_neg]
    · exact hunheld k T ref (hat' k T ref hk)
    · intro hr
      obtain ⟨k', hs', hk'⟩ := (hmem _ _).1 hr
      exact hs (hhung₁.apart k k' _ _ ref (hat' k T ref hk) hk' ▸ hs')
  · exact helse.filter.trans (by rw [hfilter₁]; rfl)
  · have hk₁ := hat' k T ref hk
    have href : (T, ref) ∈ result.rankings := (hmem T ref).2 ⟨k, hs, hk₁⟩
    obtain ⟨ref', href', hobs⟩ := hbound T ref href
    -- the path has one ranking of this property
    have heq : ref' = ref := by
      obtain ⟨k', hs', hk'⟩ := (hmem T ref').1 href'
      have hsame := hsep k k' T hs hs' (by rw [hat k T ref hk₁]; rfl) (by rw [hat k' T ref' hk']; rfl)
      rw [← hsame, hk₁] at hk'
      exact (some.inj hk').symm
    rw [heq] at hobs
    have hj := journal_fresh cfg (.publish ftn session extensions now) (hunheld k T ref hk₁)
    refine ⟨_, hobs, rfl, ?_, ?_⟩
    · rw [hj]
      rfl
    · refine (hvalues ref).trans ?_
      have htype : relay₁.propertyType ref = T := htypes k T ref hk₁
      rw [htype, if_pos href, show (relay₁.ranking ref).sortValue ftn = none from hunheld k T ref hk₁,
        getD_none, hj, show (w.relay.step cfg _).propertyType ref = T from
          (congrFun helse.types ref).trans htype]
      rfl

/-! ## 6. Subscriptions, and calls about routes -/

/-- A call on the tree that leaves the tracks alone, and a change of rankings that leaves their values
    alone. -/
theorem Inv.quiet {e : Event} (op : NamespaceTree.Op)
    (hop : ∀ c next, (Content.apply c next op).1.publishes = c.publishes)
    (htree : (w.relay.step cfg e).tree = w.relay.tree.step op)
    (htypes : (w.relay.step cfg e).propertyType = w.relay.propertyType)
    (hnext : (w.relay.step cfg e).nextRanking = w.relay.nextRanking)
    (hfilters : (w.relay.step cfg e).topNFilter = w.relay.topNFilter)
    (hranked : ∀ ref, Ranked ((w.relay.step cfg e).ranking ref) (w.relay.ranking ref).sortValue)
    (hobjects : ∀ ftn, e.objects ftn = []) : Inv (w.step cfg e) := by
  obtain ⟨hhung, hat⟩ := h.hung.step _ op htree htypes hnext
  have hpub : ∀ ftn, (w.relay.step cfg e).tree.publishedBy ftn = w.relay.tree.publishedBy ftn := fun ftn => by
    rw [htree]
    exact step_publishedBy h.hung.balanced hop ftn
  exact ⟨hhung, fun ref => (hranked ref).rank, fun ftn => (h.track ftn).frame hnext htypes (congrFun hfilters ftn)
    (fun ref => (hranked ref).values ftn) hat (hpub ftn) (hobjects ftn)⟩

theorem Inv.ranked_modify {relay : RankingRelay} (hranking : relay.ranking = w.relay.ranking) (ref₀ : RankingRef)
    {f : PropertyRanking → PropertyRanking} (hf : ∀ r, SameOrder r (f r)) (ref : RankingRef) :
    Ranked ((relay.modifyRanking ref₀ f).ranking ref) (w.relay.ranking ref).sortValue := by
  by_cases href : ref = ref₀
  · rw [href, modifyRanking_self, hranking]
    exact (Ranked.of_rank (h.rank ref₀)).same (hf _)
  · rw [modifyRanking_ne _ href, hranking]
    exact .of_rank (h.rank ref)

theorem Inv.unsubscribe (ns : TrackNamespace) (session : SessionRef) :
    Inv (w.step cfg (.unsubscribeNamespace ns session)) := by
  have htree : (w.relay.unsubscribeNamespace ns session).tree =
      w.relay.tree.step (.removeNamespaceSubscriber ns session) := by
    rw [NamespaceTree.step, unsubscribeNamespace]
    split
    · rename_i hres
      rw [hres]
      rfl
    · rename_i hres
      rw [hres]
      rfl
    · rename_i hres
      rw [hres]
      rfl
  have hrest : (w.relay.unsubscribeNamespace ns session).propertyType = w.relay.propertyType ∧
      (w.relay.unsubscribeNamespace ns session).nextRanking = w.relay.nextRanking ∧
      (w.relay.unsubscribeNamespace ns session).topNFilter = w.relay.topNFilter ∧
      ∀ ref, Ranked ((w.relay.unsubscribeNamespace ns session).ranking ref) (w.relay.ranking ref).sortValue := by
    rw [unsubscribeNamespace]
    split
    · exact ⟨rfl, rfl, rfl, fun ref => .of_rank (h.rank ref)⟩
    · exact ⟨rfl, rfl, rfl, fun ref => .of_rank (h.rank ref)⟩
    · exact ⟨rfl, rfl, rfl, h.ranked_modify (by rfl) _ fun r => removeSession_sameOrder r _ _⟩
  obtain ⟨htypes, hnext, hfilters, hranked⟩ := hrest
  exact h.quiet (.removeNamespaceSubscriber ns session) (fun _ _ => rfl) htree htypes hnext hfilters hranked
    fun _ => rfl

theorem Inv.tree {op : NamespaceTree.Op} (ha : w.relay.Admissible (.tree op)) : Inv (w.step cfg (.tree op)) := by
  refine h.quiet op (fun c next => ?_) rfl rfl rfl rfl (fun ref => .of_rank (h.rank ref)) fun _ => rfl
  cases op with
  | setPublisher =>
    rw [Content.apply]
    dsimp only
    split <;> rfl
  | updateRoute => rfl
  | unpublishNamespace => rfl
  | addPublish => exact ha.elim
  | unpublishTrack => exact ha.elim
  | addNamespaceSubscriber => exact ha.elim
  | removeNamespaceSubscriber => exact ha.elim

end events

variable {ns : TrackNamespace} {session : SessionRef} {info : NamespaceSubscriberInfo}
  {retroTracks : List RetroTrack}

structure Created (w : Watched) (relay : RankingRelay) (ns : TrackNamespace) (T : Nat)
    (retroTracks : List RetroTrack) : Prop where
  balanced : Balanced (· ≤ ·) relay.tree
  at_node : ∀ k T' ref, relay.tree.rankingAt k T' = some ref →
    (k = ns.reverse ∧ T' = T ∧ ref = w.relay.nextRanking) ∨ w.relay.tree.rankingAt k T' = some ref
  published : ∀ ftn, relay.tree.publishedBy ftn = w.relay.tree.publishedBy ftn
  types : relay.propertyType = Function.update w.relay.propertyType w.relay.nextRanking T
  next : relay.nextRanking = w.relay.nextRanking + 1
  filters : ∀ ftn, (relay.topNFilter ftn).isSome = (w.relay.topNFilter ftn).isSome
  observers : ∀ ftn T', relay.observerFor ftn T' =
    if T' = T ∧ (∃ t ∈ retroTracks, t.ftn = ftn) ∧ (w.relay.topNFilter ftn).isSome = true then
      some ⟨none, w.relay.nextRanking⟩
    else w.relay.observerFor ftn T'
  others : ∀ ref, ref ≠ w.relay.nextRanking → relay.ranking ref = w.relay.ranking ref
  learned : Ranked (relay.ranking w.relay.nextRanking) fun ftn =>
    (retroTracks.find? fun t => t.ftn = ftn).map fun t => t.initialPropertyValue.getD 0

theorem Inv.created (h : Inv w) {f : TrackFilter}
    (ha : w.relay.Admissible (.subscribeNamespace ns session info retroTracks))
    (hsep : w.relay.Separate (.subscribeNamespace ns session info retroTracks))
    (hf : info.trackFilter = some f) (hnone : w.relay.tree.rankingAt ns.reverse f.propertyType = none)
    (hc : Created w (w.relay.subscribeNamespace cfg ns session info retroTracks) ns f.propertyType retroTracks)
    :
    Inv (w.step cfg (.subscribeNamespace ns session info retroTracks)) := by
  obtain ⟨-, hwalk⟩ := ha
  have hbelow : ∀ ftn, (∃ t ∈ retroTracks, t.ftn = ftn) ↔
      ns <+: ftn.trackNamespace ∧ (w.relay.tree.publishedBy ftn).isSome = true := by
    intro ftn
    constructor
    · intro hin
      obtain ⟨t, hmem, hftn⟩ := hin
      obtain ⟨hp, hby⟩ := (hwalk ftn t.publishSession).1 ⟨t, hmem, hftn, rfl⟩
      exact ⟨hp, by rw [hby]; rfl⟩
    · intro hin
      obtain ⟨hp, hby⟩ := hin
      obtain ⟨s, hs⟩ := isSome_iff_exists.1 hby
      obtain ⟨t, hmem, hftn, -⟩ := (hwalk ftn s).2 ⟨hp, hs⟩
      exact ⟨t, hmem, hftn⟩
  have hold_lt : ∀ k T ref, w.relay.tree.rankingAt k T = some ref → ref ≠ w.relay.nextRanking := fun k T ref hk =>
    Nat.ne_of_lt (h.hung.typed k T ref hk).1
  have hj : ∀ ref ftn, (w.relay.ranking ref).sortValue ftn ≠ none →
      (w.step cfg (.subscribeNamespace ns session info retroTracks)).journal ref ftn = w.journal ref ftn :=
    fun ref ftn hval => (journal_held cfg _ hval).trans rfl
  refine ⟨⟨hc.balanced, fun k T ref hk => ?_, fun k k' T T' ref hk hk' => ?_⟩, fun ref => ?_, fun ftn =>
    ⟨fun ref hle => ?_, fun T e he => ?_, fun k T ref hk hval => ?_, fun hp => ?_, fun hp k T ref hs hk => ?_⟩⟩
  · show ref < (w.relay.subscribeNamespace cfg ns session info retroTracks).nextRanking ∧
      (w.relay.subscribeNamespace cfg ns session info retroTracks).propertyType ref = T
    rw [hc.next, hc.types]
    rcases hc.at_node k T ref hk with ⟨-, rfl, rfl⟩ | hk
    · exact ⟨Nat.lt_succ_self _, update_self ..⟩
    · rw [update_of_ne (hold_lt k T ref hk)]
      have := h.hung.typed k T ref hk
      exact ⟨Nat.lt_succ_of_lt this.1, this.2⟩
  · rcases hc.at_node k T ref hk with ⟨hkey, -, href⟩ | hk
    · rcases hc.at_node k' T' ref hk' with ⟨hkey', -, -⟩ | hk'
      · rw [hkey, hkey']
      · exact absurd href (hold_lt k' T' ref hk')
    · rcases hc.at_node k' T' ref hk' with ⟨-, -, href⟩ | hk'
      · exact absurd href (hold_lt k T ref hk)
      · exact h.hung.apart k k' T T' ref hk hk'
  · by_cases href : ref = w.relay.nextRanking
    · rw [href]
      exact hc.learned.rank
    · show RankInv ((w.relay.subscribeNamespace cfg ns session info retroTracks).ranking ref)
      rw [hc.others ref href]
      exact h.rank ref
  · have hlt : w.relay.nextRanking < ref := Nat.lt_of_succ_le (hc.next.symm.le.trans hle)
    exact (congrArg (fun r => sortValue r ftn) (hc.others ref (Nat.ne_of_gt hlt))).trans
      ((h.track ftn).unused ref (Nat.le_of_lt hlt))
  · show e.observer < (w.relay.subscribeNamespace cfg ns session info retroTracks).nextRanking ∧
      (w.relay.subscribeNamespace cfg ns session info retroTracks).propertyType e.observer = T
    rw [hc.next, hc.types]
    have he' := (hc.observers ftn T).symm.trans he
    split at he'
    · rename_i hin
      rw [← some.inj he']
      exact ⟨Nat.lt_succ_self _, (update_self ..).trans hin.1.symm⟩
    · have hold := (h.track ftn).observers T e he'
      rw [update_of_ne (Nat.ne_of_lt hold.1)]
      exact ⟨Nat.lt_succ_of_lt hold.1, hold.2⟩
  · rcases hc.at_node k T ref hk with ⟨rfl, -, rfl⟩ | hk'
    · obtain ⟨t, ht⟩ := Option.ne_none_iff_exists'.1 fun hn =>
        hval ((hc.learned.values ftn).trans (congrArg (Option.map _) hn))
      have hftn : t.ftn = ftn := by simpa using find?_some ht
      obtain ⟨hp, hby⟩ := (hbelow ftn).1 ⟨t, mem_of_find?_eq_some ht, hftn⟩
      exact ⟨(congrArg isSome (hc.published ftn)).trans hby, reverse_suffix.2 hp⟩
    · have hold := (h.track ftn).held k T ref hk' fun hn => hval
        ((congrArg (fun r => sortValue r ftn) (hc.others ref (hold_lt k T ref hk'))).trans hn)
      exact ⟨(congrArg isSome (hc.published ftn)).trans hold.1, hold.2⟩
  · exact (hc.filters ftn).trans ((h.track ftn).filter ((congrArg isSome (hc.published ftn)).symm.trans hp))
  · have hp' := (congrArg isSome (hc.published ftn)).symm.trans hp
    rcases hc.at_node k T ref hk with ⟨rfl, rfl, rfl⟩ | hk'
    · have hin : ∃ t ∈ retroTracks, t.ftn = ftn := (hbelow ftn).2 ⟨reverse_suffix.1 hs, hp'⟩
      have hfresh := journal_fresh cfg (.subscribeNamespace ns session info retroTracks)
        ((h.track ftn).unused w.relay.nextRanking (Nat.le_refl _))
      obtain ⟨t₀, hmem₀, hftn₀⟩ := hin
      have hsome : (retroTracks.find? fun t => t.ftn = ftn).isSome = true :=
        find?_isSome.2 ⟨t₀, hmem₀, by simpa using hftn₀⟩
      obtain ⟨t, ht⟩ := isSome_iff_exists.1 hsome
      refine ⟨_, (hc.observers ftn f.propertyType).trans (if_pos ⟨rfl, ⟨t₀, hmem₀, hftn₀⟩, (h.track ftn).filter hp'⟩), rfl,
        ?_, ?_⟩
      · rw [hfresh]
        rfl
      · refine (hc.learned.values ftn).trans ?_
        rw [hfresh, ht]
        simp only [map_some, Journal.current, Journal.seen, findSome?_nil, getD_none,
          Event.initial, ht, bind_some]
    · have hold := (h.track ftn).fed hp' k T ref hs hk'
      refine hold.frame ((hc.observers ftn T).trans (if_neg fun hin => ?_))
        (congrArg (fun r => sortValue r ftn) (hc.others ref (hold_lt k T ref hk'))) (hj ref ftn hold.holds)
      obtain ⟨rfl, hin, -⟩ := hin
      have := hsep f hf hnone ftn hp' ((hbelow ftn).1 hin).1 k hs
      rw [this] at hk'
      cases hk'

theorem subscribe_created (h : Inv w) {f : TrackFilter} (hf : info.trackFilter = some f)
    (hlookup : ((w.relay.tree.step (.addNamespaceSubscriber ns session info)).node ns.reverse).rankings.lookup
      f.propertyType = none) :
    Created w (w.relay.subscribeNamespace cfg ns session info retroTracks) ns f.propertyType retroTracks := by
  have hattached := attached_of_subscribed h.hung.balanced ns session info
  let t := w.relay.tree.step (.addNamespaceSubscriber ns session info)
  let relay₁ : RankingRelay := { w.relay with
    tree := t.setNode ns.reverse { t.node ns.reverse with
      rankings := (t.node ns.reverse).rankings.insert f.propertyType w.relay.nextRanking }
    ranking := update w.relay.ranking w.relay.nextRanking (newRanking cfg)
    propertyType := update w.relay.propertyType w.relay.nextRanking f.propertyType
    nextRanking := w.relay.nextRanking + 1 }
  obtain ⟨htree₂, htypes₂, hnext₂, hranking₂, hsome₂, hobs₂⟩ :=
    retro_observers f.propertyType w.relay.nextRanking retroTracks relay₁
  let relay₂ := retroTracks.foldl
    (fun relay t => relay.modifyFilter t.ftn (·.registerObserver f.propertyType w.relay.nextRanking)) relay₁
  have hnew : relay₂.ranking w.relay.nextRanking = newRanking cfg :=
    (congrFun hranking₂ _).trans (update_self ..)
  obtain ⟨htree₃, htypes₃, hnext₃, hfilters₃, hothers₃, hranked₃⟩ := retro_values w.relay.nextRanking retroTracks
    relay₂ (by rw [hnew]; exact rankInv_new cfg)
  let relay₃ := retroTracks.foldl
    (fun relay t => relay.modifyRanking w.relay.nextRanking fun r =>
      (r.registerTrack t.ftn t.initialPropertyValue t.publishSession).1) relay₂
  have hsub : w.relay.subscribeNamespace cfg ns session info retroTracks =
      relay₃.modifyRanking w.relay.nextRanking fun r =>
        (r.addSessionToTopNGroup f.maxSelected session info.forward).1 := by
    rw [subscribeNamespace, addNamespaceSubscriber_step]
    simp only [hf, getOrCreateRanking, hlookup]
    rfl
  have htree : relay₃.tree = relay₁.tree := htree₃.trans htree₂
  have hbalanced : Balanced (· ≤ ·) t := ((step_edited w.relay.tree _).counts h.hung.balanced).1
  rw [hsub]
  refine ⟨?_, fun k T ref hk => ?_, fun ftn => ?_, htypes₃.trans htypes₂, hnext₃.trans hnext₂, fun ftn => ?_,
    fun ftn T => ?_, fun ref hne => ?_, ?_⟩
  · show Balanced (· ≤ ·) relay₃.tree
    rw [htree]
    exact setRankings_balanced hbalanced _ _
  · have hk' : relay₁.tree.rankingAt k T = some ref := htree ▸ hk
    rw [show relay₁.tree.rankingAt k T = _ from rankingAt_insert hattached f.propertyType w.relay.nextRanking k T]
      at hk'
    split at hk'
    · rename_i hhere
      exact .inl ⟨hhere.1, hhere.2, (some.inj hk').symm⟩
    · refine .inr ?_
      rw [← step_rankingAt h.hung.balanced _ (attached_of_rankingAt hk')]
      exact hk'
  · show relay₃.tree.publishedBy ftn = _
    rw [htree]
    refine (congrArg (fun c => lookup ftn.trackName (Content.publishes c)) (contentAt_setRankings _ _)).trans ?_
    refine step_publishedBy h.hung.balanced (fun c next => ?_) ftn
    rw [Content.apply]
    split <;> rfl
  · exact (congrArg isSome (congrFun hfilters₃ ftn)).trans (hsome₂ ftn)
  · have hobs₃ : relay₃.observerFor ftn T = relay₂.observerFor ftn T := by
      rw [observerFor, hfilters₃]
      rfl
    exact hobs₃.trans (hobs₂ ftn T)
  · exact ((modifyRanking_ne _ hne _).trans (hothers₃ ref hne)).trans
      ((congrFun hranking₂ ref).trans (update_of_ne hne ..))
  · rw [modifyRanking_self]
    refine Ranked.same ⟨hranked₃.rank, fun ftn => (hranked₃.values ftn).trans ?_⟩ (addSession_sameOrder _ _ _ _)
    rw [hnew]
    cases retroTracks.find? fun t => t.ftn = ftn <;> rfl

theorem Inv.subscribe (h : Inv w) (ha : w.relay.Admissible (.subscribeNamespace ns session info retroTracks))
    (hsep : w.relay.Separate (.subscribeNamespace ns session info retroTracks)) :
    Inv (w.step cfg (.subscribeNamespace ns session info retroTracks)) := by
  have hop : ∀ c next, (Content.apply c next (.addNamespaceSubscriber ns session info)).1.publishes =
      c.publishes := fun c next => by
    rw [Content.apply]
    split <;> rfl
  have hattached := attached_of_subscribed h.hung.balanced ns session info
  cases hf : info.trackFilter with
  | none =>
    have hsub : w.relay.step cfg (.subscribeNamespace ns session info retroTracks) =
        { w.relay with tree := w.relay.tree.step (.addNamespaceSubscriber ns session info) } := by
      rw [RankingRelay.step, subscribeNamespace, addNamespaceSubscriber_step]
      simp only [hf]
    exact h.quiet (.addNamespaceSubscriber ns session info) hop (by rw [hsub]) (by rw [hsub]) (by rw [hsub])
      (by rw [hsub]) (fun ref => by rw [hsub]; exact .of_rank (h.rank ref)) fun _ => rfl
  | some f =>
    rcases eq_none_or_eq_some (((w.relay.tree.step (.addNamespaceSubscriber ns session info)).node
      ns.reverse).rankings.lookup f.propertyType) with hlookup | ⟨ref, hlookup⟩
    · refine h.created ha hsep hf ?_ (subscribe_created h hf hlookup)
      rw [← step_rankingAt h.hung.balanced _ hattached, rankingAt_of_attached hattached]
      exact hlookup
    · have hsub : w.relay.step cfg (.subscribeNamespace ns session info retroTracks) =
          { w.relay with tree := w.relay.tree.step (.addNamespaceSubscriber ns session info) }.modifyRanking ref
            fun r => (r.addSessionToTopNGroup f.maxSelected session info.forward).1 := by
        rw [RankingRelay.step, subscribeNamespace, addNamespaceSubscriber_step]
        simp only [hf, getOrCreateRanking, hlookup]
      exact h.quiet (.addNamespaceSubscriber ns session info) hop (by rw [hsub]; rfl) (by rw [hsub]; rfl)
        (by rw [hsub]; rfl) (by rw [hsub]; rfl)
        (fun ref' => by
          rw [hsub]
          exact h.ranked_modify (by rfl) ref (fun r => addSession_sameOrder r _ _ _) ref') fun _ => rfl

/-! ## 7. Runs -/

theorem Reachable.inv (h : Reachable cfg Separate w) : Inv w := by
  induction h with
  | start => exact inv_start
  | @event w e _ ha hc ih =>
    cases e with
    | publish ftn session extensions now => exact ih.publish session extensions now ha hc
    | object ftn extensions now => exact ih.object ftn extensions now
    | publishDone ftn kept => exact ih.publishDone ftn kept
    | subscribeNamespace ns session info retroTracks => exact ih.subscribe ha hc
    | unsubscribeNamespace ns session => exact ih.unsubscribe ns session
    | tree op => exact ih.tree ha

/-- **Every ranking on the path of a track is fed and cleaned**, if no two of them rank by one property:
    after every event of a run each ranking from the namespace of a published track up to the root holds
    for the track the last value of its own property since it has learned of the track, and the initial
    value if there was none; and once the track is done none of them holds it. -/
theorem rankings_fed_and_cleaned {cfg : RankingConfig} {w : Watched} (h : Reachable cfg Separate w)
    {ftn : FullTrackName} (hp : (w.relay.tree.publishedBy ftn).isSome = true) :
    ∀ T ref, (T, ref) ∈ w.relay.tree.rankingsUp ftn.trackNamespace.reverse →
      (w.relay.ranking ref).sortValue ftn = some ((w.journal ref ftn).current (w.relay.propertyType ref)) ∧
      ∀ kept, ((w.step cfg (.publishDone ftn kept)).relay.ranking ref).sortValue ftn = none := by
  intro T ref hmem
  have hinv := h.inv
  obtain ⟨k, hs, hk⟩ := (mem_rankingsUp (attached_of_published hp)).1 hmem
  obtain ⟨e, -, -, -, hval⟩ := (hinv.track ftn).fed hp k T ref hs hk
  rw [(hinv.hung.typed k T ref hk).2]
  exact ⟨hval, fun kept => publishDone_dropped hinv ftn kept hk⟩

/-! ## 8. Two rankings on one path -/

def exampleConfig : RankingConfig := ⟨0, 0, 0⟩

def exampleTrack : FullTrackName := ⟨[[97]], [120]⟩

def exampleSubscription (ns : TrackNamespace) (session : SessionRef) (propertyType : Nat) : Event :=
  .subscribeNamespace ns session ⟨true, .both, none, ns, some ⟨propertyType, 1⟩, []⟩ []

/-- Rankings at the root, by property 1, and at the namespace of the track. -/
def exampleRankings (propertyType : Nat) : Watched :=
  (({} : Watched).step exampleConfig (exampleSubscription [] 1 1)).step exampleConfig
    (exampleSubscription [[97]] 2 propertyType)

theorem quiet_subscription (w : Watched) (h : ∀ ftn, w.relay.tree.publishedBy ftn = none) (ns : TrackNamespace)
    (session : SessionRef) (propertyType : Nat) :
    w.relay.Admissible (exampleSubscription ns session propertyType) ∧
      w.relay.Separate (exampleSubscription ns session propertyType) := by
  refine ⟨⟨nodup_nil, fun ftn s => ⟨fun hin => ?_, fun hin => ?_⟩⟩, fun f _ _ ftn hp => ?_⟩
  · obtain ⟨t, hmem, -⟩ := hin
    exact absurd hmem not_mem_nil
  · rw [h ftn] at hin
    cases hin.2
  · rw [h ftn] at hp
    cases hp

theorem exampleSubscription_created (h : Inv w) (ns : TrackNamespace) (session : SessionRef) (T : Nat)
    (hlookup : ((w.relay.tree.step (.addNamespaceSubscriber ns session
      ⟨true, .both, none, ns, some ⟨T, 1⟩, []⟩)).node ns.reverse).rankings.lookup T = none) :
    Created w (w.step exampleConfig (exampleSubscription ns session T)).relay ns T [] :=
  @subscribe_created w exampleConfig ns session ⟨true, .both, none, ns, some ⟨T, 1⟩, []⟩ [] h ⟨T, 1⟩ rfl hlookup

theorem exampleRankings_reachable (propertyType : Nat) :
    Reachable exampleConfig Separate (exampleRankings propertyType) ∧
    (∀ ftn, (exampleRankings propertyType).relay.tree.publishedBy ftn = none) ∧
    ∀ k T ref, (exampleRankings propertyType).relay.tree.rankingAt k T = some ref →
      (k = [[97]] ∧ T = propertyType) ∨ (k = [] ∧ T = 1) := by
  obtain ⟨ha, hs⟩ := quiet_subscription {} publishedBy_empty [] 1 1
  have hfirst : Reachable exampleConfig Separate (({} : Watched).step exampleConfig (exampleSubscription [] 1 1)) :=
    .event .start ha hs
  have hcreated := exampleSubscription_created inv_start [] 1 1 rfl
  have hpub := fun ftn => (hcreated.published ftn).trans (publishedBy_empty ftn)
  obtain ⟨ha', hs'⟩ := quiet_subscription _ hpub [[97]] 2 propertyType
  have hcreated' := exampleSubscription_created hfirst.inv [[97]] 2 propertyType rfl
  refine ⟨.event hfirst ha' hs', fun ftn => (hcreated'.published ftn).trans (hpub ftn), fun k T ref hk => ?_⟩
  rcases hcreated'.at_node k T ref hk with ⟨hk, hT, -⟩ | hk
  · exact .inl ⟨hk, hT⟩
  · rcases hcreated.at_node k T ref hk with ⟨hk, hT, -⟩ | hk
    · exact .inr ⟨hk, hT⟩
    · rw [show ({} : Watched).relay.tree.rankingAt k T = none from rankingAt_empty k T] at hk
      cases hk

theorem rankings_fed_and_cleaned_two : ∃ w, Reachable exampleConfig Separate w ∧
    (w.relay.tree.publishedBy exampleTrack).isSome = true ∧
    w.relay.tree.rankingsUp [[97]] = [(2, 1), (1, 0)] ∧
    (w.relay.ranking 0).sortValue exampleTrack = some 5 ∧
    ((w.step exampleConfig (.publishDone exampleTrack true)).relay.ranking 0).sortValue exampleTrack = none := by
  obtain ⟨hreach, hpub, hat⟩ := exampleRankings_reachable 2
  have hsep : (exampleRankings 2).relay.Separate (.publish exampleTrack 3 noExtensions 10) := by
    intro k k' T hs hs' hk hk'
    obtain ⟨ref, href⟩ := isSome_iff_exists.1 hk
    obtain ⟨ref', href'⟩ := isSome_iff_exists.1 hk'
    rcases hat k T ref href with ⟨rfl, rfl⟩ | ⟨rfl, rfl⟩
    · rcases hat k' _ ref' href' with ⟨rfl, -⟩ | ⟨-, hT⟩
      · rfl
      · cases hT
    · rcases hat k' _ ref' href' with ⟨-, hT⟩ | ⟨rfl, -⟩
      · cases hT
      · rfl
  have hall : Reachable exampleConfig Separate (((exampleRankings 2).step exampleConfig
      (.publish exampleTrack 3 noExtensions 10)).step exampleConfig (.object exampleTrack ⟨[(1, 5)]⟩ 20)) :=
    .event (.event hreach (hpub exampleTrack) hsep) (by trivial) (by trivial)
  obtain ⟨hval, hdone⟩ := @rankings_fed_and_cleaned _ _ hall exampleTrack rfl 1 0
    (mem_cons_of_mem _ (mem_singleton_self _))
  exact ⟨_, hall, rfl, rfl, hval, hdone true⟩

theorem Reachable.any (h : Reachable cfg Separate w) :
    Reachable cfg (fun _ _ => True) w := by
  induction h with
  | start => exact .start
  | event _ ha _ ih => exact .event ih ha trivial

/-- **Two rankings of one property on a path**: the observer of the second overwrites that of the first,
    which stays at its initial value and holds the track after its end. -/
theorem shared_property_starves : ∃ w, Reachable exampleConfig (fun _ _ => True) w ∧
    (w.relay.tree.publishedBy exampleTrack).isSome = true ∧
    (1, 1) ∈ w.relay.tree.rankingsUp exampleTrack.trackNamespace.reverse ∧
    (w.relay.ranking 1).sortValue exampleTrack = some 0 ∧
    (w.journal 1 exampleTrack).current (w.relay.propertyType 1) = 5 ∧
    ((w.step exampleConfig (.publishDone exampleTrack true)).relay.ranking 1).sortValue exampleTrack = some 0 := by
  obtain ⟨hreach, hpub, -⟩ := exampleRankings_reachable 1
  have hall : Reachable exampleConfig (fun _ _ => True) (((exampleRankings 1).step exampleConfig
      (.publish exampleTrack 3 noExtensions 10)).step exampleConfig (.object exampleTrack ⟨[(1, 5)]⟩ 20)) :=
    .event (.event hreach.any (hpub exampleTrack) trivial) (by trivial) trivial
  exact ⟨_, hall, rfl, mem_cons_self, rfl, rfl, rfl⟩

end RankingRelay

end Moqx

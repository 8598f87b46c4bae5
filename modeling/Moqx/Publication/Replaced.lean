/-
  Subject: LATE EVENTS OF A REPLACED PUBLISHER act on whatever holds the name of the track.

  * `replaced_publisher_harmless` -- every event of a run of quiet events is harmless;
  * `replaced_publisher_changes_newer` -- and otherwise not.
-/
import Moqx.Publication.Model
import Moqx.TopN.Fed

namespace Moqx

open PropertyRanking List Function Option

namespace PropertyRanking

variable {r : PropertyRanking} {ftn : FullTrackName}

/-! ## 1. Attribution -/

def attributed (r : PropertyRanking) (ftn : FullTrackName) : Option SessionRef :=
  ((r.trackIndexByName.lookup ftn).bind fun i => r.rankedTracks.at? i.rankIter).map (·.publisherRaw)

theorem attributed_of_mem (h : RankInv r) {key : RankKey} {publisher : SessionRef}
    (hmem : (key, (⟨ftn, publisher⟩ : RankedEntry)) ∈ r.rankedTracks) : r.attributed ftn = some publisher := by
  obtain ⟨i, hi, hkey⟩ := h.index_mem _ hmem
  have hlookup : r.trackIndexByName.lookup ftn = some i := hi
  rw [attributed, hlookup, bind_some, hkey, RankedTracks.at?_of_mem h.sorted hmem]
  rfl

theorem registerTrack_attributed (h : RankInv r) (hnew : r.trackIndexByName.lookup ftn = none)
    (initial : Option Nat) (publisher : SessionRef) :
    (r.registerTrack ftn initial publisher).1.attributed ftn = some publisher := by
  have hrank := (registerTrack_ranked h ftn initial publisher).rank
  obtain ⟨-, C, D, -, hranked⟩ := enterTrack_inserts h hnew (initial.getD 0) publisher
  have hsame : (r.registerTrack ftn initial publisher).1.rankedTracks =
      (r.enterTrack ftn (initial.getD 0) publisher).rankedTracks := by
    unfold registerTrack
    rw [hnew]
    dsimp only [isSome_none]
    rw [if_neg Bool.false_ne_true]
    show ((r.enterTrack ftn (initial.getD 0) publisher).getCachedRank ftn).1.rankedTracks = _
    rw [getCachedRank_fst, rebuild_rankedTracks]
  have hmem : ((⟨initial.getD 0, r.nextSeq⟩ : RankKey), (⟨ftn, publisher⟩ : RankedEntry)) ∈
      (r.registerTrack ftn initial publisher).1.rankedTracks := by
    rw [hsame, hranked]
    exact mem_append_right _ mem_cons_self
  exact attributed_of_mem hrank hmem

theorem registerTrack_held (hheld : (r.trackIndexByName.lookup ftn).isSome = true) (initial : Option Nat)
    (publisher : SessionRef) : (r.registerTrack ftn initial publisher).1 = r := by
  rw [registerTrack, if_pos hheld]

theorem removeTrack_absent (hnew : r.trackIndexByName.lookup ftn = none) : (r.removeTrack ftn).1 = r := by
  unfold removeTrack
  rw [hnew]

end PropertyRanking

namespace Publication

namespace Relay

variable {mode : Mode} {relay relay' : Relay}
variable {empty : Bool} {effects : List Effect} {event : Event}

variable {ftn : FullTrackName}

/-! ## 2. Harmless events -/

/-- Another PUBLISH of the same track came after the one of this chain. -/
def replaced (relay : Relay) (chain : Nat) : Prop :=
  ∃ c later d, relay.chains[chain]? = some c ∧ chain < later ∧ relay.chains[later]? = some d ∧ d.ftn = c.ftn

/-- A ranking that an observer of the chain belongs to holds the track. -/
def observedHolds (relay : Relay) (chain : Chain) : Prop :=
  ∃ e ∈ chain.topNFilter.observers.entries,
    ((relay.ranking e.2.observer).trackIndexByName.lookup chain.ftn).isSome = true

/-- The rankings that a PUBLISH of the track is registered in. -/
def pathRankings (relay : Relay) (pub : PublishRequest) : List (Nat × RankingRef) :=
  match relay.tree.addPublish pub.ftn pub.session with
  | none => []
  | some (result, _) => result.rankings

/-- A PUBLISH that finds the track in no ranking of its path, or as its own; and events of a replaced chain
    that find nothing under the name that they would act on. -/
def Quiet (relay : Relay) : Event → Prop
  | .publish pub => ∀ r ∈ relay.pathRankings pub,
    (relay.ranking r.2).trackIndexByName.lookup pub.ftn = none ∨
    (relay.ranking r.2).attributed pub.ftn = some pub.session
  | .publishDone chain _ => relay.replaced chain → ∀ c, relay.chains[chain]? = some c →
    relay.registry.find c.ftn = none ∧ ¬ relay.observedHolds c
  | .trackEnded chain => relay.replaced chain → ∀ c, relay.chains[chain]? = some c → ¬ relay.observedHolds c
  | .forwarderEmpty chain => relay.replaced chain → ∀ c, relay.chains[chain]? = some c →
    ∀ entry, relay.registry.find c.ftn = some entry → entry.isPublish = true ∧ entry.handle.isSome = true

/-- What a newer publisher of the track has in the relay is the same. -/
def SameFor (ftn : FullTrackName) (relay relay' : Relay) : Prop :=
  relay'.registry.find ftn = relay.registry.find ftn ∧ relay'.tree.publishedBy ftn = relay.tree.publishedBy ftn ∧
    ∀ ref, (relay'.ranking ref).trackIndexByName.lookup ftn = (relay.ranking ref).trackIndexByName.lookup ftn ∧
      (relay'.ranking ref).attributed ftn = (relay.ranking ref).attributed ftn

/-- An event of a replaced publisher changes nothing of the newer one's; after a PUBLISH every ranking of the
    track's path attributes the track to its session. -/
def Harmless (relay relay' : Relay) : Event → Prop
  | .publish pub => ∀ r ∈ relay.pathRankings pub, (relay'.ranking r.2).attributed pub.ftn = some pub.session
  | .publishDone chain _ => relay.replaced chain → ∀ c, relay.chains[chain]? = some c → SameFor c.ftn relay relay'
  | .trackEnded chain => relay.replaced chain → ∀ c, relay.chains[chain]? = some c → SameFor c.ftn relay relay'
  | .forwarderEmpty chain => relay.replaced chain → ∀ c, relay.chains[chain]? = some c → SameFor c.ftn relay relay'

theorem SameFor.refl (ftn : FullTrackName) (relay : Relay) : SameFor ftn relay relay :=
  ⟨rfl, rfl, fun _ => ⟨rfl, rfl⟩⟩

/-! ## 3. Rankings along a run -/

def Ordered (relay : Relay) : Prop := ∀ ref, PropertyRanking.RankInv (relay.ranking ref)

theorem modifyRanking_self (ref : RankingRef) (f : PropertyRanking → PropertyRanking) :
    (relay.modifyRanking ref f).ranking ref = f (relay.ranking ref) := by
  simp only [modifyRanking, update_self]

theorem modifyRanking_ne {ref ref' : RankingRef} (h : ref' ≠ ref) (f : PropertyRanking → PropertyRanking) :
    (relay.modifyRanking ref f).ranking ref' = relay.ranking ref' := by
  simp only [modifyRanking, update_of_ne h]

section

variable (h : relay.Ordered)

include h

theorem Ordered.modify (ref : RankingRef) (f : PropertyRanking → PropertyRanking)
    (hf : PropertyRanking.RankInv (f (relay.ranking ref))) : (relay.modifyRanking ref f).Ordered := by
  intro ref'
  by_cases href : ref' = ref
  · rw [href, modifyRanking_self]
    exact hf
  · rw [modifyRanking_ne href]
    exact h ref'

theorem Ordered.onRanking (pub : PublishRequest) (filter : TopNFilter) (r : Nat × RankingRef) :
    (onRanking pub (relay, filter) r).1.Ordered := by
  simp only [Relay.onRanking]
  exact h.modify r.2 _ (registerTrack_ranked (h r.2) _ _ _).rank

theorem Ordered.beside (registry : SubscriptionRegistry) (tree : NamespaceTree) :
    ({ relay with registry, tree } : Relay).Ordered := h

theorem Ordered.foldOnRanking (pub : PublishRequest) (filter : TopNFilter)
    (rankings : List (Nat × RankingRef)) :
    (rankings.foldl (Relay.onRanking pub) (relay, filter)).1.Ordered := by
  induction rankings generalizing relay filter with
  | nil => exact h
  | cons r rankings ih => exact ih (h.onRanking pub filter r) _

theorem Ordered.notifyTrackEnded (chain : Chain) : (relay.notifyTrackEnded chain).Ordered := by
  rw [Relay.notifyTrackEnded]
  generalize chain.topNFilter.observers.entries = observers
  induction observers generalizing relay with
  | nil => exact h
  | cons e observers ih => exact ih (h.modify _ _ (removeTrack_ranked (h e.2.observer) chain.ftn).rank)

end

theorem onPublishDone_ranking (hr : relay.onPublishDone mode ftn empty = some relay') :
    relay'.ranking = relay.ranking := by
  simp only [onPublishDone] at hr
  split at hr
  · cases hr
    rfl
  · obtain ⟨r, -, hr⟩ := map_eq_some_iff.mp hr
    rw [← hr]

theorem onEmptyImpl_ranking (hr : relay.onEmptyImpl ftn = some (relay', effects)) :
    relay'.ranking = relay.ranking := by
  rw [onEmptyImpl] at hr
  split at hr
  · cases hr
    rfl
  · split at hr
    · cases hr
      rfl
    · split at hr
      · cases hr
      · split at hr
        · cases hr
          rfl
        · cases hr
          rfl

theorem Ordered.step (h : relay.Ordered) {r : Relay × List Effect}
    (hr : relay.step mode event = some r) : r.1.Ordered := by
  cases event with
  | publish pub =>
    cases hr
    simp only [publishWithSession]
    split
    · exact h
    · rename_i result tree _
      intro ref
      exact (h.beside _ tree).foldOnRanking pub {} result.rankings ref
  | publishDone chain empty =>
    simp only [Relay.step] at hr
    split at hr
    · cases hr
      exact h
    · rename_i c _
      obtain ⟨relay', hdone, hr⟩ := map_eq_some_iff.mp hr
      rw [← hr]
      intro ref
      rw [onPublishDone_ranking hdone]
      exact h.notifyTrackEnded c ref
  | trackEnded chain =>
    simp only [Relay.step] at hr
    split at hr
    · cases hr
      exact h
    · cases hr
      exact h.notifyTrackEnded _
  | forwarderEmpty chain =>
    simp only [Relay.step] at hr
    split at hr
    · cases hr
      exact h
    · obtain ⟨relay', effects⟩ := r
      intro ref
      rw [onEmptyImpl_ranking hr]
      exact h ref

/-! ## 4. One event -/

theorem notifyTrackEnded_silent {chain : Chain} (hnone : ¬ relay.observedHolds chain) :
    relay.notifyTrackEnded chain = relay := by
  rw [notifyTrackEnded]
  have habsent : ∀ e ∈ chain.topNFilter.observers.entries,
      (relay.ranking e.2.observer).trackIndexByName.lookup chain.ftn = none := by
    intro e he
    by_contra hne
    exact hnone ⟨e, he, isSome_iff_ne_none.mpr hne⟩
  generalize chain.topNFilter.observers.entries = observers at habsent
  induction observers with
  | nil => rfl
  | cons e observers ih =>
    have hsame : (relay.modifyRanking e.2.observer fun r => (r.removeTrack chain.ftn).1) = relay := by
      rw [modifyRanking, removeTrack_absent (habsent e mem_cons_self), update_eq_self]
    rw [foldl_cons, hsame]
    exact ih fun e' he' => habsent e' (mem_cons_of_mem _ he')

theorem onPublishDone_silent (hnone : relay.registry.find ftn = none)
    (hr : relay.onPublishDone mode ftn empty = some relay') (g : FullTrackName) : SameFor g relay relay' := by
  simp only [onPublishDone, hnone] at hr
  split at hr
  · cases hr
    refine ⟨?_, rfl, fun _ => ⟨rfl, rfl⟩⟩
    show (relay.registry.erase ftn).find g = _
    rw [SubscriptionRegistry.find_erase]
    split
    · rename_i hg
      rw [hg, hnone]
    · rfl
  · simp only [SubscriptionRegistry.onPublisherTerminated, hnone, map_some, some.injEq] at hr
    rw [← hr]
    exact SameFor.refl g relay

theorem onEmptyImpl_silent (hpublish : ∀ entry, relay.registry.find ftn = some entry →
      entry.isPublish = true ∧ entry.handle.isSome = true)
    (hr : relay.onEmptyImpl ftn = some (relay', effects)) : relay' = relay := by
  rw [onEmptyImpl] at hr
  split at hr
  · cases hr
    rfl
  · rename_i entry hentry
    obtain ⟨hpub, hhandle⟩ := hpublish entry hentry
    split at hr
    · rename_i hnone
      rw [hnone] at hhandle
      cases hhandle
    · split at hr
      · cases hr
      · simp only [hpub, if_true, some.injEq, Prod.mk.injEq] at hr
        exact hr.1.symm

theorem attributed_foldOnRanking (h : relay.Ordered) {pub : PublishRequest} {filter : TopNFilter}
    {rankings : List (Nat × RankingRef)}
    (hquiet : ∀ r ∈ rankings, (relay.ranking r.2).trackIndexByName.lookup pub.ftn = none ∨
      (relay.ranking r.2).attributed pub.ftn = some pub.session) :
    ∀ ref, ((∃ r ∈ rankings, r.2 = ref) ∨ (relay.ranking ref).attributed pub.ftn = some pub.session) →
      ((rankings.foldl (onRanking pub) (relay, filter)).1.ranking ref).attributed pub.ftn = some pub.session := by
  induction rankings generalizing relay filter with
  | nil =>
    intro ref href
    exact href.resolve_left fun ⟨_, hmem, _⟩ => absurd hmem not_mem_nil
  | cons r rankings ih =>
    intro ref href
    -- the ranking just told has the track under the new session
    have hthis : ((onRanking pub (relay, filter) r).1.ranking r.2).attributed pub.ftn = some pub.session := by
      rw [onRanking, modifyRanking_self]
      rcases hquiet r mem_cons_self with hnone | hown
      · exact registerTrack_attributed (h r.2) hnone _ _
      · rw [registerTrack_held _ _ _]
        · exact hown
        · rw [attributed] at hown
          cases hl : (relay.ranking r.2).trackIndexByName.lookup pub.ftn with
          | none =>
            rw [hl] at hown
            cases hown
          | some i => rfl
    have hother : ∀ ref', ref' ≠ r.2 → (onRanking pub (relay, filter) r).1.ranking ref' = relay.ranking ref' := by
      intro ref' hne
      simp only [onRanking]
      exact modifyRanking_ne hne _
    have hquiet' : ∀ r' ∈ rankings,
        ((onRanking pub (relay, filter) r).1.ranking r'.2).trackIndexByName.lookup pub.ftn = none ∨
        ((onRanking pub (relay, filter) r).1.ranking r'.2).attributed pub.ftn = some pub.session := by
      intro r' hr'
      by_cases href' : r'.2 = r.2
      · rw [href']
        exact .inr hthis
      · rw [hother _ href']
        exact hquiet r' (mem_cons_of_mem _ hr')
    refine ih (h.onRanking pub filter r) hquiet' ref ?_
    by_cases hrr : ref = r.2
    · rw [hrr]
      exact .inr hthis
    · rw [hother ref hrr]
      rcases href with ⟨r', hmem, heq⟩ | hattr
      · rcases mem_cons.mp hmem with hmem | hmem
        · exact absurd (hmem ▸ heq).symm hrr
        · exact .inl ⟨r', hmem, heq⟩
      · exact .inr hattr

/-- **One quiet event is harmless.** -/
theorem Ordered.harmless (h : relay.Ordered) {r : Relay × List Effect} (hquiet : relay.Quiet event)
    (hr : relay.step mode event = some r) : Harmless relay r.1 event := by
  cases event with
  | publish pub =>
    intro x hx
    cases hr
    simp only [Quiet, pathRankings] at hquiet hx
    simp only [publishWithSession]
    cases hadd : relay.tree.addPublish pub.ftn pub.session with
    | none =>
      simp only [hadd] at hx
      cases hx
    | some added =>
      simp only [hadd] at hx hquiet
      exact attributed_foldOnRanking (h.beside _ added.2) hquiet x.2 (.inl ⟨x, hx, rfl⟩)
  | publishDone chain empty =>
    intro hreplaced c hc
    obtain ⟨hnone, hholds⟩ := hquiet hreplaced c hc
    simp only [Relay.step, hc] at hr
    obtain ⟨relay', hdone, hr⟩ := map_eq_some_iff.mp hr
    rw [← hr]
    rw [publishDone, notifyTrackEnded_silent hholds] at hdone
    exact onPublishDone_silent hnone hdone c.ftn
  | trackEnded chain =>
    intro hreplaced c hc
    simp only [Relay.step, hc] at hr
    cases hr
    rw [notifyTrackEnded_silent (hquiet hreplaced c hc)]
    exact SameFor.refl c.ftn relay
  | forwarderEmpty chain =>
    intro hreplaced c hc
    obtain ⟨relay', effects⟩ := r
    simp only [Relay.step, hc] at hr
    rw [onEmptyImpl_silent (hquiet hreplaced c hc) hr]
    exact SameFor.refl c.ftn relay

/-! ## 5. Every sequence of events -/

/-- Every event comes in a state in which it is quiet. -/
def QuietRun (mode : Mode) (relay : Relay) : List Event → Prop
  | [] => True
  | event :: events => relay.Quiet event ∧ ∀ r, relay.step mode event = some r → QuietRun mode r.1 events

def HarmlessRun (mode : Mode) (relay : Relay) : List Event → Prop
  | [] => True
  | event :: events => ∀ r, relay.step mode event = some r →
    Harmless relay r.1 event ∧ HarmlessRun mode r.1 events

/-- **Events of a replaced publisher are harmless** in every run of quiet events, from every state whose
    rankings are in order. -/
theorem replaced_publisher_harmless (mode : Mode) {relay : Relay} (hordered : relay.Ordered) {events : List Event}
    (hquiet : QuietRun mode relay events) : HarmlessRun mode relay events := by
  induction events generalizing relay with
  | nil => exact trivial
  | cons event events ih =>
    intro r hr
    exact ⟨hordered.harmless hquiet.1 hr, ih (hordered.step hr) (hquiet.2 r hr)⟩

def publishOf (session : SessionRef) : PublishRequest where
  ftn := ⟨[[110]], [116]⟩
  session
  requestID := 0
  handle := session
  publisher := session
  extensions := noExtensions

/-- Two publishers; the forwarder of the first is empty then. -/
theorem replaced_publisher_harmless_empty :
    HarmlessRun .singleThread {} [.publish (publishOf 1), .publish (publishOf 2), .forwarderEmpty 0] := by
  have hordered : Ordered {} := fun _ => RankingRelay.rankInv_new ⟨0, 0, 0⟩
  refine replaced_publisher_harmless .singleThread hordered ⟨?_, fun r hr => ?_⟩
  · intro x hx
    cases hx
  · cases hr
    refine ⟨fun x hx => ?_, fun r hr => ?_⟩
    · cases hx
    · cases hr
      refine ⟨fun _ c hc entry hentry => ?_, fun _ _ => trivial⟩
      cases hc
      cases hentry
      exact ⟨rfl, rfl⟩

def withRanking : Relay where
  tree := ({} : NamespaceTree).setNode [] { rankings := (∅ : AList fun _ : Nat => RankingRef).insert 7 0 }

/-- **A replaced publisher takes the newer one with it.** In `localForwarder` mode the second PUBLISH makes
    the relay drain the first forwarder; the `publishDone` of the first chain that follows removes the entry
    of the second publisher. And a ranking keeps the track under the first publisher. -/
theorem replaced_publisher_changes_newer :
    (∃ first second r, runFrom .localForwarder {} [.publish (publishOf 1)] = some first ∧
      first.step .localForwarder (.publish (publishOf 2)) =
        some (second, [.unsubscribe 1, .drain (.remote 0)]) ∧
      second.step .localForwarder (.publishDone 0 false) = some r ∧
      ¬ Harmless second r.1 (.publishDone 0 false)) ∧
    ∃ first r, runFrom .singleThread withRanking [.publish (publishOf 1)] = some first ∧
      first.step .singleThread (.publish (publishOf 2)) = some r ∧
      ¬ Harmless first r.1 (.publish (publishOf 2)) := by
  constructor
  · refine ⟨_, _, _, rfl, rfl, rfl, fun h => ?_⟩
    have hsame := (h ⟨_, 1, _, rfl, Nat.one_pos, rfl, rfl⟩ _ rfl).1
    exact nomatch hsame
  · refine ⟨_, _, rfl, rfl, fun h => ?_⟩
    have hattributed := h (7, 0) (by decide +kernel)
    revert hattributed
    decide +kernel

end Relay

end Publication

end Moqx

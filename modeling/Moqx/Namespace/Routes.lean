/-
  Subject: The choice of a route does not depend on how the routes are stored.

  * `betterRoute_iff` -- the comparison, field by field;
  * `selectRoute_best`, `selectRoute_eq_find?` -- the fold over the routes finds the first eligible one of
    the ranked routes.
-/
import Moqx.Namespace.Advertise

namespace Moqx

open NamespaceTree List Option

variable {routes routes' : List Route} {eligible : Route → Bool} {a b r : Route}

/-! ## 1. The comparison -/

/-- The routes sorted by `betterRoute`: none stands before a better one. -/
def rankedRoutes (routes : List Route) : List Route := routes.mergeSort fun a b => !betterRoute b a

theorem betterRoute_iff : betterRoute a b = true ↔
    (hasAnon a).toNat < (hasAnon b).toNat ∨ (hasAnon a).toNat = (hasAnon b).toNat ∧
      (a.cost < b.cost ∨ a.cost = b.cost ∧ (a.path.length < b.path.length ∨
        a.path.length = b.path.length ∧ b.seq < a.seq)) := by
  rw [betterRoute]
  cases hasAnon a <;> cases hasAnon b <;> simp <;> split <;> simp [*] <;> split <;> simp [*]

theorem betterRoute_irrefl (a : Route) : betterRoute a a = false := by
  rw [Bool.eq_false_iff, ne_eq, betterRoute_iff]
  omega

theorem betterRoute_trans (a b c : Route) (hab : betterRoute a b = true) (hbc : betterRoute b c = true) :
    betterRoute a c = true := by
  rw [betterRoute_iff] at *
  omega

theorem betterRoute_asymm (h : betterRoute a b = true) : betterRoute b a = false := by
  rw [Bool.eq_false_iff, ne_eq]
  intro h'
  have hself := betterRoute_trans a b a h h'
  rw [betterRoute_irrefl] at hself
  cases hself

theorem betterRoute_total (h : a.seq ≠ b.seq) : betterRoute a b = true ∨ betterRoute b a = true := by
  rw [betterRoute_iff, betterRoute_iff]
  omega

/-! ## 2. The fold and the ranked routes -/

section

variable (h : routes.Pairwise fun a b => a.seq ≠ b.seq)

include h

theorem rankedRoutes_pairwise :
    (rankedRoutes routes).Pairwise fun a b => betterRoute a b = true := by
  have hsorted : (rankedRoutes routes).Pairwise fun a b => (!betterRoute b a) = true := by
    refine pairwise_mergeSort (fun a b c hab hbc => ?_) (fun a b => ?_) routes
    · simp only [Bool.not_eq_true', Bool.eq_false_iff, ne_eq, betterRoute_iff] at *
      omega
    · cases hba : betterRoute b a with
      | false => rfl
      | true =>
        rw [betterRoute_asymm hba]
        rfl
  have hseq := ((mergeSort_perm routes fun a b => !betterRoute b a).pairwise_iff Ne.symm).2 h
  refine (hsorted.and hseq).imp fun ⟨hle, hne⟩ => (betterRoute_total hne).resolve_right fun hba => ?_
  rw [hba] at hle
  cases hle

theorem selectRoute_best (hr : selectRoute routes eligible = some r) (hb : b ∈ routes)
    (he : eligible b = true) :
    b = r ∨ betterRoute r b = true := by
  -- Induction from the last route of the fold on.
  induction routes using reverseRecOn generalizing r with
  | nil => cases hr
  | append_singleton routes x ih =>
    obtain ⟨hroutes, -, hx⟩ := pairwise_append.1 h
    rw [selectRoute_append] at hr
    split at hr
    · rename_i hbest
      rw [Bool.and_eq_true] at hbest
      obtain rfl := some.inj hr
      rcases mem_append.1 hb with hb | hb
      · obtain ⟨best, hsel⟩ := isSome_iff_exists.1 (selectRoute_isSome.2 ⟨b, hb, he⟩)
        have hbetter : betterRoute x best = true := by simpa [hsel] using hbest.2
        rcases ih hroutes hsel hb with rfl | hrest
        · exact .inr hbetter
        · exact .inr (betterRoute_trans _ _ _ hbetter hrest)
      · exact .inl (mem_singleton.1 hb)
    · rename_i hworse
      rcases mem_append.1 hb with hb | hb
      · exact ih hroutes hr hb
      · obtain rfl := mem_singleton.1 hb
        rw [he, hr, all_some, Bool.true_and] at hworse
        exact .inr ((betterRoute_total (hx r (selectRoute_some hr).1 b hb)).resolve_right hworse)

theorem selectRoute_eq_find? (hp : routes'.Perm routes) (eligible : Route → Bool) :
    selectRoute routes' eligible = (rankedRoutes routes).find? eligible := by
  have hmem : ∀ r, r ∈ rankedRoutes routes ↔ r ∈ routes' := fun r =>
    ((mergeSort_perm routes _).trans hp.symm).mem_iff
  cases hs : selectRoute routes' eligible with
  | none =>
    refine (find?_eq_none.2 fun r hr he => ?_).symm
    have hsome := selectRoute_isSome.2 ⟨r, (hmem r).1 hr, he⟩
    rw [hs] at hsome
    cases hsome
  | some r =>
    obtain ⟨hr, he⟩ := selectRoute_some hs
    obtain ⟨before, after, heq⟩ := append_of_mem ((hmem r).2 hr)
    refine (find?_eq_some_iff_append.2 ⟨he, before, after, heq, fun b hb => ?_⟩).symm
    -- A route before `r` is better than `r`, and `r` is the best of the eligible ones.
    have hsorted := rankedRoutes_pairwise h
    rw [heq] at hsorted
    have hbr : betterRoute b r = true := (pairwise_append.1 hsorted).2.2 b hb r mem_cons_self
    rw [Bool.not_eq_true', Bool.eq_false_iff, ne_eq]
    intro heb
    have hb' : b ∈ routes' := (hmem b).1 (heq ▸ mem_append_left _ hb)
    rcases selectRoute_best ((hp.pairwise_iff Ne.symm).2 h) hs hb' heb with rfl | hrb
    · rw [betterRoute_irrefl] at hbr
      cases hbr
    · rw [betterRoute_asymm hrb] at hbr
      cases hbr

end

/-! ## 3. The routes of a node -/

/-- Two routes of different sessions and generations, not both from outside the cluster. -/
structure Apart (a b : Route) : Prop where
  session : a.session ≠ b.session
  cluster : a.fromCluster = true ∨ b.fromCluster = true
  seq : a.seq ≠ b.seq

theorem Apart.symm (h : Apart a b) : Apart b a := ⟨h.session.symm, h.cluster.symm, h.seq.symm⟩

instance : Std.Symm Apart := ⟨fun _ _ => Apart.symm⟩

/-- The routes of a node: two by two apart, each of the kind of its session and of a generation given
    out. -/
structure Orderly (cluster : SessionRef → Bool) (next : Nat) (routes : List Route) : Prop where
  apart : routes.Pairwise Apart
  known : ∀ r ∈ routes, r.fromCluster = cluster r.session ∧ r.seq ≤ next

/-- A session that publishes is always from the cluster or never. -/
def NamespaceTree.Op.KeepsKind (cluster : SessionRef → Bool) : Op → Prop
  | .setPublisher _ session _ _ _ _ _ fromCluster => fromCluster = cluster session
  | _ => True

variable {cluster : SessionRef → Bool} {next next' : Nat}

theorem Orderly.sublist (h : Orderly cluster next routes) (hs : routes'.Sublist routes) :
    Orderly cluster next routes' :=
  ⟨h.apart.sublist hs, fun r hr => h.known r (hs.subset hr)⟩

theorem Orderly.later (h : Orderly cluster next routes) (hle : next ≤ next') :
    Orderly cluster next' routes :=
  ⟨h.apart, fun r hr => ⟨(h.known r hr).1, (h.known r hr).2.trans hle⟩⟩

theorem updateFirst_apart {p : Route → Bool} {f : Route → Route} (h : routes.Pairwise Apart)
    (hf : ∀ r ∈ routes, ∀ b ∈ routes, Apart r b → Apart (f r) b) :
    (updateFirst p f routes).Pairwise Apart := by
  induction routes with
  | nil => exact h
  | cons r routes ih =>
    obtain ⟨hr, hrest⟩ := pairwise_cons.1 h
    rw [updateFirst]
    split
    · exact pairwise_cons.2
        ⟨fun b hb => hf r mem_cons_self b (mem_cons_of_mem _ hb) (hr b hb), hrest⟩
    · refine pairwise_cons.2 ⟨fun b hb => ?_, ih hrest fun a ha b hb =>
        hf a (mem_cons_of_mem _ ha) b (mem_cons_of_mem _ hb)⟩
      rcases mem_updateFirst hb with hb | ⟨b₀, -, hb₀, rfl⟩
      · exact hr b hb
      · exact (hf b₀ (mem_cons_of_mem _ hb₀) r mem_cons_self (hr b₀ hb₀).symm).symm

theorem Orderly.revise {c : Content} (h : Orderly cluster next c.routes) (named : Route → Bool)
    {change : Route → Route} (hchange : ∀ r, ∃ peerID, change r = { r with peerID := peerID })
    (path : List Nat) (cost : Nat) :
    next ≤ (c.revise next named change path cost).2 ∧
      Orderly cluster (c.revise next named change path cost).2
        (c.revise next named change path cost).1.routes := by
  have hle : next ≤ (c.revise next named change path cost).2 := by
    rw [Content.revise]
    split <;> omega
  -- a revised route keeps its generation or is given the next one
  have hseq : ∀ r, (reviseRoute (change r) path cost next).session = r.session ∧
      (reviseRoute (change r) path cost next).fromCluster = r.fromCluster ∧
      (reviseRoute (change r) path cost next).seq = if sameOrigin r.path path then r.seq else next + 1 := by
    intro r
    obtain ⟨peerID, hr⟩ := hchange r
    rw [hr]
    exact ⟨rfl, rfl, rfl⟩
  refine ⟨hle, updateFirst_apart h.apart fun r hr b hb hab => ?_, fun r hr => ?_⟩
  · obtain ⟨hs, hc, hn⟩ := hseq r
    refine ⟨hs ▸ hab.session, hc ▸ hab.cluster, ?_⟩
    have := (h.known b hb).2
    rw [hn]
    split
    · exact hab.seq
    · omega
  · rcases mem_updateFirst hr with hr | ⟨r₀, hfind, hmem, rfl⟩
    · exact (h.later hle).known r hr
    · obtain ⟨hs, hc, hn⟩ := hseq r₀
      refine ⟨by rw [hs, hc]; exact (h.known r₀ hmem).1, ?_⟩
      rw [hn]
      split
      · exact (h.known r₀ hmem).2.trans hle
      · rename_i hnew
        simp [Content.revise, hfind, hnew]

section displaced

variable {session : SessionRef} {fromCluster : Bool} (hkind : fromCluster = cluster session)

include hkind

theorem displaces_iff (hr : r.fromCluster = cluster r.session) :
    displaces session fromCluster r = true ↔
      if fromCluster then r.session = session else r.fromCluster = false := by
  cases fromCluster with
  | true => simp [displaces]
  | false =>
    simp only [displaces, Bool.not_false, Bool.true_and, Bool.or_eq_true, beq_iff_eq, Bool.not_eq_true']
    exact ⟨fun hd => hd.elim (fun hs => by rw [hr, hs]; exact hkind.symm) id, .inr⟩

theorem Orderly.displaced (h : Orderly cluster next routes)
    (hr : r ∈ routes.eraseP (displaces session fromCluster)) : displaces session fromCluster r = false := by
  induction routes with
  | nil => exact absurd hr not_mem_nil
  | cons x routes ih =>
    rw [eraseP_cons, cond_eq_ite] at hr
    split at hr
    · rename_i hx
      have hap := (pairwise_cons.1 h.apart).1 r hr
      rw [displaces_iff hkind (h.known x mem_cons_self).1] at hx
      rw [Bool.eq_false_iff, ne_eq, displaces_iff hkind (h.known r (mem_cons_of_mem _ hr)).1]
      intro hr'
      cases fromCluster with
      | true => exact hap.session (hx.trans hr'.symm)
      | false => exact hap.cluster.elim (fun hc => by cases hc.symm.trans hx) fun hc => by cases hc.symm.trans hr'
    · rename_i hx
      rcases mem_cons.1 hr with rfl | hr
      · exact eq_false_of_ne_true hx
      · exact ih (h.sublist (sublist_cons_self _ _)) hr

end displaced

theorem Content.apply_orderly {c : Content} {op : Op} (h : Orderly cluster next c.routes)
    (hop : op.KeepsKind cluster) :
    next ≤ (c.apply next op).2 ∧ Orderly cluster (c.apply next op).2 (c.apply next op).1.routes := by
  cases op with
  | setPublisher ns session callback peerID requestID relayHopPath routeCost fromCluster =>
    rw [Content.apply]
    dsimp only
    split
    · exact h.revise _ (fun r => ⟨peerID, rfl⟩) _ _
    · refine ⟨Nat.le_succ _, pairwise_append.2 ⟨(h.sublist eraseP_sublist).apart,
        pairwise_singleton _ _, fun a ha b hb => ?_⟩, fun r hr => ?_⟩
      · obtain rfl := mem_singleton.1 hb
        have hd := h.displaced hop ha
        have hseq := (h.known a (mem_of_mem_eraseP ha)).2
        simp only [displaces, Bool.or_eq_false_iff, beq_eq_false_iff_ne, Bool.and_eq_false_iff,
          Bool.not_eq_false'] at hd
        exact ⟨hd.1, hd.2.symm, by dsimp only; omega⟩
      · rcases mem_append.1 hr with hr | hr
        · exact ((h.sublist eraseP_sublist).later (Nat.le_succ _)).known r hr
        · obtain rfl := mem_singleton.1 hr
          exact ⟨hop, le_rfl⟩
  | updateRoute ns session requestID path cost => exact h.revise _ (fun r => ⟨r.peerID, rfl⟩) path cost
  | unpublishNamespace ns session requestID => exact ⟨le_rfl, h.sublist eraseP_sublist⟩
  | addNamespaceSubscriber ns session info =>
    rw [Content.apply]
    dsimp only
    split
    · exact ⟨le_rfl, h⟩
    · exact ⟨le_rfl, h⟩
  | _ => exact ⟨le_rfl, h⟩

theorem Directory.run_orderly (ops : List Op) (hops : ∀ op ∈ ops, op.KeepsKind cluster)
    (ns : TrackNamespace) :
    Orderly cluster (Directory.run ops).nextRouteSeq ((Directory.run ops).content ns).routes := by
  induction ops using reverseRecOn generalizing ns with
  | nil => exact ⟨.nil, fun r hr => absurd hr not_mem_nil⟩
  | append_singleton ops op ih =>
    have ih := ih fun o ho => hops o (mem_append_left _ ho)
    obtain ⟨hle, happlied⟩ := Content.apply_orderly (ih op.target) (hops op (by simp))
    rw [Directory.run_append, Directory.step]
    by_cases hns : ns = op.target
    · rw [hns]
      dsimp only
      rw [Function.update_self]
      exact happlied
    · dsimp only
      rw [Function.update_of_ne hns]
      exact (ih ns).later hle

/-- **The route chosen is the first eligible one of the ranked routes**, whatever order they are stored
    in. A node has one route per session, one that is not from the cluster and one per generation. -/
theorem route_selection_well_defined (cluster : SessionRef → Bool) (ops : List Op)
    (hops : ∀ op ∈ ops, op.KeepsKind cluster) (ns : TrackNamespace) :
    let routes := ((run ops).contentAt ns.reverse).routes
    (routes.map (·.session)).Nodup ∧
      routes.Pairwise (fun a b => a.fromCluster = true ∨ b.fromCluster = true) ∧
      (routes.map (·.seq)).Nodup ∧
      (∀ a ∈ routes, betterRoute a a = false) ∧
      (∀ a ∈ routes, ∀ b ∈ routes, ∀ c ∈ routes,
        betterRoute a b = true → betterRoute b c = true → betterRoute a c = true) ∧
      (∀ a ∈ routes, ∀ b ∈ routes, a = b ∨ betterRoute a b = true ∨ betterRoute b a = true) ∧
      ∀ stored : List Route, stored.Perm routes → ∀ eligible,
        selectRoute stored eligible = (rankedRoutes routes).find? eligible := by
  intro routes
  have h : Orderly cluster (Directory.run ops).nextRouteSeq routes := by
    rw [show routes = _ from congrArg (·.routes) ((run_contentAt ops).1 ns)]
    exact Directory.run_orderly ops hops ns
  refine ⟨pairwise_map.2 (h.apart.imp (·.session)), h.apart.imp (·.cluster),
    pairwise_map.2 (h.apart.imp (·.seq)), fun a _ => betterRoute_irrefl a,
    fun a _ b _ c _ => betterRoute_trans a b c, fun a ha b hb => ?_,
    fun stored hp eligible => selectRoute_eq_find? (h.apart.imp (·.seq)) hp eligible⟩
  by_cases hab : a = b
  · exact .inl hab
  · exact .inr (betterRoute_total (h.apart.forall ha hb hab).seq)

/-- A route of a session of the cluster and one of another session. -/
def twoRoutes : List Op :=
  [.setPublisher [] 1 none [] 0 [7] 2 true, .setPublisher [] 2 none [] 0 [] 1 false]

theorem route_selection_two : ∃ routes, ((run twoRoutes).contentAt []).routes = routes ∧
    routes.length = 2 ∧ selectRoute routes (·.fromCluster) = (rankedRoutes routes).find? (·.fromCluster) :=
  ⟨_, rfl, rfl, (route_selection_well_defined (· == 1) twoRoutes (by simp [twoRoutes, Op.KeepsKind])
    []).2.2.2.2.2.2 _ (.refl _) _⟩

/-- **A publisher is looked up at the deepest namespace that has routes**: after every run, the answer is the
    session of the best route there that is neither of the excluded session nor through the excluded hop, and
    nobody if that namespace has no such route or there is no such namespace. -/
theorem publisher_session_best (cluster : SessionRef → Bool) (ops : List Op)
    (hops : ∀ op ∈ ops, op.KeepsKind cluster) (ns : TrackNamespace) (exclusion : RouteExclusion) :
    (∃ p, p <+: ns ∧ ((Directory.run ops).content p).routes ≠ [] ∧
      (∀ q, q <+: ns → ((Directory.run ops).content q).routes ≠ [] → q.length ≤ p.length) ∧
      (run ops).findPublisherSession ns exclusion =
        ((rankedRoutes ((Directory.run ops).content p).routes).find? fun r =>
          exclusion.session.all (r.session != ·) && !clusterPathContains r.path exclusion.hop).map (·.session)) ∨
    (∀ q, q <+: ns → ((Directory.run ops).content q).routes = []) ∧
      (run ops).findPublisherSession ns exclusion = none := by
  have hcontent := (run_contentAt ops).1
  unfold findPublisherSession
  rcases (run ops).findRouteNode_spec ns with ⟨p, hp, hfind, hr, hmax⟩ | ⟨hfind, hnone⟩
  · simp only [hcontent] at hr hmax
    refine .inl ⟨p, hp, hr, hmax, ?_⟩
    have hnode : ((run ops).node p.reverse).routes = ((Directory.run ops).content p).routes := by
      rw [← hcontent p, contentAt] at hr ⊢
      split at hr
      · rw [if_pos ‹_›]
        rfl
      · exact absurd rfl hr
    have h := Directory.run_orderly ops hops p
    rw [hfind, ← selectRoute_eq_find? (h.apart.imp (·.seq)) (.refl _), ← hnode]
    exact Option.map_eq_bind.symm
  · simp only [hcontent] at hnone
    exact .inr ⟨hnone, by rw [hfind]; rfl⟩

/-- The session of the cluster, since the other one is excluded. -/
theorem publisher_session_best_two : (run twoRoutes).findPublisherSession [[1]] ⟨some 2, 0⟩ = some 1 ∧
    ∃ p, p <+: [[1]] ∧ ((Directory.run twoRoutes).content p).routes ≠ [] := by
  have hfound : (run twoRoutes).findPublisherSession [[1]] ⟨some 2, 0⟩ = some 1 := by decide
  rcases publisher_session_best (· == 1) twoRoutes (by simp [twoRoutes, Op.KeepsKind]) [[1]] ⟨some 2, 0⟩ with
    ⟨p, hp, hr, -⟩ | ⟨-, hnone⟩
  · exact ⟨hfound, p, hp, hr⟩
  · cases hfound.symm.trans hnone

end Moqx

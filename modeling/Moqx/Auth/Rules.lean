/-
  Subject: WHAT A NAMESPACE RULE OF THE CONFIGURATION PERMITS.

  * `encodeSegment_code` -- segments shorter than 2^32 bytes are written in a prefix code;
  * `allows_namespaceScope` -- grants from one configured scope, as the one rule it holds;
  * `exact_and_prefix_rules_permit` -- exact and prefix rules permit the equal and the extending namespaces;
  * `suffix_and_contains_rules_bounded_iff` -- when suffix and contains rules keep to whole segments.
-/
import Moqx.Auth.Model
import Moqx.Lib.PrefixCode

namespace Moqx.Auth

open List

/-! ## 1. The encoding of a namespace -/

/-- Every segment is shorter than 2^32 bytes. -/
def Sized (ns : TrackNamespace) : Prop := ∀ field ∈ ns, field.length < 2 ^ 32

instance (ns : TrackNamespace) : Decidable (Sized ns) := inferInstanceAs (Decidable (∀ _ ∈ ns, _))

theorem bigEndian32_inj {j k : Nat} (hj : j < 2 ^ 32) (hk : k < 2 ^ 32)
    (h : bigEndian32 j = bigEndian32 k) : j = k := by
  simp only [bigEndian32, cons.injEq, and_true, ← UInt8.toNat_inj, Nat.toUInt8_eq,
    UInt8.toNat_ofNat'] at h
  omega

theorem encodeSegment_code : PrefixCode encodeSegment fun field => field.length < 2 ^ 32 := by
  refine @PrefixCode.lengthPrefixed _ (fun n => bigEndian32 (n % 2 ^ 32)) 4 _ (fun _ => rfl) (by decide) ?_
  intro j k hj hk h
  rw [Nat.mod_eq_of_lt hj, Nat.mod_eq_of_lt hk] at h
  exact bigEndian32_inj hj hk h

theorem canonicalNamespace_inj {a b : TrackNamespace} (ha : Sized a) (hb : Sized b) :
    canonicalNamespace a = canonicalNamespace b ↔ a = b :=
  encodeSegment_code.flatMap_inj ha hb

theorem canonicalNamespace_isPrefix {a b : TrackNamespace} (ha : Sized a) (hb : Sized b) :
    canonicalNamespace a <+: canonicalNamespace b ↔ a <+: b :=
  encodeSegment_code.flatMap_isPrefix_iff ha hb

/-! ## 2. One rule -/

theorem occursIn_iff {expected actual : Bytes} : occursIn expected actual = true ↔ expected <:+: actual := by
  simp only [occursIn, any_eq_true, mem_tails, isPrefixOf_iff_prefix]
  constructor
  · rintro ⟨t, ht, h⟩
    exact h.isInfix.trans ht.isInfix
  · rintro ⟨u, v, h⟩
    exact ⟨expected ++ v, ⟨u, by rw [← h, append_assoc]⟩, prefix_append _ _⟩

theorem permits_iff {type : MatchRuleType} {value actual : Bytes} :
    MatchRule.permits ⟨type, value⟩ actual = true ↔
      match type with
      | .exactMatch => actual = value
      | .prefixMatch => value <+: actual
      | .suffixMatch => value <:+ actual
      | .containsMatch => value <:+: actual := by
  cases type with
  | exactMatch => exact beq_iff_eq
  | prefixMatch => exact isPrefixOf_iff_prefix
  | containsMatch => exact occursIn_iff
  | suffixMatch =>
    simp only [MatchRule.permits, Bool.and_eq_true, decide_eq_true_eq, beq_iff_eq]
    refine ⟨fun ⟨_, h⟩ => ?_, fun h => ⟨h.length_le, (suffix_iff_eq_drop.mp h).symm⟩⟩
    exact suffix_iff_eq_drop.mpr h.symm

/-! ## 3. Grants from one configured scope -/

/-- A scope of the configuration that restricts nothing but the namespace. -/
def namespaceScope (actions : List Action) (mode : MatchRuleType) (segments : List Bytes) : AnonymousScope :=
  { actions, namespaceSegments := some segments, namespaceMatchMode := mode }

theorem toNat_inj {a b : Action} (h : a.toNat = b.toNat) : a = b := by
  cases a <;> cases b <;> first | rfl | cases h

theorem mem_toNat {actions : List Action} {action : Action} :
    (actions.map Action.toNat).contains action.toNat = true ↔ action ∈ actions := by
  rw [contains_iff_mem, mem_map]
  refine ⟨?_, fun h => ⟨action, h, rfl⟩⟩
  rintro ⟨b, hb, h⟩
  exact toNat_inj h ▸ hb

/-- The grants of such a scope allow an action exactly when it is listed, the clock has not reached its
    end, and the one rule permits the bytes of the namespace. -/
theorem allows_namespaceScope {actions : List Action} {mode : MatchRuleType} {segments : List Bytes}
    {action : Action} {ns : TrackNamespace} {trackName : Option Bytes} {now : TimePoint} :
    allowsImpl (buildAnonymousGrants [namespaceScope actions mode segments]) action ns trackName now = true ↔
      now < maxTimePoint ∧ action ∈ actions ∧
        MatchRule.permits ⟨mode, canonicalNamespace segments⟩ (canonicalNamespace ns) = true := by
  simp only [allowsImpl, buildAnonymousGrants, namespaceScope, AnonymousScope.scope, map_cons,
    map_nil, Option.toList_some, Option.toList_none, any_cons, any_nil, Bool.or_false,
    rulesMatch, all_cons, all_nil, Bool.and_true]
  split
  · rename_i h
    exact ⟨nofun, fun ⟨h', _⟩ => absurd h (Int.not_le.mpr h')⟩
  · rename_i h
    rw [Bool.and_eq_true, mem_toNat]
    exact ⟨fun ⟨ha, hp⟩ => ⟨Int.not_le.mp h, ha, hp⟩, fun ⟨_, ha, hp⟩ => ⟨ha, hp⟩⟩

/-! ## 4. Exact and prefix rules -/

/-- **Exact and prefix rules mean what they say.** On namespaces whose segments are shorter than 2^32
    bytes the encoding is injective and keeps the prefix order both ways, so that an exact rule permits
    the namespace it was configured with and no other, a prefix rule those that extend it and no others. -/
theorem exact_and_prefix_rules_permit {segments ns : TrackNamespace} (hs : Sized segments) (hn : Sized ns) :
    (canonicalNamespace segments = canonicalNamespace ns ↔ segments = ns) ∧
    (canonicalNamespace segments <+: canonicalNamespace ns ↔ segments <+: ns) ∧
    ∀ (actions : List Action) (action : Action) (trackName : Option Bytes) (now : TimePoint),
      (allowsImpl (buildAnonymousGrants [namespaceScope actions .exactMatch segments]) action ns trackName
          now = true ↔ now < maxTimePoint ∧ action ∈ actions ∧ ns = segments) ∧
      (allowsImpl (buildAnonymousGrants [namespaceScope actions .prefixMatch segments]) action ns trackName
          now = true ↔ now < maxTimePoint ∧ action ∈ actions ∧ segments <+: ns) := by
  refine ⟨canonicalNamespace_inj hs hn, canonicalNamespace_isPrefix hs hn, ?_⟩
  intro actions action trackName now
  rw [allows_namespaceScope, allows_namespaceScope, permits_iff, permits_iff,
    canonicalNamespace_inj hn hs, canonicalNamespace_isPrefix hs hn]
  exact ⟨Iff.rfl, Iff.rfl⟩

/-- A prefix rule for `a` permits `a/b`, an exact one does not. -/
theorem exact_and_prefix_rules_permit_child :
    allowsImpl (buildAnonymousGrants [namespaceScope [.subscribe] .prefixMatch [[97]]]) .subscribe
        [[97], [98]] none 0 = true ∧
    ¬ allowsImpl (buildAnonymousGrants [namespaceScope [.subscribe] .exactMatch [[97]]]) .subscribe
        [[97], [98]] none 0 = true := by
  have hs : Sized [[97]] := by decide
  have hn : Sized [[97], [98]] := by decide
  have h := (exact_and_prefix_rules_permit hs hn).2.2 [.subscribe] .subscribe none 0
  rw [h.1, h.2]
  decide

/-! ## 5. Suffix and contains rules -/

/-- **When suffix and contains rules respect segment boundaries.** A suffix rule permits a namespace only
    when the configured segments are its last ones if and only if the encoding of the namespace cannot be
    cut, strictly inside the encoding of one of its segments, in front of the encoding of the configured
    ones. A contains rule permits it only when the configured segments stand in it if and only if, should
    their encoding occur from such a place on, it also occurs at the start of a segment. -/
theorem suffix_and_contains_rules_bounded_iff {segments ns : TrackNamespace} (hs : Sized segments)
    (hn : Sized ns) :
    ((∀ (actions : List Action) (action : Action) (trackName : Option Bytes) (now : TimePoint),
        allowsImpl (buildAnonymousGrants [namespaceScope actions .suffixMatch segments]) action ns trackName
          now = true → segments <:+ ns) ↔
      ¬ ∃ u, PrefixCode.Inside encodeSegment ns u (canonicalNamespace segments)) ∧
    ((∀ (actions : List Action) (action : Action) (trackName : Option Bytes) (now : TimePoint),
        allowsImpl (buildAnonymousGrants [namespaceScope actions .containsMatch segments]) action ns trackName
          now = true → segments <:+: ns) ↔
      ((∃ u v, PrefixCode.Inside encodeSegment ns u (canonicalNamespace segments ++ v)) →
        ∃ before after, ns = before ++ after ∧ canonicalNamespace segments <+: canonicalNamespace after)) := by
  have hzero : (0 : TimePoint) < maxTimePoint := by decide
  constructor
  · have hiff := encodeSegment_code.isSuffix_iff hs hn
    constructor
    · rintro h ⟨u, hin⟩
      have hallow : canonicalNamespace segments <:+ canonicalNamespace ns := hiff.mpr (.inr ⟨u, hin⟩)
      have := h [.subscribe] .subscribe none 0
        (allows_namespaceScope.mpr ⟨hzero, mem_singleton_self _, permits_iff.mpr hallow⟩)
      exact PrefixCode.not_isSuffix_of_inside hin this
    · intro h actions action trackName now hallow
      have hbytes := permits_iff.mp (allows_namespaceScope.mp hallow).2.2
      exact (hiff.mp hbytes).resolve_right h
  · have hiff := encodeSegment_code.isInfix_iff hs hn
    constructor
    · rintro h ⟨u, v, hin⟩
      have hallow : canonicalNamespace segments <:+: canonicalNamespace ns := hiff.mpr (.inr ⟨u, v, hin⟩)
      obtain ⟨before, after, hrun⟩ := h [.subscribe] .subscribe none 0
        (allows_namespaceScope.mpr ⟨hzero, mem_singleton_self _, permits_iff.mpr hallow⟩)
      refine ⟨before, segments ++ after, by rw [← hrun, append_assoc], ?_⟩
      exact ⟨canonicalNamespace after, flatMap_append.symm⟩
    · intro h actions action trackName now hallow
      have hbytes := permits_iff.mp (allows_namespaceScope.mp hallow).2.2
      rcases hiff.mp hbytes with hrun | hin
      · exact hrun
      · obtain ⟨before, after, rfl, hpre⟩ := h hin
        have hafter : Sized after := fun field hf => hn field (mem_append_right _ hf)
        obtain ⟨r, rfl⟩ := (canonicalNamespace_isPrefix hs hafter).mp hpre
        exact ⟨before, r, by rw [append_assoc]⟩

/-- In the namespace `b/a` the encoding of `a` occurs at the start of a segment, so what the contains rule
    for `a` permits there is a run of segments. -/
theorem suffix_and_contains_rules_bounded_here :
    allowsImpl (buildAnonymousGrants [namespaceScope [.subscribe] .containsMatch [[97]]]) .subscribe
        [[98], [97]] none 0 = true ∧
    [[97]] <:+: ([[98], [97]] : TrackNamespace) := by
  have hs : Sized [[97]] := by decide
  have hn : Sized [[98], [97]] := by decide
  have hallow : allowsImpl (buildAnonymousGrants [namespaceScope [.subscribe] .containsMatch [[97]]])
      .subscribe [[98], [97]] none 0 = true := by decide
  refine ⟨hallow, ?_⟩
  exact (suffix_and_contains_rules_bounded_iff hs hn).2.mpr
    (fun _ => ⟨[[98]], [[97]], rfl, prefix_rfl⟩) [.subscribe] .subscribe none 0 hallow

/-- **One segment can imitate another.** The only segment of the namespace below is `x` followed by the
    encoding of `a`; the suffix and the contains rule for `a` permit it. -/
theorem segment_imitates_rule :
    allowsImpl (buildAnonymousGrants [namespaceScope [.subscribe] .suffixMatch [[97]]]) .subscribe
        [[120, 0, 0, 0, 1, 97]] none 0 = true ∧
    ¬ [[97]] <:+ ([[120, 0, 0, 0, 1, 97]] : TrackNamespace) ∧
    allowsImpl (buildAnonymousGrants [namespaceScope [.subscribe] .containsMatch [[97]]]) .subscribe
        [[120, 0, 0, 0, 1, 97]] none 0 = true ∧
    ¬ [[97]] <:+: ([[120, 0, 0, 0, 1, 97]] : TrackNamespace) := by
  decide

end Moqx.Auth

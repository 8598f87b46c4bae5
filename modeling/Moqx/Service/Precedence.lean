/-
  Subject: THE ENTRY THAT WINS: what the matcher's rule sets answer, against the precedence of entries.

  * `PathRuleSet.match_chosen` -- a finalized rule set answers it;
  * `ServiceMatcher.match_best` -- and so does the matcher, for any order and any sort.
-/
import Mathlib.Data.List.Induction
import Moqx.Lib.Table
import Moqx.Service.Model

namespace Moqx.Service

open Authority List AList Option PathRuleSet

/-! ## 1. Rules for paths -/

def PathMatcher.Covers (path : Bytes) : PathMatcher → Prop
  | exactPath value => value = path
  | prefixPath value => value <+: path

/-- An exact path before any prefix, a longer prefix before a shorter one. -/
def PathMatcher.Better : PathMatcher → PathMatcher → Prop
  | exactPath _, prefixPath _ => True
  | prefixPath value, prefixPath other => other.length < value.length
  | _, _ => False

/-- The rules of a set, with the service each is for. -/
abbrev Rules := List (Bytes × PathMatcher)

/-- The answer for a path: the service of a rule that covers it, with none better; none if no rule does. -/
def Chosen (rules : Rules) (path : Bytes) : Option Bytes → Prop
  | some name => ∃ p, (name, p) ∈ rules ∧ p.Covers path ∧ ∀ x ∈ rules, x.2.Covers path → ¬ x.2.Better p
  | none => ∀ x ∈ rules, ¬ x.2.Covers path

namespace PathRuleSet

variable {rules : Rules} {value name : Bytes}
variable {sort : List PrefixRule → List PrefixRule}

def addRules (rules : Rules) : PathRuleSet := rules.foldl (fun set x => set.addRule x.2 x.1) {}

theorem addRules_append (rules : Rules) (x : Bytes × PathMatcher) :
    addRules (rules ++ [x]) = (addRules rules).addRule x.2 x.1 := by
  rw [addRules, foldl_append]
  rfl

theorem lookup_addRules (h : (addRules rules).exactPaths.lookup value = some name) :
    (name, .exactPath value) ∈ rules := by
  induction rules using reverseRecOn with
  | nil => cases h
  | append_singleton rules x ih =>
    rw [addRules_append] at h
    rw [mem_append, mem_singleton]
    rcases x with ⟨n, p⟩
    cases p with
    | prefixPath v => exact .inl (ih h)
    | exactPath v =>
      simp only [addRule] at h
      split at h
      · exact .inl (ih h)
      · rename_i hnew
        by_cases hv : value = v
        · subst hv
          rw [lookup_insert, some.injEq] at h
          exact .inr (by rw [h])
        · rw [lookup_insert_ne hv] at h
          exact .inl (ih h)

theorem exists_lookup_addRules (h : (name, .exactPath value) ∈ rules) :
    ((addRules rules).exactPaths.lookup value).isSome = true := by
  induction rules using reverseRecOn with
  | nil => cases h
  | append_singleton rules x ih =>
    rw [mem_append, mem_singleton] at h
    rw [addRules_append]
    rcases x with ⟨n, p⟩
    cases p with
    | prefixPath v =>
      rcases h with h | h
      · exact ih h
      · cases h
    | exactPath v =>
      simp only [addRule]
      split
      · rename_i hold
        rcases h with h | h
        · exact ih h
        · cases h
          exact hold
      · by_cases hv : value = v
        · rw [hv, lookup_insert]
          rfl
        · rw [lookup_insert_ne hv]
          rcases h with h | h
          · exact ih h
          · cases h
            exact absurd rfl hv

theorem mem_prefixPaths :
    ⟨value, name⟩ ∈ (addRules rules).prefixPaths ↔ (name, .prefixPath value) ∈ rules := by
  induction rules using reverseRecOn with
  | nil => exact ⟨nofun, nofun⟩
  | append_singleton rules x ih =>
    rw [addRules_append, mem_append, mem_singleton]
    rcases x with ⟨n, p⟩
    cases p with
    | exactPath v =>
      simp only [addRule]
      split
      · simp [ih]
      · simp [ih]
    | prefixPath v =>
      simp only [addRule, mem_append, mem_singleton, ih, PrefixRule.mk.injEq, Prod.mk.injEq,
        PathMatcher.prefixPath.injEq]
      tauto

theorem find?_sorted {l : List PrefixRule} {p : PrefixRule → Bool} {a : PrefixRule}
    (hl : l.Pairwise fun a b => b.value.length ≤ a.value.length) (h : l.find? p = some a) :
    ∀ b ∈ l, p b = true → b.value.length ≤ a.value.length := by
  induction l with
  | nil => cases h
  | cons c l ih =>
    rw [pairwise_cons] at hl
    intro b hb hp
    rw [find?_cons] at h
    split at h
    · cases h
      rcases mem_cons.mp hb with rfl | hb
      · exact Nat.le_refl _
      · exact hl.1 b hb
    · rename_i hc
      rcases mem_cons.mp hb with rfl | hb
      · rw [hp] at hc
        cases hc
      · exact ih hl.2 h b hb hp

/-- **A finalized rule set answers as precedence asks.** -/
theorem match_chosen (hsort : Sorts sort) (rules : Rules) (path : Bytes) : Chosen rules path (((addRules rules).finalize sort).match path) := by
  obtain ⟨hperm, hsorted⟩ := hsort (addRules rules).prefixPaths
  rw [PathRuleSet.match, finalize]
  cases hlook : (addRules rules).exactPaths.lookup path with
  | some name =>
    refine ⟨.exactPath path, lookup_addRules hlook, rfl, ?_⟩
    rintro ⟨n, q⟩ - - hbetter
    cases q <;> exact hbetter
  | none =>
    have hexact : ∀ n, (n, .exactPath path) ∉ rules := by
      intro n hmem
      have := exists_lookup_addRules hmem
      rw [hlook] at this
      cases this
    cases hfind : (sort (addRules rules).prefixPaths).find? fun rule => rule.value.isPrefixOf path with
    | some rule =>
      have hmem := hperm.mem_iff.mp (mem_of_find?_eq_some hfind)
      have hcov := find?_some hfind
      refine ⟨.prefixPath rule.value, mem_prefixPaths.mp hmem, isPrefixOf_iff_prefix.mp hcov, ?_⟩
      rintro ⟨n, q⟩ hq hqc hbetter
      cases q with
      | exactPath v =>
        cases hqc
        exact hexact n hq
      | prefixPath v =>
        have hv := hperm.mem_iff.mpr (mem_prefixPaths.mpr hq)
        have := find?_sorted hsorted hfind _ hv (List.isPrefixOf_iff_prefix.mpr hqc)
        exact absurd hbetter (Nat.not_lt.mpr this)
    | none =>
      rintro ⟨n, q⟩ hq hqc
      cases q with
      | exactPath v =>
        cases hqc
        exact hexact n hq
      | prefixPath v =>
        have hv := hperm.mem_iff.mpr (mem_prefixPaths.mpr hq)
        exact absurd (List.isPrefixOf_iff_prefix.mpr hqc) (find?_eq_none.mp hfind _ hv)

theorem match_empty (hsort : Sorts sort) (path : Bytes) :
    (({} : PathRuleSet).finalize sort).match path = none := by
  have hnil : sort [] = [] := (hsort []).1.eq_nil
  simp only [PathRuleSet.match, finalize, hnil, lookup_empty, find?_nil, map_none]

end PathRuleSet

/-! ## 2. Entries -/

/-- A wildcard covers an authority whose text from the first dot on is its own behind the star. -/
def Authority.Covers (authority : Bytes) : Authority → Prop
  | exactAuthority value => value = authority
  | wildcardAuthority pattern => ServiceMatcher.fromDot authority = some (pattern.drop 1)
  | anyAuthority => True

/-- Exact authorities come first, then wildcards, then any. -/
def Authority.tier : Authority → Nat
  | exactAuthority _ => 0
  | wildcardAuthority _ => 1
  | anyAuthority => 2

namespace MatchEntry

def Covers (authority path : Bytes) (e : MatchEntry) : Prop :=
  e.authority.Covers authority ∧ e.path.Covers path

def Better (e f : MatchEntry) : Prop :=
  e.authority.tier < f.authority.tier ∨ e.authority.tier = f.authority.tier ∧ e.path.Better f.path

end MatchEntry

/-- **The answer that precedence asks for**: the service of an entry that covers authority and path, with
    none better; none if no entry does. -/
def Best (l : List (Bytes × MatchEntry)) (authority path : Bytes) : Option Bytes → Prop
  | some name => ∃ e, (name, e) ∈ l ∧ e.Covers authority path ∧
      ∀ x ∈ l, x.2.Covers authority path → ¬ x.2.Better e
  | none => ∀ x ∈ l, ¬ x.2.Covers authority path

/-- The rules are the entries of one tier that cover the authority. -/
def OfTier (l : List (Bytes × MatchEntry)) (authority : Bytes) (t : Nat) (rules : Rules) : Prop :=
  ∀ name p, (name, p) ∈ rules ↔
    ∃ e, (name, e) ∈ l ∧ e.authority.tier = t ∧ e.authority.Covers authority ∧ e.path = p

section tiers

variable {l : List (Bytes × MatchEntry)} {authority path : Bytes} {t : Nat} {rules : Rules}

theorem OfTier.none (h : OfTier l authority t rules) (hc : Chosen rules path none) {x : Bytes × MatchEntry}
    (hx : x ∈ l) (hcov : x.2.Covers authority path) : x.2.authority.tier ≠ t := by
  intro ht
  exact hc (x.1, x.2.path) ((h x.1 x.2.path).mpr ⟨x.2, hx, ht, hcov.1, rfl⟩) hcov.2

theorem OfTier.best (h : OfTier l authority t rules) {name : Bytes} (hc : Chosen rules path (some name))
    (hbefore : ∀ x ∈ l, x.2.Covers authority path → ¬ x.2.authority.tier < t) :
    Best l authority path (some name) := by
  obtain ⟨p, hp, hcov, hbest⟩ := hc
  obtain ⟨e, he, ht, hauth, rfl⟩ := (h name p).mp hp
  refine ⟨e, he, ⟨hauth, hcov⟩, ?_⟩
  rintro x hx hxc (hlt | ⟨heq, hbetter⟩)
  · exact hbefore x hx hxc (ht ▸ hlt)
  · exact hbest (x.1, x.2.path) ((h x.1 x.2.path).mpr ⟨x.2, hx, heq.trans ht, hxc.1, rfl⟩) hxc.2 hbetter

theorem best_of_tiers {rules₀ rules₁ rules₂ : Rules} {r₀ r₁ r₂ : Option Bytes}
    (h₀ : OfTier l authority 0 rules₀) (h₁ : OfTier l authority 1 rules₁) (h₂ : OfTier l authority 2 rules₂)
    (c₀ : Chosen rules₀ path r₀) (c₁ : Chosen rules₁ path r₁) (c₂ : Chosen rules₂ path r₂) :
    Best l authority path (r₀.or (r₁.or r₂)) := by
  cases r₀ with
  | some name => exact h₀.best c₀ fun _ _ _ => Nat.not_lt_zero _
  | none =>
    cases r₁ with
    | some name =>
      refine h₁.best c₁ fun x hx hcov hlt => ?_
      exact h₀.none c₀ hx hcov (Nat.lt_one_iff.mp hlt)
    | none =>
      have hno : ∀ x ∈ l, x.2.Covers authority path → ¬ x.2.authority.tier < 2 := by
        intro x hx hcov hlt
        have ha := h₀.none c₀ hx hcov
        have hb := h₁.none c₁ hx hcov
        omega
      cases r₂ with
      | some name => exact h₂.best c₂ hno
      | none =>
        intro x hx hcov
        have ha := hno x hx hcov
        have hb := h₂.none c₂ hx hcov
        have hle : x.2.authority.tier ≤ 2 := by cases x.2.authority <;> simp [tier]
        omega

end tiers

/-! ## 3. The rule sets of the matcher -/

/-- The entries whose authority is selected, as rules. -/
def keyed (sel : Authority → Bool) (l : List (Bytes × MatchEntry)) : Rules :=
  (l.filter fun x => sel x.2.authority).map fun x => (x.1, x.2.path)

theorem keyed_append (sel : Authority → Bool) (l : List (Bytes × MatchEntry)) (x : Bytes × MatchEntry) :
    keyed sel (l ++ [x]) = if sel x.2.authority then keyed sel l ++ [(x.1, x.2.path)] else keyed sel l := by
  rw [keyed, filter_append, map_append]
  cases h : sel x.2.authority with
  | true => simp [keyed, h]
  | false => simp [keyed, h]

theorem mem_keyed {sel : Authority → Bool} {l : List (Bytes × MatchEntry)} {name : Bytes} {p : PathMatcher} :
    (name, p) ∈ keyed sel l ↔ ∃ e, (name, e) ∈ l ∧ sel e.authority = true ∧ e.path = p := by
  simp only [keyed, List.mem_map, mem_filter, Prod.mk.injEq]
  constructor
  · rintro ⟨x, ⟨hx, hsel⟩, rfl, hp⟩
    exact ⟨x.2, hx, hsel, hp⟩
  · rintro ⟨e, he, hsel, hp⟩
    exact ⟨(name, e), ⟨he, hsel⟩, rfl, hp⟩

def Authority.isExact (value : Bytes) (a : Authority) : Bool := a == exactAuthority value

def Authority.isWildcard (suffix : Bytes) : Authority → Bool
  | wildcardAuthority pattern => pattern.drop 1 == suffix
  | _ => false

def Authority.isAny (a : Authority) : Bool := a == anyAuthority

namespace ServiceMatcher

variable {sort : List PrefixRule → List PrefixRule}

theorem addAll_append (l : List (Bytes × MatchEntry)) (x : Bytes × MatchEntry) :
    addAll (l ++ [x]) = (addAll l).addEntry x.1 x.2 := by
  rw [addAll, foldl_append]
  rfl

theorem lookup_addRuleAt (rules : AList (fun _ : Bytes => PathRuleSet)) (key k : Bytes) (path : PathMatcher)
    (name : Bytes) : ((addRuleAt rules key path name).lookup k).getD {} =
      if key = k then ((rules.lookup k).getD {}).addRule path name else (rules.lookup k).getD {} := by
  rw [addRuleAt]
  split
  · rename_i h
    rw [h, lookup_insert, getD_some]
  · rename_i h
    rw [lookup_insert_ne (Ne.symm h)]

theorem rules_eq_keyed (rules : ServiceMatcher → PathRuleSet) {sel : Authority → Bool} (hnil : rules {} = {})
    (hadd : ∀ m (x : Bytes × MatchEntry), rules (m.addEntry x.1 x.2) =
      if sel x.2.authority then (rules m).addRule x.2.path x.1 else rules m) (l : List (Bytes × MatchEntry)) :
    rules (addAll l) = addRules (keyed sel l) := by
  induction l using reverseRecOn with
  | nil => exact hnil
  | append_singleton l x ih =>
    rw [addAll_append, keyed_append, hadd, ih]
    split
    · rw [addRules_append]
    · rfl

theorem exact_rules (l : List (Bytes × MatchEntry)) (value : Bytes) :
    ((addAll l).exactAuthorityRules.lookup value).getD {} = addRules (keyed (isExact value) l) := by
  refine rules_eq_keyed (fun m => (m.exactAuthorityRules.lookup value).getD {}) rfl ?_ l
  rintro m ⟨n, a, p⟩
  cases a with
  | exactAuthority v => simp only [addEntry, lookup_addRuleAt, isExact, beq_iff_eq, exactAuthority.injEq]
  | wildcardAuthority v => rfl
  | anyAuthority => rfl

theorem wildcard_rules (l : List (Bytes × MatchEntry)) (suffix : Bytes) :
    ((addAll l).wildcardAuthorityRules.lookup suffix).getD {} = addRules (keyed (isWildcard suffix) l) := by
  refine rules_eq_keyed (fun m => (m.wildcardAuthorityRules.lookup suffix).getD {}) rfl ?_ l
  rintro m ⟨n, a, p⟩
  cases a with
  | exactAuthority v => rfl
  | wildcardAuthority v => simp only [addEntry, lookup_addRuleAt, isWildcard, beq_iff_eq]
  | anyAuthority => rfl

theorem any_rules (l : List (Bytes × MatchEntry)) : (addAll l).anyAuthorityRules = addRules (keyed isAny l) := by
  refine rules_eq_keyed (·.anyAuthorityRules) rfl ?_ l
  rintro m ⟨n, a, p⟩
  cases a <;> rfl

theorem lookup_finalizeAll (sort : List PrefixRule → List PrefixRule)
    (rules : AList (fun _ : Bytes => PathRuleSet)) (k : Bytes) :
    (finalizeAll sort rules).lookup k = (rules.lookup k).map (·.finalize sort) :=
  Table.dlookup_map (fun _ (set : PathRuleSet) => set.finalize sort) k rules.entries

theorem bind_match (hsort : PathRuleSet.Sorts sort) (rules : AList (fun _ : Bytes => PathRuleSet))
    (k path : Bytes) :
    ((finalizeAll sort rules).lookup k).bind (·.match path) =
      (((rules.lookup k).getD {}).finalize sort).match path := by
  rw [lookup_finalizeAll]
  cases rules.lookup k with
  | none => exact (match_empty hsort path).symm
  | some set => rfl

/-- The wildcards for an authority: none, if it has no dot. -/
def wildcardRules (authority : Bytes) (l : List (Bytes × MatchEntry)) : Rules :=
  match fromDot authority with
  | some suffix => keyed (isWildcard suffix) l
  | none => []

theorem ofTier_keyed {l : List (Bytes × MatchEntry)} {authority : Bytes} {t : Nat} {sel : Authority → Bool}
    (h : ∀ a, sel a = true ↔ a.tier = t ∧ a.Covers authority) : OfTier l authority t (keyed sel l) := by
  intro name p
  simp only [mem_keyed, h, and_assoc]

theorem ofTier_exact (l : List (Bytes × MatchEntry)) (authority : Bytes) :
    OfTier l authority 0 (keyed (isExact authority) l) := by
  refine ofTier_keyed fun a => ?_
  cases a <;> simp [isExact, tier, Authority.Covers]

theorem ofTier_wildcard (l : List (Bytes × MatchEntry)) (authority : Bytes) :
    OfTier l authority 1 (wildcardRules authority l) := by
  rw [wildcardRules]
  cases hdot : fromDot authority with
  | none =>
    refine fun name p => ⟨nofun, ?_⟩
    rintro ⟨⟨a, q⟩, -, ht, hcov, -⟩
    cases a with
    | wildcardAuthority v => exact absurd (hdot.symm.trans hcov) nofun
    | exactAuthority v => cases ht
    | anyAuthority => cases ht
  | some suffix =>
    refine ofTier_keyed fun a => ?_
    cases a <;> simp [isWildcard, tier, Authority.Covers, hdot, @eq_comm _ suffix]

theorem ofTier_any (l : List (Bytes × MatchEntry)) (authority : Bytes) :
    OfTier l authority 2 (keyed isAny l) := by
  refine ofTier_keyed fun a => ?_
  cases a <;> simp [isAny, tier, Authority.Covers]

/-- An empty path counts as "/". -/
def effectivePath (path : Bytes) : Bytes := if path.isEmpty then [slash] else path

theorem match_eq (m : ServiceMatcher) (authority path : Bytes) :
    m.match authority path =
      ((m.exactAuthorityRules.lookup authority).bind (·.match (effectivePath path))).or
        (((fromDot authority).bind fun suffix =>
            (m.wildcardAuthorityRules.lookup suffix).bind (·.match (effectivePath path))).or
          (m.anyAuthorityRules.match (effectivePath path))) := by
  rw [ServiceMatcher.match, effectivePath]
  cases (m.exactAuthorityRules.lookup authority).bind (·.match (if path.isEmpty then [slash] else path)) with
  | some name => rfl
  | none =>
    cases (fromDot authority).bind fun suffix =>
        (m.wildcardAuthorityRules.lookup suffix).bind
          (·.match (if path.isEmpty then [slash] else path)) with
    | some name => rfl
    | none => rfl

/-- **The matcher answers as precedence asks**, whatever the order of the services and of rules of one
    length. -/
theorem match_best (hsort : PathRuleSet.Sorts sort) (services : Services) (authority path : Bytes) :
    Best (entries services) authority (effectivePath path) ((build sort services).match authority path) := by
  rw [match_eq]
  refine best_of_tiers (ofTier_exact _ _) (ofTier_wildcard _ _) (ofTier_any _ _) ?_ ?_ ?_
  · rw [build, bind_match hsort, exact_rules]
    exact match_chosen hsort _ _
  · rw [wildcardRules]
    cases fromDot authority with
    | none => exact nofun
    | some suffix =>
      rw [bind_some, build, bind_match hsort, wildcard_rules]
      exact match_chosen hsort _ _
  · rw [build, any_rules]
    exact match_chosen hsort _ _

end ServiceMatcher

end Moqx.Service

/-
  Subject: THE DUPLICATE CHECK of the config resolver, and what rests on it.

  * `rejectsDuplicates_iff` -- the loop reports a duplicate exactly when two valid entries have one key;
  * `best_unique` -- without equal entries, precedence leaves one answer;
  * `service_matching_iff` -- the matcher's answer, and when the check is right.
-/
import Moqx.Service.Precedence

namespace Moqx.Service

open ServiceMatcher List MatchRule

variable {e f : MatchRule} {a : AuthorityMatch} {path authority : Bytes} {r : MatchError} {p : PathMatcher}
  {services : Services}
variable {es : List (Bytes × Nat × MatchRule)} {st : Checked} {q : PathMatcher} {b : AuthorityMatch}

/-! ## 1. Valid entries -/

/-- All entries of a configuration. -/
def rules (services : Services) : List MatchRule := services.flatMap (·.2)

def MatchRule.isValid (e : MatchRule) : Bool := (entryKey e).isOk

/-- What stands in the key of an entry for the kind of its authority. -/
def AuthorityMatch.type : AuthorityMatch → Bytes
  | exactAuthority _ => text "exact"
  | wildcardAuthority _ => text "wildcard"
  | anyAuthority _ => text "any"

def AuthorityMatch.value : AuthorityMatch → Bytes
  | exactAuthority value => value
  | wildcardAuthority pattern => pattern
  | anyAuthority _ => []

/-- What follows the authority in the key of an entry. -/
def MatchRule.rest (e : MatchRule) : Bytes := text "|" ++ pathKey e.path

def MatchRule.key (e : MatchRule) : Bytes := e.authority.type ++ text ":" ++ e.authority.value ++ e.rest

theorem validateAuthority_ok {info : AuthorityInfo} (h : validateAuthority a = .ok info) :
    info = ⟨a.type, a.value⟩ ∧ (∀ p, a = .wildcardAuthority p → ∃ q, p = star :: q) ∧
      (∀ b, a = .anyAuthority b → b = true) := by
  cases a with
  | exactAuthority v =>
    rw [validateAuthority] at h
    split at h
    · cases h
    · cases h
      exact ⟨rfl, nofun, nofun⟩
  | wildcardAuthority p =>
    rw [validateAuthority] at h
    split at h
    · cases h
    · rename_i hstart
      split at h
      · cases h
      · cases h
        refine ⟨rfl, ?_, nofun⟩
        rintro _ ⟨rfl⟩
        cases p with
        | nil => exact absurd (by decide) hstart
        | cons b q =>
          by_cases hb : b = star
          · exact ⟨q, by rw [hb]⟩
          · refine absurd ?_ hstart
            simp [hb]
  | anyAuthority b =>
    rw [validateAuthority] at h
    cases b with
    | false => cases h
    | true =>
      cases h
      exact ⟨rfl, nofun, fun b hb => by cases hb; rfl⟩

theorem entryKey_ok {k : Bytes} (h : entryKey e = .ok k) :
    k = e.key ∧ (∀ p, e.authority = .wildcardAuthority p → ∃ q, p = star :: q) ∧
      (∀ b, e.authority = .anyAuthority b → b = true) := by
  simp only [entryKey, bind, Except.bind] at h
  cases ha : validateAuthority e.authority with
  | error r =>
    rw [ha] at h
    cases h
  | ok info =>
    rw [ha] at h
    simp only at h
    obtain ⟨rfl, hw, hany⟩ := validateAuthority_ok ha
    cases hp : validatePath e.path with
    | error r =>
      rw [hp] at h
      cases h
    | ok _ =>
      rw [hp] at h
      cases h
      refine ⟨?_, hw, hany⟩
      simp only [makeCompositeKey, key, rest, append_assoc]

theorem isValid_iff : e.isValid = true ↔ entryKey e = .ok e.key := by
  rw [isValid]
  cases hk : entryKey e with
  | ok k => exact ⟨fun _ => by rw [(entryKey_ok hk).1], fun _ => rfl⟩
  | error r => exact ⟨nofun, nofun⟩

theorem not_isValid_iff : e.isValid = false ↔ ∃ r, entryKey e = .error r := by
  rw [isValid]
  cases entryKey e with
  | ok k => exact ⟨nofun, nofun⟩
  | error r => exact ⟨fun _ => ⟨r, rfl⟩, fun _ => rfl⟩

/-! ## 2. What the loop reports -/

theorem validateAuthority_error (h : validateAuthority a = .error r) :
    ∀ k, r ≠ .duplicate k := by
  cases a with
  | exactAuthority v =>
    rw [validateAuthority] at h
    split at h
    · cases h
      exact nofun
    · cases h
  | wildcardAuthority p =>
    rw [validateAuthority] at h
    split at h
    · cases h
      exact nofun
    · split at h
      · cases h
        exact nofun
      · cases h
  | anyAuthority b =>
    rw [validateAuthority] at h
    split at h
    · cases h
    · cases h
      exact nofun

theorem validatePath_error (h : validatePath p = .error r) :
    ∀ k, r ≠ .duplicate k := by
  rw [validatePath] at h
  split at h
  · cases h
    exact nofun
  · split at h
    · cases h
      exact nofun
    · cases h

theorem entryKey_error (h : entryKey e = .error r) (s : Bytes) (j : Nat) :
    ConfigError.isDuplicate ⟨s, j, r⟩ = false := by
  have hr : ∀ k, r ≠ .duplicate k := by
    simp only [entryKey, bind, Except.bind] at h
    cases ha : validateAuthority e.authority with
    | error r' =>
      rw [ha] at h
      cases h
      exact validateAuthority_error ha
    | ok info =>
      rw [ha] at h
      simp only at h
      cases hp : validatePath e.path with
      | error r' =>
        rw [hp] at h
        cases h
        exact validatePath_error hp
      | ok _ =>
        rw [hp] at h
        cases h
  cases r with
  | duplicate k => exact absurd rfl (hr k)
  | _ => rfl

/-- The keys of the valid entries of a list, in order. -/
def keys (es : List MatchRule) : List Bytes := (es.filter (·.isValid)).map (·.key)

theorem keys_cons (e : MatchRule) (es : List MatchRule) :
    keys (e :: es) = if e.isValid then e.key :: keys es else keys es := by
  rw [keys, filter_cons]
  split
  · rfl
  · rfl

/-- **The loop reports a duplicate exactly when a valid entry has the key of an earlier one.** -/
theorem foldl_reports :
    (es.foldl validateEntry st).errors.any ConfigError.isDuplicate = true ↔
      st.errors.any ConfigError.isDuplicate = true ∨ ¬ (keys (es.map (·.2.2))).Nodup ∨
        ∃ k ∈ keys (es.map (·.2.2)), k ∈ st.compositeKeys := by
  induction es generalizing st with
  | nil => simp [keys]
  | cons e es ih =>
    rw [foldl_cons, ih, map_cons, keys_cons]
    cases hv : e.2.2.isValid with
    | false =>
      obtain ⟨r, hr⟩ := not_isValid_iff.mp hv
      have hnot := entryKey_error hr e.1 e.2.1
      simp only [validateEntry, hr, any_append, any_cons, hnot, any_nil, Bool.or_false,
        Bool.false_eq_true, if_false]
    | true =>
      have hk := isValid_iff.mp hv
      simp only [validateEntry, hk, if_true, nodup_cons, mem_cons, exists_eq_or_imp]
      split
      · rename_i hin
        have hdup : ConfigError.isDuplicate ⟨e.1, e.2.1, .duplicate e.2.2.key⟩ = true := rfl
        simp only [any_append, any_cons, hdup, Bool.true_or, Bool.or_true, true_or, true_iff]
        exact .inr (.inr (.inl hin))
      · rename_i hin
        simp only [mem_cons]
        constructor
        · rintro (h | h | ⟨k, hk, rfl | hmem⟩)
          · exact .inl h
          · exact .inr (.inl fun h' => h h'.2)
          · exact .inr (.inl fun h' => h'.1 hk)
          · exact .inr (.inr (.inr ⟨k, hk, hmem⟩))
        · rintro (h | h | h | ⟨k, hk, hmem⟩)
          · exact .inl h
          · by_cases hmem : e.2.2.key ∈ keys (es.map (·.2.2))
            · exact .inr (.inr ⟨_, hmem, .inl rfl⟩)
            · exact .inr (.inl fun hn => h ⟨hmem, hn⟩)
          · exact absurd h hin
          · exact .inr (.inr ⟨k, hk, .inr hmem⟩)

theorem indexed_rules (services : Services) : (indexed services).map (·.2.2) = rules services := by
  rw [indexed, rules, map_flatMap]
  congr 1
  funext svc
  rw [map_map]
  exact zipIdx_map_fst 0 svc.2

theorem rejectsDuplicates_iff (services : Services) :
    rejectsDuplicates services = true ↔ ¬ (keys (rules services)).Nodup := by
  rw [rejectsDuplicates, validateMatches, foldl_reports, indexed_rules]
  simp

theorem foldl_errors_nil (h : (es.foldl validateEntry st).errors = []) : st.errors = [] ∧ ∀ e ∈ es, e.2.2.isValid = true := by
  induction es generalizing st with
  | nil => exact ⟨h, nofun⟩
  | cons e es ih =>
    obtain ⟨hst, hes⟩ := ih h
    cases hv : e.2.2.isValid with
    | false =>
      obtain ⟨r, hr⟩ := not_isValid_iff.mp hv
      simp [validateEntry, hr] at hst
    | true =>
      have hk := isValid_iff.mp hv
      simp only [validateEntry, hk] at hst
      refine ⟨?_, forall_mem_cons.mpr ⟨hv, hes⟩⟩
      split at hst
      · simp at hst
      · exact hst

theorem accepted_rules (h : validateMatches services = []) :
    (∀ e ∈ rules services, e.isValid = true) ∧ ((rules services).map (·.key)).Nodup := by
  have hvalid : ∀ e ∈ rules services, e.isValid = true := by
    intro e he
    rw [← indexed_rules, mem_map] at he
    obtain ⟨x, hx, rfl⟩ := he
    exact (foldl_errors_nil h).2 x hx
  refine ⟨hvalid, ?_⟩
  have hno : ¬ rejectsDuplicates services = true := by
    rw [rejectsDuplicates, h]
    exact nofun
  rw [rejectsDuplicates_iff, not_not, keys, filter_eq_self.mpr hvalid] at hno
  exact hno

/-! ## 3. Keys of different entries -/

theorem pathKey_inj (h : pathKey p = pathKey q) : p = q := by
  cases p with
  | exactPath v =>
    cases q with
    | exactPath w => rw [append_cancel_left h]
    | prefixPath w => cases h
  | prefixPath v =>
    cases q with
    | exactPath w => cases h
    | prefixPath w => rw [append_cancel_left h]

/-- The key of one entry runs into the authority of the other: its authority goes on where the other's
    ends, with just the text that follows the other's, up to the `|` of its own path. -/
def RunsInto (e f : MatchRule) : Prop :=
  e.authority.type = f.authority.type ∧
    ∃ x, x ≠ [] ∧ f.authority.value = e.authority.value ++ x ∧ e.rest = x ++ f.rest

theorem RunsInto.key_eq (h : RunsInto e f) : e.key = f.key := by
  obtain ⟨htype, x, -, hvalue, hrest⟩ := h
  simp only [key, htype, hvalue, hrest, append_assoc]

theorem RunsInto.ne (h : RunsInto e f) : e ≠ f := by
  obtain ⟨-, x, hx, hvalue, -⟩ := h
  rintro rfl
  exact hx (self_eq_append_right.mp hvalue)

theorem type_of_head (h : a.type.head? = b.type.head?) : a.type = b.type := by
  have hew : (text "exact").head? ≠ (text "wildcard").head? := by decide
  have hea : (text "exact").head? ≠ (text "any").head? := by decide
  have hwa : (text "wildcard").head? ≠ (text "any").head? := by decide
  cases a <;> cases b <;> first
    | rfl | exact absurd h hew | exact absurd h hew.symm | exact absurd h hea | exact absurd h hea.symm
    | exact absurd h hwa | exact absurd h hwa.symm

theorem key_type (h : e.key = f.key) : e.authority.type = f.authority.type := by
  have hhead : ∀ g : MatchRule, g.key.head? = g.authority.type.head? := by
    rintro ⟨a, p⟩
    cases a <;> rfl
  exact type_of_head ((hhead e).symm.trans ((congrArg head? h).trans (hhead f)))

theorem authority_eq (htype : a.type = b.type) (hvalue : a.value = b.value)
    (ha : ∀ c, a = .anyAuthority c → c = true) (hb : ∀ c, b = .anyAuthority c → c = true) : a = b := by
  have hew : text "exact" ≠ text "wildcard" := by decide
  have hea : text "exact" ≠ text "any" := by decide
  have hwa : text "wildcard" ≠ text "any" := by decide
  cases a with
  | exactAuthority v =>
    cases b with
    | exactAuthority w => exact congrArg _ hvalue
    | wildcardAuthority w => exact absurd htype hew
    | anyAuthority c => exact absurd htype hea
  | wildcardAuthority v =>
    cases b with
    | exactAuthority w => exact absurd htype hew.symm
    | wildcardAuthority w => exact congrArg _ hvalue
    | anyAuthority c => exact absurd htype hwa
  | anyAuthority c =>
    cases b with
    | exactAuthority w => exact absurd htype hea.symm
    | wildcardAuthority w => exact absurd htype hwa.symm
    | anyAuthority d => rw [ha c rfl, hb d rfl]

/-- **Two valid entries have one key exactly when they are equal or the key of one runs into the authority
    of the other.** -/
theorem key_eq_iff (he : e.isValid = true) (hf : f.isValid = true) :
    e.key = f.key ↔ e = f ∨ RunsInto e f ∨ RunsInto f e := by
  refine ⟨fun h => ?_, ?_⟩
  · have htype := key_type h
    have hrest : e.authority.value ++ e.rest = f.authority.value ++ f.rest := by
      simp only [key, htype, append_assoc] at h
      exact append_cancel_left (append_cancel_left h)
    have heq : e.authority.value = f.authority.value → e.rest = f.rest → e = f := by
      intro hv hr
      have ha := authority_eq htype hv (entryKey_ok (isValid_iff.mp he)).2.2
        (entryKey_ok (isValid_iff.mp hf)).2.2
      have hp := pathKey_inj (append_cancel_left hr)
      cases e
      cases f
      simp only at ha hp
      rw [ha, hp]
    rcases append_eq_append_iff.mp hrest with ⟨x, hv, hr⟩ | ⟨x, hv, hr⟩
    · rcases eq_or_ne x [] with rfl | hx
      · exact .inl (heq (by rw [hv, append_nil]) hr)
      · exact .inr (.inl ⟨htype, x, hx, hv, hr⟩)
    · rcases eq_or_ne x [] with rfl | hx
      · exact .inl (heq (by rw [hv, append_nil]) hr.symm)
      · exact .inr (.inr ⟨htype.symm, x, hx, hv, hr⟩)
  · rintro (rfl | h | h)
    · rfl
    · exact h.key_eq
    · exact h.key_eq.symm

theorem nodup_keys {l : List MatchRule} (hl : ∀ e ∈ l, e.isValid = true) :
    (l.map (·.key)).Nodup ↔ l.Nodup ∧ ∀ e ∈ l, ∀ f ∈ l, ¬ RunsInto e f := by
  constructor
  · intro h
    have hinj := inj_on_of_nodup_map h
    exact ⟨h.of_map, fun e he f hf hrun => hrun.ne (hinj he hf hrun.key_eq)⟩
  · rintro ⟨hn, hrun⟩
    refine hn.map_on fun e he f hf h => ?_
    rcases (key_eq_iff (hl e he) (hl f hf)).mp h with rfl | h' | h'
    · rfl
    · exact absurd h' (hrun e he f hf)
    · exact absurd h' (hrun f hf e he)

theorem nodup_parts (l : List MatchRule) :
    l.Nodup ↔ (l.filter (·.isValid)).Nodup ∧ (l.filter (!·.isValid)).Nodup := by
  rw [← (filter_append_perm (·.isValid) l).nodup_iff, nodup_append']
  refine ⟨fun h => ⟨h.1, h.2.1⟩, fun h => ⟨h.1, h.2, ?_⟩⟩
  intro e he he'
  rw [mem_filter] at he he'
  rw [he.2] at he'
  exact absurd he'.2 nofun

/-! ## 4. One best entry -/

theorem path_unique (hp : p.Covers path) (hq : q.Covers path) (hpq : ¬ p.Better q)
    (hqp : ¬ q.Better p) : p = q := by
  cases p with
  | exactPath v =>
    cases q with
    | exactPath w => exact congrArg _ (hp.trans hq.symm)
    | prefixPath w => exact absurd trivial hpq
  | prefixPath v =>
    cases q with
    | exactPath w => exact absurd trivial hqp
    | prefixPath w =>
      have hlen : v.length = w.length := Nat.le_antisymm (Nat.not_lt.mp hpq) (Nat.not_lt.mp hqp)
      have hvw : v <+: w := prefix_of_prefix_length_le hp hq (Nat.le_of_eq hlen)
      exact congrArg _ (hvw.eq_of_length hlen)

theorem authority_unique (he : e.isValid = true) (hf : f.isValid = true)
    (hec : (resolveMatchEntry e).authority.Covers authority)
    (hfc : (resolveMatchEntry f).authority.Covers authority)
    (ht : (resolveMatchEntry e).authority.tier = (resolveMatchEntry f).authority.tier) :
    e.authority = f.authority := by
  obtain ⟨-, hew, hea⟩ := entryKey_ok (isValid_iff.mp he)
  obtain ⟨-, hfw, hfa⟩ := entryKey_ok (isValid_iff.mp hf)
  rcases e with ⟨a, p⟩
  rcases f with ⟨b, q⟩
  cases a with
  | exactAuthority v =>
    cases b with
    | exactAuthority w =>
      have hv : v = authority := hec
      have hw : w = authority := hfc
      rw [hv, hw]
    | wildcardAuthority w => cases ht
    | anyAuthority c => cases ht
  | wildcardAuthority v =>
    cases b with
    | exactAuthority w => cases ht
    | wildcardAuthority w =>
      obtain ⟨v', rfl⟩ := hew v rfl
      obtain ⟨w', rfl⟩ := hfw w rfl
      have hdrop : some v' = some w' := Eq.trans (Eq.symm hec) hfc
      cases hdrop
      rfl
    | anyAuthority c => cases ht
  | anyAuthority c =>
    cases b with
    | exactAuthority w => cases ht
    | wildcardAuthority w => cases ht
    | anyAuthority d =>
      rw [show c = true from hea c rfl, show d = true from hfa d rfl]

theorem entries_map (services : Services) :
    (entries services).map (·.2) = (rules services).map resolveMatchEntry := by
  rw [entries, rules, map_flatMap, map_flatMap]
  congr 1
  funext svc
  rw [map_map]
  rfl

theorem resolveMatchEntry_inj (he : e.isValid = true) (hf : f.isValid = true)
    (h : resolveMatchEntry e = resolveMatchEntry f) : e = f := by
  have hpath : e.path = f.path := congrArg MatchEntry.path h
  have hea := (entryKey_ok (isValid_iff.mp he)).2.2
  have hfa := (entryKey_ok (isValid_iff.mp hf)).2.2
  have hauth : (resolveMatchEntry e).authority = (resolveMatchEntry f).authority := congrArg _ h
  have : e.authority = f.authority := by
    rcases e with ⟨a, p⟩
    rcases f with ⟨b, q⟩
    cases a with
    | exactAuthority v =>
      cases b with
      | exactAuthority w =>
        cases hauth
        rfl
      | wildcardAuthority w => cases hauth
      | anyAuthority c => cases hauth
    | wildcardAuthority v =>
      cases b with
      | exactAuthority w => cases hauth
      | wildcardAuthority w =>
        cases hauth
        rfl
      | anyAuthority c => cases hauth
    | anyAuthority c =>
      cases b with
      | exactAuthority w => cases hauth
      | wildcardAuthority w => cases hauth
      | anyAuthority d => rw [show c = true from hea c rfl, show d = true from hfa d rfl]
  cases e
  cases f
  simp only at this hpath
  rw [this, hpath]

theorem entry_unique (hacc : validateMatches services = []) {x y : Bytes × MatchEntry}
    (hx : x ∈ entries services) (hy : y ∈ entries services)
    (hxc : x.2.Covers authority path) (hyc : y.2.Covers authority path) (hxy : ¬ x.2.Better y.2)
    (hyx : ¬ y.2.Better x.2) : x = y := by
  obtain ⟨hvalid, hkeys⟩ := accepted_rules hacc
  have hnodup : ((entries services).map (·.2)).Nodup := by
    rw [entries_map]
    exact hkeys.of_map.map_on fun e he f hf h => resolveMatchEntry_inj (hvalid e he) (hvalid f hf) h
  refine inj_on_of_nodup_map hnodup hx hy ?_
  have hmem : ∀ z ∈ entries services, ∃ r ∈ rules services, resolveMatchEntry r = z.2 := by
    intro z hz
    have : z.2 ∈ (entries services).map (·.2) := mem_map_of_mem hz
    rwa [entries_map, mem_map] at this
  obtain ⟨e, he, hex⟩ := hmem x hx
  obtain ⟨f, hf, hfy⟩ := hmem y hy
  have ht : x.2.authority.tier = y.2.authority.tier := by
    rcases Nat.lt_trichotomy x.2.authority.tier y.2.authority.tier with h | h | h
    · exact absurd (.inl h) hxy
    · exact h
    · exact absurd (.inl h) hyx
  have hp : x.2.path = y.2.path :=
    path_unique hxc.2 hyc.2 (fun h => hxy (.inr ⟨ht, h⟩)) (fun h => hyx (.inr ⟨ht.symm, h⟩))
  have ha : e.authority = f.authority :=
    authority_unique (hvalid e he) (hvalid f hf) (by rw [hex]; exact hxc.1) (by rw [hfy]; exact hyc.1)
      (by rw [hex, hfy]; exact ht)
  have hp' : e.path = f.path := by
    have h1 : (resolveMatchEntry e).path = x.2.path := by rw [hex]
    have h2 : (resolveMatchEntry f).path = y.2.path := by rw [hfy]
    exact h1.trans (hp.trans h2.symm)
  rw [← hex, ← hfy]
  simp only [resolveMatchEntry, ha, hp']

/-- **Precedence leaves one answer** in an accepted configuration. -/
theorem best_unique (hacc : validateMatches services = []) {r s : Option Bytes}
    (hr : Best (entries services) authority path r)
    (hs : Best (entries services) authority path s) : r = s := by
  cases r with
  | none =>
    cases s with
    | none => rfl
    | some n =>
      obtain ⟨e, he, hcov, -⟩ := hs
      exact absurd hcov (hr _ he)
  | some m =>
    obtain ⟨e, he, hec, hebest⟩ := hr
    cases s with
    | none => exact absurd hec (hs _ he)
    | some n =>
      obtain ⟨f, hf, hfc, hfbest⟩ := hs
      have := entry_unique hacc he hf hec hfc (hfbest _ he hec) (hebest _ hf hfc)
      exact congrArg some (congrArg Prod.fst this)

/-! ## 5. The matcher and the check -/

theorem best_perm {l l' : List (Bytes × MatchEntry)} (h : l.Perm l') {r : Option Bytes}
    (hr : Best l authority path r) : Best l' authority path r := by
  cases r with
  | none => exact fun x hx => hr x (h.mem_iff.mpr hx)
  | some n =>
    obtain ⟨e, he, hcov, hbest⟩ := hr
    exact ⟨e, h.mem_iff.mp he, hcov, fun x hx => hbest x (h.mem_iff.mpr hx)⟩

/-- **Service matching follows its precedence rules**, and the duplicate check is right in just these cases:
    two valid entries are equal; or the key of some valid entry runs into the authority of another exactly
    when two entries that are not valid are equal. -/
theorem service_matching_iff (services : Services) :
    (validateMatches services = [] → ∀ (sort : List PrefixRule → List PrefixRule), PathRuleSet.Sorts sort →
      ∀ (order : Services), order.Perm services → ∀ (authority path : Bytes) (r : Option Bytes),
        (build sort order).match authority path = r ↔
          Best (entries services) authority (effectivePath path) r) ∧
    ((rejectsDuplicates services = true ↔ ¬ (rules services).Nodup) ↔
      (¬ ((rules services).filter (·.isValid)).Nodup ∨
        ((∃ e ∈ rules services, ∃ f ∈ rules services, e.isValid = true ∧ f.isValid = true ∧ RunsInto e f) ↔
          ¬ ((rules services).filter (!·.isValid)).Nodup))) := by
  constructor
  · intro hacc sort hsort order horder authority path r
    have hbest := match_best hsort order authority path
    have hperm : (entries order).Perm (entries services) :=
      horder.flatMap_right _
    refine ⟨fun h => h ▸ best_perm hperm hbest, fun h => ?_⟩
    exact best_unique hacc (best_perm hperm hbest) h
  · rw [rejectsDuplicates_iff, keys, nodup_keys (fun e he => (mem_filter.mp he).2),
      nodup_parts (rules services)]
    have hruns : (∀ e ∈ (rules services).filter (·.isValid), ∀ f ∈ (rules services).filter (·.isValid),
        ¬ RunsInto e f) ↔ ¬ ∃ e ∈ rules services, ∃ f ∈ rules services,
          e.isValid = true ∧ f.isValid = true ∧ RunsInto e f := by
      simp only [mem_filter]
      constructor
      · rintro h ⟨e, he, f, hf, hev, hfv, hrun⟩
        exact h e ⟨he, hev⟩ f ⟨hf, hfv⟩ hrun
      · rintro h e ⟨he, hev⟩ f ⟨hf, hfv⟩ hrun
        exact h ⟨e, he, f, hf, hev, hfv, hrun⟩
    rw [hruns]
    by_cases hv : ((rules services).filter (·.isValid)).Nodup
    · simp only [hv, true_and, not_true_eq_false, false_or, not_not]
    · simp only [hv, false_and, not_false_eq_true, true_or]

/-- **Different entries with one key.** The authority `a|exact:/b` with the path `/c` and the authority `a`
    with the path `/b|exact:/c` are reported as duplicates. -/
theorem different_entries_rejected :
    let services : Services :=
      [(text "s", [⟨.exactAuthority (text "a|exact:/b"), .exactPath (text "/c")⟩]),
       (text "t", [⟨.exactAuthority (text "a"), .exactPath (text "/b|exact:/c")⟩])]
    rejectsDuplicates services = true ∧ (rules services).Nodup := by
  decide

end Moqx.Service

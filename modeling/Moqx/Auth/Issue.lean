/-
  Subject: ISSUED TOKENS: what the issuer asks for, and what the verifier grants.

  * `grants_of_token` -- grants survive the way through the token but for their expiry (`tokenExpiry`);
  * `issuedScopes_cover` -- what the scopes of the options cover;
  * `issued_token_grants_exactly` -- the grants of an issued token, as the options they were asked with;
  * `token_expiry_iff` -- when a token expires at the time it says.
-/
import Moqx.Auth.Rules

namespace Moqx.Auth

open List

/-! ## 1. The issuer -/

structure IssueTokenOptions where
  keyID : Bytes
  secret : Bytes
  actions : List Action
  /-- A namespace without segments is no namespace given. -/
  trackNamespace : TrackNamespace
  trackName : Option Bytes
  /-- In seconds. -/
  ttl : Int
  now : TimePoint
  deriving DecidableEq, Repr

def isNamespaceAction : Action → Bool
  | .serverSetup => true
  | .publishNamespace => true
  | .subscribeNamespace => true
  | _ => false

namespace IssueTokenOptions

variable (options : IssueTokenOptions)

def namespaceMatches : List MatchRule :=
  if options.trackNamespace = [] then []
  else [⟨.exactMatch, canonicalNamespace options.trackNamespace⟩]

def trackMatches : List MatchRule := options.trackName.toList.map fun name => ⟨.exactMatch, name⟩

def namespaceActions : List Action :=
  options.actions.filter fun action => action ≠ .clientSetup && isNamespaceAction action

def trackActions : List Action :=
  options.actions.filter fun action => action ≠ .clientSetup && !isNamespaceAction action

/-- Up to three scopes: for the setup, for namespace actions and for track actions. -/
def issuedScopes : List Scope :=
  (if options.actions.contains .clientSetup then
    [{ actions := [Action.toNat .clientSetup], namespaceMatches := [], trackMatches := [] }] else []) ++
  (if options.namespaceActions.isEmpty then []
    else [{ actions := options.namespaceActions.map Action.toNat, namespaceMatches := options.namespaceMatches,
            trackMatches := [] }]) ++
  (if options.trackActions.isEmpty then []
    else [{ actions := options.trackActions.map Action.toNat, namespaceMatches := options.namespaceMatches,
            trackMatches := options.trackMatches }])

def issuedGrants : Grants :=
  { expiresAt := int64 (options.now + options.ttl * 1000000000), scopes := options.issuedScopes }

end IssueTokenOptions

variable {options : IssueTokenOptions} {action : Action}

def toCatapultMatch (rules : List MatchRule) : MoqtCompoundMatch := ⟨rules⟩

/-- Seconds are cut off towards zero, and an expiry at the end of the clock is no expiry. -/
def tokenFromGrants (grants : Grants) : CatToken :=
  { exp := if grants.expiresAt = maxTimePoint then none else some (grants.expiresAt.tdiv 1000000000)
    moqt := some (grants.scopes.map fun scope =>
      { actions := scope.actions.map Int.ofNat
        namespaceMatch := toCatapultMatch scope.namespaceMatches
        trackMatch := toCatapultMatch scope.trackMatches }) }

/-- `createCwt` takes the key id, the key and the claims. -/
def issueToken (format : TokenFormat) (createCwt : Bytes → Bytes → CatToken → Bytes)
    (options : IssueTokenOptions) : Except String Bytes :=
  if options.keyID = [] then .error "CAT4MOQ key id must be non-empty"
  else if options.secret = [] then .error "CAT4MOQ secret must be non-empty"
  else if options.actions = [] then .error "at least one CAT4MOQ action is required"
  else if options.ttl ≤ 0 then .error "CAT4MOQ ttl must be greater than zero"
  else .ok (createCwt options.keyID (format.deriveHmacKey options.secret)
    (tokenFromGrants options.issuedGrants))

/-! ## 2. Through the token and back -/

/-- The expiry that is left of `t` once it went through a token. -/
def tokenExpiry (t : TimePoint) : TimePoint :=
  if t = maxTimePoint then maxTimePoint else t.tdiv 1000000000 * 1000000000

theorem tdiv_seconds_range (t : Int) :
    (0 ≤ t → 0 ≤ t.tdiv 1000000000 * 1000000000 ∧ t.tdiv 1000000000 * 1000000000 ≤ t) ∧
    (t ≤ 0 → t ≤ t.tdiv 1000000000 * 1000000000 ∧ t.tdiv 1000000000 * 1000000000 ≤ 0) := by
  constructor
  · intro h
    rw [Int.tdiv_eq_ediv_of_nonneg h]
    omega
  · intro h
    obtain ⟨s, rfl⟩ : ∃ s, t = -s := ⟨-t, by omega⟩
    rw [Int.neg_tdiv, Int.tdiv_eq_ediv_of_nonneg (by omega)]
    omega

theorem fromSeconds_tdiv {t : Int} (hlow : -2 ^ 63 ≤ t) (hhigh : t ≤ maxTimePoint) :
    fromSeconds (t.tdiv 1000000000) = t.tdiv 1000000000 * 1000000000 := by
  have hrange := tdiv_seconds_range t
  have hhigh' : t ≤ 2 ^ 63 - 1 := hhigh
  rcases Int.le_total 0 t with h | h
  · obtain ⟨h1, h2⟩ := hrange.1 h
    exact int64_of_range ⟨by omega, by omega⟩
  · obtain ⟨h1, h2⟩ := hrange.2 h
    exact int64_of_range ⟨by omega, by omega⟩

theorem scopeFromToken_toCatapult (scope : Scope) :
    scopeFromToken { actions := scope.actions.map Int.ofNat
                     namespaceMatch := toCatapultMatch scope.namespaceMatches
                     trackMatch := toCatapultMatch scope.trackMatches } = scope := by
  have hactions : ((scope.actions.map Int.ofNat).filter (0 ≤ ·)).map Int.toNat = scope.actions := by
    rw [filter_eq_self.mpr (by simp), map_map]
    exact (map_congr_left fun n _ => Int.toNat_natCast n).trans (map_id _)
  simp only [scopeFromToken, hactions, fromCatapultMatch, toCatapultMatch]

theorem grants_of_token {grants : Grants} (hlow : -2 ^ 63 ≤ grants.expiresAt)
    (hhigh : grants.expiresAt ≤ maxTimePoint) :
    grantsFromToken (tokenFromGrants grants) = { grants with expiresAt := tokenExpiry grants.expiresAt } := by
  have hscopes : ((tokenFromGrants grants).moqt.getD []).map scopeFromToken = grants.scopes := by
    simp only [tokenFromGrants, Option.getD_some, map_map]
    exact (map_congr_left fun s _ => scopeFromToken_toCatapult s).trans (map_id _)
  rw [grantsFromToken, hscopes]
  congr 1
  simp only [tokenFromGrants, tokenExpiry]
  split
  · rfl
  · exact fromSeconds_tdiv hlow hhigh

/-! ## 3. The scopes that were asked for -/

theorem rulesMatch_namespace {ns : TrackNamespace} (ho : Sized options.trackNamespace) (hn : Sized ns) :
    rulesMatch (canonicalNamespace ns) options.namespaceMatches = true ↔
      options.trackNamespace = [] ∨ ns = options.trackNamespace := by
  simp only [IssueTokenOptions.namespaceMatches]
  split
  · rename_i h
    exact ⟨fun _ => .inl h, fun _ => rfl⟩
  · rename_i h
    simp only [rulesMatch, all_cons, all_nil, Bool.and_true, permits_iff]
    rw [canonicalNamespace_inj hn ho]
    exact ⟨.inr, fun h' => h'.resolve_left h⟩

theorem rulesMatch_track {name : Bytes} :
    rulesMatch name options.trackMatches = true ↔
      options.trackName = none ∨ options.trackName = some name := by
  simp only [IssueTokenOptions.trackMatches]
  cases options.trackName with
  | none => simp [rulesMatch]
  | some given =>
    simp only [Option.toList_some, map_cons, map_nil, rulesMatch, all_cons, all_nil,
      Bool.and_true, permits_iff, reduceCtorEq, false_or, Option.some.injEq]
    exact eq_comm

/-- The test of one scope in the check of an action. -/
abbrev covers (action : Action) (nsBytes trackBytes : Bytes) (scope : Scope) : Bool :=
  scope.actions.contains action.toNat && rulesMatch nsBytes scope.namespaceMatches &&
    rulesMatch trackBytes scope.trackMatches

/-- A scope that is left out when it would have no actions covers an action exactly when the action is one
    of them. -/
theorem any_of_nonempty {actions : List Action} {nsRules trackRules : List MatchRule}
    {nsBytes trackBytes : Bytes} :
    ((if actions.isEmpty then [] else
        [({ actions := actions.map Action.toNat, namespaceMatches := nsRules,
            trackMatches := trackRules } : Scope)]).any (covers action nsBytes trackBytes)) = true ↔
      action ∈ actions ∧ rulesMatch nsBytes nsRules = true ∧ rulesMatch trackBytes trackRules = true := by
  cases actions with
  | nil => simp
  | cons a actions =>
    simp only [isEmpty_cons, Bool.false_eq_true, if_false, any_cons, any_nil, Bool.or_false,
      Bool.and_eq_true, mem_toNat, and_assoc]

theorem mem_namespaceActions :
    action ∈ options.namespaceActions ↔
      action ∈ options.actions ∧ action ≠ .clientSetup ∧ isNamespaceAction action = true := by
  simp [IssueTokenOptions.namespaceActions, mem_filter]

theorem mem_trackActions :
    action ∈ options.trackActions ↔
      action ∈ options.actions ∧ action ≠ .clientSetup ∧ isNamespaceAction action = false := by
  simp [IssueTokenOptions.trackActions, mem_filter]

/-- The scopes of the options cover an action exactly when it was asked for, and the setup, or its
    namespace and, for a track action, its track are the given ones. -/
theorem issuedScopes_cover {nsBytes trackBytes : Bytes} :
    (options.issuedScopes.any (covers action nsBytes trackBytes)) = true ↔
      action ∈ options.actions ∧ (action = .clientSetup ∨
        rulesMatch nsBytes options.namespaceMatches = true ∧
          (isNamespaceAction action = true ∨ rulesMatch trackBytes options.trackMatches = true)) := by
  have hsetup : ((if options.actions.contains .clientSetup then
        [({ actions := [Action.toNat .clientSetup], namespaceMatches := [], trackMatches := [] } : Scope)]
        else []).any (covers action nsBytes trackBytes)) = true ↔
      action ∈ options.actions ∧ action = .clientSetup := by
    split
    · rename_i h
      rw [contains_iff_mem] at h
      simp only [any_cons, any_nil, Bool.or_false, covers, rulesMatch, all_nil, Bool.and_true]
      have hmem := @mem_toNat [.clientSetup] action
      rw [map_cons, map_nil] at hmem
      rw [hmem, mem_singleton]
      exact ⟨fun ha => ⟨ha ▸ h, ha⟩, (·.2)⟩
    · rename_i h
      rw [contains_iff_mem] at h
      refine ⟨fun hany => (by cases hany), ?_⟩
      rintro ⟨hm, ha⟩
      exact absurd (ha ▸ hm) h
  rw [IssueTokenOptions.issuedScopes, any_append, any_append, Bool.or_eq_true, Bool.or_eq_true,
    hsetup, any_of_nonempty, any_of_nonempty, mem_namespaceActions, mem_trackActions]
  constructor
  · rintro ((⟨hm, ha⟩ | ⟨⟨hm, -, hns⟩, hrule, -⟩) | ⟨⟨hm, -, -⟩, hrule, htrack⟩)
    · exact ⟨hm, .inl ha⟩
    · exact ⟨hm, .inr ⟨hrule, .inl hns⟩⟩
    · exact ⟨hm, .inr ⟨hrule, .inr htrack⟩⟩
  · rintro ⟨hm, ha | ⟨hrule, hkind⟩⟩
    · exact .inl (.inl ⟨hm, ha⟩)
    · by_cases hc : action = .clientSetup
      · exact .inl (.inl ⟨hm, hc⟩)
      · cases hns : isNamespaceAction action with
        | true => exact .inl (.inr ⟨⟨hm, hc, rfl⟩, hrule, rfl⟩)
        | false =>
          rw [hns] at hkind
          exact .inr ⟨⟨hm, hc, rfl⟩, hrule, hkind.resolve_left Bool.false_ne_true⟩

/-! ## 4. What an issued token grants -/

/-- The token format reads back a token it has written, and finds no claim in it but those written. -/
def ReadsBack (format : TokenFormat) (createCwt : Bytes → Bytes → CatToken → Bytes) (keyID key : Bytes)
    (token : CatToken) : Prop :=
  createCwt keyID key token ≠ [] ∧ format.decodeHeader (createCwt keyID key token) = some (some keyID) ∧
    format.validateCwt (createCwt keyID key token) key = .ok token ∧
    format.hasOnlyEnforcedClaims (createCwt keyID key token) = true

/-- **Issued tokens grant exactly what was asked.** Valid options are issued; a verifier that holds the
    key takes the token until it expires, and the grants it derives allow an action exactly when it was
    one of the issued ones, the time is before the expiry left of issue time plus ttl, and the action is
    the setup, or the namespace is the given one if one was given, and so is the track unless the action
    is one on namespaces. -/
theorem issued_token_grants_exactly {v : AuthTokenVerifier} {createCwt : Bytes → Bytes → CatToken → Bytes}
    {options : IssueTokenOptions} {key : HmacKey} (hid : options.keyID ≠ []) (hsecret : options.secret ≠ [])
    (hactions : options.actions ≠ []) (httl : 0 < options.ttl) (hnow : -2 ^ 63 ≤ options.now)
    (hexp : options.now + options.ttl * 1000000000 ≤ maxTimePoint) (hsized : Sized options.trackNamespace)
    (hback : ReadsBack v.format createCwt options.keyID (v.format.deriveHmacKey options.secret)
      (tokenFromGrants options.issuedGrants))
    (henabled : v.config.enabled = true) (hkey : v.keyById options.keyID = some key)
    (hsame : key.secret = options.secret) :
    ∃ value grants, issueToken v.format createCwt options = .ok value ∧
      (∀ verifyNow, v.verify ⟨v.config.tokenType, value⟩ verifyNow =
        if tokenExpiry (options.now + options.ttl * 1000000000) ≤ verifyNow then .error .expired
        else .ok grants) ∧
      ∀ (action : Action) (ns : TrackNamespace) (trackName : Option Bytes) (now : TimePoint), Sized ns →
        (allowsImpl grants action ns trackName now = true ↔
          action ∈ options.actions ∧ now < tokenExpiry (options.now + options.ttl * 1000000000) ∧
          (action = .clientSetup ∨
            (options.trackNamespace = [] ∨ ns = options.trackNamespace) ∧
            (isNamespaceAction action = true ∨ options.trackName = none ∨
              options.trackName = some (trackName.getD [])))) := by
  obtain ⟨hne, hheader, hvalid, hclaims⟩ := hback
  have hlow : -2 ^ 63 ≤ options.now + options.ttl * 1000000000 := by
    have hnow' : (-2 ^ 63 : Int) ≤ options.now := hnow
    exact Int.le_trans hnow' (Int.le_add_of_nonneg_right (by omega))
  have hint : options.issuedGrants.expiresAt = options.now + options.ttl * 1000000000 :=
    int64_of_range ⟨hlow, Int.lt_of_le_sub_one hexp⟩
  have hgrants := @grants_of_token options.issuedGrants (by rw [hint]; exact hlow) (by rw [hint]; exact hexp)
  refine ⟨createCwt options.keyID (v.format.deriveHmacKey options.secret)
    (tokenFromGrants options.issuedGrants), grantsFromToken (tokenFromGrants options.issuedGrants), ?_, ?_, ?_⟩
  · simp only [issueToken, hid, hsecret, hactions, if_false, Int.not_le.mpr httl]
  · intro verifyNow
    simp only [AuthTokenVerifier.verify, henabled, Bool.not_true, Bool.false_eq_true, if_false, ne_eq,
      not_true_eq_false, hne, hheader, hkey, AuthTokenVerifier.tryVerify, hsame, hvalid, hclaims,
      Bool.and_false, hgrants, hint]
  · intro action ns trackName now hns
    rw [hgrants, allowsImpl]
    simp only [hint]
    split
    · rename_i h
      exact ⟨fun hno => (by cases hno), fun hyes => absurd h (Int.not_le.mpr hyes.2.1)⟩
    · rename_i h
      have hcover := @issuedScopes_cover options action (canonicalNamespace ns) (trackName.getD [])
      rw [rulesMatch_namespace hsized hns, rulesMatch_track] at hcover
      rw [show options.issuedGrants.scopes = options.issuedScopes from rfl, hcover]
      exact ⟨fun hyes => ⟨hyes.1, Int.not_le.mp h, hyes.2⟩, fun hyes => ⟨hyes.1, hyes.2.2⟩⟩

/-- Subscriptions in a namespace, for `ttl` seconds from `now` on. -/
def subscribeOptions (trackNamespace : TrackNamespace) (ttl : Int) (now : TimePoint) : IssueTokenOptions :=
  { keyID := [1], secret := [2], actions := [.subscribe], trackNamespace, trackName := none, ttl, now }

/-- A verifier whose only key is the one of these options, and a format that knows one token. -/
def oneTokenVerifier : AuthTokenVerifier :=
  { config := { enabled := true, hmacKeys := [⟨[1], [2]⟩], strictClaims := true }
    format :=
      { deriveHmacKey := fun secret => secret
        decodeHeader := fun _ => some (some [1])
        validateCwt := fun _ _ => .ok (tokenFromGrants (subscribeOptions [[97]] 60 0).issuedGrants)
        hasOnlyEnforcedClaims := fun _ => true } }

/-- A token for the namespace `a` lets its holder subscribe there until the minute is over. -/
theorem issued_token_grants_subscription :
    ∃ value grants,
      issueToken oneTokenVerifier.format (fun _ _ _ => [7]) (subscribeOptions [[97]] 60 0) = .ok value ∧
      oneTokenVerifier.verify ⟨0, value⟩ 0 = .ok grants ∧
      allowsImpl grants .subscribe [[97]] (some [98]) 59999999999 = true ∧
      ¬ allowsImpl grants .subscribe [[97]] (some [98]) 60000000000 = true := by
  obtain ⟨value, grants, hissue, hverify, hallow⟩ :=
    @issued_token_grants_exactly oneTokenVerifier (fun _ _ _ => [7]) (subscribeOptions [[97]] 60 0) ⟨[1], [2]⟩
      (by decide) (by decide) (by decide) (by decide) (by decide) (by decide) (by decide)
      ⟨nofun, rfl, rfl, rfl⟩ rfl (by decide) rfl
  refine ⟨value, grants, hissue, (hverify 0).trans (if_neg (by decide)), ?_, ?_⟩
  · rw [hallow _ _ _ _ (by decide)]
    decide
  · rw [hallow _ _ _ _ (by decide)]
    decide

/-! ## 5. Where the expiry and the namespace are not the ones asked for -/

theorem canonicalNamespace_empty_segments (n : Nat) :
    canonicalNamespace (List.replicate n []) = List.replicate (4 * n) 0 := by
  induction n with
  | zero => rfl
  | succ n ih =>
    rw [replicate_succ, canonicalNamespace, flatMap_cons]
    have hhead : encodeSegment [] = replicate 4 0 := rfl
    have htail : (replicate n []).flatMap encodeSegment = replicate (4 * n) 0 := ih
    rw [hhead, htail, replicate_append_replicate, Nat.mul_succ, Nat.add_comm]

theorem canonicalNamespace_zeros {n : Nat} (h : 4 * n % 2 ^ 32 = 0) :
    canonicalNamespace (List.replicate (n + 1) []) = canonicalNamespace [List.replicate (4 * n) 0] := by
  rw [canonicalNamespace_empty_segments, canonicalNamespace, flatMap_singleton, encodeSegment,
    length_replicate, h]
  have hhead : bigEndian32 0 = replicate 4 0 := rfl
  rw [hhead, replicate_append_replicate, Nat.mul_succ, Nat.add_comm]

theorem subscribeOptions_allow {given ns : TrackNamespace} (hgiven : given ≠ [])
    (h : canonicalNamespace ns = canonicalNamespace given) :
    allowsImpl (grantsFromToken (tokenFromGrants (subscribeOptions given 60 0).issuedGrants)) .subscribe ns
      none 0 = true := by
  have hexp : (subscribeOptions given 60 0).issuedGrants.expiresAt = 60000000000 := rfl
  have hlater : ¬ tokenExpiry 60000000000 ≤ 0 := by decide
  rw [grants_of_token (by rw [hexp]; decide) (by rw [hexp]; decide), hexp, allowsImpl, if_neg hlater]
  refine issuedScopes_cover.mpr ⟨mem_singleton_self _, .inr ⟨?_, .inr rfl⟩⟩
  have hrules : (subscribeOptions given 60 0).namespaceMatches = [⟨.exactMatch, canonicalNamespace given⟩] :=
    if_neg hgiven
  simp only [hrules, rulesMatch, all_cons, all_nil, Bool.and_true, permits_iff]
  exact h

/-- **Three ways to more than was asked for.** A token that expires at the very end of the clock carries no
    expiry, one that expires before the epoch has it rounded up, and the token for a namespace of one
    segment of 2^32 zero bytes grants the namespace of 2^30 + 1 empty segments. -/
theorem issued_token_exceeds_options :
    (allowsImpl (grantsFromToken (tokenFromGrants
        (subscribeOptions [] 1 (maxTimePoint - 1000000000)).issuedGrants)) .subscribe [] none
        (maxTimePoint - 1) = true ∧
      maxTimePoint / 1000000000 * 1000000000 ≤ maxTimePoint - 1) ∧
    (allowsImpl (grantsFromToken (tokenFromGrants
        (subscribeOptions [] 1 (-1500000000)).issuedGrants)) .subscribe [] none (-700000000) = true ∧
      (-500000000 : Int) / 1000000000 * 1000000000 ≤ -700000000) ∧
    (allowsImpl (grantsFromToken (tokenFromGrants
        (subscribeOptions [List.replicate (4 * 2 ^ 30) 0] 60 0).issuedGrants)) .subscribe
        (List.replicate (2 ^ 30 + 1) []) none 0 = true ∧
      List.replicate (2 ^ 30 + 1) [] ≠ [List.replicate (4 * 2 ^ 30) (0 : UInt8)]) := by
  refine ⟨by decide, by decide, ?_, ?_⟩
  · exact subscribeOptions_allow (cons_ne_nil _ _) (canonicalNamespace_zeros (by decide))
  · intro h
    have hlen := congrArg length h
    rw [length_replicate, length_singleton] at hlen
    omega

/-! ## 6. When a token expires -/

/-- **A token expires when it says exactly if its expiry fits the clock.** For a token with an expiry that
    the claim filter accepts, and a request its scopes allow: the verifier and the check of the grant take
    it as expired at every time from the expiry on and at no other, if and only if the nanoseconds of the
    expiry are a 64-bit number. -/
theorem token_expiry_iff (v : AuthTokenVerifier) (token : AuthToken) (key : HmacKey) (cwt : CatToken)
    (exp : Int) (action : Action) (ns : TrackNamespace) (trackName : Option Bytes)
    (hcwt : v.format.validateCwt token.tokenValue (v.format.deriveHmacKey key.secret) = .ok cwt)
    (hexp : cwt.exp = some exp) (hlow : 0 ≤ exp) (hhigh : exp < 2 ^ 63)
    (hscopes : allowsImpl { scopes := (grantsFromToken cwt).scopes } action ns trackName 0 = true) :
    (∀ now, Int64Range now →
      (v.tryVerify token now key = .error .expired ↔ exp * 1000000000 ≤ now) ∧
      (allowsImpl (grantsFromToken cwt) action ns trackName now = false ↔ exp * 1000000000 ≤ now)) ↔
    exp ≤ 9223372036 := by
  have hexpires : (grantsFromToken cwt).expiresAt = int64 (exp * 1000000000) := by
    rw [grantsFromToken, hexp]
    rfl
  have hverify : ∀ now, v.tryVerify token now key = .error .expired ↔ int64 (exp * 1000000000) ≤ now := by
    intro now
    simp only [AuthTokenVerifier.tryVerify, hcwt, hexpires]
    split
    · rename_i h
      exact iff_of_true rfl h
    · rename_i h
      split <;> exact iff_of_false (by simp) h
  have hallows : ∀ now, allowsImpl (grantsFromToken cwt) action ns trackName now = false ↔
      int64 (exp * 1000000000) ≤ now := by
    intro now
    rw [allowsImpl, if_neg (show ¬maxTimePoint ≤ 0 by decide)] at hscopes
    rw [allowsImpl, hexpires, hscopes]
    split
    · rename_i h
      exact iff_of_true rfl h
    · rename_i h
      exact iff_of_false Bool.false_ne_true.symm h
  simp only [hverify, hallows, and_self]
  constructor
  · -- no time of the clock is later than its last one
    intro h
    have hlast := h (2 ^ 63 - 1) ⟨by omega, by omega⟩
    have hclock : int64 (exp * 1000000000) ≤ 2 ^ 63 - 1 := by
      have := @Int.bmod_lt (exp * 1000000000) (2 ^ 64) (by decide)
      unfold int64
      omega
    have := hlast.mp hclock
    omega
  · intro h now _
    rw [int64_of_range ⟨by omega, by omega⟩]

/-- A verifier that knows one token, with this expiry, for subscriptions. -/
def expiringVerifier (exp : Int) : AuthTokenVerifier :=
  { oneTokenVerifier with format := { oneTokenVerifier.format with
      validateCwt := fun _ _ => .ok { exp := some exp, moqt := some [⟨[4], ⟨[]⟩, ⟨[]⟩⟩] } } }

theorem token_expiry_iff_minute :
    (expiringVerifier 60).tryVerify ⟨0, [7]⟩ 59999999999 ⟨[1], [2]⟩ ≠ .error .expired ∧
      (expiringVerifier 60).tryVerify ⟨0, [7]⟩ 60000000000 ⟨[1], [2]⟩ = .error .expired := by
  have h := (token_expiry_iff (expiringVerifier 60) ⟨0, [7]⟩ ⟨[1], [2]⟩ _ 60 .subscribe [] none rfl rfl
    (by decide) (by decide) (by decide)).mpr (by decide)
  exact ⟨fun h' => absurd ((h _ ⟨by decide, by decide⟩).1.mp h') (by decide),
    (h _ ⟨by decide, by decide⟩).1.mpr (by decide)⟩

/-- A token that is good for another 292 billion years is refused as expired. -/
theorem last_expiry_refused :
    (expiringVerifier (2 ^ 63 - 1)).verify ⟨0, [7]⟩ 0 = .error .expired ∧
      ¬ (2 ^ 63 - 1) * 1000000000 ≤ (0 : Int) := by
  exact ⟨rfl, by decide⟩

end Moqx.Auth

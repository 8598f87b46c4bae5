/-
  Subject: AUTHORIZATION: grants, the rules they are made of, and how a request is checked against them.

  * `Action`, `MatchRule`, `Scope`, `Grants` -- what a token or the configuration grants;
  * `canonicalNamespace` -- a namespace as the bytes the rules are matched against;
  * `buildAnonymousGrants`, `grantsFromToken` -- grants from the configuration and from a decoded token;
  * `verify`, `authorize` -- the check of one token, and of one request.

  The token format, its cryptography and the claim filter of `strict_claims` are the functions of
  `TokenFormat`; nothing is assumed of them here.
-/
import Moqx.Types

namespace Moqx.Auth

abbrev TrackNamespace := List Bytes

inductive Action where
  | clientSetup
  | serverSetup
  | publishNamespace
  | subscribeNamespace
  | subscribe
  | requestUpdate
  | publish
  | fetch
  | trackStatus
  deriving DecidableEq, Repr

def Action.toNat : Action → Nat
  | .clientSetup => 0
  | .serverSetup => 1
  | .publishNamespace => 2
  | .subscribeNamespace => 3
  | .subscribe => 4
  | .requestUpdate => 5
  | .publish => 6
  | .fetch => 7
  | .trackStatus => 8

inductive AuthError where
  | missing
  | wrongTokenType
  | malformed
  | badSignature
  | expired
  | forbidden
  | tooManyTokens
  deriving DecidableEq, Repr

def AuthError.toString : AuthError → String
  | .missing => "missing authorization token"
  | .wrongTokenType => "wrong authorization token type"
  | .malformed => "malformed authorization token"
  | .badSignature => "invalid authorization token signature"
  | .expired => "expired authorization token"
  | .forbidden => "authorization token does not permit action"
  | .tooManyTokens => "too many authorization tokens in message"

/-! ## 1. Rules -/

inductive MatchRuleType where
  | exactMatch
  | prefixMatch
  | suffixMatch
  | containsMatch
  deriving DecidableEq, Repr

structure MatchRule where
  type : MatchRuleType
  value : Bytes
  deriving DecidableEq, Repr

structure Scope where
  /-- An action of a token is any number: an unknown one matches nothing. -/
  actions : List Nat
  namespaceMatches : List MatchRule
  trackMatches : List MatchRule
  deriving DecidableEq, Repr

/-- `system_clock::time_point::max()`, in nanoseconds. -/
def maxTimePoint : TimePoint := 2 ^ 63 - 1

structure Grants where
  expiresAt : TimePoint := maxTimePoint
  scopes : List Scope := []
  deriving DecidableEq, Repr

/-- A 32-bit number as its four bytes, the highest first. -/
def bigEndian32 (n : Nat) : Bytes :=
  [(n / 2 ^ 24).toUInt8, (n / 2 ^ 16).toUInt8, (n / 2 ^ 8).toUInt8, n.toUInt8]

/-- One segment with its length in front, as a `uint32_t`. -/
def encodeSegment (field : Bytes) : Bytes := bigEndian32 (field.length % 2 ^ 32) ++ field

def canonicalNamespace (ns : TrackNamespace) : Bytes := ns.flatMap encodeSegment

/-- `actual.find(expected) != npos`. -/
def occursIn (expected actual : Bytes) : Bool := actual.tails.any fun t => expected.isPrefixOf t

def MatchRule.permits (rule : MatchRule) (actual : Bytes) : Bool :=
  match rule.type with
  | .exactMatch => actual == rule.value
  | .prefixMatch => rule.value.isPrefixOf actual
  | .suffixMatch =>
    decide (rule.value.length ≤ actual.length) &&
      actual.drop (actual.length - rule.value.length) == rule.value
  | .containsMatch => occursIn rule.value actual

def rulesMatch (actual : Bytes) (rules : List MatchRule) : Bool := rules.all (·.permits actual)

/-- Without a track name the track rules see no bytes. -/
def allowsImpl (grants : Grants) (action : Action) (ns : TrackNamespace) (trackName : Option Bytes)
    (now : TimePoint) : Bool :=
  if grants.expiresAt ≤ now then false
  else
    grants.scopes.any fun scope =>
      scope.actions.contains action.toNat && rulesMatch (canonicalNamespace ns) scope.namespaceMatches &&
        rulesMatch (trackName.getD []) scope.trackMatches

def allowsAny (grantsList : List Grants) (action : Action) (ns : TrackNamespace) (trackName : Option Bytes)
    (now : TimePoint) : Bool :=
  grantsList.any fun grants => allowsImpl grants action ns trackName now

/-! ## 2. Grants from the configuration -/

structure AnonymousScope where
  actions : List Action
  /-- No segments at all match any namespace. -/
  namespaceSegments : Option (List Bytes) := none
  namespaceMatchMode : MatchRuleType := .exactMatch
  trackName : Option Bytes := none
  trackMatchMode : MatchRuleType := .exactMatch
  deriving DecidableEq, Repr

def AnonymousScope.scope (configScope : AnonymousScope) : Scope :=
  { actions := configScope.actions.map Action.toNat
    namespaceMatches := configScope.namespaceSegments.toList.map fun segments =>
      ⟨configScope.namespaceMatchMode, canonicalNamespace segments⟩
    trackMatches := configScope.trackName.toList.map fun name => ⟨configScope.trackMatchMode, name⟩ }

/-- A static claim never expires. -/
def buildAnonymousGrants (configScopes : List AnonymousScope) : Grants :=
  { scopes := configScopes.map AnonymousScope.scope }

structure HmacKey where
  id : Bytes
  secret : Bytes
  deriving DecidableEq, Repr

structure AuthConfig where
  enabled : Bool := false
  tokenType : Nat := 0
  hmacKeys : List HmacKey := []
  requireSetupToken : Bool := true
  allowRequestTokenOverride : Bool := true
  strictClaims : Bool := false
  anonymousClaim : List AnonymousScope := []
  maxTokensPerMessage : Nat := 0
  deriving DecidableEq, Repr

/-! ## 3. Grants from a token -/

/-- The conditions of a match; none of them is `any()`. -/
structure MoqtCompoundMatch where
  conditions : List MatchRule
  deriving DecidableEq, Repr

structure MoqtScope where
  actions : List Int
  namespaceMatch : MoqtCompoundMatch
  trackMatch : MoqtCompoundMatch
  deriving DecidableEq, Repr

/-- The claims of a decoded token that the relay reads. -/
structure CatToken where
  exp : Option Int := none
  moqt : Option (List MoqtScope) := none
  deriving DecidableEq, Repr

/-- `time_point(seconds(n))`, on a clock that counts nanoseconds in 64 bits. -/
def fromSeconds (n : Int) : TimePoint := int64 (n * 1000000000)

def fromCatapultMatch (m : MoqtCompoundMatch) : List MatchRule := m.conditions

def scopeFromToken (catScope : MoqtScope) : Scope :=
  { actions := (catScope.actions.filter (0 ≤ ·)).map Int.toNat
    namespaceMatches := fromCatapultMatch catScope.namespaceMatch
    trackMatches := fromCatapultMatch catScope.trackMatch }

def grantsFromToken (token : CatToken) : Grants :=
  { expiresAt := (token.exp.map fromSeconds).getD maxTimePoint
    scopes := (token.moqt.getD []).map scopeFromToken }

/-! ## 4. Checking tokens -/

/-- How `validateCwt` fails. -/
inductive CwtError where
  | crypto
  | cat
  deriving DecidableEq, Repr

/-- The token format: what the relay calls to read a token. -/
structure TokenFormat where
  deriveHmacKey : Bytes → Bytes
  /-- The key id of the header, `none` for a header that cannot be read. -/
  decodeHeader : Bytes → Option (Option Bytes)
  validateCwt : Bytes → Bytes → Except CwtError CatToken
  hasOnlyEnforcedClaims : Bytes → Bool

structure AuthToken where
  tokenType : Nat
  tokenValue : Bytes
  deriving DecidableEq, Repr

/-- A request parameter; only an `AUTHORIZATION_TOKEN` carries a token. -/
structure Parameter where
  key : Nat
  asAuthToken : AuthToken
  deriving DecidableEq, Repr

/-- `TrackRequestParamKey::AUTHORIZATION_TOKEN`. -/
def authorizationToken : Nat := 3

structure AuthTokenVerifier where
  config : AuthConfig
  format : TokenFormat

namespace AuthTokenVerifier

variable (v : AuthTokenVerifier)

def anonymousGrants : Grants := buildAnonymousGrants v.config.anonymousClaim

def tryVerify (token : AuthToken) (now : TimePoint) (key : HmacKey) : Except AuthError Grants :=
  match v.format.validateCwt token.tokenValue (v.format.deriveHmacKey key.secret) with
  | .error .crypto => .error .badSignature
  | .error .cat => .error .malformed
  | .ok cwt =>
    let grants := grantsFromToken cwt
    if grants.expiresAt ≤ now then .error .expired
    else if v.config.strictClaims && !v.format.hasOnlyEnforcedClaims token.tokenValue then .error .malformed
    else .ok grants

/-- The loop over all keys goes on only past a bad signature. -/
def tryKeys (token : AuthToken) (now : TimePoint) : List HmacKey → Except AuthError Grants
  | [] => .error .badSignature
  | key :: keys =>
    match v.tryVerify token now key with
    | .error .badSignature => tryKeys token now keys
    | result => result

/-- The first configured key of that id is the one the index knows. -/
def keyById (kid : Bytes) : Option HmacKey :=
  if kid = [] then none else v.config.hmacKeys.find? fun key => key.id == kid

def verify (token : AuthToken) (now : TimePoint) : Except AuthError Grants :=
  if !v.config.enabled then .ok {}
  else if token.tokenType ≠ v.config.tokenType then .error .wrongTokenType
  else if token.tokenValue = [] then .error .malformed
  else
    match v.format.decodeHeader token.tokenValue with
    | none => .error .malformed
    | some (some kid) =>
      match v.keyById kid with
      | none => .error .badSignature
      | some key => v.tryVerify token now key
    | some none => v.tryKeys token now v.config.hmacKeys

end AuthTokenVerifier

def findAuthTokens (params : List Parameter) (tokenType : Nat) : List AuthToken :=
  (params.filter fun param =>
    param.key == authorizationToken && param.asAuthToken.tokenType == tokenType).map (·.asAuthToken)

structure VerifiedTokens where
  grants : List Grants := []
  firstError : Option AuthError := none

def verifyTokens (v : AuthTokenVerifier) (tokens : List AuthToken) (now : TimePoint) : VerifiedTokens :=
  tokens.foldl (fun result token =>
    match v.verify token now with
    | .error e => { result with firstError := result.firstError.orElse fun _ => some e }
    | .ok grants => { result with grants := result.grants ++ [grants] }) {}

def denialError (verifiedGrants : List Grants) (firstError : Option AuthError) : AuthError :=
  if verifiedGrants.isEmpty then firstError.getD .forbidden else .forbidden

/-- The grants of the request's own tokens, where the configuration lets them count. -/
def requestGrants (v : AuthTokenVerifier) (tokens : List AuthToken) (verifyNow : TimePoint) :
    VerifiedTokens :=
  if v.config.allowRequestTokenOverride then verifyTokens v tokens verifyNow else {}

/-- The tokens are verified at `verifyNow`, the grants compared with the clock again at `now`. -/
def authorize (v : AuthTokenVerifier) (action : Action) (params : List Parameter) (ns : TrackNamespace)
    (sessionGrants : List Grants) (trackName : Option Bytes) (verifyNow now : TimePoint) :
    Except AuthError Unit :=
  if !v.config.enabled then .ok ()
  else
    let tokens := findAuthTokens params v.config.tokenType
    if v.config.maxTokensPerMessage < tokens.length then .error .tooManyTokens
    else
      let request := requestGrants v tokens verifyNow
      if allowsAny request.grants action ns trackName now || allowsAny sessionGrants action ns trackName now ||
          allowsImpl v.anonymousGrants action ns trackName now then .ok ()
      else .error (denialError request.grants request.firstError)

end Moqx.Auth

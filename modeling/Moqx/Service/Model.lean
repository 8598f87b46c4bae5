/-
  Subject: SERVICES: which one a session is for, by its authority and path.

  * `MatchRule`, `MatchEntry` -- an entry of a service as it is configured, and as it is resolved;
  * `validateAuthority`, `validatePath`, `makeCompositeKey` -- what the config resolver checks of an entry;
  * `validateMatches` -- the errors it reports for all services, duplicates among them;
  * `ServiceMatcher` -- the rule sets built from the resolved services, and the look-up in them.
-/
import Moqx.Types

namespace Moqx.Service

def text (s : String) : Bytes := s.toList.map fun c => c.toNat.toUInt8

def star : UInt8 := 42
def dot : UInt8 := 46
def slash : UInt8 := 47

/-! ## 1. Entries -/

inductive PathMatcher where
  | exactPath (value : Bytes)
  | prefixPath (value : Bytes)
  deriving DecidableEq, Repr

def PathMatcher.value : PathMatcher → Bytes
  | exactPath value => value
  | prefixPath value => value

inductive AuthorityMatch where
  | exactAuthority (value : Bytes)
  | wildcardAuthority (pattern : Bytes)
  | anyAuthority (any : Bool)
  deriving DecidableEq, Repr

structure MatchRule where
  authority : AuthorityMatch
  path : PathMatcher
  deriving DecidableEq, Repr

inductive Authority where
  | exactAuthority (value : Bytes)
  | wildcardAuthority (pattern : Bytes)
  | anyAuthority
  deriving DecidableEq, Repr

structure MatchEntry where
  authority : Authority
  path : PathMatcher
  deriving DecidableEq, Repr

def resolveMatchEntry (entry : MatchRule) : MatchEntry :=
  { authority :=
      match entry.authority with
      | .exactAuthority value => .exactAuthority value
      | .wildcardAuthority pattern => .wildcardAuthority pattern
      | .anyAuthority _ => .anyAuthority
    path := entry.path }

/-! ## 2. The resolver's checks -/

inductive MatchError where
  | exactEmpty
  | wildcardStart (pattern : Bytes)
  | wildcardStar (pattern : Bytes)
  | anyFalse
  | pathEmpty
  | pathSlash (value : Bytes)
  | duplicate (key : Bytes)
  deriving DecidableEq, Repr

/-- An error, with the service and the entry it is about. -/
structure ConfigError where
  service : Bytes
  index : Nat
  reason : MatchError
  deriving DecidableEq, Repr

/-- "Service 'name' match[j]". -/
def matchRuleErrorLabel (name : Bytes) (j : Nat) : Bytes :=
  text "Service '" ++ name ++ text "' match[" ++ text (toString j) ++ text "]"

def ConfigError.render (e : ConfigError) : Bytes :=
  let label := matchRuleErrorLabel e.service e.index
  match e.reason with
  | .exactEmpty => label ++ text ".authority: exact value must be non-empty"
  | .wildcardStart pattern =>
    label ++ text ".authority: wildcard must start with '*.' (e.g. '*.example.com'), got '" ++ pattern ++ text "'"
  | .wildcardStar pattern =>
    label ++ text ".authority: wildcard must contain exactly one '*' at the start, got '" ++ pattern ++ text "'"
  | .anyFalse => label ++ text ".authority: any must be true"
  | .pathEmpty => label ++ text ".path: value must be non-empty"
  | .pathSlash value => label ++ text ".path: value must start with '/', got '" ++ value ++ text "'"
  | .duplicate key =>
    text "Duplicate (authority, path) combination in service '" ++ e.service ++ text "': " ++ key

structure AuthorityInfo where
  type : Bytes
  value : Bytes
  deriving DecidableEq, Repr

def validateAuthority : AuthorityMatch → Except MatchError AuthorityInfo
  | .exactAuthority value => if value.isEmpty then .error .exactEmpty else .ok ⟨text "exact", value⟩
  | .wildcardAuthority pattern =>
    if pattern.length < 3 || pattern[0]? != some star || pattern[1]? != some dot then
      .error (.wildcardStart pattern)
    else if (pattern.drop 2).contains star then .error (.wildcardStar pattern)
    else .ok ⟨text "wildcard", pattern⟩
  | .anyAuthority any => if any then .ok ⟨text "any", []⟩ else .error .anyFalse

def validatePath (path : PathMatcher) : Except MatchError Unit :=
  if path.value.isEmpty then .error .pathEmpty
  else if path.value[0]? != some slash then .error (.pathSlash path.value)
  else .ok ()

def pathKey : PathMatcher → Bytes
  | .exactPath value => text "exact:" ++ value
  | .prefixPath value => text "prefix:" ++ value

def makeCompositeKey (info : AuthorityInfo) (path : PathMatcher) : Bytes :=
  info.type ++ text ":" ++ info.value ++ text "|" ++ pathKey path

/-- The key of an entry that passes both checks; the path of an entry with a bad authority is not
    looked at. -/
def entryKey (entry : MatchRule) : Except MatchError Bytes := do
  let info ← validateAuthority entry.authority
  validatePath entry.path
  return makeCompositeKey info entry.path

abbrev Services := List (Bytes × List MatchRule)

/-- All entries in the order of the loops, with their service and their index in it. -/
def indexed (services : Services) : List (Bytes × Nat × MatchRule) :=
  services.flatMap fun svc => svc.2.zipIdx.map fun e => (svc.1, e.2, e.1)

structure Checked where
  compositeKeys : List Bytes := []
  errors : List ConfigError := []

def validateEntry (st : Checked) (e : Bytes × Nat × MatchRule) : Checked :=
  match entryKey e.2.2 with
  | .error reason => { st with errors := st.errors ++ [⟨e.1, e.2.1, reason⟩] }
  | .ok key =>
    if key ∈ st.compositeKeys then { st with errors := st.errors ++ [⟨e.1, e.2.1, .duplicate key⟩] }
    else { st with compositeKeys := key :: st.compositeKeys }

def validateMatches (services : Services) : List ConfigError :=
  ((indexed services).foldl validateEntry {}).errors

def ConfigError.isDuplicate (e : ConfigError) : Bool :=
  match e.reason with
  | .duplicate _ => true
  | _ => false

/-- A configuration is rejected for duplication if an error says so. -/
def rejectsDuplicates (services : Services) : Bool := (validateMatches services).any ConfigError.isDuplicate

/-! ## 3. The matcher -/

structure PrefixRule where
  value : Bytes
  serviceName : Bytes
  deriving DecidableEq, Repr

structure PathRuleSet where
  exactPaths : AList (fun _ : Bytes => Bytes) := ∅
  prefixPaths : List PrefixRule := []

namespace PathRuleSet

def addRule (rules : PathRuleSet) (path : PathMatcher) (serviceName : Bytes) : PathRuleSet :=
  match path with
  | .exactPath value =>
    -- try_emplace: the first service stays
    if (rules.exactPaths.lookup value).isSome then rules
    else { rules with exactPaths := rules.exactPaths.insert value serviceName }
  | .prefixPath value => { rules with prefixPaths := rules.prefixPaths ++ [⟨value, serviceName⟩] }

/-- What `std::sort` promises: the same rules, the longest first, in any order where they are of one
    length. -/
def Sorts (sort : List PrefixRule → List PrefixRule) : Prop :=
  ∀ l, (sort l).Perm l ∧ (sort l).Pairwise fun a b => b.value.length ≤ a.value.length

def finalize (sort : List PrefixRule → List PrefixRule) (rules : PathRuleSet) : PathRuleSet :=
  { rules with prefixPaths := sort rules.prefixPaths }

def «match» (rules : PathRuleSet) (path : Bytes) : Option Bytes :=
  match rules.exactPaths.lookup path with
  | some name => some name
  | none => (rules.prefixPaths.find? fun rule => rule.value.isPrefixOf path).map (·.serviceName)

end PathRuleSet

structure ServiceMatcher where
  exactAuthorityRules : AList (fun _ : Bytes => PathRuleSet) := ∅
  wildcardAuthorityRules : AList (fun _ : Bytes => PathRuleSet) := ∅
  anyAuthorityRules : PathRuleSet := {}

/-- `rules_[key].addRule(path, name)`. -/
def addRuleAt (rules : AList (fun _ : Bytes => PathRuleSet)) (key : Bytes) (path : PathMatcher) (name : Bytes) :
    AList (fun _ : Bytes => PathRuleSet) :=
  rules.insert key (((rules.lookup key).getD {}).addRule path name)

namespace ServiceMatcher

def addEntry (m : ServiceMatcher) (name : Bytes) (entry : MatchEntry) : ServiceMatcher :=
  match entry.authority with
  | .exactAuthority value =>
    { m with exactAuthorityRules := addRuleAt m.exactAuthorityRules value entry.path name }
  | .wildcardAuthority pattern =>
    -- "*.x.com" → ".x.com"
    { m with wildcardAuthorityRules := addRuleAt m.wildcardAuthorityRules (pattern.drop 1) entry.path name }
  | .anyAuthority => { m with anyAuthorityRules := m.anyAuthorityRules.addRule entry.path name }

def finalizeAll (sort : List PrefixRule → List PrefixRule) (rules : AList (fun _ : Bytes => PathRuleSet)) :
    AList (fun _ : Bytes => PathRuleSet) :=
  ⟨rules.entries.map fun e => ⟨e.1, e.2.finalize sort⟩, by
    rw [List.NodupKeys, List.keys, List.map_map]
    exact rules.nodupKeys⟩

/-- All entries, in the order in which the constructor adds them. -/
def entries (services : Services) : List (Bytes × MatchEntry) :=
  services.flatMap fun svc => svc.2.map fun entry => (svc.1, resolveMatchEntry entry)

def addAll (l : List (Bytes × MatchEntry)) : ServiceMatcher :=
  l.foldl (fun m e => m.addEntry e.1 e.2) {}

def build (sort : List PrefixRule → List PrefixRule) (services : Services) : ServiceMatcher :=
  let m := addAll (entries services)
  { exactAuthorityRules := finalizeAll sort m.exactAuthorityRules
    wildcardAuthorityRules := finalizeAll sort m.wildcardAuthorityRules
    anyAuthorityRules := m.anyAuthorityRules.finalize sort }

/-- The authority from its first dot on, if it has one. -/
def fromDot (authority : Bytes) : Option Bytes :=
  if authority.contains dot then some (authority.dropWhile (· != dot)) else none

def «match» (m : ServiceMatcher) (authority path : Bytes) : Option Bytes :=
  let effectivePath := if path.isEmpty then [slash] else path
  match (m.exactAuthorityRules.lookup authority).bind (·.match effectivePath) with
  | some name => some name
  | none =>
    match (fromDot authority).bind fun suffix =>
        (m.wildcardAuthorityRules.lookup suffix).bind (·.match effectivePath) with
    | some name => some name
    | none => m.anyAuthorityRules.match effectivePath

end ServiceMatcher

end Moqx.Service

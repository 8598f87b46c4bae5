/-
  Subject: THE WAY OF A REQUEST through the authorization filters of its session into the relay.

  * `getPeerRelayID` -- the credential by which a request says that it comes from a relay;
  * `subscribeNamespaceImpl`, `subscribeTracks` -- what the relay does with the two requests of peers;
  * `authorization_bypassed_iff` -- when a request can come through without being permitted, and without
    its credential being looked at.
-/
import Moqx.Auth.Model
import Moqx.Namespace.Relay

namespace Moqx.Auth

open NamespaceTree

/-! ## 1. Requests -/

/-- A token type chosen for relays. -/
def kRelayAuthTokenType : Nat := 0x1B2C3D4E5F6A7B8C

def isRelayToken (param : Parameter) : Bool :=
  param.key == authorizationToken && param.asAuthToken.tokenType == kRelayAuthTokenType

def getPeerRelayID (params : List Parameter) : Option Bytes :=
  (params.find? isRelayToken).map (·.asAuthToken.tokenValue)

structure SubscribeNamespace where
  trackNamespacePrefix : TrackNamespace
  forward : Bool := false
  options : SubscribeNamespaceOptions := .both
  trackFilter : Option TrackFilter := none
  params : List Parameter := []

structure SubscribeTracks where
  trackNamespacePrefix : TrackNamespace
  forward : Bool := false
  params : List Parameter := []

inductive Request where
  | subscribe (ftn : FullTrackName) (params : List Parameter)
  | fetch (ftn : FullTrackName) (params : List Parameter)
  | trackStatus (ftn : FullTrackName) (params : List Parameter)
  | subscribeNamespace (subNs : SubscribeNamespace)
  | subscribeTracks (subTracks : SubscribeTracks)
  | publish (ftn : FullTrackName) (params : List Parameter)
  | publishNamespace (ns : TrackNamespace) (params : List Parameter)

namespace Request

/-- SUBSCRIBE_TRACKS is gated as a SUBSCRIBE_NAMESPACE. -/
def action : Request → Action
  | subscribe _ _ => .subscribe
  | fetch _ _ => .fetch
  | trackStatus _ _ => .trackStatus
  | subscribeNamespace _ => .subscribeNamespace
  | subscribeTracks _ => .subscribeNamespace
  | publish _ _ => .publish
  | publishNamespace _ _ => .publishNamespace

def params : Request → List Parameter
  | subscribe _ params => params
  | fetch _ params => params
  | trackStatus _ params => params
  | subscribeNamespace subNs => subNs.params
  | subscribeTracks subTracks => subTracks.params
  | publish _ params => params
  | publishNamespace _ params => params

def ns : Request → TrackNamespace
  | subscribe ftn _ => ftn.trackNamespace
  | fetch ftn _ => ftn.trackNamespace
  | trackStatus ftn _ => ftn.trackNamespace
  | subscribeNamespace subNs => subNs.trackNamespacePrefix
  | subscribeTracks subTracks => subTracks.trackNamespacePrefix
  | publish ftn _ => ftn.trackNamespace
  | publishNamespace ns _ => ns

def trackName : Request → Option Bytes
  | subscribe ftn _ => some ftn.trackName
  | fetch ftn _ => some ftn.trackName
  | trackStatus ftn _ => some ftn.trackName
  | publish ftn _ => some ftn.trackName
  | _ => none

end Request

inductive Refusal where
  | unauthorized (reason : String)
  | notSupported
  | overlap
  | namespaceTooLarge
  /-- Any refusal of the requests whose handling is not followed here. -/
  | other
  deriving DecidableEq

/-! ## 2. The filters -/

/-- What the filters of a session are made with; peering is enabled if the relay has an id. -/
structure Gate where
  verifier : AuthTokenVerifier
  grants : List Grants
  relayID : Bytes

namespace Gate

variable (g : Gate) (verifyNow now : TimePoint)

def peeringEnabled : Bool := !g.relayID.isEmpty

/-- The check that the handlers of the filters share. -/
def check (action : Action) (params : List Parameter) (ns : TrackNamespace) (trackName : Option Bytes) :
    Except Refusal Unit :=
  match authorize g.verifier action params ns g.grants trackName verifyNow now with
  | .ok _ => .ok ()
  | .error e => .error (.unauthorized e.toString)

def subscribe (ftn : FullTrackName) (params : List Parameter) : Except Refusal Unit :=
  g.check verifyNow now .subscribe params ftn.trackNamespace (some ftn.trackName)

def fetch (ftn : FullTrackName) (params : List Parameter) : Except Refusal Unit :=
  g.check verifyNow now .fetch params ftn.trackNamespace (some ftn.trackName)

def trackStatus (ftn : FullTrackName) (params : List Parameter) : Except Refusal Unit :=
  g.check verifyNow now .trackStatus params ftn.trackNamespace (some ftn.trackName)

/-- A peer relay's request is handed on without a check, to be validated downstream. -/
def subscribeNamespace (subNs : SubscribeNamespace) : Except Refusal Unit :=
  if g.peeringEnabled && (getPeerRelayID subNs.params).isSome then .ok ()
  else g.check verifyNow now .subscribeNamespace subNs.params subNs.trackNamespacePrefix none

def subscribeTracks (subTracks : SubscribeTracks) : Except Refusal Unit :=
  if g.peeringEnabled && (getPeerRelayID subTracks.params).isSome then .ok ()
  else g.check verifyNow now .subscribeNamespace subTracks.params subTracks.trackNamespacePrefix none

def publish (ftn : FullTrackName) (params : List Parameter) : Except Refusal Unit :=
  g.check verifyNow now .publish params ftn.trackNamespace (some ftn.trackName)

def publishNamespace (ns : TrackNamespace) (params : List Parameter) : Except Refusal Unit :=
  g.check verifyNow now .publishNamespace params ns none

/-- Whether the filters hand a request on to the relay. -/
def filter : Request → Except Refusal Unit
  | .subscribe ftn params => g.subscribe verifyNow now ftn params
  | .fetch ftn params => g.fetch verifyNow now ftn params
  | .trackStatus ftn params => g.trackStatus verifyNow now ftn params
  | .subscribeNamespace subNs => g.subscribeNamespace verifyNow now subNs
  | .subscribeTracks subTracks => g.subscribeTracks verifyNow now subTracks
  | .publish ftn params => g.publish verifyNow now ftn params
  | .publishNamespace ns params => g.publishNamespace verifyNow now ns params

/-- Whether the request's action is permitted on its namespace and track. -/
def permits (request : Request) : Bool :=
  (authorize g.verifier request.action request.params request.ns g.grants request.trackName verifyNow
    now).isOk

def isPeer : Request → Bool
  | .subscribeNamespace subNs => g.peeringEnabled && (getPeerRelayID subNs.params).isSome
  | .subscribeTracks subTracks => g.peeringEnabled && (getPeerRelayID subTracks.params).isSome
  | _ => false

end Gate

/-! ## 3. The relay -/

def kMaxNamespaceMatches : Nat := 1000

structure RelayState where
  namespaces : NamespaceRelay := {}
  tracksTree : NamespaceTree := {}
  /-- The ids of the peers that have been subscribed to in return, by session. -/
  peerSubNsHandles : List (SessionRef × Bytes) := []

structure Surroundings where
  cfg : RelayConfig
  session : SessionRef
  /-- `getDraftMajorVersion` of the session. -/
  draft : Nat
  namespacePublishHandle : Option Nat := none
  /-- Whether the peer takes the subscription in return. -/
  reciprocal : Bool
  /-- How many entries the walk of the subtree counts for a subscriber with that peer id. -/
  namespaceMatches : Bytes → Nat
  /-- How many tracks the walk for a SUBSCRIBE_TRACKS counts. -/
  trackMatches : Nat
  /-- `hasOverlappingTracksSubscription`. -/
  overlapping : Bool
  /-- The handlers of the other requests. -/
  others : Request → RelayState → RelayState × Option Refusal

variable (env : Surroundings) (relayID : Bytes)

/-- `peerSubNsHandles_.emplace`, once the peer has taken the subscription in return. -/
def reciprocate (st : RelayState) (peerID : Option Bytes) : RelayState :=
  match peerID with
  | none => st
  | some peerID =>
    if env.reciprocal && !(st.peerSubNsHandles.any (·.1 == env.session)) then
      { st with peerSubNsHandles := (env.session, peerID) :: st.peerSubNsHandles }
    else st

def subscribeNamespaceImpl (st : RelayState) (subNs : SubscribeNamespace) : RelayState × Option Refusal :=
  let peerID := if relayID.isEmpty then none else getPeerRelayID subNs.params
  let incomingPeerID := peerID.getD []
  let st := reciprocate env st peerID
  let enforceLimit := incomingPeerID.isEmpty && decide (18 ≤ env.draft)
  let overLimit := enforceLimit && decide (kMaxNamespaceMatches < env.namespaceMatches incomingPeerID)
  let namespaces := st.namespaces.subscribeNamespace env.cfg subNs.trackNamespacePrefix env.session
    subNs.forward subNs.options env.namespacePublishHandle subNs.trackFilter incomingPeerID overLimit
  ({ st with namespaces := namespaces.getD st.namespaces },
    if overLimit then some .namespaceTooLarge else none)

def subscribeTracks (st : RelayState) (subTracks : SubscribeTracks) : RelayState × Option Refusal :=
  if env.draft < 18 then (st, some .notSupported)
  else if env.overlapping then (st, some .overlap)
  else
    let peerID := if relayID.isEmpty then none else getPeerRelayID subTracks.params
    if peerID.isNone && decide (kMaxNamespaceMatches < env.trackMatches) then (st, some .namespaceTooLarge)
    else
      let info : NamespaceSubscriberInfo :=
        { forward := subTracks.forward, options := .publish, namespacePublishHandle := none,
          trackNamespacePrefix := subTracks.trackNamespacePrefix, trackFilter := none, peerID := [] }
      let tree := st.tracksTree.addNamespaceSubscriber subTracks.trackNamespacePrefix env.session info
      ({ st with tracksTree := (tree.map (·.2)).getD st.tracksTree }, none)

def relayHandle (st : RelayState) : Request → RelayState × Option Refusal
  | .subscribeNamespace subNs => subscribeNamespaceImpl env relayID st subNs
  | .subscribeTracks subTracks => subscribeTracks env relayID st subTracks
  | request => env.others request st

def handle (g : Gate) (verifyNow now : TimePoint) (st : RelayState) (request : Request) :
    RelayState × Option Refusal :=
  match g.filter verifyNow now request with
  | .error refusal => (st, some refusal)
  | .ok _ => relayHandle env g.relayID st request

/-! ## 4. The credential of a peer -/

def setCredential (value : Bytes) : List Parameter → List Parameter
  | [] => []
  | param :: params =>
    if isRelayToken param then
      { param with asAuthToken := { param.asAuthToken with tokenValue := value } } :: params
    else param :: setCredential value params

/-- The same request with another value of its relay credential. -/
def Request.withCredential (value : Bytes) : Request → Request
  | .subscribe ftn params => .subscribe ftn (setCredential value params)
  | .fetch ftn params => .fetch ftn (setCredential value params)
  | .trackStatus ftn params => .trackStatus ftn (setCredential value params)
  | .subscribeNamespace subNs =>
    .subscribeNamespace { subNs with params := setCredential value subNs.params }
  | .subscribeTracks subTracks =>
    .subscribeTracks { subTracks with params := setCredential value subTracks.params }
  | .publish ftn params => .publish ftn (setCredential value params)
  | .publishNamespace ns params => .publishNamespace ns (setCredential value params)

theorem getPeerRelayID_setCredential {value : Bytes} {params : List Parameter}
    (h : (getPeerRelayID params).isSome = true) : getPeerRelayID (setCredential value params) = some value := by
  induction params with
  | nil => cases h
  | cons param params ih =>
    simp only [setCredential]
    split
    · rename_i hrelay
      have hset : isRelayToken
          { param with asAuthToken := { param.asAuthToken with tokenValue := value } } = true := hrelay
      simp only [getPeerRelayID, List.find?_cons, hset, Option.map_some]
    · rename_i hrelay
      rw [Bool.not_eq_true] at hrelay
      simp only [getPeerRelayID, List.find?_cons, hrelay] at h ih ⊢
      exact ih h

/-- The credential is looked at: with some other value of it, the request is answered with an error. -/
def CredentialChecked (g : Gate) (verifyNow now : TimePoint) (st : RelayState) (request : Request) : Prop :=
  ∃ value other, getPeerRelayID request.params = some value ∧ other ≠ value ∧
    (handle env g verifyNow now st (request.withCredential other)).2 ≠ none

/-- What the relay refuses a peer's request with that credential for. -/
def PeerRefused (value : Bytes) : Request → Prop
  | .subscribeNamespace _ => value = [] ∧ 18 ≤ env.draft ∧ kMaxNamespaceMatches < env.namespaceMatches []
  | .subscribeTracks _ => env.draft < 18 ∨ env.overlapping = true
  | _ => False

/-- What the relay itself refuses a peer's request for, or would refuse it for if its credential were
    empty: too many matches, a session that may not send it, a subscription it overlaps. -/
def Refusable (value : Bytes) : Request → Prop
  | .subscribeNamespace _ => value ≠ [] ∧ 18 ≤ env.draft ∧ kMaxNamespaceMatches < env.namespaceMatches []
  | .subscribeTracks _ => env.draft < 18 ∨ env.overlapping = true
  | _ => False

namespace Gate

variable {g : Gate} {verifyNow now : TimePoint} {request : Request}

theorem check_ok {action : Action} {params : List Parameter} {ns : TrackNamespace} {trackName : Option Bytes} :
    g.check verifyNow now action params ns trackName = .ok () ↔
      (authorize g.verifier action params ns g.grants trackName verifyNow now).isOk = true := by
  simp only [check]
  cases authorize g.verifier action params ns g.grants trackName verifyNow now with
  | ok _ => exact ⟨fun _ => rfl, fun _ => rfl⟩
  | error _ => exact ⟨nofun, nofun⟩

theorem filter_ok : g.filter verifyNow now request = .ok () ↔
    g.isPeer request = true ∨ g.permits verifyNow now request = true := by
  have hplain : ∀ {b : Prop}, (b ↔ g.permits verifyNow now request = true) →
      (b ↔ false = true ∨ g.permits verifyNow now request = true) :=
    fun h => h.trans ⟨.inr, fun h' => h'.resolve_left nofun⟩
  cases request with
  | subscribe ftn params => exact hplain check_ok
  | fetch ftn params => exact hplain check_ok
  | trackStatus ftn params => exact hplain check_ok
  | publish ftn params => exact hplain check_ok
  | publishNamespace ns params => exact hplain check_ok
  | subscribeNamespace subNs =>
    simp only [filter, subscribeNamespace, isPeer]
    split
    · rename_i h
      exact ⟨fun _ => .inl h, fun _ => rfl⟩
    · rename_i h
      exact check_ok.trans ⟨.inr, fun h' => h'.resolve_left h⟩
  | subscribeTracks subTracks =>
    simp only [filter, subscribeTracks, isPeer]
    split
    · rename_i h
      exact ⟨fun _ => .inl h, fun _ => rfl⟩
    · rename_i h
      exact check_ok.trans ⟨.inr, fun h' => h'.resolve_left h⟩

theorem isPeer_credential (h : g.isPeer request = true) :
    g.peeringEnabled = true ∧ (∃ value, getPeerRelayID request.params = some value) ∧
      ∀ other, g.isPeer (request.withCredential other) = true ∧
        getPeerRelayID (request.withCredential other).params = some other := by
  have key : ∀ {params : List Parameter}, (g.peeringEnabled && (getPeerRelayID params).isSome) = true →
      g.peeringEnabled = true ∧ (∃ value, getPeerRelayID params = some value) ∧
        ∀ other, (g.peeringEnabled && (getPeerRelayID (setCredential other params)).isSome) = true ∧
          getPeerRelayID (setCredential other params) = some other := by
    intro params h
    rw [Bool.and_eq_true] at h
    refine ⟨h.1, Option.isSome_iff_exists.mp h.2, fun other => ?_⟩
    have hset := @getPeerRelayID_setCredential other params h.2
    exact ⟨by rw [hset, h.1]; rfl, hset⟩
  cases request with
  | subscribeNamespace subNs => exact key h
  | subscribeTracks subTracks => exact key h
  | _ => cases h

end Gate

/-! ## 5. Requests that come through -/

variable {env} {g : Gate} {verifyNow now : TimePoint} {st : RelayState} {request : Request}

/-- What the relay answers a peer depends on its credential in one way only: with an empty one, its
    SUBSCRIBE_NAMESPACE is subject to the limit of matches. -/
theorem handle_peer_refused {value : Bytes} (hpeer : g.isPeer request = true)
    (hvalue : getPeerRelayID request.params = some value) :
    (handle env g verifyNow now st request).2 ≠ none ↔ PeerRefused env value request := by
  have hfilter : g.filter verifyNow now request = .ok () := Gate.filter_ok.mpr (.inl hpeer)
  have hid : g.relayID.isEmpty = false := by
    have := (Gate.isPeer_credential hpeer).1
    rwa [Gate.peeringEnabled, Bool.not_eq_true'] at this
  simp only [handle, hfilter]
  cases request with
  | subscribeNamespace subNs =>
    have hvalue' : getPeerRelayID subNs.params = some value := hvalue
    simp only [relayHandle, subscribeNamespaceImpl, hid, hvalue', Bool.false_eq_true, if_false,
      Option.getD_some, PeerRefused]
    rcases value with _ | ⟨b, value⟩
    · simp
    · simp
  | subscribeTracks subTracks =>
    have hvalue' : getPeerRelayID subTracks.params = some value := hvalue
    simp only [relayHandle, subscribeTracks, hid, hvalue', Bool.false_eq_true, if_false,
      Option.isNone_some, Bool.false_and, PeerRefused]
    split
    · rename_i h
      simp [h]
    · split
      · rename_i h
        simp [h]
      · rename_i h h'
        simp [h, h']
  | _ => cases hpeer

theorem exists_other_refused {value : Bytes} :
    (∃ other, other ≠ value ∧ PeerRefused env other request) ↔ Refusable env value request := by
  cases request with
  | subscribeNamespace subNs =>
    constructor
    · rintro ⟨other, hne, rfl, hrest⟩
      exact ⟨hne.symm, hrest⟩
    · rintro ⟨hne, hrest⟩
      exact ⟨[], hne.symm, rfl, hrest⟩
  | subscribeTracks subTracks =>
    exact ⟨fun ⟨_, _, h⟩ => h, fun h => ⟨0 :: value, List.cons_ne_self _ _, h⟩⟩
  | _ => exact ⟨fun ⟨_, _, h⟩ => h, False.elim⟩

theorem peerRefused_withCredential {value other : Bytes} :
    PeerRefused env value (request.withCredential other) ↔ PeerRefused env value request := by
  cases request <;> exact Iff.rfl

/-- **When authorization cannot be bypassed.** A request that the filters hand to the relay is permitted,
    or carries a credential that is looked at, if and only if it is not taken for a peer's, or it is
    permitted, or the relay has a reason of its own to refuse it, or to refuse it with an empty
    credential. -/
theorem authorization_bypassed_iff (env : Surroundings) (g : Gate) (verifyNow now : TimePoint)
    (st : RelayState) (request : Request) :
    (g.filter verifyNow now request = .ok () →
      g.permits verifyNow now request = true ∨ CredentialChecked env g verifyNow now st request) ↔
    (g.isPeer request = true → g.permits verifyNow now request = true ∨
      ∃ value, getPeerRelayID request.params = some value ∧ Refusable env value request) := by
  constructor
  · intro h hpeer
    obtain ⟨-, -, hother⟩ := Gate.isPeer_credential hpeer
    rcases h (Gate.filter_ok.mpr (.inl hpeer)) with hok | ⟨value, other, hvalue, hne, hrefused⟩
    · exact .inl hok
    · have hpr := (handle_peer_refused (hother other).1 (hother other).2).mp hrefused
      exact .inr ⟨value, hvalue, exists_other_refused.mp ⟨other, hne, peerRefused_withCredential.mp hpr⟩⟩
  · intro h hreach
    rcases Gate.filter_ok.mp hreach with hpeer | hok
    · rcases h hpeer with hok | ⟨value, hvalue, hrefusable⟩
      · exact .inl hok
      · obtain ⟨-, -, hother⟩ := Gate.isPeer_credential hpeer
        obtain ⟨other, hne, hpr⟩ := exists_other_refused.mpr hrefusable
        refine .inr ⟨value, other, hvalue, hne, ?_⟩
        exact (handle_peer_refused (hother other).1 (hother other).2).mpr (peerRefused_withCredential.mpr hpr)
    · exact .inl hok

/-- A relay with an id, and a session without any grants. -/
def closedGate : Gate :=
  { verifier :=
      { config := { enabled := true, maxTokensPerMessage := 1 }
        format :=
          { deriveHmacKey := fun secret => secret
            decodeHeader := fun _ => none
            validateCwt := fun _ _ => .error .cat
            hasOnlyEnforcedClaims := fun _ => false } }
    grants := []
    relayID := [1] }

/-- A session of draft 18 at a relay that knows no namespace yet. -/
def quietSurroundings : Surroundings :=
  { cfg :=
      { relayHopID := 1, allowedNamespacePrefix := [], relayHops := fun _ => false, peerHopID := fun _ => 0,
        relayLinkCost := fun _ => 1 }
    session := 7
    draft := 18
    reciprocal := true
    namespaceMatches := fun _ => 0
    trackMatches := 0
    overlapping := false
    others := fun _ st => (st, none) }

/-- A subscription to all namespaces, with a relay credential of that value. -/
def claimedPeer (value : Bytes) : Request :=
  .subscribeNamespace
    { trackNamespacePrefix := [], params := [⟨authorizationToken, ⟨kRelayAuthTokenType, value⟩⟩] }

/-- **Any relay credential will do.** A session without grants subscribes to all namespaces with a made-up
    relay credential. It is not permitted to, it is registered as a subscriber and as a peer, and with
    every other credential it would have been too. -/
theorem made_up_credential_passes :
    closedGate.permits 0 0 (claimedPeer [9]) = false ∧
    (handle quietSurroundings closedGate 0 0 {} (claimedPeer [9])).2 = none ∧
    (handle quietSurroundings closedGate 0 0 {} (claimedPeer [9])).1.peerSubNsHandles = [(7, [9])] ∧
    (((handle quietSurroundings closedGate 0 0 {} (claimedPeer [9])).1.namespaces.tree.node
      []).subscribers.lookup 7).isSome = true ∧
    ∀ other, (handle quietSurroundings closedGate 0 0 {} ((claimedPeer [9]).withCredential other)).2 = none := by
  refine ⟨by decide, by decide, by decide, by decide, fun other => ?_⟩
  by_contra h
  have hpeer : closedGate.isPeer ((claimedPeer [9]).withCredential other) = true := rfl
  exact absurd ((handle_peer_refused hpeer rfl).mp h).2.2 (by decide)

end Moqx.Auth

import Fcp.Base.Monitoring
import Fcp.Lib.Run

/-!
# An aggregation session (fcp/demo/aggregations.py, fcp/demo/media.py)

A section under a lock is one step, and so is a statement outside. The aggregation protocol is seen
through its clients and its count of inputs; what it decides and the UUIDs are inputs of a step.
-/

namespace Fcp.Demo

open List

inductive AggregationStatus where
  | completed
  | pending
  | failed
  | aborted
  deriving DecidableEq

/-- `_ActiveClientData`. -/
structure Client where
  clientId : ℕ
  resourceName : String
  deriving DecidableEq

/-- `_WaitData`, with the handler that awaits its future. -/
structure WaitData where
  handler : ℕ
  numInputsAggregatedAndIncluded : ℤ
  deriving DecidableEq

inductive Request where
  | preAuthorizeClients (tokens : List String)
  | wait (numInputsAggregatedAndIncluded : Option ℤ)
  | startAggregationDataUpload (authorizationToken : String)
  | submitAggregationResult (clientToken resourceName : String)
  | abortAggregation (clientToken : String)
  | completeSession
  | abortSession
  deriving DecidableEq

/-- What a handler does next. -/
inductive Point where
  | awaiting
  | adding
  /-- `accepted_clients.get`. -/
  | taking
  | registering (clientId : ℕ)
  | inserting (client : Client)
  | checking (client : Client) (resourceName : String)
  /-- `finalize_upload` of `submit_aggregation_result`. -/
  | finalizing (client : Client) (closed : Bool)
  | receiving (clientId : ℕ)
  | notifying
  /-- `finalize_upload` of `abort_aggregation`. -/
  | releasing (client : Client)
  | closing (clientId : ℕ)
  | returned
  deriving DecidableEq

/-- What the handler does next that has taken the session from `_sessions`. The loops of
`_cleanup_session` have the size that they began with. -/
inductive Ending where
  | listed
  | completing
  | failing
  | finishing
  | aborting
  | abortingProtocol
  | cleaning
  | finalizing (size : ℕ) (left : List Client)
  | clearingClients
  | checkingWaits
  | resolving (size : ℕ) (left : List ℕ)
  | clearingWaits
  | returned
  | raised
  deriving DecidableEq

structure Session where
  ending : Ending := .listed
  status : AggregationStatus := .pending
  authorizationTokens : List String := []
  activeClients : List (String × Client) := []
  pendingWaits : List WaitData := []
  /-- The handlers whose futures get a result, in the order of the calls of `set_result`. -/
  resolved : List ℕ := []
  handlers : List Point := []
  /-- The protocol accepts clients. -/
  started : Bool := true
  /-- Whether a client is closed. -/
  clients : List Bool := []
  acceptedClients : List ℕ := []
  numInputsAggregatedAndIncluded : ℤ := 0
  uploads : List (String × Option Bytes) := []
  deriving DecidableEq

inductive SessionEvent where
  /-- The first section of a handler. -/
  | call (request : Request)
  | proceed (handler : ℕ) (uuid : String) (accepted : Bool)
  | proceedEnding (succeeded : Bool)
  | upload (name : String) (body : Bytes)
  | closeClient (clientId : ℕ)
  | protocolAbort
  deriving DecidableEq

namespace Session

variable (s : Session)

def call (point : Point) : Session := { s with handlers := s.handlers++[point] }

def goOn (h : ℕ) (point : Point) : Session :=
  { s with handlers := s.handlers.set h point }

def isListed : Bool := s.ending=.listed

/-- A client is taken by the token that it was given. -/
def takeClient (clientToken : String) (next : Client → Point) : Session :=
  match s.isListed, s.activeClients.find? (·.1=clientToken) with
  | true, some entry => { s with activeClients := s.activeClients.erase entry }.call (next entry.2)
  | _, _ => s.call .returned

def take (ending : Ending) : Session :=
  if s.isListed then { s with ending := ending } else s.call .returned

def enter : Request → Session
  | .preAuthorizeClients tokens =>
    if s.isListed then
      { s with authorizationTokens := s.authorizationTokens++tokens }.call .returned
    else s.call .returned
  | .wait none => s.call .returned
  | .wait (some n) =>
    if s.isListed ∧ s.numInputsAggregatedAndIncluded<n then
      { s with pendingWaits := s.pendingWaits++[WaitData.mk s.handlers.length n] }.call .awaiting
    else s.call .returned
  | .startAggregationDataUpload token =>
    if s.isListed ∧ token∈s.authorizationTokens then
      { s with authorizationTokens := s.authorizationTokens.erase token }.call .adding
    else s.call .returned
  | .submitAggregationResult clientToken resourceName =>
    s.takeClient clientToken (.checking · resourceName)
  | .abortAggregation clientToken => s.takeClient clientToken .releasing
  | .completeSession => s.take .completing
  | .abortSession => s.take .aborting

def names : List String := s.uploads.map (·.1)

def finalizeUpload (name : String) : Session :=
  { s with uploads := s.uploads.filter (·.1≠name) }

def closeClient (clientId : ℕ) : Session :=
  { s with clients := s.clients.set clientId true }

/-- Both ends of the protocol close the clients that are left. -/
def closeAll : Session :=
  { s with clients := s.clients.map fun _ => true,started := false }

/-- `Abort` discards the inputs that have been aggregated, too. -/
def discardAll : Session := { s.closeAll with numInputsAggregatedAndIncluded := 0 }

def isSatisfied (data : WaitData) : Bool :=
  data.numInputsAggregatedAndIncluded ≤ s.numInputsAggregatedAndIncluded

def proceed (h : ℕ) (uuid : String) (accepted : Bool) : Point → Except Unit Session
  | .awaiting => .error ()
  | .returned => .error ()
  | .adding =>
    if s.started then
      .ok ({ s with
        clients := s.clients++[false]
        acceptedClients := s.acceptedClients++[s.clients.length] }.goOn h .taking)
    else .ok (s.goOn h .returned)
  | .taking =>
    match s.acceptedClients with
    | [] => .ok (s.goOn h .returned)
    | clientId::rest => .ok ({ s with acceptedClients := rest }.goOn h (.registering clientId))
  | .registering clientId =>
    if uuid∈s.names then .error ()
    else .ok ({ s with uploads := (uuid,none)::s.uploads }.goOn h (.inserting ⟨clientId,uuid⟩))
  | .inserting client =>
    if uuid∈s.activeClients.map (·.1) then .error ()
    else .ok ({ s with activeClients := s.activeClients++[(uuid,client)] }.goOn h .returned)
  | .checking client resourceName =>
    if resourceName=client.resourceName then
      .ok (s.goOn h (.finalizing client (s.clients.getD client.clientId false)))
    else .ok (s.goOn h .returned)
  | .finalizing client closed =>
    .ok ((s.finalizeUpload client.resourceName).goOn h
      (match closed, s.uploads.lookup client.resourceName with
        | true, _ => .returned
        | false, some (some _) => .receiving client.clientId
        | false, _ => .closing client.clientId))
  | .receiving clientId =>
    if s.started=false ∨ s.clients.getD clientId true then .ok (s.goOn h .returned)
    else if accepted then
      .ok ({ s.closeClient clientId with
        numInputsAggregatedAndIncluded := s.numInputsAggregatedAndIncluded+1 }.goOn h .notifying)
    else .ok ((s.closeClient clientId).goOn h .returned)
  | .notifying =>
    .ok ({ s with
      resolved := s.resolved++(s.pendingWaits.filter s.isSatisfied).map WaitData.handler
      pendingWaits := s.pendingWaits.filter (!s.isSatisfied ·) }.goOn h .returned)
  | .releasing client =>
    .ok ((s.finalizeUpload client.resourceName).goOn h (.closing client.clientId))
  | .closing clientId => .ok ((s.closeClient clientId).goOn h .returned)

/-- `finalize_upload` raises a `KeyError` for a name that is not registered, and a loop over a
collection of another size than in the beginning a `RuntimeError`. `Complete` and `Abort` return an
error if the protocol has ended, and `Complete` if the report cannot be made: `complete_session`
catches it, `abort_session` does not. -/
def proceedEnding (minimum : ℤ) (s : Session) (succeeded : Bool) : Ending → Except Unit Session
  | .listed => .error ()
  | .returned => .error ()
  | .raised => .error ()
  | .completing => .ok { s with ending :=
      if s.status≠.pending then .cleaning
      else if s.numInputsAggregatedAndIncluded < minimum then .failing else .finishing }
  | .failing =>
    if s.started then .ok { s.discardAll with status := .failed,ending := .cleaning }
    else .ok { s with status := .failed,ending := .cleaning }
  | .finishing =>
    if s.started ∧ succeeded then .ok { s.closeAll with status := .completed,ending := .cleaning }
    else .ok { s with status := .failed,ending := .cleaning }
  | .aborting =>
    if s.status=.pending then .ok { s with status := .aborted,ending := .abortingProtocol }
    else .ok { s with ending := .cleaning }
  | .abortingProtocol =>
    if s.started then .ok { s.discardAll with ending := .cleaning }
    else .ok { s with ending := .raised }
  | .cleaning => .ok { s with
      authorizationTokens := []
      ending := .finalizing s.activeClients.length (s.activeClients.map (·.2)) }
  | .finalizing size left =>
    if s.activeClients.length≠size then .ok { s with ending := .raised }
    else match left with
      | [] => .ok { s with ending := .clearingClients }
      | client::left =>
        if client.resourceName∈s.names then
          .ok { s.finalizeUpload client.resourceName with ending := .finalizing size left }
        else .ok { s with ending := .raised }
  | .clearingClients => .ok { s with activeClients := [],ending := .checkingWaits }
  | .checkingWaits =>
    if s.pendingWaits=[] then .ok { s with ending := .returned }
    else .ok { s with
      ending := .resolving s.pendingWaits.length (s.pendingWaits.map WaitData.handler) }
  | .resolving size left =>
    if s.pendingWaits.length≠size then .ok { s with ending := .raised }
    else match left with
      | [] => .ok { s with ending := .clearingWaits }
      | wait::left =>
        .ok { s with resolved := s.resolved++[wait],ending := .resolving size left }
  | .clearingWaits => .ok { s with pendingWaits := [],ending := .returned }

/-- A path is used for one upload. -/
def upload (s : Session) (name : String) (body : Bytes) : Session :=
  { s with uploads := s.uploads.map fun upload =>
      if upload=(name,none) then (name,some body) else upload }

/-- The protocol closes all clients and calls `_handle_protocol_abort`. -/
def protocolAbort : Session :=
  if s.isListed then { s.discardAll with
    status := .failed
    resolved := s.resolved++s.pendingWaits.map WaitData.handler
    pendingWaits := [] }
  else s.discardAll

end Session

def sessionStep (minimum : ℤ) (s : Session) : SessionEvent → Except Unit Session
  | .call request => .ok (s.enter request)
  | .proceed h uuid accepted =>
    match s.handlers[h]? with
    | some point => s.proceed h uuid accepted point
    | none => .error ()
  | .proceedEnding succeeded => s.proceedEnding minimum succeeded s.ending
  | .upload name body => .ok (s.upload name body)
  | .closeClient clientId => .ok (s.closeClient clientId)
  | .protocolAbort => .ok s.protocolAbort

end Fcp.Demo

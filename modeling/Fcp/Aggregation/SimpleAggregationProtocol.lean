import Fcp.Aggregation.TensorAggregator

/-!
# The simple aggregation protocol
(protocol/simple_aggregation/simple_aggregation_protocol.cc)

A section under a lock is one step: `ReceiveClientMessage` takes three (mark, aggregate, record),
and `Complete` holds `state_mu_` while it takes `aggregation_mu_`. The callbacks that a call makes
without a lock are owed at first and made one by one.
-/

namespace Fcp.Aggregation

inductive ProtocolState where
  | created
  | started
  | completed
  | aborted
  deriving DecidableEq

def ProtocolState.debugString : ProtocolState → String
  | .created => "PROTOCOL_CREATED"
  | .started => "PROTOCOL_STARTED"
  | .completed => "PROTOCOL_COMPLETED"
  | .aborted => "PROTOCOL_ABORTED"

inductive ClientState where
  | pending
  | receivedInputAndPending
  | completed
  | failed
  | aborted
  | discarded
  deriving DecidableEq

inductive ClientMessage where
  /-- Without a `simple_aggregation` message or without its `input`. -/
  | unexpected
  | otherInput
  | inlineBytes (report : Bytes)
  | uri (uri : String)
  deriving DecidableEq

inductive CallPhase where
  | marked
  | aggregated (status : Status) (state : ClientState)
  | returned
  deriving DecidableEq

structure Call where
  message : ClientMessage
  phase : CallPhase
  deriving DecidableEq

inductive Callback where
  | onAcceptClients (startIndex numClients : ℕ)
  | onCloseClient (client : ℕ) (status : Status)
  | onComplete (result : Bytes)
  deriving DecidableEq

structure Protocol (V : Type) where
  protocolState : ProtocolState
  clientStates : List ClientState
  numClientsReceivedAndPending : ℕ
  numClientsAggregated : ℕ
  numClientsFailed : ℕ
  numClientsAborted : ℕ
  numClientsDiscarded : ℕ
  aggregationFinished : Bool
  results : List (ResultTensor V)
  calls : ℕ → Option Call
  owed : List (List Callback)
  callbacks : List Callback

namespace Protocol

variable {V : Type} (env : ProtocolEnv V) (s : Protocol V) (state : ProtocolState) (clientId : ℤ)
  (numClients : ℤ) (client : ℕ) (toState : ClientState) (message : ClientMessage)

def create : Protocol V where
  protocolState := .created
  clientStates := []
  numClientsReceivedAndPending := 0
  numClientsAggregated := 0
  numClientsFailed := 0
  numClientsAborted := 0
  numClientsDiscarded := 0
  aggregationFinished := false
  results := env.intrinsics.map Intrinsic.createAggregator
  calls _ := none
  owed := []
  callbacks := []

def checkProtocolState : StatusOr Unit :=
  if s.protocolState≠state then
    .error ⟨.failedPrecondition,"The current protocol state is " ++
      s.protocolState.debugString++", expected "++state.debugString++"."⟩
  else .ok ()

def setProtocolState : Checked (Protocol V) := do
  fcpCheck (decide ((s.protocolState=.created ∧ state=.started) ∨
    (s.protocolState=.started ∧ (state=.completed ∨ state=.aborted))))
  return { s with protocolState := state }

def getClientState : StatusOr ClientState :=
  let outside : Status := ⟨.invalidArgument,
    "client_id "++toString clientId++" is outside the valid range"⟩
  if clientId<0 then .error outside
  else
    match s.clientStates[clientId.toNat]? with
    | none => .error outside
    | some state => .ok state

def leaveClientState (fromState toState : ClientState) : Checked (Protocol V) :=
  match fromState with
  | .receivedInputAndPending =>
    .ok { s with numClientsReceivedAndPending := s.numClientsReceivedAndPending-1 }
  | .completed => do
    fcpCheck (decide (toState=.discarded))
    return { s with numClientsAggregated := s.numClientsAggregated-1 }
  | _ => do
    fcpCheck (decide (fromState=.pending))
    return s

def enterClientState : Checked (Protocol V) :=
  match toState with
  | .pending => .error .check
  | .receivedInputAndPending =>
    .ok { s with numClientsReceivedAndPending := s.numClientsReceivedAndPending+1 }
  | .completed => .ok { s with numClientsAggregated := s.numClientsAggregated+1 }
  | .failed => .ok { s with numClientsFailed := s.numClientsFailed+1 }
  | .aborted => .ok { s with numClientsAborted := s.numClientsAborted+1 }
  | .discarded => .ok { s with numClientsDiscarded := s.numClientsDiscarded+1 }

def setClientState : Checked (Protocol V) :=
  match s.clientStates[client]? with
  | none => .error .check
  | some fromState => do
    fcpCheck (decide (fromState≠toState))
    let s ← s.leaveClientState fromState toState
    enterClientState { s with clientStates := s.clientStates.set client toState } toState

def owe (callbacks : List Callback) : Protocol V :=
  { s with owed := s.owed++[callbacks] }

def start : Checked (Protocol V × Status) :=
  if numClients<0 then
    .ok (s,⟨.invalidArgument,"Number of clients cannot be negative."⟩)
  else
    match s.checkProtocolState .created with
    | .error status => .ok (s,status)
    | .ok () => do
      let s ← s.setProtocolState .started
      fcpCheck s.clientStates.isEmpty
      let s := { s with clientStates := List.replicate numClients.toNat .pending }
      if numClients>0 then return (s.owe [.onAcceptClients 0 numClients.toNat],.okStatus)
      else return (s,.okStatus)

def addClients : Protocol V × Status :=
  match s.checkProtocolState .started with
  | .error status => (s,status)
  | .ok () =>
    if numClients≤0 then (s,⟨.invalidArgument,"Non-zero number of clients required"⟩)
    else
      ({ s with
          clientStates := s.clientStates++List.replicate numClients.toNat .pending
          owed := s.owed++[[.onAcceptClients s.clientStates.length numClients.toNat]] },
        .okStatus)

def receiveClientMessage : Checked (Protocol V × Status) :=
  match message with
  | .unexpected => .ok (s,⟨.invalidArgument,"Unexpected message"⟩)
  | .otherInput =>
    .ok (s,⟨.invalidArgument,"Only inline_bytes or uri type of input is supported"⟩)
  | message =>
    if s.protocolState=.created then
      .ok (s,⟨.failedPrecondition,"The protocol hasn't been started"⟩)
    else
      match s.getClientState clientId with
      | .error status => .ok (s,status)
      | .ok state =>
        if state≠.pending then .ok (s,.okStatus)
        else do
          let s ← s.setClientState clientId.toNat .receivedInputAndPending
          return ({ s with
            calls := Function.update s.calls clientId.toNat (some ⟨message,.marked⟩) },.okStatus)

/-- The report of a message, which no lock protects. -/
def readReport : ClientMessage → StatusOr Bytes
  | .inlineBytes report => .ok report
  | .uri uri => env.retrieveResource client uri
  | _ => .ok []

def readInput : StatusOr (TensorMap V) := do
  let report ← readReport env client message
  parseCheckpoint env report

def aggregateClientInput (tensorMap : TensorMap V) : Checked (Status × List (ResultTensor V)) :=
  if s.aggregationFinished then .ok (.okStatus,s.results)
  else accumulateAll tensorMap env.intrinsics s.results

def aggregate : Checked (Protocol V) :=
  match s.calls client with
  | some ⟨message,.marked⟩ =>
    match readInput env client message with
    | .error status =>
      .ok { s with
        calls := Function.update s.calls client (some ⟨message,.aggregated status .failed⟩) }
    | .ok tensorMap => do
      let (status,results) ← aggregateClientInput env s tensorMap
      let state : ClientState := if status.code=.ok then .completed else .discarded
      return { s with
        results := results
        calls := Function.update s.calls client (some ⟨message,.aggregated status state⟩) }
  | _ => .ok s

def record : Checked (Protocol V) :=
  match s.calls client with
  | some ⟨message,.aggregated status state⟩ =>
    let returned (s : Protocol V) := Function.update s.calls client (some ⟨message,.returned⟩)
    if s.clientStates[client]?=some .receivedInputAndPending then do
      let s ← s.setClientState client state
      return { s with
        calls := returned s
        callbacks := s.callbacks++[.onCloseClient client status] }
    else .ok { s with calls := returned s }
  | _ => .ok s

def closeClient (clientStatus : Status) : Checked (Protocol V × Status) :=
  if s.protocolState=.created then
    .ok (s,⟨.failedPrecondition,"The protocol hasn't been started"⟩)
  else
    match s.getClientState clientId with
    | .error status => .ok (s,status)
    | .ok state =>
      if state=.pending then do
        let s ← s.setClientState clientId.toNat
          (if clientStatus.code=.ok then .discarded else .failed)
        return (s,.okStatus)
      else .ok (s,.okStatus)

def createReport : Checked (Protocol V × StatusOr Bytes) :=
  if s.results.any Option.isNone then
    .ok (s,.error ⟨.failedPrecondition,
      "The aggregation can't be completed due to failed preconditions."⟩)
  else do
    let (report,results) ← reportAll env [] env.intrinsics s.results
    match report with
    | .error status => return ({ s with results := results },.error status)
    | .ok tensors =>
      return ({ s with results := results, aggregationFinished := true },
        env.buildCheckpoint tensors)

def closeClients (closing : ClientState → Option ClientState) :
    List ℕ → Protocol V → Checked (Protocol V)
  | [], s => .ok s
  | client::rest, s => do
    match s.clientStates[client]?.bind closing with
    | none => closeClients closing rest s
    | some state => closeClients closing rest (← s.setClientState client state)

def openClients : List ℕ := (List.range s.clientStates.length).filter fun client =>
    s.clientStates[client]?=some .pending ∨ s.clientStates[client]?=some .receivedInputAndPending

def closingOfComplete : ClientState → Option ClientState
  | .pending => some .aborted
  | .receivedInputAndPending => some .discarded
  | _ => none

def closingOfAbort : ClientState → Option ClientState
  | .pending => some .aborted
  | .receivedInputAndPending => some .discarded
  | .completed => some .discarded
  | _ => none

def closedByComplete : Status := ⟨.aborted,
  "The protocol has completed before the client input has been aggregated."⟩

def closedByAbort : Status := ⟨.aborted,
  "The protocol has aborted before the client input has been aggregated."⟩

def complete : Checked (Protocol V × Status) :=
  match s.checkProtocolState .started with
  | .error status => .ok (s,status)
  | .ok () => do
    match ← s.createReport env with
    | (s,.error status) => return (s,status)
    | (s,.ok result) =>
      let s ← s.setProtocolState .completed
      let clientIdsToClose := s.openClients
      let s ← closeClients closingOfComplete (List.range s.clientStates.length) s
      return (s.owe (clientIdsToClose.map (Callback.onCloseClient · closedByComplete) ++
        [.onComplete result]),.okStatus)

def abort : Checked (Protocol V × Status) :=
  match s.checkProtocolState .started with
  | .error status => .ok (s,status)
  | .ok () => do
    let s ← { s with aggregationFinished := true }.setProtocolState .aborted
    let clientIdsToClose := s.openClients
    let s ← closeClients closingOfAbort (List.range s.clientStates.length) s
    return (s.owe (clientIdsToClose.map (Callback.onCloseClient · closedByAbort)),.okStatus)

def makeCallback (thread : ℕ) : Protocol V :=
  match s.owed[thread]? with
  | some (callback::rest) =>
    { s with
      owed := s.owed.set thread rest
      callbacks := s.callbacks++[callback] }
  | _ => s

structure StatusMessage where
  numClientsCompleted : ℤ
  numClientsFailed : ℤ
  numClientsPending : ℤ
  numInputsAggregatedAndIncluded : ℤ
  numInputsAggregatedAndPending : ℤ
  numClientsAborted : ℤ
  numInputsDiscarded : ℤ
  deriving DecidableEq

def getStatus : StatusMessage :=
  let numClientsCompleted : ℤ :=
    s.numClientsReceivedAndPending+s.numClientsAggregated+s.numClientsDiscarded
  { numClientsCompleted := numClientsCompleted
    numClientsFailed := s.numClientsFailed
    numClientsPending :=
      s.clientStates.length-numClientsCompleted-s.numClientsFailed-s.numClientsAborted
    numInputsAggregatedAndIncluded := s.numClientsAggregated
    numInputsAggregatedAndPending := s.numClientsReceivedAndPending
    numClientsAborted := s.numClientsAborted
    numInputsDiscarded := s.numClientsDiscarded }

inductive Event where
  | start (numClients : ℤ)
  | addClients (numClients : ℤ)
  | receiveClientMessage (clientId : ℤ) (message : ClientMessage)
  | aggregate (client : ℕ)
  | record (client : ℕ)
  | closeClient (clientId : ℤ) (clientStatus : Status)
  | complete
  | abort
  | makeCallback (thread : ℕ)
  deriving DecidableEq

def step : Event → Checked (Protocol V)
  | .start numClients => do return (← s.start numClients).1
  | .addClients numClients => .ok (s.addClients numClients).1
  | .receiveClientMessage clientId message => do
    return (← s.receiveClientMessage clientId message).1
  | .aggregate client => s.aggregate env client
  | .record client => s.record client
  | .closeClient clientId clientStatus => do return (← s.closeClient clientId clientStatus).1
  | .complete => do return (← s.complete env).1
  | .abort => do return (← s.abort).1
  | .makeCallback thread => .ok (s.makeCallback thread)

def sumEnv : ProtocolEnv ℕ where
  intrinsics := [⟨⟨"in",.int32,[]⟩,⟨"out",.int32,[]⟩,0,(·+·),rfl,rfl⟩]
  createParser report := .ok fun _ => .ok ⟨.int32,[],(report.map UInt8.toNat).sum⟩
  retrieveResource _ _ := .ok []
  addToCheckpoint _ _ _ := .okStatus
  buildCheckpoint tensors := .ok (tensors.map fun t => UInt8.ofNat t.2.data)

end Protocol
end Fcp.Aggregation

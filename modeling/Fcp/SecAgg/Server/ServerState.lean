import Fcp.SecAgg.Server.Reconstruction

/-!
# The states of the server (server/secagg_server_state.cc and its subclasses)

One record stands for all state classes and `kind` says which class it is. What is sent to each
client, what is broadcast and which clients are dropped is kept in logs. Metrics are left out.
-/

namespace Fcp.SecAgg

inductive SecAggServerStateKind where
  | r0AdvertiseKeys
  | r1ShareKeys
  | r2MaskedInputCollection
  | r3Unmasking
  | prngRunning
  | completed
  | aborted
  deriving Repr, DecidableEq

inductive ClientDropReason where
  | sentAbortMessage
  | unexpectedMessageType
  | advertiseKeysUnexpected
  | noAdvertiseKeys
  | shareKeysUnexpected
  | noShareKeys
  | maskedInputUnexpected
  | invalidMaskedInput
  | noMaskedInput
  | unmaskingResponseUnexpected
  | invalidUnmaskingResponse
  | invalidPublicKey
  | serverProtocolAbortClient
  | earlySuccess
  | connectionClosed
  | invalidShareKeysResponse
  deriving Repr, DecidableEq

structure ClientDropped (G : SharingGraph) where
  client : G.ClientId
  status : ClientStatus
  reasonCode : ClientDropReason
  reason : String

structure ServerState (G : SharingGraph) where
  kind : SecAggServerStateKind
  needsToAbort : Bool
  failedAfterSendingMaskedInput : ℤ
  failedBeforeSendingMaskedInput : ℤ
  readyForNextRound : ℤ
  terminatedWithoutUnmasking : ℤ
  messagesReceivedInThisRound : ℤ
  clientsAbortedAtRound2 : List G.ClientId
  completionStatus : Option Status
  prngRun : Option (Accumulator ProtocolImpl.PrngWorkItems)
  errorMessage : String
  impl : ProtocolImpl G
  sent : G.ClientId → List ServerToClientWrapperMessage
  broadcasts : List ServerToClientWrapperMessage
  dropped : List (ClientDropped G)

namespace ServerState
variable {G : SharingGraph}

def create (G : SharingGraph) : ServerState G where
  kind := .r0AdvertiseKeys
  needsToAbort := false
  failedAfterSendingMaskedInput := 0
  failedBeforeSendingMaskedInput := 0
  readyForNextRound := 0
  terminatedWithoutUnmasking := 0
  messagesReceivedInThisRound := 0
  clientsAbortedAtRound2 := []
  completionStatus := none
  prngRun := none
  errorMessage := ""
  impl := ProtocolImpl.create G
  sent _ := []
  broadcasts := []
  dropped := []

variable (env : ServerEnv G) (s : ServerState G) (client : G.ClientId) (reason : String)
  (message : ClientToServerWrapperMessage) (reasonCode : ClientDropReason)

def isAborted : Bool := s.kind=.aborted

def isCompletedSuccessfully : Bool := s.kind=.completed

def isTerminal : Bool := s.isAborted || s.isCompletedSuccessfully

def clientStatus (s : ServerState G) (client : G.ClientId) : ClientStatus :=
  s.impl.clientStatus client

def setClientStatus (s : ServerState G) (client : G.ClientId) (status : ClientStatus) :
    ServerState G :=
  { s with impl := s.impl.setClientStatus client status }

def send (recipient : G.ClientId) (message : ServerToClientWrapperMessage) : ServerState G :=
  { s with sent := Function.update s.sent recipient (s.sent recipient++[message]) }

def sendBroadcast (message : ServerToClientWrapperMessage) : ServerState G :=
  { s with broadcasts := s.broadcasts++[message] }

def numberOfAliveClients : ℤ :=
  G.numNodes-s.failedBeforeSendingMaskedInput-s.failedAfterSendingMaskedInput -
    s.terminatedWithoutUnmasking

def numberOfPendingClients : ℤ :=
  match s.kind with
  | .r0AdvertiseKeys
  | .r1ShareKeys
  | .r2MaskedInputCollection
  | .r3Unmasking => s.numberOfAliveClients-s.readyForNextRound
  | _ => 0

def numberOfIncludedInputs : ℤ :=
  match s.kind with
  | .r2MaskedInputCollection => s.messagesReceivedInThisRound
  | .r3Unmasking
  | .prngRunning
  | .completed => G.numNodes-s.failedBeforeSendingMaskedInput
  | _ => 0

def isReadyForNextRound : Bool :=
  let min := env.minimumNumberOfClientsToProceed
  match s.kind with
  | .r0AdvertiseKeys
  | .r1ShareKeys => decide (s.readyForNextRound≥min) || s.needsToAbort
  | .r2MaskedInputCollection =>
    s.impl.accumulatorIsIdle && (decide (s.readyForNextRound≥min) || s.needsToAbort)
  | .r3Unmasking => decide (s.messagesReceivedInThisRound≥min) || s.needsToAbort
  | .prngRunning => s.completionStatus.isSome
  | .completed
  | .aborted => false

def enter (kind : SecAggServerStateKind) : ServerState G :=
  { s with
    kind := kind
    needsToAbort := false
    readyForNextRound := 0
    messagesReceivedInThisRound := 0
    clientsAbortedAtRound2 := []
    completionStatus := none
    prngRun := none }

def abortState : ServerState G :=
  { s.enter .aborted with errorMessage := reason }

def abort (s : ServerState G) (reason : String) : Checked (ServerState G) := do
  fcpCheck (!s.isTerminal)
  return (s.sendBroadcast (.abort reason false)).abortState reason

def abortIfTooFewAlive : ServerState G :=
  if s.numberOfAliveClients<env.minimumNumberOfClientsToProceed then
    { s with needsToAbort := true }
  else s

def r0HandleAbortClient : ServerState G :=
  let s := { s with failedBeforeSendingMaskedInput := s.failedBeforeSendingMaskedInput+1 }
  let s := if s.clientStatus client=.advertiseKeysReceived then
      { s with
        readyForNextRound := s.readyForNextRound-1
        impl := s.impl.erasePublicKeysForClient client }
    else s
  (s.setClientStatus client .deadBeforeSendingAnything).abortIfTooFewAlive env

def r1HandleAbortClient : Checked (ServerState G) := do
  let s := { s with failedBeforeSendingMaskedInput := s.failedBeforeSendingMaskedInput+1 }
  let s ← if s.clientStatus client=.shareKeysReceived then do
      let impl ← s.impl.eraseShareKeysForClient client
      pure { s with readyForNextRound := s.readyForNextRound-1, impl := impl }
    else pure s
  return (s.setClientStatus client .deadAfterAdvertiseKeysReceived).abortIfTooFewAlive env

def r2HandleAbortClient : ServerState G :=
  let s := if s.clientStatus client=.maskedInputResponseReceived then
      { s with
        readyForNextRound := s.readyForNextRound-1
        failedAfterSendingMaskedInput := s.failedAfterSendingMaskedInput+1
        impl := s.impl.setClientStatus client .deadAfterMaskedInputResponseReceived }
    else
      { s with
        failedBeforeSendingMaskedInput := s.failedBeforeSendingMaskedInput+1
        clientsAbortedAtRound2 := s.clientsAbortedAtRound2++[client]
        impl := s.impl.setClientStatus client .deadAfterShareKeysReceived }
  s.abortIfTooFewAlive env

def r3HandleAbortClient : ServerState G :=
  if s.clientStatus client=.unmaskingResponseReceived then
    s.setClientStatus client .deadAfterUnmaskingResponseReceived
  else
    let s := if reasonCode=.earlySuccess then
        { s with terminatedWithoutUnmasking := s.terminatedWithoutUnmasking+1 }
      else { s with failedAfterSendingMaskedInput := s.failedAfterSendingMaskedInput+1 }
    let s := s.setClientStatus client .deadAfterMaskedInputResponseReceived
    if s.numberOfPendingClients+s.messagesReceivedInThisRound <
        env.minimumNumberOfClientsToProceed then
      { s with needsToAbort := true }
    else s

def prngHandleAbortClient : ServerState G :=
  s.setClientStatus client .deadAfterUnmaskingResponseReceived

def handleAbortClient : Checked (ServerState G) :=
  match s.kind with
  | .r0AdvertiseKeys => .ok (s.r0HandleAbortClient env client)
  | .r1ShareKeys => s.r1HandleAbortClient env client
  | .r2MaskedInputCollection => .ok (s.r2HandleAbortClient env client)
  | .r3Unmasking => .ok (s.r3HandleAbortClient env client reasonCode)
  | .prngRunning => .ok (s.prngHandleAbortClient client)
  | .completed
  | .aborted => .ok s

def abortClient (notify : Bool) : Checked (ServerState G) := do
  fcpCheck (!s.isTerminal)
  if s.impl.isClientDead client then return s
  else
    let s ← s.handleAbortClient env client reasonCode
    let s := if notify then s.send client (.abort reason (decide (reasonCode=.earlySuccess)))
      else s
    return { s with dropped := s.dropped++[⟨client,s.clientStatus client,reasonCode,reason⟩] }

def recordMessage (received : ClientStatus)
    (impl : ProtocolImpl G) : ServerState G :=
  { s with
    impl := impl.setClientStatus client received
    messagesReceivedInThisRound := s.messagesReceivedInThisRound+1
    readyForNextRound := s.readyForNextRound+1 }

/-- The four rounds handle a message alike. `accept` is what the protocol implementation makes
of it, absent when the message is not of the round's type. -/
def handleRoundMessage (abortReason : String)
    (expected received : ClientStatus) (unexpectedReason : String)
    (unexpectedCode invalidCode : ClientDropReason)
    (accept : Option (Checked (StatusOr (ProtocolImpl G)))) : Checked (ServerState G) :=
  match message with
  | .abort _ => s.abortClient env client abortReason .sentAbortMessage false
  | _ =>
    if s.clientStatus client≠expected then
      s.abortClient env client unexpectedReason unexpectedCode true
    else
      match accept with
      | none =>
        s.abortClient env client "Message type received is different from what was expected."
          .unexpectedMessageType true
      | some handled => do
        match ← handled with
        | .error status => s.abortClient env client status.message invalidCode true
        | .ok impl => return s.recordMessage client received impl

def r0HandleMessage : Checked (ServerState G) :=
  s.handleRoundMessage env client message "" .readyToStart .advertiseKeysReceived
    ("Not expecting an AdvertiseKeys message from this client - either the " ++
      "client already aborted or one such message was already received.")
    .advertiseKeysUnexpected .invalidPublicKey
    (match message with
    | .advertiseKeys keys => some (.ok (s.impl.handleAdvertiseKeys client keys))
    | _ => none)

def r1HandleMessage : Checked (ServerState G) :=
  s.handleRoundMessage env client message "" .advertiseKeysReceived .shareKeysReceived
    ("Not expecting an ShareKeysResponse from this client - either the client already aborted " ++
      "or one such message was already received.")
    .shareKeysUnexpected .invalidShareKeysResponse
    (match message with
    | .shareKeysResponse shares => some (s.impl.handleShareKeysResponse client shares)
    | _ => none)

def r2HandleMessage : Checked (ServerState G) :=
  s.handleRoundMessage env client message "" .shareKeysReceived .maskedInputResponseReceived
    ("Not expecting an MaskedInputCollectionResponse from this client - either the client " ++
      "already aborted or one such message was already received.")
    .maskedInputUnexpected .invalidMaskedInput
    (match message with
    | .maskedInputResponse vectors =>
      some (s.impl.handleMaskedInputCollectionResponse env vectors)
    | _ => none)

def r3HandleMessage : Checked (ServerState G) :=
  s.handleRoundMessage env client message "Client sent abort message."
    .maskedInputResponseReceived .unmaskingResponseReceived
    ("Not expecting an UnmaskingResponse from this client - either the " ++
      "client already aborted or one such message was already received.")
    .unmaskingResponseUnexpected .invalidUnmaskingResponse
    (match message with
    | .unmaskingResponse shares => some (s.impl.handleUnmaskingResponse client shares)
    | _ => none)

def prngHandleMessage : Checked (ServerState G) :=
  match message with
  | .abort _ => s.abortClient env client "" .sentAbortMessage false
  | _ => s.abortClient env client "Non-abort message sent during PrngUnmasking step."
      .unexpectedMessageType true

/-- `HandleMessage`; the server never calls it in a terminal state. -/
def handleMessage : Checked (ServerState G) :=
  match s.kind with
  | .r0AdvertiseKeys => s.r0HandleMessage env client message
  | .r1ShareKeys => s.r1HandleMessage env client message
  | .r2MaskedInputCollection => s.r2HandleMessage env client message
  | .r3Unmasking => s.r3HandleMessage env client message
  | .prngRunning => s.prngHandleMessage env client message
  | .completed
  | .aborted => .ok s

def forClients (f : ServerState G → G.ClientId → Checked (ServerState G)) (s : ServerState G) :
    Checked (ServerState G) :=
  (List.finRange G.numNodes).foldlM f s

def abortIfSilent (received : ClientStatus) (reason : String)
    (reasonCode : ClientDropReason) (s : ServerState G) (i : G.ClientId) :
    Checked (ServerState G) :=
  if !s.impl.isClientDead i && decide (s.clientStatus i≠received) then
    s.abortClient env i reason reasonCode true
  else .ok s

def r0Next : Checked (ServerState G) := do
  let s ← s.forClients (abortIfSilent env .advertiseKeysReceived
    "Client did not send AdvertiseKeys message before round transition." .noAdvertiseKeys)
  let s := { s with impl := s.impl.computeSessionId env.crypto }
  match s.impl.sessionId with
  | none => .error .check
  | some sessionId =>
    let s ← s.forClients fun s i =>
      if !s.impl.isClientDead i then
        .ok (s.send i (.shareKeysRequest ⟨s.impl.prepareShareKeysRequestForClient i,sessionId⟩))
      else .ok s
    return { s with impl := s.impl.clearPairsOfPublicKeys }.enter .r1ShareKeys

def r1Next : Checked (ServerState G) := do
  let s ← s.forClients fun s i =>
    if !s.impl.isClientDead i && decide (s.clientStatus i≠.shareKeysReceived) then
      s.abortClient env i "Client did not send ShareKeysResponse before round transition."
        .noShareKeys true
    else if s.clientStatus i=.shareKeysReceived then
      .ok (s.send i
        (.maskedInputRequest (s.impl.prepareMaskedInputCollectionRequestForClient i)))
    else .ok s
  let s := { s with impl := s.impl.clearShareKeys }.enter .r2MaskedInputCollection
  return { s with impl := s.impl.setupMaskedInputCollection env }

def dead3ClientIds (i : G.ClientId) : List UInt32 :=
  s.clientsAbortedAtRound2.filterMap fun aborted =>
    (SharingGraph.neighborIndex i aborted).map fun index : G.Slot => UInt32.ofNat (index+1)

def r2Next : Checked (ServerState G) := do
  let s ← s.forClients (abortIfSilent env .maskedInputResponseReceived
    "Client did not send MaskedInputCollectionResponse before round transition." .noMaskedInput)
  let s ← s.forClients fun s i =>
    if s.impl.isClientDead i then .ok s
    else .ok (s.send i (.unmaskingRequest (s.dead3ClientIds i)))
  let impl ← s.impl.finalizeMaskedInputCollection env
  let s := { s with impl := impl }.enter .r3Unmasking
  return { s with impl := s.impl.setUpShamirSharesTables }

def r3Next : Checked (ServerState G) := do
  let s ← s.forClients fun s i =>
    if s.clientStatus i≠.unmaskingResponseReceived then
      s.abortClient env i
        "Client did not send unmasking response but protocol completed successfully."
        .earlySuccess true
    else .ok s
  return s.enter .prngRunning

def tooManyClientsAborted : ServerState G :=
  (s.sendBroadcast (.abort "Too many clients aborted." false)).abortState
    "Too many clients aborted."

/-- What the four rounds share: nothing happens before the round is ready, and the session ends
when it has lost too many clients. -/
def proceedFromRound
    (next : ServerState G → Checked (ServerState G)) : Checked (StatusOr (ServerState G)) :=
  if !s.isReadyForNextRound env then .ok (.error ⟨.unavailable,""⟩)
  else if s.needsToAbort then .ok (.ok s.tooManyClientsAborted)
  else do
    let s ← next s
    return .ok s

def proceedToNextRound : Checked (StatusOr (ServerState G)) :=
  match s.kind with
  | .r0AdvertiseKeys => s.proceedFromRound env (r0Next env)
  | .r1ShareKeys => s.proceedFromRound env (r1Next env)
  | .r2MaskedInputCollection => s.proceedFromRound env (r2Next env)
  | .r3Unmasking => s.proceedFromRound env (r3Next env)
  | .prngRunning =>
    match s.completionStatus with
    | none => .ok (.error ⟨.unavailable,""⟩)
    | some status =>
      if status.code=.ok then .ok (.ok (s.enter .completed))
      else .ok (.ok (s.abortState status.message))
  | .completed => .ok (.error ⟨.failedPrecondition,
      "The server cannot proceed to next round from state Completed"⟩)
  | .aborted => .ok (.error ⟨.failedPrecondition,
      "The server cannot proceed to next round from state Aborted"⟩)

def initializeWorkItems : Checked (StatusOr ProtocolImpl.PrngWorkItems) := do
  match ← s.impl.handleShamirReconstruction env with
  | .error status => return .error status
  | .ok result => s.impl.initializePrng env result

def enterState : Checked (ServerState G) :=
  if s.kind=.prngRunning then do
    match ← s.initializeWorkItems env with
    | .error status => return { s with completionStatus := some status }
    | .ok items =>
      let (impl,accumulator) ← s.impl.startPrng items
      return { s with impl := impl, prngRun := some accumulator }
  else .ok s

def prngFinished : Checked (ServerState G) :=
  match s.prngRun with
  | none => .ok s
  | some accumulator =>
    if accumulator.hasUnobservedWork && accumulator.isIdle then do
      let impl ← s.impl.setResult accumulator.value
      return { s with impl := impl, prngRun := none, completionStatus := some .okStatus }
    else .ok s

end ServerState
end Fcp.SecAgg

import Fcp.Lib.Run
import Fcp.SecAgg.Server.ServerState

/-!
# The server (server/secagg_server.cc)

The runs of a server: any sequence of calls, interleaved with the tasks of the schedulers. A call
that ends the process has no successor state.
-/

namespace Fcp.SecAgg

inductive ClientAbortReason where
  | invalidMessage
  | notCheckedIn
  | connectionDropped
  deriving Repr, DecidableEq

def ClientAbortReason.name : ClientAbortReason → String
  | .invalidMessage => "INVALID_MESSAGE"
  | .notCheckedIn => "NOT_CHECKED_IN"
  | .connectionDropped => "CONNECTION_DROPPED"

namespace SecAggServer
variable {G : SharingGraph} (reason : ClientAbortReason) (env : ServerEnv G) (s : ServerState G)

def errorIfAbortedOrCompleted : StatusOr Unit :=
  if s.isAborted then
    .error ⟨.failedPrecondition,"The server has already aborted. The request cannot be satisfied."⟩
  else if s.isCompletedSuccessfully then
    .error ⟨.failedPrecondition,"The server has already completed the protocol. " ++
      "Call getOutput() to retrieve the output."⟩
  else .ok ()

def validateClientId (G : SharingGraph) (clientId : ℕ) : StatusOr G.ClientId :=
  if h : clientId<G.numNodes then .ok ⟨clientId,h⟩
  else .error ⟨.failedPrecondition,"Client Id "++toString clientId ++
    " is outside of the expected bounds - 0 to "++toString G.numNodes⟩

def makeClientAbortMessage : String :=
  "The protocol is closing client with ClientAbortReason <"++reason.name++">."

abbrev Call (G : SharingGraph) := Checked (ServerState G × Status)

def refused (status : Status) : Call G := .ok (s,status)

def receiveMessage (clientId : ℕ)
    (message : ClientToServerWrapperMessage) : Call G :=
  match errorIfAbortedOrCompleted s, validateClientId G clientId with
  | .error status, _ => refused s status
  | .ok (), .error status => refused s status
  | .ok (), .ok client => do
    let s ← s.handleMessage env client message
    return (s,.okStatus)

def abortParameters : String × ClientDropReason × Bool :=
  match reason with
  | .invalidMessage => (makeClientAbortMessage reason,.serverProtocolAbortClient,true)
  | .connectionDropped => ("",.connectionClosed,false)
  | .notCheckedIn => (makeClientAbortMessage reason,.serverProtocolAbortClient,false)

def abortClient (env : ServerEnv G) (s : ServerState G) (clientId : ℕ)
    (reason : ClientAbortReason) : Call G :=
  match errorIfAbortedOrCompleted s, validateClientId G clientId with
  | .error status, _ => refused s status
  | .ok (), .error status => refused s status
  | .ok (), .ok client => do
    let (message,clientDropReason,notifyClient) := abortParameters reason
    let s ← s.abortClient env client message clientDropReason notifyClient
    return (s,.okStatus)

def proceedToNextRound (env : ServerEnv G) (s : ServerState G) : Call G :=
  match errorIfAbortedOrCompleted s with
  | .error status => refused s status
  | .ok () => do
    match ← s.proceedToNextRound env with
    | .error status => return (s,status)
    | .ok next =>
      let next ← next.enterState env
      return (next,.okStatus)

/-- `Abort`, with or without a reason. -/
def abort (s : ServerState G) (reason : Option String) : Call G :=
  match errorIfAbortedOrCompleted s with
  | .error status => refused s status
  | .ok () => do
    let s ← s.abort (match reason with
      | none => "Abort upon external request."
      | some reason => "Abort upon external request for reason <"++reason++">.")
    return (s,.okStatus)

def result (s : ServerState G) : ServerState G × StatusOr SecAggVectorMap :=
  if s.isCompletedSuccessfully then
    match s.impl.result with
    | none => (s,.error ⟨.unavailable,"Result is uninitialized or requested more than once"⟩)
    | some result => ({ s with impl := { s.impl with result := none } },.ok result)
  else (s,.error ⟨.unavailable,"Result requested, but server is not in state Completed"⟩)

inductive Event where
  | receiveMessage (clientId : ℕ) (message : ClientToServerWrapperMessage)
  | abortClient (clientId : ℕ) (reason : ClientAbortReason)
  | proceedToNextRound
  | abort (reason : Option String)
  | result
  | runQueueTask
  | accumulateMaskedInput (i : ℕ)
  | runPrngTask (i fuel : ℕ)
  | accumulatePrng (i : ℕ)
  | prngFinished

/-- The scheduler's tasks; those of a state that has been left do nothing. -/
def runTask : Event → Checked (ServerState G)
  | .runQueueTask =>
    if s.kind=.r2MaskedInputCollection then do
      let impl ← s.impl.runQueueTask
      return { s with impl := impl }
    else .ok s
  | .accumulateMaskedInput i =>
    if s.kind=.r2MaskedInputCollection then do
      let impl ← s.impl.accumulateMaskedInput i
      return { s with impl := impl }
    else .ok s
  | .runPrngTask i fuel =>
    match s.prngRun with
    | none => .ok s
    | some accumulator => do
      let accumulator ← s.impl.runPrngTask env accumulator i fuel
      return { s with prngRun := some accumulator }
  | .accumulatePrng i =>
    match s.prngRun with
    | none => .ok s
    | some accumulator => do
      let accumulator ← accumulator.accumulate i
      return { s with prngRun := some accumulator }
  | .prngFinished => s.prngFinished
  | _ => .ok s

def step (event : Event) : Checked (ServerState G) :=
  match event with
  | .receiveMessage clientId message => do
    let (s,_) ← receiveMessage env s clientId message
    return s
  | .abortClient clientId reason => do
    let (s,_) ← abortClient env s clientId reason
    return s
  | .proceedToNextRound => do
    let (s,_) ← proceedToNextRound env s
    return s
  | .abort reason => do
    let (s,_) ← abort s reason
    return s
  | .result => .ok (result s).1
  | task => runTask env s task

end SecAggServer
end Fcp.SecAgg

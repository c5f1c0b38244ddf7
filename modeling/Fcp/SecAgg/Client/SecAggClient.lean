import Fcp.SecAgg.Client.ClientRounds

/-!
# The client (client/secagg_client.cc)

A call returns the next state and the messages it sends, or a status that leaves the client as it
was.
-/

namespace Fcp.SecAgg

abbrev Transition := ClientState × List ClientToServerWrapperMessage

namespace ClientState

def abortAndNotifyServer (reason : String) : Transition := (.aborted reason,[.abort reason])

def orAbort {α : Type} (x : Attempt α) (next : α → Checked Transition) :
    Checked (StatusOr Transition) :=
  match x with
  | .ok a => do return .ok (← next a)
  | .error (.abort reason) => .ok (.ok (abortAndNotifyServer reason))
  | .error (.fault fault) => .error fault

def start (env : ClientEnv) (s : ClientState) : StatusOr Transition :=
  match s with
  | .r0AdvertiseKeys inputMap =>
    .ok (.r1ShareKeys inputMap,[.advertiseKeys ⟨env.prngPublicKey,env.encPublicKey⟩])
  | _ => .error ⟨.failedPrecondition,
      "An illegal start transition was attempted from state "++s.stateName⟩

variable (env : ClientEnv) (s : ClientState)

def setInput (inputMap : SecAggVectorMap) : Checked (StatusOr Transition) :=
  let invalid : Checked (StatusOr Transition) := .ok (.error ⟨.invalidArgument,
    "The input to SetInput does not match the InputVectorSpecification."⟩)
  let valid := validateInput inputMap env.inputVectorSpecs
  match s with
  | .r0AdvertiseKeys none =>
    if valid then .ok (.ok (.r0AdvertiseKeys (some inputMap),[])) else invalid
  | .r1ShareKeys none =>
    if valid then .ok (.ok (.r1ShareKeys (some inputMap),[])) else invalid
  | .r2MaskedInputColl keys none =>
    if valid then .ok (.ok (.r2MaskedInputColl keys (some inputMap),[])) else invalid
  | .r2WaitingForInput shares mapOfMasks =>
    if valid then do
      let message ← maskedInputMessage inputMap mapOfMasks
      return .ok (.r3Unmasking shares,[message])
    else invalid
  | _ => .ok (.error ⟨.failedPrecondition,
      "An illegal input transition was attempted from state "++s.stateName⟩)

def abort (s : ClientState) (reason : String) : StatusOr Transition :=
  match s with
  | .completed | .aborted _ => .error ⟨.failedPrecondition,
      "The client was already in terminal state "++s.stateName ++
        " but received an abort with message: "++reason⟩
  | _ => .ok (abortAndNotifyServer ("Abort upon external request for reason <"++reason++">."))

def messageContentCase : ServerToClientWrapperMessage → ℕ
  | .notSet => 0
  | .abort _ _ => 1
  | .shareKeysRequest _ => 2
  | .maskedInputRequest _ => 3
  | .unmaskingRequest _ => 4

def unexpectedMessage (message : ServerToClientWrapperMessage) : Status :=
  if messageContentCase message=0 then
    ⟨.failedPrecondition,
      "Client received a message of unknown type but was in state "++s.stateName⟩
  else
    ⟨.failedPrecondition,"Client received a message of type " ++
      toString (messageContentCase message)++" but was in state "++s.stateName⟩

def handleAbortMessage (earlySuccess : Bool) : Transition :=
  if earlySuccess then (.completed,[])
  else (.aborted "Aborting because of abort message from the server.",[])

def afterMaskedInputRequest (inputMap : Option SecAggVectorMap)
    (r : SharesReceived × SecAggVectorMap) : Checked Transition :=
  match inputMap with
  | none => .ok (.r2WaitingForInput r.1 r.2,[])
  | some inputMap => do
    let message ← maskedInputMessage inputMap r.2
    return (.r3Unmasking r.1,[message])

def handleMessage (asyncAbort : AsyncAbort) (fuel : ℕ) (s : ClientState)
    (message : ServerToClientWrapperMessage) : Checked (StatusOr Transition) :=
  match s, message with
  | .completed, _ | .aborted _, _ => .ok (.error (s.unexpectedMessage message))
  | _, .abort _ earlySuccess => .ok (.ok (handleAbortMessage earlySuccess))
  | .r1ShareKeys inputMap, .shareKeysRequest request =>
    orAbort (r1HandleShareKeysRequest env asyncAbort inputMap request) fun r =>
      .ok (.r2MaskedInputColl r.1 inputMap,[.shareKeysResponse r.2])
  | .r2MaskedInputColl keys inputMap, .maskedInputRequest encryptedKeyShares =>
    orAbort (handleMaskedInputCollectionRequest env asyncAbort fuel keys encryptedKeyShares)
      (afterMaskedInputRequest inputMap)
  | .r3Unmasking shares, .unmaskingRequest dead3ClientIds =>
    orAbort (handleUnmaskingRequest env asyncAbort shares dead3ClientIds) fun noiseOrPrfKeyShares =>
      .ok (.completed,[.unmaskingResponse noiseOrPrfKeyShares])
  | _, _ => .ok (.error (s.unexpectedMessage message))

end ClientState

structure SecAggClient where
  state : ClientState
  sent : List ClientToServerWrapperMessage

namespace SecAggClient

def create : SecAggClient := ⟨.r0AdvertiseKeys none,[]⟩

variable (env : ClientEnv) (c : SecAggClient)

def finish : StatusOr Transition → SecAggClient × Status
  | .ok (state,messages) => (⟨state,c.sent++messages⟩,.okStatus)
  | .error status => (c,status)

def start (env : ClientEnv) (c : SecAggClient) : SecAggClient × Status :=
  c.finish (c.state.start env)

def setInput (env : ClientEnv) (c : SecAggClient) (inputMap : SecAggVectorMap) :
    Checked (SecAggClient × Status) := do
  return c.finish (← c.state.setInput env inputMap)

def abort (c : SecAggClient) (reason : String) : SecAggClient × Status :=
  if c.state.isAborted || c.state.isCompletedSuccessfully then (c,.okStatus)
  else c.finish (c.state.abort reason)

def receiveMessage (asyncAbort : AsyncAbort) (fuel : ℕ) (c : SecAggClient)
    (incoming : ServerToClientWrapperMessage) : Checked (SecAggClient × StatusOr Bool) := do
  match ← c.state.handleMessage env asyncAbort fuel incoming with
  | .ok (state,messages) =>
    return (⟨state,c.sent++messages⟩,.ok !(state.isAborted || state.isCompletedSuccessfully))
  | .error status => return (c,.error status)

inductive Event where
  | start
  | setInput (inputMap : SecAggVectorMap)
  | abort (reason : String)
  | receiveMessage (asyncAbort : AsyncAbort) (fuel : ℕ) (incoming : ServerToClientWrapperMessage)

def step : Event → Checked SecAggClient
  | .start => .ok (c.start env).1
  | .setInput inputMap => do return (← c.setInput env inputMap).1
  | .abort reason => .ok (c.abort reason).1
  | .receiveMessage asyncAbort fuel incoming => do
    return (← c.receiveMessage env asyncAbort fuel incoming).1

end SecAggClient
end Fcp.SecAgg

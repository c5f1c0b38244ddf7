import Fcp.Client.Http.InMemoryRequests

/-!
# Secure aggregation over HTTP (http_secagg_send_to_server_impl.cc, secagg_runner.cc)

A message of the SecAgg client is sent as a request, and the response is kept as the next message of
the server. What the client makes of it is an input; the run is not interrupted.
-/

namespace Fcp.Client.Http

open Program

inductive Round where
  | shareKeys
  | maskedInput
  | unmasking
  deriving Repr, DecidableEq

inductive Reaction where
  | sends
  | aborts (notifiesServer : Bool) (message : String)
  | completes
  | fails (status : Status)
  deriving Repr, DecidableEq

structure SecAggClient where
  inputs : Status
  started : Status
  reaction : Round → Reaction

variable {σ : Type} (answers : Answers) (parses : Request → Bytes → Bool) (client : SecAggClient)

def exchange (request : Request) (parseError : Status) : Operation σ Unit := do
  returnIfError (answers.created request)
  let response ← performProtocolRequest answers request true
  if parses request response.body then pure () else fail parseError

def doR0AdvertiseKeys : Operation σ Unit := exchange answers parses .advertiseKeys
    ⟨.internal,"could not parse AdvertiseKeysResponse proto"⟩

def doR1ShareKeys : Operation σ Unit := exchange answers parses .shareKeys
    ⟨.internal,"could not parse StartSecureAggregationResponse proto"⟩

def returnFirstError : List (StatusOr InMemoryHttpResponse) → Operation σ Unit
  | [] => pure ()
  | .error status::_ => fail status
  | .ok _::responses => returnFirstError responses

variable (hasCheckpoint : Bool)

def resultUploads : List Request :=
  .maskedResultUpload :: if hasCheckpoint then [.nonmaskedResultUpload] else []

def createUploads : List Request → Operation σ Unit
  | [] => pure ()
  | request::requests => do
    returnIfError (answers.created request)
    createUploads requests

def doR2SubmitSecureAggregationResult : Operation σ Unit := do
  createUploads answers (resultUploads hasCheckpoint)
  let responses ← performMultipleProtocolRequests answers .maskedResultUpload
    ((resultUploads hasCheckpoint).map (·,true))
  returnFirstError responses
  exchange answers parses .submitSecureAggregationResult
    ⟨.invalidArgument,"could not parse SubmitSecureAggregationResultResponse proto"⟩

def doR3Unmask : Operation σ Unit := do
  returnIfError (answers.created .unmask)
  let _ ← performProtocolRequest answers .unmask true
  pure ()

def abortSecureAggregation : Operation σ Unit := do
  returnIfError (answers.created .abortSecureAggregation)
  let _ ← performProtocolRequest answers .abortSecureAggregation false
  pure ()

def send : Round → Operation σ (StatusOr Unit)
  | .shareKeys => attempt (doR1ShareKeys answers parses)
  | .maskedInput => attempt (doR2SubmitSecureAggregationResult answers parses hasCheckpoint)
  | .unmasking => attempt (doR3Unmask answers)

/-- The loop of `SecAggRunnerImpl::Run`. After the last round the client is complete, and the
message that was kept for it is not read. -/
def receiveMessages (hasCheckpoint : Bool) : StatusOr Unit → List Round → Operation σ Unit
  | _, [] => pure ()
  | .error status, _::_ =>
    fail ⟨status.code,"Error during SecAgg receive: "++status.message⟩
  | .ok (), round::rounds =>
    match client.reaction round with
    | .sends => do
      let serverResponse ← send answers parses hasCheckpoint round
      receiveMessages hasCheckpoint serverResponse rounds
    | .completes => pure ()
    | .aborts notifiesServer message => do
      if notifiesServer then
        let _ ← attempt (abortSecureAggregation answers)
      fail ⟨.cancelled,"SecAgg aborted: "++message⟩
    | .fails status =>
      fail ⟨status.code,"Error receiving SecAgg message: "++status.message⟩

/-- `SecAggRunnerImpl::Run`. `SetInput` gets the vectors that the client's specification was made
from and does not fail. -/
def runSecAgg : Operation σ Unit := do
  returnIfError client.inputs
  returnIfError client.started
  let serverResponse ← attempt (doR0AdvertiseKeys answers parses)
  receiveMessages answers parses client hasCheckpoint serverResponse
    [.shareKeys,.maskedInput,.unmasking]

end Fcp.Client.Http

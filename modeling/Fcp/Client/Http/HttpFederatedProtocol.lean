import Fcp.Client.Http.SecAggRounds
import Mathlib.Algebra.Order.Ring.Rat

/-!
# The federated protocol over HTTP (http_federated_protocol.cc, federated_protocol_util.cc)

Contents of requests are left out; whether a request can be made from them is an input. Times are
rational numbers of seconds.
-/

namespace Fcp.Client.Http

open Program

section Messages

structure ForwardingInfo where
  targetUriPrefix : String
  extraRequestHeaders : List (String × String)
  deriving Repr, DecidableEq

structure RetryWindow where
  delayMin : ℚ
  delayMax : ℚ
  deriving Repr, DecidableEq

inductive ResourceCompressionFormat where
  | unspecified
  | gzip
  deriving Repr, DecidableEq

inductive Resource where
  | uri (uri clientCacheId : String)
  | inlineResource (data : Bytes) (compressionFormat : Option ResourceCompressionFormat)
  | notSet
  deriving Repr, DecidableEq

structure EligibilityEvalTaskInfo where
  plan : Resource
  initCheckpoint : Resource
  executionId : String
  populationEligibilitySpec : Option Resource
  deriving Repr, DecidableEq

inductive EligibilityEvalResult where
  | eligibilityEvalTask (task : EligibilityEvalTaskInfo)
  | noEligibilityEvalConfigured
  | rejectionInfo
  | notSet
  deriving Repr, DecidableEq

structure EligibilityEvalTaskResponse where
  taskAssignmentForwardingInfo : ForwardingInfo
  sessionId : String
  result : EligibilityEvalResult
  retryWindowIfAccepted : RetryWindow
  retryWindowIfRejected : RetryWindow
  deriving Repr, DecidableEq

structure TaskAssignmentInfo where
  aggregationDataForwardingInfo : ForwardingInfo
  minimumClientsInServerVisibleAggregate : Option ℤ
  sessionId : String
  aggregationId : String
  authorizationToken : String
  taskName : String
  initCheckpoint : Resource
  plan : Resource
  federatedSelectUriTemplate : String
  deriving Repr, DecidableEq

inductive StartTaskAssignmentResponse where
  | taskAssignment (info : TaskAssignmentInfo)
  | rejectionInfo
  | notSet
  deriving Repr, DecidableEq

structure ByteStreamResource where
  dataUploadForwardingInfo : ForwardingInfo
  resourceName : String
  deriving Repr, DecidableEq

structure StartAggregationDataUploadResponse where
  aggregationProtocolForwardingInfo : ForwardingInfo
  resource : ByteStreamResource
  clientToken : String
  deriving Repr, DecidableEq

structure StartSecureAggregationResponse where
  secaggProtocolForwardingInfo : ForwardingInfo
  maskedResultResource : ByteStreamResource
  nonmaskedResultResource : ByteStreamResource
  clientToken : String
  deriving Repr, DecidableEq

structure Codec where
  eligibilityEvalTaskResponse : Bytes → Option EligibilityEvalTaskResponse
  populationEligibilitySpec : Bytes → Option Bytes
  startTaskAssignmentResponse : Bytes → Option StartTaskAssignmentResponse
  startAggregationDataUploadResponse : Bytes → Option StartAggregationDataUploadResponse
  startSecureAggregationResponse : Bytes → Option StartSecureAggregationResponse
  parses : Request → Bytes → Bool
  uncompressWithGzip : Bytes → Except String Bytes

end Messages

section State

inductive ObjectState where
  | initialized
  | eligibilityEvalCheckinFailed
  | eligibilityEvalCheckinFailedPermanentError
  | eligibilityEvalCheckinRejected
  | eligibilityEvalDisabled
  | eligibilityEvalEnabled
  | checkinFailed
  | checkinFailedPermanentError
  | checkinRejected
  | checkinAccepted
  | multipleTaskAssignmentsFailed
  | multipleTaskAssignmentsFailedPermanentError
  | multipleTaskAssignmentsNoAvailableTask
  | multipleTaskAssignmentsAccepted
  | reportCalled
  | reportFailedPermanentError
  | reportMultipleTaskPartialError
  deriving Repr, DecidableEq

structure ProtocolRequestCreator where
  requestBaseUri : String
  requestHeaders : List (String × String)
  deriving Repr, DecidableEq

structure PerTaskInfo where
  aggregationRequestCreator : Option ProtocolRequestCreator := none
  dataUploadRequestCreator : Option ProtocolRequestCreator := none
  sessionId : String := ""
  aggregationSessionId : String := ""
  aggregationAuthorizationToken : String := ""
  taskName : String := ""
  aggregationClientToken : String := ""
  aggregationResourceName : String := ""
  state : ObjectState := .initialized
  deriving Repr, DecidableEq

structure RetryTimes where
  retryTimeIfRejected : ℚ
  retryTimeIfAccepted : ℚ
  deriving Repr, DecidableEq

structure Session where
  objectState : ObjectState := .initialized
  eligibilityEvalEnabled : Bool := false
  retryTimes : Option RetryTimes := none
  preTaskAssignmentSessionId : String := ""
  taskAssignmentRequestCreator : Option ProtocolRequestCreator := none
  defaultTaskInfo : PerTaskInfo := {}
  taskInfoMap : List (String × PerTaskInfo) := []
  deriving Repr, DecidableEq

structure Flags where
  httpProtocolSupportsMultipleTaskAssignments : Bool
  federatedTrainingPermanentErrorCodes : List ℤ
  federatedTrainingTransientErrorsRetryDelaySecs : ℚ
  federatedTrainingTransientErrorsRetryDelayJitterPercent : ℚ
  federatedTrainingPermanentErrorsRetryDelaySecs : ℚ
  federatedTrainingPermanentErrorsRetryDelayJitterPercent : ℚ

structure Draw where
  now : ℚ
  random : ℚ
  deriving Repr, DecidableEq

structure Environment extends Answers where
  client : SecAggClient
  drawIfRejected : Draw
  drawIfAccepted : Draw

inductive ComputationResult where
  | tfCheckpoint (checkpoint : Bytes)
  | quantizedTensor (values : List ℕ) (bitwidth : ℤ) (dimensions : List ℤ)
  deriving Repr, DecidableEq

def ComputationResult.isQuantizedTensor : ComputationResult → Bool
  | .quantizedTensor .. => true
  | .tfCheckpoint _ => false

abbrev ComputationResults := List (String × ComputationResult)

structure PlanAndCheckpointPayloads where
  plan : Bytes
  checkpoint : Bytes
  deriving Repr, DecidableEq

inductive EligibilityEvalCheckinResult where
  | eligibilityEvalTask (payloads : PlanAndCheckpointPayloads) (executionId : String)
      (populationEligibilitySpec : Option Bytes)
  | eligibilityEvalDisabled
  | rejection
  deriving Repr, DecidableEq

inductive CheckinResult where
  | taskAssignment (payloads : PlanAndCheckpointPayloads) (federatedSelectUriTemplate : String)
      (aggregationSessionId : String) (minimumClientsInServerVisibleAggregate : Option ℤ)
  | rejection
  deriving Repr, DecidableEq

abbrev TaskRef := Option String

variable (s : Session)

def Session.task : TaskRef → PerTaskInfo
  | none => s.defaultTaskInfo
  | some id => (s.taskInfoMap.lookup id).getD {}

def Session.updateTask (f : PerTaskInfo → PerTaskInfo) : TaskRef → Session
  | none => { s with defaultTaskInfo := f s.defaultTaskInfo }
  | some id => { s with
      taskInfoMap := s.taskInfoMap.map fun entry =>
        if entry.1=id then (id,f entry.2) else entry }

def updateSession (f : Session → Session) : Operation Session Unit :=
  update fun w => { w with session := f w.session }

def setObjectState (state : ObjectState) : Operation Session Unit :=
  updateSession fun s => { s with objectState := state }

def setTaskState (task : TaskRef) (state : ObjectState) : Operation Session Unit :=
  updateSession fun s => s.updateTask (fun info => { info with state := state }) task

def check (condition : Session → Bool) : Operation Session Unit := do
  let holds ← read fun w => condition w.session
  ofChecked (fcpCheck holds)

end State

section Requests

def ProtocolRequestCreator.create (info : ForwardingInfo) : StatusOr ProtocolRequestCreator :=
  if info.targetUriPrefix="" then
    .error ⟨.invalidArgument,"Missing `ForwardingInfo.target_uri_prefix`"⟩
  else .ok ⟨info.targetUriPrefix,info.extraRequestHeaders⟩

def createProtocolRequest (answers : Answers) (creator : Session → Option ProtocolRequestCreator)
    (request : Request) : Operation Session Unit := do
  let set ← read fun w => (creator w.session).isSome
  if set then returnIfError (answers.created request) else crash .nullDereference

def taskCreator (task : TaskRef) (s : Session) : Option ProtocolRequestCreator :=
  (s.task task).aggregationRequestCreator

def uploadCreator (task : TaskRef) (s : Session) : Option ProtocolRequestCreator :=
  (s.task task).dataUploadRequestCreator

def convertResourceToUriOrInlineData : Resource → StatusOr UriOrInlineData
  | .uri uri clientCacheId =>
    if uri="" then .error ⟨.invalidArgument,"Resource.uri must be non-empty when set"⟩
    else .ok (.uri uri clientCacheId)
  | .inlineResource data none => .ok (.inlineData data .uncompressed)
  | .inlineResource data (some .gzip) => .ok (.inlineData data .gzip)
  | .inlineResource _ (some .unspecified) =>
    .error ⟨.unimplemented,"Unknown ResourceCompressionFormat"⟩
  | .notSet => .ok (.inlineData [] .uncompressed)

def withMessage {α : Type} (text : String) : StatusOr α → StatusOr α
  | .ok a => .ok a
  | .error status => .error ⟨status.code,text++status.text⟩

variable (codec : Codec) (answers : Answers)

def fetchTaskResources (plan checkpoint : Resource) :
    Operation Session PlanAndCheckpointPayloads := do
  let planUriOrData ← ofExcept (convertResourceToUriOrInlineData plan)
  let checkpointUriOrData ← ofExcept (convertResourceToUriOrInlineData checkpoint)
  let responses ← fetchResourcesInMemory answers codec.uncompressWithGzip .planFetch
    [(.planFetch,planUriOrData),(.checkpointFetch,checkpointUriOrData)]
  let planDataResponse ← ofChecked (elementAt responses 0)
  let checkpointDataResponse ← ofChecked (elementAt responses 1)
  let planData ← ofExcept (withMessage "plan fetch failed: " planDataResponse)
  let checkpointData ←
    ofExcept (withMessage "checkpoint fetch failed: " checkpointDataResponse)
  pure ⟨planData.body,checkpointData.body⟩

def fetchPopulationEligibilitySpec (resource : Resource) : Operation Session Bytes := do
  let uriOrData ← ofExcept (convertResourceToUriOrInlineData resource)
  let responses ← fetchResourcesInMemory answers codec.uncompressWithGzip
    .populationEligibilitySpecFetch [(.populationEligibilitySpecFetch,uriOrData)]
  let first ← ofChecked (elementAt responses 0)
  let response ←
    ofExcept (withMessage "population eligibility spec fetch failed: " first)
  match codec.populationEligibilitySpec response.body with
  | some spec => pure spec
  | none => fail ⟨.invalidArgument,"Unable to parse PopulationEligibilitySpec."⟩

def mandatoryResponse (code : ProdDiagCode)
    (responses : List (StatusOr InMemoryHttpResponse)) :
    Operation Session (StatusOr InMemoryHttpResponse) := do
  let second ← ofChecked (elementAt responses 1)
  match second with
  | .error _ => logDiag code
  | .ok _ => pure ()
  ofChecked (elementAt responses 0)

end Requests

section Checkins

variable (flags : Flags) (codec : Codec) (env : Environment) (status : Status)
  (httpResponse : StatusOr InMemoryHttpResponse)

def isPermanentError : Bool := (status.code.value : ℤ)∈flags.federatedTrainingPermanentErrorCodes

def updateObjectStateIfPermanentError
    (permanentErrorObjectState : ObjectState) : Operation Session Unit :=
  if isPermanentError flags status then setObjectState permanentErrorObjectState else pure ()

def pickRetryDelayFromRange (minDelay maxDelay random : ℚ) : ℚ :=
  let minDelay := max 0 minDelay
  let maxDelay := max maxDelay minDelay
  minDelay+(maxDelay-minDelay)*random

def pickRetryTimeFromRange (window : RetryWindow) (draw : Draw) : ℚ :=
  draw.now+pickRetryDelayFromRange window.delayMin window.delayMax draw.random

def performEligibilityEvalTaskRequest : Operation Session InMemoryHttpResponse := do
  returnIfError (env.created .eligibilityEvalTask)
  performProtocolRequest env.toAnswers .eligibilityEvalTask true

def fetchSpecIfSupported : Option Resource → Operation Session (Option Bytes)
  | none => pure none
  | some resource =>
    if flags.httpProtocolSupportsMultipleTaskAssignments then do
      let spec ← fetchPopulationEligibilitySpec codec env.toAnswers resource
      pure (some spec)
    else pure none

def handleEligibilityEvalResult :
    EligibilityEvalResult → Operation Session EligibilityEvalCheckinResult
  | .eligibilityEvalTask task => do
    let payloads ← fetchTaskResources codec env.toAnswers task.plan task.initCheckpoint
    let spec ← fetchSpecIfSupported flags codec env task.populationEligibilitySpec
    setObjectState .eligibilityEvalEnabled
    pure (.eligibilityEvalTask payloads task.executionId spec)
  | .noEligibilityEvalConfigured => do
    setObjectState .eligibilityEvalDisabled
    pure .eligibilityEvalDisabled
  | _ => fail ⟨.unimplemented,"Unrecognized EligibilityEvalCheckinResponse"⟩

def handleEligibilityEvalTaskResponse : Operation Session EligibilityEvalCheckinResult := do
  let response ← ofExcept (withMessage "protocol request failed: " httpResponse)
  match codec.eligibilityEvalTaskResponse response.body with
  | none => fail ⟨.invalidArgument,"Could not parse response_proto"⟩
  | some responseProto => do
    let retryTimes : RetryTimes :=
      ⟨pickRetryTimeFromRange responseProto.retryWindowIfRejected env.drawIfRejected,
        pickRetryTimeFromRange responseProto.retryWindowIfAccepted env.drawIfAccepted⟩
    updateSession fun s => { s with retryTimes := some retryTimes }
    if responseProto.result=.rejectionInfo then do
      setObjectState .eligibilityEvalCheckinRejected
      pure .rejection
    else do
      updateSession fun s => { s with preTaskAssignmentSessionId := responseProto.sessionId }
      let creator ← ofExcept
        (ProtocolRequestCreator.create responseProto.taskAssignmentForwardingInfo)
      updateSession fun s => { s with taskAssignmentRequestCreator := some creator }
      handleEligibilityEvalResult flags codec env responseProto.result

def eligibilityEvalCheckin : Operation Session EligibilityEvalCheckinResult := do
  check fun s => s.objectState=.initialized
  setObjectState .eligibilityEvalCheckinFailed
  let httpResponse ← attempt (performEligibilityEvalTaskRequest env)
  let response ← attempt (handleEligibilityEvalTaskResponse flags codec env httpResponse)
  updateObjectStateIfPermanentError flags (statusOf response)
    .eligibilityEvalCheckinFailedPermanentError
  match response with
  | .ok (.eligibilityEvalTask ..) => updateSession fun s =>
    { s with eligibilityEvalEnabled := true }
  | _ => pure ()
  ofExcept response

def reportEligibilityEvalErrorInternal : Operation Session Unit := do
  returnIfError (env.created .reportEligibilityEvalTaskResult)
  let _ ← performProtocolRequest env.toAnswers .reportEligibilityEvalTaskResult true
  pure ()

def reportEligibilityEvalError : Operation Session Unit := do
  let status ← attempt (reportEligibilityEvalErrorInternal env)
  match status with
  | .ok () => pure ()
  | .error _ => logDiag .httpReportEligibilityEvalResultRequestFailed

def performTaskAssignmentAndReportEligibilityEvalResultRequests :
    Operation Session (StatusOr InMemoryHttpResponse) := do
  createProtocolRequest env.toAnswers Session.taskAssignmentRequestCreator .startTaskAssignment
  let enabled ← read fun w => w.session.eligibilityEvalEnabled
  if enabled then do
    returnIfError (env.created .reportEligibilityEvalTaskResult)
    let responses ← performMultipleProtocolRequests env.toAnswers .startTaskAssignment
      [(.startTaskAssignment,true),(.reportEligibilityEvalTaskResult,false)]
    mandatoryResponse .httpReportEligibilityEvalResultRequestFailed responses
  else do
    let responses ← performMultipleProtocolRequests env.toAnswers .startTaskAssignment
      [(.startTaskAssignment,true)]
    ofChecked (elementAt responses 0)

def handleTaskAssignmentInnerResponse :
    StartTaskAssignmentResponse → Operation Session CheckinResult
  | .rejectionInfo => do
    setObjectState .checkinRejected
    pure .rejection
  | .notSet => fail ⟨.unimplemented,"Unrecognized StartTaskAssignmentResponse"⟩
  | .taskAssignment info => do
    let creator ← ofExcept
      (ProtocolRequestCreator.create info.aggregationDataForwardingInfo)
    updateSession fun s => s.updateTask
      (fun task => { task with aggregationRequestCreator := some creator }) none
    let payloads ← fetchTaskResources codec env.toAnswers info.plan info.initCheckpoint
    setObjectState .checkinAccepted
    updateSession fun s => s.updateTask (fun task => { task with
      state := .checkinAccepted
      sessionId := info.sessionId
      aggregationSessionId := info.aggregationId
      aggregationAuthorizationToken := info.authorizationToken
      taskName := info.taskName }) none
    pure (.taskAssignment payloads info.federatedSelectUriTemplate info.aggregationId
      info.minimumClientsInServerVisibleAggregate)

def handleTaskAssignmentOperationResponse : Operation Session CheckinResult := do
  let response ← ofExcept httpResponse
  match codec.startTaskAssignmentResponse response.body with
  | none => fail ⟨.invalidArgument,"could not parse StartTaskAssignmentResponse proto"⟩
  | some responseProto => handleTaskAssignmentInnerResponse codec env responseProto

def mayCheckin : ObjectState → Bool
  | .eligibilityEvalDisabled | .eligibilityEvalEnabled | .multipleTaskAssignmentsAccepted
  | .multipleTaskAssignmentsFailed | .multipleTaskAssignmentsFailedPermanentError
  | .multipleTaskAssignmentsNoAvailableTask => true
  | _ => false

def checkin (hasTaskEligibilityInfo : Bool) : Operation Session CheckinResult := do
  check fun s => mayCheckin s.objectState
  check fun s => hasTaskEligibilityInfo=decide (s.objectState=.eligibilityEvalEnabled)
  setObjectState .checkinFailed
  let httpResponse ← attempt do
    let response ← performTaskAssignmentAndReportEligibilityEvalResultRequests env
    ofExcept response
  let response ← attempt (handleTaskAssignmentOperationResponse codec env httpResponse)
  updateObjectStateIfPermanentError flags (statusOf response) .checkinFailedPermanentError
  ofExcept response

def performMultipleTaskAssignments : Operation Session Unit := do
  check fun s => s.objectState=.eligibilityEvalDisabled ∨ s.objectState=.eligibilityEvalEnabled
  setObjectState .multipleTaskAssignmentsFailed
  fail ⟨.unimplemented,"PerformMultipleTaskAssignments is not yet implemented."⟩

end Checkins

section Reports

variable (codec : Codec) (env : Environment) (task : TaskRef)

def performWithReport (answers : Answers) (request : Request) :
    Operation Session (StatusOr InMemoryHttpResponse) := do
  let responses ← performMultipleProtocolRequests answers request
    [(request,true),(.reportTaskResult,false)]
  check fun _ => responses.length=2
  mandatoryResponse .httpReportTaskResultRequestFailed responses

def performStartDataUploadRequestAndReportTaskResult :
    Operation Session (StatusOr InMemoryHttpResponse) := do
  createProtocolRequest env.toAnswers Session.taskAssignmentRequestCreator .reportTaskResult
  createProtocolRequest env.toAnswers (taskCreator task) .startAggregationDataUpload
  performWithReport env.toAnswers .startAggregationDataUpload

def handleStartDataAggregationUploadOperationResponse
    (httpResponse : StatusOr InMemoryHttpResponse) : Operation Session Unit := do
  let response ← ofExcept httpResponse
  match codec.startAggregationDataUploadResponse response.body with
  | none => fail ⟨.invalidArgument,"could not parse StartTaskAssignmentResponse proto"⟩
  | some responseProto => do
    let aggregationCreator ← ofExcept
      (ProtocolRequestCreator.create responseProto.aggregationProtocolForwardingInfo)
    updateSession fun s => s.updateTask (fun info => { info with
      aggregationRequestCreator := some aggregationCreator
      aggregationResourceName := responseProto.resource.resourceName }) task
    let uploadCreator ← ofExcept
      (ProtocolRequestCreator.create responseProto.resource.dataUploadForwardingInfo)
    updateSession fun s => s.updateTask (fun info => { info with
      dataUploadRequestCreator := some uploadCreator
      aggregationClientToken :=
        if responseProto.clientToken="" then info.aggregationAuthorizationToken
        else responseProto.clientToken }) task

def notify (creator : Session → Option ProtocolRequestCreator) (request : Request) (text : String) :
    Operation Session Unit := do
  createProtocolRequest env.toAnswers creator request
  let httpResponse ← attempt (performProtocolRequest env.toAnswers request true)
  let _ ← ofExcept (withMessage text httpResponse)
  pure ()

def uploadDataViaSimpleAgg : Operation Session Unit :=
  notify env (uploadCreator task) .dataUpload "Data upload failed: "

def submitAggregationResult : Operation Session Unit :=
  notify env (taskCreator task) .submitAggregationResult "SubmitAggregationResult failed: "

def abortAggregation : Operation Session Unit := do
  check fun s => (s.task task).state=.reportFailedPermanentError
  createProtocolRequest env.toAnswers (taskCreator task) .abortAggregation
  let _ ← performProtocolRequest env.toAnswers .abortAggregation false
  pure ()

def abortAfterFailedUpload (status : Status) : Operation Session Unit :=
  if status.code=.aborted then pure ()
  else do
    let aborted ← attempt (abortAggregation env task)
    match aborted with
    | .ok () => pure ()
    | .error _ => logDiag .httpCancellationOrAbortRequestFailed

def startDataUpload : Operation Session Unit := do
  let httpResponse ← attempt do
    let response ← performStartDataUploadRequestAndReportTaskResult env task
    ofExcept response
  handleStartDataAggregationUploadOperationResponse codec task httpResponse

def reportViaSimpleAggregation : ComputationResults → Operation Session Unit
  | [(_,.tfCheckpoint _)] => do
    let startUploadStatus ← attempt (startDataUpload codec env task)
    match startUploadStatus with
    | .error status => do
      setTaskState task .reportFailedPermanentError
      fail status
    | .ok () => do
      let uploadStatus ← attempt (uploadDataViaSimpleAgg env task)
      match uploadStatus with
      | .error status => do
        setTaskState task .reportFailedPermanentError
        abortAfterFailedUpload env task status
        fail status
      | .ok () => submitAggregationResult env task
  | _ => fail ⟨.internal,"Simple Aggregation aggregands have unexpected format."⟩

/-- The response to the `StartSecureAggregation` request is read without a look at its status. -/
def startSecureAggregationAndReportTaskResult :
    Operation Session StartSecureAggregationResponse := do
  createProtocolRequest env.toAnswers (taskCreator task) .startSecureAggregation
  createProtocolRequest env.toAnswers Session.taskAssignmentRequestCreator .reportTaskResult
  let first ← performWithReport env.toAnswers .startSecureAggregation
  let response ← valueOf first
  match codec.startSecureAggregationResponse response.body with
  | none =>
    fail ⟨.invalidArgument,"could not parse StartSecureAggregationResponse proto"⟩
  | some responseProto => pure responseProto

variable (results : ComputationResults)

def ComputationResults.hasCheckpoint : Bool := results.any fun result => !result.2.isQuantizedTensor

def createSendToServer (responseProto : StartSecureAggregationResponse) : StatusOr Unit := do
  let _ ← ProtocolRequestCreator.create responseProto.secaggProtocolForwardingInfo
  let _ ← ProtocolRequestCreator.create responseProto.maskedResultResource.dataUploadForwardingInfo
  let _ ←
    ProtocolRequestCreator.create responseProto.nonmaskedResultResource.dataUploadForwardingInfo
  .ok ()

def reportViaSecureAggregation : Operation Session Unit := do
  let responseProto ← startSecureAggregationAndReportTaskResult codec env task
  updateSession fun s => s.updateTask (fun info => { info with
    aggregationClientToken :=
      if responseProto.clientToken="" then info.aggregationAuthorizationToken
      else responseProto.clientToken }) task
  ofExcept (createSendToServer responseProto)
  runSecAgg env.toAnswers codec.parses env.client results.hasCheckpoint

def beginReport : Operation Session Unit := do
  let known ← read fun w => task.all fun id => w.session.taskInfoMap.any (·.1=id)
  if known then do
    check fun s => (s.task task).state=.checkinAccepted ∨
      (s.task task).state=.multipleTaskAssignmentsAccepted
    setTaskState task .reportCalled
  else fail ⟨.invalidArgument,"Unexpected aggregation_session_id."⟩

def reportCompleted : Operation Session Unit := do
  beginReport task
  if results.any fun result => result.2.isQuantizedTensor then
    reportViaSecureAggregation codec env task results
  else reportViaSimpleAggregation codec env task results

def reportNotCompleted : Operation Session Unit := do
  beginReport task
  notify env Session.taskAssignmentRequestCreator .reportTaskResult
    "ReportTaskResult request failed: "

end Reports

section RetryWindows

variable (flags : Flags)

inductive RetrySource where
  | ifAccepted
  | ifRejected
  | transientErrors
  | permanentErrors
  deriving Repr, DecidableEq

variable (state : ObjectState) (s : Session)

def count (tasks : List PerTaskInfo) : ℕ := tasks.countP fun info => info.state=state

def getTheLatestStateFromAllTasks : ObjectState :=
  if s.objectState≠.checkinAccepted ∧ s.objectState≠.multipleTaskAssignmentsAccepted then
    s.objectState
  else if !flags.httpProtocolSupportsMultipleTaskAssignments then s.defaultTaskInfo.state
  else
    let tasks := (if s.defaultTaskInfo.state=.initialized then [] else [s.defaultTaskInfo]) ++
      s.taskInfoMap.map Prod.snd
    if count .reportFailedPermanentError tasks=tasks.length then .reportFailedPermanentError
    else if count .reportCalled tasks=tasks.length then .reportCalled
    else .reportMultipleTaskPartialError

def retrySource (hasRetryTimes : Bool) : Checked RetrySource :=
  match state with
  | .checkinAccepted | .multipleTaskAssignmentsAccepted | .reportCalled => do
    fcpCheck hasRetryTimes
    .ok .ifAccepted
  | .eligibilityEvalCheckinRejected | .eligibilityEvalDisabled | .eligibilityEvalEnabled
  | .checkinRejected | .multipleTaskAssignmentsNoAvailableTask
  | .reportMultipleTaskPartialError => do
    fcpCheck hasRetryTimes
    .ok .ifRejected
  | .initialized | .eligibilityEvalCheckinFailed | .checkinFailed
  | .multipleTaskAssignmentsFailed => .ok (if hasRetryTimes then .ifRejected else .transientErrors)
  | .eligibilityEvalCheckinFailedPermanentError | .checkinFailedPermanentError
  | .multipleTaskAssignmentsFailedPermanentError | .reportFailedPermanentError =>
    .ok .permanentErrors

def latestRetrySource : Checked RetrySource :=
  retrySource (getTheLatestStateFromAllTasks flags s) s.retryTimes.isSome

def generateRetryWindowFromTargetDelay (targetDelay jitterPercent random : ℚ) : RetryWindow :=
  let jitterPercent := min 1 (max 0 jitterPercent)
  let retryDelay := pickRetryDelayFromRange (targetDelay*(1-jitterPercent))
    (targetDelay*(1+jitterPercent)) random
  ⟨retryDelay,retryDelay⟩

def generateRetryWindowFromRetryTime (retryTime now : ℚ) : RetryWindow :=
  let retryDelay := max 0 (retryTime-now)
  ⟨retryDelay,retryDelay⟩

def retryWindowFrom (retryTimes : Option RetryTimes) (draw : Draw) :
    RetrySource → Checked RetryWindow
  | .ifAccepted =>
    match retryTimes with
    | some times => .ok (generateRetryWindowFromRetryTime times.retryTimeIfAccepted draw.now)
    | none => .error .check
  | .ifRejected =>
    match retryTimes with
    | some times => .ok (generateRetryWindowFromRetryTime times.retryTimeIfRejected draw.now)
    | none => .error .check
  | .transientErrors => .ok (generateRetryWindowFromTargetDelay
      flags.federatedTrainingTransientErrorsRetryDelaySecs
      flags.federatedTrainingTransientErrorsRetryDelayJitterPercent draw.random)
  | .permanentErrors => .ok (generateRetryWindowFromTargetDelay
      flags.federatedTrainingPermanentErrorsRetryDelaySecs
      flags.federatedTrainingPermanentErrorsRetryDelayJitterPercent draw.random)

def getLatestRetryWindow (draw : Draw) (s : Session) : Checked RetryWindow := do
  let source ← latestRetrySource flags s
  retryWindowFrom flags s.retryTimes draw source

end RetryWindows

section Calls

inductive Call where
  | eligibilityEvalCheckin
  | reportEligibilityEvalError
  | checkin (hasTaskEligibilityInfo : Bool)
  | performMultipleTaskAssignments
  | reportCompleted (results : ComputationResults) (aggregationSessionId : Option String)
  | reportNotCompleted (aggregationSessionId : Option String)
  deriving Repr, DecidableEq

inductive Reply where
  | done
  | eligibilityEvalCheckin (result : EligibilityEvalCheckinResult)
  | checkin (result : CheckinResult)
  deriving Repr, DecidableEq

def perform (flags : Flags) (codec : Codec) (env : Environment) : Call → Operation Session Reply
  | .eligibilityEvalCheckin => do
    let result ← eligibilityEvalCheckin flags codec env
    pure (.eligibilityEvalCheckin result)
  | .reportEligibilityEvalError => do
    reportEligibilityEvalError env
    pure .done
  | .checkin hasTaskEligibilityInfo => do
    let result ← checkin flags codec env hasTaskEligibilityInfo
    pure (.checkin result)
  | .performMultipleTaskAssignments => do
    performMultipleTaskAssignments
    pure .done
  | .reportCompleted results aggregationSessionId => do
    reportCompleted codec env aggregationSessionId results
    pure .done
  | .reportNotCompleted aggregationSessionId => do
    reportNotCompleted env aggregationSessionId
    pure .done

end Calls

end Fcp.Client.Http

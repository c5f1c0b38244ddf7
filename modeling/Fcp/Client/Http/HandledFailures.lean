import Fcp.Client.Http.FailedResponses

/-!
# Calls after a failed response

Up to the two exceptions of secure aggregation a call returns the code of the first failed response,
and a report sent as a best effort changes neither the outcome nor the object.
-/

namespace Fcp.Client.Http

open Program List Triple ProtocolRequestCreator

section Given

variable {σ α : Type} {S : σ → Prop}

def Given (S : σ → Prop) : StatusOr α → World σ → Prop
  | .ok _, w => Ready S w
  | .error status, w => Blamed S status w

variable (r : StatusOr α)

theorem triple_ofExcept_given : Triple (Given S r) (ofExcept r : Operation σ α)
      (fun a w => r=.ok a ∧ Ready S w) (fun e w => r=.error e ∧ Blamed S e w) := by
  cases r with
  | ok _ | error _ => exact fun w hw => ⟨rfl,hw⟩

theorem triple_withMessage (text : String) (r : StatusOr α) :
    Triple (Given S r) (ofExcept (withMessage text r) : Operation σ α)
      (fun a w => r=.ok a ∧ Ready S w) (Blamed S) := by
  cases r with
  | ok a => exact fun w hw => ⟨rfl,hw⟩
  | error e => exact fun w hw => hw.of_code rfl

theorem triple_ofExcept_ready : Triple (Ready S) (ofExcept r : Operation σ α)
      (fun a w => r=.ok a ∧ Ready S w) (fun e w => r=.error e ∧ Blamed S e w) := by
  cases r with
  | ok a => exact fun w hw => ⟨rfl,hw⟩
  | error e => exact fun w hw => ⟨rfl,hw.blamed e⟩

theorem triple_attempt_given {β : Type} {P : World σ → Prop} {Q : β → World σ → Prop}
    {E : Status → World σ → Prop} {x : Operation σ α} {next : StatusOr α → Operation σ β}
    (hx : Blames P x S) (hn : ∀ r,Triple (Given S r) (next r) Q E) :
    Triple P (attempt x >>= next) Q E :=
  hx.attempt_bind (fun a => hn (.ok a)) fun e => hn (.error e)

end Given

section Fetches

variable {S : Session → Prop} (codec : Codec) (answers : Answers)
  {uncompress : Bytes → Except String Bytes} {st : Status} {res : Request × UriOrInlineData}

theorem decodeResponse_error {resp : StatusOr InMemoryHttpResponse}
    (h : decodeResponse uncompress resp=.error st) :
    resp=.error st ∨ st.isOk=false := by
  cases resp with
  | error e =>
    cases h
    exact .inl rfl
  | ok resp =>
    right
    rw [decodeResponse] at h
    split at h
    · cases hb : uncompress resp.body with
      | ok body =>
        rw [hb] at h
        cases h
      | error text =>
        rw [hb] at h
        cases h
        rfl
    · cases h

theorem resourceResponse_error
    (h : resourceResponse answers uncompress res=.error st) : st.isOk=false := by
  obtain hr | hs:=decodeResponse_error h
  · cases ha : availableResponse answers.sources res with
    | some resp =>
      rw [ha] at hr
      cases hr
    | none =>
      rw [ha] at hr
      simp only [Answers.responseTo] at hr
      split at hr
      · cases hr
      · cases hr
        exact Bool.eq_false_of_not_eq_true ‹_›
  · exact hs

def resourceLog (resources : List (Request × UriOrInlineData)) : List Issued :=
  resources.map fun resource =>
    ⟨resource.1,true,statusOf (resourceResponse answers codec.uncompressWithGzip resource)⟩

theorem triple_fetchResourcesInMemory (batch : Request) (ress : List (Request × UriOrInlineData)) :
    Triple (Ready S) (fetchResourcesInMemory answers codec.uncompressWithGzip batch ress)
      (fun responses w =>
        responses=ress.map (resourceResponse answers codec.uncompressWithGzip) ∧
        firstFailure w.issued=firstFailure (resourceLog codec answers ress) ∧
        S w.session)
      (Blamed S) := by
  unfold fetchResourcesInMemory
  cases hc : compileRequests answers.sources [] ress with
  | error st => exact fun w hw => hw.blamed st
  | ok compiled =>
    obtain ⟨accs,reqs⟩:=compiled
    intro w hw
    simp only [ofExcept_ok_bind]
    unfold performMultipleRequestsInMemory
    by_cases hp : (answers.performed batch).isOk=true
    · simp only [hp,if_true]
      rw [gatherResponses_compiled answers codec.uncompressWithGzip
        (compiled_of_compileRequests hc).2]
      refine ⟨rfl,?_,hw.2⟩
      show firstFailure (w.issued++_)=_
      rw [firstFailure_append,hw.1,zipWith_map,zipWith_self]
      rfl
    · simp only [hp]
      refine ⟨fun entry he => ?_,hw.2⟩
      change firstFailure (w.issued++_)=some entry at he
      rw [firstFailure_append,hw.1] at he
      have hm:=mem_of_find?_eq_some he
      obtain ⟨req,-,rfl⟩:=mem_map.mp hm
      rfl

theorem Given.of_log {ress : List (Request × UriOrInlineData)} {w : World Session}
    (hl : firstFailure w.issued =
      firstFailure (resourceLog codec answers (res::ress))) (hs : S w.session) :
    (∃ resp,resourceResponse answers codec.uncompressWithGzip res=.ok resp ∧
        firstFailure w.issued=firstFailure (resourceLog codec answers ress)) ∨
      ∃ st,resourceResponse answers codec.uncompressWithGzip res=.error st ∧ Blamed S st w := by
  cases hr : resourceResponse answers codec.uncompressWithGzip res with
  | error st =>
    refine .inr ⟨st,rfl,fun entry he => ?_,hs⟩
    rw [hl] at he
    simp [resourceLog,firstFailure,hr,statusOf,resourceResponse_error answers hr] at he
    rw [← he]
  | ok resp =>
    have hok : Status.okStatus.isOk=true := rfl
    refine .inl ⟨resp,rfl,hl.trans ?_⟩
    simp [resourceLog,firstFailure,hr,statusOf,hok]

theorem blames_fetchTaskResources (plan cp : Resource) :
    Blames (Ready S) (fetchTaskResources codec answers plan cp) S := by
  unfold fetchTaskResources
  apply (triple_ofExcept_ready _).right.bind
  intro planUriOrData
  apply (triple_ofExcept_ready _).right.bind
  intro checkpointUriOrData
  apply bind (triple_fetchResourcesInMemory codec answers _ _)
  rintro _ w ⟨rfl,hl,hs⟩
  obtain ⟨planData,hp,hl'⟩ | ⟨st,hp,hb⟩:=Given.of_log codec answers hl hs
  · obtain ⟨checkpointData,hc,hn⟩ | ⟨st,hc,hb⟩:=Given.of_log codec answers hl' hs
    · rw [map_cons,map_cons,hp,hc]
      exact ⟨hn,hs⟩
    · rw [map_cons,map_cons,hp,hc]
      exact hb.of_code rfl
  · rw [map_cons,hp]
    exact hb.of_code rfl

theorem blames_fetchPopulationEligibilitySpec (res : Resource) :
    Blames (Ready S) (fetchPopulationEligibilitySpec codec answers res) S := by
  unfold fetchPopulationEligibilitySpec
  apply (triple_ofExcept_ready _).right.bind
  intro uriOrData
  apply bind (triple_fetchResourcesInMemory codec answers _ _)
  rintro _ w ⟨rfl,hl,hs⟩
  obtain ⟨resp,hr,hn⟩ | ⟨st,hr,hb⟩:=Given.of_log codec answers hl hs
  · rw [map_cons,hr]
    have hready : Ready S w := ⟨hn,hs⟩
    rw [ensures_bind]
    show Ensures False (ofExcept (.ok resp) >>= _) w _
    rw [ofExcept_ok_bind]
    cases codec.populationEligibilitySpec resp.body with
    | some spec => exact hready
    | none => exact hready.blamed _
  · rw [map_cons,hr]
    exact hb.of_code rfl

end Fetches

section Steps

variable {S T : Session → Prop} (answers : Answers) {E : Status → World Session → Prop}
  {creator : Session → Option ProtocolRequestCreator} {w : World Session}

theorem triple_updateSession {f : Session → Session} (hf : ∀ s,S s → T (f s)) :
    Triple (Ready S) (updateSession f) (fun _ => Ready T) E :=
  triple_update fun _ hw => ⟨hw.1,hf _ hw.2⟩

theorem triple_check {condition : Session → Bool} (h : ∀ s,S s → condition s=true) :
    Triple (Ready S) (check condition) (fun _ => Ready S) E := by
  intro w hw
  rw [check,ensures_bind,ensures_read]
  simp only [h _ hw.2]
  exact hw

theorem decides_createProtocolRequest (h : ∀ s,S s → (creator s).isSome=true) (req : Request) :
    Decides S ((answers.created req).isOk=true) (createProtocolRequest answers creator req) := by
  intro w hw
  rw [createProtocolRequest,ensures_bind,ensures_read]
  simp only [h _ hw.2,if_true]
  exact decides_returnIfError _ w hw

theorem Ready.issue (hw : Ready S w) (req : Request)
    (others : List Request) (hp : (answers.performed req).isOk=true) :
    Given S (answers.checked req)
      (w.issue answers req ((req,true)::others.map (·,false))) := by
  have ha : answers.answer req=answers.checked req := by
    simp only [Answers.answer,Answers.replied,hp,if_true]
    rfl
  cases hc : answers.checked req with
  | ok resp => exact hw.issue_ok answers others (ha.trans hc)
  | error st => exact hw.issue_error answers others (ha.trans hc)

theorem Ready.issue_notPerformed (hw : Ready S w) (req : Request)
    (others : List Request) (hp : (answers.performed req).isOk=false) :
    Blamed S (answers.performed req)
      (w.issue answers req ((req,true)::others.map (·,false))) := by
  have ha : answers.answer req=.error (answers.performed req) := by
    simp only [Answers.answer,Answers.replied,hp]
    rfl
  exact hw.issue_error answers others ha

theorem triple_performWithReport (req : Request) : Triple (Ready S) (performWithReport answers req)
      (fun r w => (answers.performed req).isOk=true ∧ r=answers.checked req ∧ Given S r w)
      (fun e w => (answers.performed req).isOk=false ∧ Blamed S e w) := by
  intro w hw
  obtain ⟨diags,ha⟩:=performWithReport_apply answers req w
  apply ensures_of_eq ha
  unfold Answers.replied
  cases hp : (answers.performed req).isOk with
  | false => exact ⟨rfl,hw.issue_notPerformed answers req [.reportTaskResult] hp⟩
  | true =>
    have hg:=hw.issue answers req [.reportTaskResult] hp
    refine ⟨rfl,rfl,?_⟩
    cases hc : answers.checked req with
    | ok _ | error _ =>
      rw [hc] at hg
      exact hg

theorem blames_notify (env : Environment) (h : ∀ s,S s → (creator s).isSome=true) (req : Request)
    (text : String) : Blames (Ready S) (notify env creator req text) S := by
  unfold notify
  apply (decides_createProtocolRequest env.toAnswers h req).right.bind
  intro _ w hw
  apply attempt_bind (triple_performProtocolRequest env.toAnswers req)
  · exact fun resp w hw => hw.2
  · exact fun e w hw => hw.2.of_code rfl
  · exact hw

end Steps

section Checkins

variable {S : Session → Prop} (flags : Flags) (codec : Codec) (env : Environment)

abbrev anySession : Session → Prop := fun _ => True

theorem Ready.any {w : World Session} (h : Ready S w) : Ready anySession w := ⟨h.1,trivial⟩

theorem Blamed.any {st : Status} {w : World Session} (h : Blamed S st w) : Blamed anySession st w :=
  ⟨h.1,trivial⟩

theorem blames_handleEligibilityEvalResult (result : EligibilityEvalResult) :
    Blames (Ready anySession) (handleEligibilityEvalResult flags codec env result) anySession := by
  cases result with
  | rejectionInfo | notSet => exact fun w hw => hw.blamed _
  | noEligibilityEvalConfigured => exact fun w hw => ⟨hw.1,trivial⟩
  | eligibilityEvalTask task =>
    apply bind (blames_fetchTaskResources codec env.toAnswers _ _)
    intro payloads
    apply bind (Q := fun _ => Ready anySession)
    · cases task.populationEligibilitySpec with
      | none => exact fun w hw => hw
      | some res =>
        rw [fetchSpecIfSupported]
        split
        · apply bind (blames_fetchPopulationEligibilitySpec codec env.toAnswers res)
          exact fun _ w hw => hw
        · exact fun w hw => hw
    · exact fun spec w hw => ⟨hw.1,trivial⟩

variable (http : StatusOr InMemoryHttpResponse)

theorem blames_handleEligibilityEvalTaskResponse : Blames (Given anySession http)
      (handleEligibilityEvalTaskResponse flags codec env http) anySession := by
  apply bind (triple_withMessage _ http)
  rintro resp w ⟨-,hw⟩
  cases codec.eligibilityEvalTaskResponse resp.body with
  | none => exact hw.blamed _
  | some responseProto =>
    show Ensures False (if responseProto.result=.rejectionInfo then _ else _) _ _
    split
    · exact ⟨hw.1,trivial⟩
    · cases create responseProto.taskAssignmentForwardingInfo with
      | error st => exact ⟨(hw.blamed st).1,trivial⟩
      | ok creator =>
        exact blames_handleEligibilityEvalResult flags codec env responseProto.result _
          ⟨hw.1,trivial⟩

theorem triple_updateObjectStateIfPermanentError {α : Type} (resp : StatusOr α)
    (state : ObjectState) :
    Triple (Given anySession resp)
      (updateObjectStateIfPermanentError flags (statusOf resp) state)
      (fun _ w => Given anySession resp w) (Blamed anySession) := by
  unfold updateObjectStateIfPermanentError
  split
  · cases resp with
    | ok _ | error _ => exact fun w hw => ⟨hw.1,trivial⟩
  · exact fun w hw => hw

theorem blames_eligibilityEvalCheckin : Blames (Ready fun s => s.objectState=.initialized)
      (eligibilityEvalCheckin flags codec env) anySession := by
  apply Triple.bind (triple_check fun s hs => decide_eq_true hs)
  intro _
  apply Triple.bind (triple_updateSession (T := anySession) fun _ _ => trivial)
  intro _
  have hr : Blames (Ready anySession) (performEligibilityEvalTaskRequest env) anySession := by
    apply (decides_returnIfError _).right.bind
    exact fun _ => (triple_performProtocolRequest env.toAnswers _).right
  apply triple_attempt_given hr
  intro http
  apply triple_attempt_given (blames_handleEligibilityEvalTaskResponse flags codec env http)
  intro resp
  apply (triple_updateObjectStateIfPermanentError flags resp _).bind
  intro _ w hw
  cases resp with
  | error e => exact hw
  | ok result =>
    cases result with
    | eligibilityEvalTask _ _ _ => exact ⟨hw.1,trivial⟩
    | eligibilityEvalDisabled | rejection => exact hw

theorem triple_performTaskAssignment (h : ∀ s,S s → s.taskAssignmentRequestCreator.isSome=true) :
    Triple (Ready S) (performTaskAssignmentAndReportEligibilityEvalResultRequests env)
      (Given S) (Blamed S) := by
  apply (decides_createProtocolRequest env.toAnswers h _).right.bind
  intro _ w hw
  rw [ensures_bind,ensures_read]
  simp only
  have hpair:=hw.issue env.toAnswers .startTaskAssignment
  have hn:=hw.issue_notPerformed env.toAnswers .startTaskAssignment
  split
  · rw [ensures_bind,returnIfError]
    split
    · obtain ⟨diags,ha⟩:=pair_apply env.toAnswers .startTaskAssignment
        .reportEligibilityEvalTaskResult .httpReportEligibilityEvalResultRequestFailed w
      rw [ensures_pure]
      apply ensures_of_eq ha
      unfold Answers.replied
      cases hp : (env.performed .startTaskAssignment).isOk with
      | false => exact hn [.reportEligibilityEvalTaskResult] hp
      | true =>
        have hg:=hpair [.reportEligibilityEvalTaskResult] hp
        simp only [if_true]
        cases hc : env.checked .startTaskAssignment with
        | ok _ | error _ =>
          rw [hc] at hg
          exact hg
    · exact hw.blamed _
  · rw [ensures_bind]
    unfold Ensures
    rw [performMultipleProtocolRequests_apply]
    cases hp : (env.performed .startTaskAssignment).isOk with
    | false => exact hn [] hp
    | true => exact hpair [] hp

theorem blames_handleTaskAssignmentOperationResponse : Blames (Given anySession http)
      (handleTaskAssignmentOperationResponse codec env http) anySession := by
  apply (triple_ofExcept_given http).right.bind
  intro resp w hw
  cases codec.startTaskAssignmentResponse resp.body with
  | none => exact hw.blamed _
  | some responseProto =>
    cases responseProto with
    | rejectionInfo => exact ⟨hw.1,trivial⟩
    | notSet => exact hw.blamed _
    | taskAssignment info =>
      show Ensures False (handleTaskAssignmentInnerResponse codec env (.taskAssignment info)) w _
      rw [handleTaskAssignmentInnerResponse]
      cases create info.aggregationDataForwardingInfo with
      | error st => exact hw.blamed st
      | ok creator =>
        apply bind (blames_fetchTaskResources (S := anySession) codec env.toAnswers _ _)
        · exact fun payloads w hw => ⟨hw.1,trivial⟩
        · exact ⟨hw.1,trivial⟩

theorem blames_checkin (hasInfo : Bool) : Blames (Ready fun s => mayCheckin s.objectState=true ∧
        hasInfo=decide (s.objectState=.eligibilityEvalEnabled) ∧
        s.taskAssignmentRequestCreator.isSome=true)
      (checkin flags codec env hasInfo) anySession := by
  apply Triple.bind (triple_check fun s hs => hs.1)
  intro _
  apply Triple.bind (triple_check fun s hs => decide_eq_true hs.2.1)
  intro _
  apply Triple.bind (triple_updateSession
    (T := fun s => s.taskAssignmentRequestCreator.isSome=true) fun s hs => hs.2.2)
  intro _
  have hr : Blames (Ready fun s : Session => s.taskAssignmentRequestCreator.isSome=true) (do
        let resp ← performTaskAssignmentAndReportEligibilityEvalResultRequests env
        ofExcept resp) anySession := by
    apply Triple.bind
    · exact (triple_performTaskAssignment env fun s hs => hs).imp (fun _ _ hw => hw)
        fun _ _ hw => hw.any
    · exact fun r => (triple_ofExcept_given r).imp (fun _ _ hw => hw.2.any) fun _ _ hw => hw.2.any
  apply triple_attempt_given hr
  intro http
  apply triple_attempt_given (blames_handleTaskAssignmentOperationResponse codec env http)
  intro resp
  apply (triple_updateObjectStateIfPermanentError flags resp _).bind
  exact fun _ => (triple_ofExcept_given resp).right

end Checkins

section Reports

variable (codec : Codec) (env : Environment) (s : Session)

def mayReport : Prop := s.taskAssignmentRequestCreator.isSome=true ∧
    s.defaultTaskInfo.aggregationRequestCreator.isSome=true

def mayUpload : Prop := mayReport s ∧ s.defaultTaskInfo.dataUploadRequestCreator.isSome=true

theorem triple_beginReport :
    Triple (Ready fun s => s.defaultTaskInfo.state=.checkinAccepted ∧ mayReport s)
      (beginReport none) (fun _ => Ready mayReport) (fun _ _ => False) := by
  intro w hw
  rw [beginReport,ensures_bind,ensures_read]
  apply bind (triple_check (S := fun s =>
    s.defaultTaskInfo.state=.checkinAccepted ∧ mayReport s) ?_)
  · exact fun _ => triple_updateSession fun s hs => hs.2
  · exact hw
  · exact fun s hs => decide_eq_true (.inl hs.1)

theorem triple_startDataUpload :
    Triple (Ready mayReport) (startDataUpload codec env none) (fun _ => Ready mayUpload)
      (Blamed mayReport) := by
  have hr : Blames (Ready mayReport) (do
        let resp ← performStartDataUploadRequestAndReportTaskResult env none
        ofExcept resp) mayReport := by
    apply bind (Q := Given mayReport)
    · apply (decides_createProtocolRequest env.toAnswers (fun s hs => hs.1) _).right.bind
      intro _
      apply (decides_createProtocolRequest env.toAnswers (fun s hs => hs.2) _).right.bind
      intro _
      exact (triple_performWithReport env.toAnswers _).imp (fun _ _ hw => hw.2.2) fun _ _ hw => hw.2
    · exact fun r => (triple_ofExcept_given r).right
  apply triple_attempt_given hr
  intro http
  apply (triple_ofExcept_given http).right.bind
  intro resp w hw
  cases codec.startAggregationDataUploadResponse resp.body with
  | none => exact hw.blamed _
  | some responseProto =>
    simp only
    cases create responseProto.aggregationProtocolForwardingInfo with
    | error st => exact hw.blamed st
    | ok aggregationCreator =>
      cases create responseProto.resource.dataUploadForwardingInfo with
      | error st => exact ⟨(hw.blamed st).1,hw.2.1,rfl⟩
      | ok uploadCreator => exact ⟨hw.1,⟨hw.2.1,rfl⟩,rfl⟩

theorem triple_abortAfterFailedUpload (st : Status) :
    Triple (Blamed (fun s => s.defaultTaskInfo.state=.reportFailedPermanentError ∧ mayReport s) st)
      (abortAfterFailedUpload env none st) (fun _ w => Blamed anySession st w)
      (fun _ _ => False) := by
  intro w hw
  unfold abortAfterFailedUpload
  split
  · exact hw.any
  · have hs : decide ((w.session.task none).state=.reportFailedPermanentError)=true :=
      decide_eq_true hw.2.1
    have hc : (taskCreator none w.session).isSome=true := hw.2.2.2
    have hb : Blamed anySession st (w.issue env.toAnswers .abortAggregation
        [(.abortAggregation,false)]) := by
      refine ⟨fun entry he => hw.1 entry ?_,trivial⟩
      rw [← he]
      exact (firstFailure_issue_bestEffort env.toAnswers w _).symm
    rw [ensures_bind,ensures_attempt,abortAggregation,ensures_bind,check,ensures_bind,ensures_read]
    simp only [hs]
    show Ensures False (_ >>= _) w _
    rw [ensures_bind,createProtocolRequest,ensures_bind,ensures_read]
    simp only [hc,if_true,returnIfError]
    cases (env.created .abortAggregation).isOk with
    | false => exact hw.any
    | true =>
      show Ensures False (_ >>= _) w _
      rw [ensures_bind,ensures_performProtocolRequest]
      cases env.answer .abortAggregation with
      | error _ | ok _ => exact hb

theorem blames_reportViaSimpleAggregation (rs : ComputationResults) :
    Blames (Ready mayReport) (reportViaSimpleAggregation codec env none rs) anySession := by
  have hu : Blames (Ready mayUpload) (uploadDataViaSimpleAgg env none) mayUpload :=
    blames_notify env (fun s hs => hs.2) _ _
  have hsub : Blames (Ready mayUpload) (submitAggregationResult env none) mayUpload :=
    blames_notify env (fun s hs => hs.1.2) _ _
  unfold reportViaSimpleAggregation
  split
  · apply (triple_startDataUpload codec env).attempt_bind
    · intro _
      apply hu.attempt_bind
      · intro _
        exact hsub.imp (fun _ _ hw => hw.any) fun _ _ hw => hw.any
      · intro st
        apply Triple.bind (Q := fun _ w => Blamed (fun s =>
          s.defaultTaskInfo.state=.reportFailedPermanentError ∧ mayReport s) st w)
        · exact fun w hw => ⟨hw.1,rfl,hw.2.1⟩
        intro _
        apply Triple.bind
        · exact (triple_abortAfterFailedUpload env st).imp (fun _ _ hw => hw) fun _ _ hw => hw.elim
        · exact fun _ w hw => hw
    · exact fun st w hw => hw.any
  · exact fun w hw => (hw.blamed _).any

def Starts : Prop :=
  (env.created .startSecureAggregation).isOk=true ∧ (env.created .reportTaskResult).isOk=true ∧
    (env.performed .startSecureAggregation).isOk=true

def Misreads : Prop := Starts env ∧ (env.checked .startSecureAggregation).isOk=false

def Misses (results : ComputationResults) : Prop := Starts env ∧
    (∃ response responseProto,env.checked .startSecureAggregation=.ok response ∧
      codec.startSecureAggregationResponse response.body=some responseProto ∧
      (createSendToServer responseProto).isOk=true) ∧
    env.LosesRounds codec.parses env.client results.hasCheckpoint

def startRequests : Operation Session (StatusOr InMemoryHttpResponse) := do
  createProtocolRequest env.toAnswers (taskCreator none) .startSecureAggregation
  createProtocolRequest env.toAnswers Session.taskAssignmentRequestCreator .reportTaskResult
  performWithReport env.toAnswers .startSecureAggregation

def readStart (first : StatusOr InMemoryHttpResponse) :
    Operation Session StartSecureAggregationResponse := do
  let response ← valueOf first
  match codec.startSecureAggregationResponse response.body with
  | none =>
    fail ⟨.invalidArgument,"could not parse StartSecureAggregationResponse proto"⟩
  | some responseProto => pure responseProto

theorem startSecureAggregationAndReportTaskResult_eq :
    startSecureAggregationAndReportTaskResult codec env none =
      startRequests env >>= readStart codec := by
  unfold startRequests
  rw [bind_assoc]
  simp only [bind_assoc]
  rfl

theorem triple_startRequests : Triple (Ready mayReport) (startRequests env)
      (fun r w => Starts env ∧ r=env.checked .startSecureAggregation ∧ Given mayReport r w)
      (fun e w => ¬ Starts env ∧ Blamed mayReport e w) := by
  apply (decides_createProtocolRequest env.toAnswers (fun s hs => hs.2) _).bind (fun hs => hs.1)
  intro _ hstart
  apply (decides_createProtocolRequest env.toAnswers (fun s hs => hs.1) _).bind (fun hs => hs.2.1)
  intro _ hreport
  apply (triple_performWithReport env.toAnswers .startSecureAggregation).imp
  · exact fun first w hw => ⟨⟨hstart,hreport,hw.1⟩,hw.2⟩
  · rintro e w ⟨hp,hw⟩
    refine ⟨fun hstarts => ?_,hw⟩
    rw [hstarts.2.2] at hp
    cases hp

theorem reportViaSecureAggregation_misreads (h : Misreads env) (rs : ComputationResults)
    {w : World Session} (hw : Ready mayReport w) :
    reportViaSecureAggregation codec env none rs w=.error .badStatusOrAccess := by
  obtain ⟨r,w',hs,hr⟩:=ensures_false.mp (triple_startRequests env w hw)
  cases r with
  | error e => exact (hr.1 h.1).elim
  | ok first =>
    have hf:=hr.2.1
    have hb:=h.2
    rw [← hf] at hb
    cases first with
    | ok resp => cases hb
    | error st =>
      rw [reportViaSecureAggregation,bind_apply,startSecureAggregationAndReportTaskResult_eq,
        bind_apply,hs]
      rfl

theorem triple_reportViaSecureAggregation (h : ¬ Misreads env) (rs : ComputationResults) :
    Triple (Ready mayReport) (reportViaSecureAggregation codec env none rs)
      (fun _ w => Ended anySession (Misses codec env rs) w)
      (fun e w => ¬ Misses codec env rs ∧ Blamed anySession e w) := by
  unfold reportViaSecureAggregation
  rw [startSecureAggregationAndReportTaskResult_eq,bind_assoc]
  apply Triple.bind
  · apply (triple_startRequests env).imp (fun _ _ hw => hw)
    rintro e w ⟨hs,hw⟩
    exact ⟨fun hm => hs hm.1,hw.any⟩
  rintro first w ⟨hs,hf,hg⟩
  cases first with
  | error st => exact (h ⟨hs,by rw [← hf]; rfl⟩).elim
  | ok resp =>
    have hr : Ready mayReport w := hg
    have hresponse : Misses codec env rs → ∃ responseProto,
        codec.startSecureAggregationResponse resp.body=some responseProto ∧
          (createSendToServer responseProto).isOk=true := by
      rintro ⟨-,⟨response',responseProto,hresponses,hp,hc⟩,-⟩
      rw [← hf] at hresponses
      cases hresponses
      exact ⟨responseProto,hp,hc⟩
    rw [ensures_bind,readStart]
    show Ensures False (match codec.startSecureAggregationResponse resp.body with
      | none => _
      | some responseProto => _) w _
    cases hparse : codec.startSecureAggregationResponse resp.body with
    | none =>
      refine ⟨fun hm => ?_,(hr.blamed _).any⟩
      obtain ⟨responseProto,hp,-⟩:=hresponse hm
      rw [hparse] at hp
      cases hp
    | some responseProto =>
      show Ensures False (ofExcept (createSendToServer responseProto) >>= _) _ _
      cases hc : createSendToServer responseProto with
      | error st =>
        refine ⟨fun hm => ?_,(hr.blamed _).any⟩
        obtain ⟨responseProto',hp,hok⟩:=hresponse hm
        rw [hparse] at hp
        cases hp
        rw [hc] at hok
        cases hok
      | ok _ =>
        have hm : Misses codec env rs ↔
            env.LosesRounds codec.parses env.client rs.hasCheckpoint := by
          refine ⟨fun h => h.2.2,fun hl => ⟨hs,?_,hl⟩⟩
          exact ⟨resp,responseProto,hf.symm,hparse,by rw [hc]; rfl⟩
        rw [hm]
        exact triple_runSecAgg (S := anySession) env.toAnswers codec.parses env.client
          rs.hasCheckpoint _ hr.any

end Reports

end Fcp.Client.Http

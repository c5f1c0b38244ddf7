import Fcp.Client.Http.RequestRules

/-!
# What a call does to the session

For each outcome of a call: the states it can be called in, the state it leaves, and what it keeps.
-/

namespace Fcp.Client.Http

open Program ProtocolRequestCreator

section EligibilityEval

variable (flags : Flags) (codec : Codec) (env : Environment)

def EligibilityEvalCheckinResult.objectState : EligibilityEvalCheckinResult → ObjectState
  | .eligibilityEvalTask .. => .eligibilityEvalEnabled
  | .eligibilityEvalDisabled => .eligibilityEvalDisabled
  | .rejection => .eligibilityEvalCheckinRejected

def CheckinResult.objectState : CheckinResult → ObjectState
  | .taskAssignment .. => .checkinAccepted
  | .rejection => .checkinRejected

theorem ensures_handleEligibilityEvalResult (result : EligibilityEvalResult) (w : World Session) :
    Ensures True (handleEligibilityEvalResult flags codec env result) w fun r w' =>
      match r with
      | .error _ => w'.session=w.session
      | .ok reply => w'.session={ w.session with objectState := reply.objectState } := by
  cases result with
  | rejectionInfo | notSet | noEligibilityEvalConfigured => rfl
  | eligibilityEvalTask task =>
    apply (tame_fetchTaskResources (.refl env.toAnswers) codec _ _).quiet.ensures_bind
    · exact fun _ _ h => h
    intro payloads w₁ h₁
    apply (tame_fetchSpecIfSupported (.refl env) flags codec _).quiet.ensures_bind
    · exact fun _ _ h => h.trans h₁
    intro spec w₂ h₂
    show { w₂.session with objectState := ObjectState.eligibilityEvalEnabled }=_
    rw [h₂,h₁]
    rfl

def SameTasks (s s' : Session) : Prop :=
  s'.defaultTaskInfo=s.defaultTaskInfo ∧ s'.taskInfoMap=s.taskInfoMap

/-- The retry times are a time in each of the two windows of the server's response. -/
def GivenTimes (codec : Codec) (env : Environment) (times : RetryTimes) : Prop :=
  ∃ response,codec.eligibilityEvalTaskResponse (env.response .eligibilityEvalTask).body =
      some response ∧
    times=⟨pickRetryTimeFromRange response.retryWindowIfRejected env.drawIfRejected,
      pickRetryTimeFromRange response.retryWindowIfAccepted env.drawIfAccepted⟩

def TimesKept (s s' : Session) : Prop :=
  ∀ times,s'.retryTimes=some times → s.retryTimes=some times ∨ GivenTimes codec env times

theorem ensures_performEligibilityEvalTaskRequest (w : World Session) :
    Ensures True (performEligibilityEvalTaskRequest env) w fun r w' =>
      w'.session=w.session ∧ ∀ resp,r=.ok resp → resp=env.response .eligibilityEvalTask := by
  refine Ensures.and ((tame_performEligibilityEvalTaskRequest (.refl env)).quiet w) ?_
  rw [performEligibilityEvalTaskRequest,returnIfError,ensures_bind]
  split
  · rw [ensures_pure,ensures_performProtocolRequest]
    exact fun _ hr => ((answer_ok env.toAnswers).mp hr).2.2.1
  · exact nofun

theorem ensures_handleEligibilityEvalTaskResponse {http : StatusOr InMemoryHttpResponse}
    (hh : ∀ resp,http=.ok resp → resp=env.response .eligibilityEvalTask) (w : World Session) :
    Ensures True (handleEligibilityEvalTaskResponse flags codec env http) w fun r w' =>
      SameTasks w.session w'.session ∧ TimesKept codec env w.session w'.session ∧
      match r with
      | .error _ => w'.session.objectState=w.session.objectState
      | .ok reply => w'.session.objectState=reply.objectState ∧ w'.session.retryTimes.isSome=true ∧
          (reply≠.rejection → w'.session.taskAssignmentRequestCreator.isSome=true) := by
  cases http with
  | error st => exact ⟨⟨rfl,rfl⟩,fun _ => .inl,rfl⟩
  | ok resp =>
    have hb:=congrArg InMemoryHttpResponse.body (hh resp rfl)
    show Ensures True (ofExcept (.ok resp) >>= _) w _
    rw [ofExcept_ok_bind]
    cases hp : codec.eligibilityEvalTaskResponse resp.body with
    | none => exact ⟨⟨rfl,rfl⟩,fun _ => .inl,rfl⟩
    | some responseProto =>
      rw [hb] at hp
      have ht : ∀ times,some _=some times → w.session.retryTimes=some times ∨
          GivenTimes codec env times := fun _ h => .inr ⟨responseProto,hp,(Option.some.inj h).symm⟩
      show Ensures True (if responseProto.result=.rejectionInfo then _ else _) _ _
      split
      · exact ⟨⟨rfl,rfl⟩,ht,rfl,rfl,fun h => (h rfl).elim⟩
      · cases hc : create responseProto.taskAssignmentForwardingInfo with
        | error st => exact ⟨⟨rfl,rfl⟩,ht,rfl⟩
        | ok creator =>
          apply (ensures_handleEligibilityEvalResult flags codec env responseProto.result _).mono
          intro r w' hr
          cases r with
          | error _ =>
            rw [show w'.session=_ from hr]
            exact ⟨⟨rfl,rfl⟩,ht,rfl⟩
          | ok reply =>
            rw [show w'.session=_ from hr]
            exact ⟨⟨rfl,rfl⟩,ht,rfl,rfl,fun _ => rfl⟩

variable {α : Type} {f : Unit → Operation Session α} {Q : StatusOr α → World Session → Prop}
  {s s' s'' : Session} {req : Request}

theorem ensures_updateObjectState_bind {st : Status} {state : ObjectState} {w : World Session} :
    Ensures True (updateObjectStateIfPermanentError flags st state >>= f) w Q ↔
      Ensures True (f ()) { w with session := { w.session with
        objectState := if isPermanentError flags st then state
          else w.session.objectState } } Q := by
  unfold updateObjectStateIfPermanentError
  by_cases hp : isPermanentError flags st=true
  · simp only [hp,if_true]
    rfl
  · simp only [hp]
    rfl

theorem ensures_eligibilityEvalCheckin (w : World Session) :
    Ensures True (eligibilityEvalCheckin flags codec env) w fun r w' =>
      w.session.objectState=.initialized ∧ SameTasks w.session w'.session ∧
      TimesKept codec env w.session w'.session ∧
      match r with
      | .error st => w'.session.objectState =
          if isPermanentError flags st then .eligibilityEvalCheckinFailedPermanentError
          else .eligibilityEvalCheckinFailed
      | .ok reply => w'.session.objectState =
            (if isPermanentError flags .okStatus then .eligibilityEvalCheckinFailedPermanentError
            else reply.objectState) ∧
          w'.session.retryTimes.isSome=true ∧
          (reply≠.rejection → w'.session.taskAssignmentRequestCreator.isSome=true) := by
  apply (ensures_check_bind fun _ => trivial).mpr
  intro hstate
  have hi:=of_decide_eq_true hstate
  apply ensures_bind.mpr
  rw [setObjectState,updateSession]
  apply ensures_bind.mpr
  apply ensures_attempt.mpr
  apply (ensures_performEligibilityEvalTaskRequest env _).mono
  rintro http w₁ ⟨h₁,hh⟩
  have htasks : SameTasks w.session w₁.session := by
    rw [h₁]
    exact ⟨rfl,rfl⟩
  apply ensures_bind.mpr
  apply ensures_attempt.mpr
  apply (ensures_handleEligibilityEvalTaskResponse flags codec env hh w₁).mono
  rintro r w₂ ⟨ht₂,ht,hr⟩
  have hs : SameTasks w.session w₂.session := ⟨ht₂.1.trans htasks.1,ht₂.2.trans htasks.2⟩
  have hf : w₁.session.objectState=.eligibilityEvalCheckinFailed := by rw [h₁]
  have hk : TimesKept codec env w.session w₂.session := by
    intro times h
    exact (ht times h).imp_left fun h => by rwa [h₁] at h
  apply (ensures_updateObjectState_bind flags).mpr
  cases r with
  | error st =>
    have hs₂:=hr.trans hf
    exact ⟨hi,hs,hk,by rw [← hs₂]; rfl⟩
  | ok reply =>
    obtain ⟨hs₂,htimes⟩:=hr
    cases reply with
    | eligibilityEvalTask _ _ _ => exact ⟨hi,hs,hk,by rw [← hs₂]; rfl,htimes⟩
    | eligibilityEvalDisabled | rejection => exact ⟨hi,hs,hk,by rw [← hs₂]; rfl,htimes⟩

end EligibilityEval

section TaskAssignment

variable (flags : Flags) (codec : Codec) (env : Environment)

structure Kept (s s' : Session) : Prop where
  retryTimes : s'.retryTimes=s.retryTimes
  taskAssignmentRequestCreator : s'.taskAssignmentRequestCreator=s.taskAssignmentRequestCreator
  taskInfoMap : s'.taskInfoMap=s.taskInfoMap

theorem Kept.trans (h : Kept s s') (h' : Kept s' s'') : Kept s s'' :=
  ⟨h'.retryTimes.trans h.retryTimes,
    h'.taskAssignmentRequestCreator.trans h.taskAssignmentRequestCreator,
    h'.taskInfoMap.trans h.taskInfoMap⟩

def CheckinResult.Leaves (reply : CheckinResult) (before after : PerTaskInfo) : Prop :=
  match reply with
  | .rejection => after.state=before.state
  | .taskAssignment .. =>
    after.state=.checkinAccepted ∧ after.aggregationRequestCreator.isSome=true

def AssignmentHandled (s : Session) (r : StatusOr CheckinResult) (s' : Session) : Prop :=
  Kept s s' ∧
    match r with
    | .error _ => s'.objectState=s.objectState ∧ s'.defaultTaskInfo.state=s.defaultTaskInfo.state
    | .ok reply =>
      s'.objectState=reply.objectState ∧ reply.Leaves s.defaultTaskInfo s'.defaultTaskInfo

theorem ensures_handleTaskAssignmentInnerResponse (resp : StartTaskAssignmentResponse)
    (w : World Session) : Ensures True (handleTaskAssignmentInnerResponse codec env resp) w
      fun r w' => AssignmentHandled w.session r w'.session := by
  cases resp with
  | rejectionInfo | notSet => exact ⟨⟨rfl,rfl,rfl⟩,rfl,rfl⟩
  | taskAssignment info =>
    rw [handleTaskAssignmentInnerResponse]
    cases create info.aggregationDataForwardingInfo with
    | error st => exact ⟨⟨rfl,rfl,rfl⟩,rfl,rfl⟩
    | ok creator =>
      apply (tame_fetchTaskResources (.refl env.toAnswers) codec _ _).quiet.ensures_bind
      · intro _ w' h
        rw [h]
        exact ⟨⟨rfl,rfl,rfl⟩,rfl,rfl⟩
      · rintro payloads ⟨session,issued,diagnostics⟩ (rfl : session=_)
        exact ⟨⟨rfl,rfl,rfl⟩,rfl,rfl,rfl⟩

theorem ensures_handleTaskAssignmentOperationResponse
    (http : StatusOr InMemoryHttpResponse) (w : World Session) :
    Ensures True (handleTaskAssignmentOperationResponse codec env http) w
      fun r w' => AssignmentHandled w.session r w'.session := by
  cases http with
  | error st => exact ⟨⟨rfl,rfl,rfl⟩,rfl,rfl⟩
  | ok resp =>
    rw [handleTaskAssignmentOperationResponse,ofExcept_ok_bind]
    cases codec.startTaskAssignmentResponse resp.body with
    | none => exact ⟨⟨rfl,rfl,rfl⟩,rfl,rfl⟩
    | some responseProto =>
      exact ensures_handleTaskAssignmentInnerResponse codec env responseProto w

theorem ensures_checkin (hasInfo : Bool) (w : World Session) :
    Ensures True (checkin flags codec env hasInfo) w fun r w' =>
      mayCheckin w.session.objectState=true ∧ Kept w.session w'.session ∧
      match r with
      | .error st => w'.session.objectState =
            (if isPermanentError flags st then .checkinFailedPermanentError
            else .checkinFailed) ∧
          w'.session.defaultTaskInfo.state=w.session.defaultTaskInfo.state
      | .ok reply => w'.session.objectState =
            (if isPermanentError flags .okStatus then .checkinFailedPermanentError
            else reply.objectState) ∧
          reply.Leaves w.session.defaultTaskInfo w'.session.defaultTaskInfo := by
  apply (ensures_check_bind fun _ => trivial).mpr
  intro hm
  apply (ensures_check_bind fun _ => trivial).mpr
  intro _
  have hq : Quiet (do
      let response ← performTaskAssignmentAndReportEligibilityEvalResultRequests env
      Program.ofExcept response) :=
    Keeps.bind (tame_performTaskAssignment (.refl env)).quiet fun _ => keeps_ofExcept _
  apply hq.ensures_attempt_bind
  intro http w₁ h₁
  have hk : Kept w.session w₁.session := by
    rw [h₁]
    exact ⟨rfl,rfl,rfl⟩
  have hf : w₁.session.objectState=.checkinFailed := by rw [h₁]
  have htask : w₁.session.defaultTaskInfo=w.session.defaultTaskInfo := by rw [h₁]
  rw [ensures_bind,ensures_attempt]
  apply (ensures_handleTaskAssignmentOperationResponse codec env http w₁).mono
  rintro r w₂ ⟨hk₂,hr⟩
  apply (ensures_updateObjectState_bind flags).mpr
  have hs : Kept w.session w₂.session := hk.trans hk₂
  rw [htask] at hr
  cases r with
  | error st =>
    refine ⟨hm,⟨hs.1,hs.2,hs.3⟩,?_,hr.2⟩
    rw [← hf,← hr.1]
    rfl
  | ok reply =>
    refine ⟨hm,⟨hs.1,hs.2,hs.3⟩,?_,hr.2⟩
    rw [← hr.1]
    rfl

end TaskAssignment

section Uploads

variable (codec : Codec) (env : Environment)

theorem quiet_notify (creator : Session → Option ProtocolRequestCreator) (req : Request)
    (text : String) : Quiet (notify env creator req text) :=
  (tame_notify rfl ⟨rfl,fun _ _ => rfl⟩ creator text).quiet

inductive UploadFault : StatusCode → Prop
  | notCreated {request : Request}
      (hrequest : request∈[.reportTaskResult,.startAggregationDataUpload,.dataUpload])
      (h : (env.created request).isOk=false) : UploadFault (env.created request).code
  | notPerformed {request : Request}
      (hrequest : request∈[.startAggregationDataUpload,.dataUpload])
      (h : (env.performed request).isOk=false) : UploadFault (env.performed request).code
  | failed {request : Request} (hrequest : request∈[.startAggregationDataUpload,.dataUpload])
      (h : (env.status request).isOk=false) : UploadFault (env.status request).code
  | encoded {request : Request} (hrequest : request∈[.startAggregationDataUpload,.dataUpload])
      (h : (env.response request).contentEncoding≠"") : UploadFault .unavailable
  | unparsed
      (h : codec.startAggregationDataUploadResponse
        (env.response .startAggregationDataUpload).body=none) : UploadFault .invalidArgument
  | unforwarded {response : StartAggregationDataUploadResponse}
      (hresponse : codec.startAggregationDataUploadResponse
        (env.response .startAggregationDataUpload).body=some response)
      (h : response.aggregationProtocolForwardingInfo.targetUriPrefix="" ∨
        response.resource.dataUploadForwardingInfo.targetUriPrefix="") :
      UploadFault .invalidArgument

abbrev FailsUpload (status : Status) : Prop := UploadFault codec env status.code

theorem answer_failsUpload (hr : req∈[Request.startAggregationDataUpload,.dataUpload]) {e : Status}
    (h : env.answer req=.error e) : FailsUpload codec env e := by
  obtain ⟨hb,rfl⟩ | ⟨hb,rfl⟩ | ⟨he,hc⟩:=answer_error env.toAnswers h
  · exact .notPerformed hr hb
  · exact .failed hr hb
  · unfold FailsUpload
    rw [hc]
    exact .encoded hr he

theorem failsWith_createProtocolRequest {B : Status → Prop}
    {creator : Session → Option ProtocolRequestCreator}
    (h : (env.created req).isOk=false → B (env.created req)) :
    FailsWith B (createProtocolRequest env.toAnswers creator req) := by
  apply FailsWith.bind (failsWith_read _)
  intro set
  split
  · unfold returnIfError
    cases hc : (env.created req).isOk with
    | true => exact failsWith_pure ()
    | false => exact failsWith_fail (h hc)
  · exact failsWith_crash _

variable (task : TaskRef) (w : World Session)

theorem ensures_startRequest : Ensures True (do
      let resp ← performStartDataUploadRequestAndReportTaskResult env none
      Program.ofExcept resp) w fun r w' =>
        w'.session=w.session ∧ (∀ e,r=.error e → FailsUpload codec env e) ∧
        ∀ resp,r=.ok resp → resp=env.response .startAggregationDataUpload := by
  have hreport : FailsWith (FailsUpload codec env) (createProtocolRequest env.toAnswers
      Session.taskAssignmentRequestCreator .reportTaskResult) :=
    failsWith_createProtocolRequest env fun h => .notCreated (by decide) h
  have hs : FailsWith (FailsUpload codec env) (createProtocolRequest env.toAnswers
      (taskCreator none) .startAggregationDataUpload) :=
    failsWith_createProtocolRequest env fun h => .notCreated (by decide) h
  rw [ensures_bind,performStartDataUploadRequestAndReportTaskResult,ensures_bind]
  apply (((tame_createProtocolRequest (.refl env.toAnswers) _ _).quiet w).and (hreport w)).mono
  rintro r w₁ ⟨h₁,hr⟩
  cases r with
  | error e => exact ⟨h₁,fun e' he' => hr _ (by cases he'; rfl),nofun⟩
  | ok _ =>
    show Ensures True (_ >>= _) w₁ _
    rw [ensures_bind]
    apply (((tame_createProtocolRequest (.refl env.toAnswers) _ _).quiet w₁).and (hs w₁)).mono
    rintro r w₂ ⟨h₂,hr₂⟩
    cases r with
    | error e => exact ⟨h₂.trans h₁,fun e' he' => hr₂ _ (by cases he'; rfl),nofun⟩
    | ok _ =>
      obtain ⟨diags,happly⟩:=performWithReport_apply env.toAnswers .startAggregationDataUpload w₂
      apply ensures_of_eq happly
      cases hreplied : env.replied .startAggregationDataUpload with
      | error e =>
        have ha : env.answer .startAggregationDataUpload=.error e := by
          rw [Answers.answer,hreplied]
          rfl
        refine ⟨h₂.trans h₁,?_,nofun⟩
        intro e' he'
        cases he'
        exact answer_failsUpload codec env (by decide) ha
      | ok resp =>
        have ha : env.answer .startAggregationDataUpload=resp := by
          rw [Answers.answer,hreplied]
          rfl
        refine ⟨h₂.trans h₁,?_,?_⟩
        · intro e he
          exact answer_failsUpload codec env (by decide) (ha.trans he)
        · intro response' hresponse
          exact ((answer_ok env.toAnswers).mp (ha.trans hresponse)).2.2.1

structure Unmoved (s s' : Session) : Prop where
  kept : Kept s s'
  objectState : s'.objectState=s.objectState
  taskState : s'.defaultTaskInfo.state=s.defaultTaskInfo.state

theorem Unmoved.of_eq (h : s'=s) : Unmoved s s' := by
  rw [h]
  exact ⟨⟨rfl,rfl,rfl⟩,rfl,rfl⟩

theorem Unmoved.trans (h : Unmoved s s') (h' : Unmoved s' s'') : Unmoved s s'' :=
  ⟨h.kept.trans h'.kept,h'.objectState.trans h.objectState,h'.taskState.trans h.taskState⟩

theorem ensures_handleStartDataAggregationUploadOperationResponse
    {http : StatusOr InMemoryHttpResponse}
    (herror : ∀ e,http=.error e → FailsUpload codec env e)
    (hok : ∀ resp,http=.ok resp → resp=env.response .startAggregationDataUpload)
    (w : World Session) :
    Ensures True (handleStartDataAggregationUploadOperationResponse codec none http) w
      fun r w' => Unmoved w.session w'.session ∧ ∀ e,r=.error e → FailsUpload codec env e := by
  cases http with
  | error st =>
    refine ⟨.of_eq rfl,fun e he => ?_⟩
    cases he
    exact herror st rfl
  | ok resp =>
    have hb:=congrArg InMemoryHttpResponse.body (hok resp rfl)
    rw [handleStartDataAggregationUploadOperationResponse,ofExcept_ok_bind]
    cases hr : codec.startAggregationDataUploadResponse resp.body with
    | none =>
      refine ⟨.of_eq rfl,fun e he => ?_⟩
      cases he
      exact .unparsed (hb ▸ hr)
    | some responseProto =>
      rw [hb] at hr
      simp only
      cases ha : create responseProto.aggregationProtocolForwardingInfo with
      | error st =>
        refine ⟨.of_eq rfl,fun e he => ?_⟩
        cases he
        unfold create at ha
        split at ha
        · cases ha
          exact .unforwarded hr (.inl ‹_›)
        · cases ha
      | ok aggregationCreator =>
        cases hu : create responseProto.resource.dataUploadForwardingInfo with
        | error st =>
          refine ⟨⟨⟨rfl,rfl,rfl⟩,rfl,rfl⟩,fun e he => ?_⟩
          cases he
          unfold create at hu
          split at hu
          · cases hu
            exact .unforwarded hr (.inr ‹_›)
          · cases hu
        | ok uploadCreator => exact ⟨⟨⟨rfl,rfl,rfl⟩,rfl,rfl⟩,nofun⟩

theorem ensures_startDataUpload : Ensures True (startDataUpload codec env none) w fun r w' =>
      Unmoved w.session w'.session ∧ ∀ e,r=.error e → FailsUpload codec env e := by
  rw [startDataUpload,ensures_bind,ensures_attempt]
  apply (ensures_startRequest codec env w).mono
  rintro r w₁ ⟨h₁,he,hok⟩
  rw [← h₁]
  exact ensures_handleStartDataAggregationUploadOperationResponse codec env he hok w₁

theorem failsWith_uploadDataViaSimpleAgg :
    FailsWith (FailsUpload codec env) (uploadDataViaSimpleAgg env task) := by
  apply FailsWith.bind
  · exact failsWith_createProtocolRequest env fun h => .notCreated (by decide) h
  · intro _ w
    rw [ensures_bind,ensures_attempt,ensures_performProtocolRequest]
    cases ha : env.answer .dataUpload with
    | ok resp => exact nofun
    | error st =>
      intro e he
      cases he
      exact (answer_failsUpload codec env (by decide) ha :)

theorem failsWith_abortAfterFailedUpload (st : Status) :
    FailsWith (fun _ => False) (abortAfterFailedUpload env task st) := by
  unfold abortAfterFailedUpload
  split
  · exact failsWith_pure ()
  · intro w
    rw [ensures_bind,ensures_attempt]
    apply Ensures.mono (Q := fun _ _ => True)
    · unfold Ensures
      split <;> trivial
    · intro aborted w' _
      cases aborted with
      | ok _ | error _ => exact nofun

theorem ensures_reportViaSimpleAggregation (rs : ComputationResults) (w : World Session) :
    Ensures True (reportViaSimpleAggregation codec env none rs) w fun r w' =>
      Kept w.session w'.session ∧ w'.session.objectState=w.session.objectState ∧
      (w'.session.defaultTaskInfo.state=w.session.defaultTaskInfo.state ∨
        w'.session.defaultTaskInfo.state=.reportFailedPermanentError ∧
        ∃ e,r=.error e ∧ FailsUpload codec env e) := by
  unfold reportViaSimpleAggregation
  split
  · rw [ensures_bind,ensures_attempt]
    apply (ensures_startDataUpload codec env w).mono
    rintro r w₁ ⟨h₁,hr⟩
    cases r with
    | error st => exact ⟨⟨h₁.kept.1,h₁.kept.2,h₁.kept.3⟩,h₁.objectState,.inr ⟨rfl,st,rfl,hr _ rfl⟩⟩
    | ok _ =>
      show Ensures True (_ >>= _) w₁ _
      rw [ensures_bind,ensures_attempt]
      apply ((quiet_notify env _ _ _ w₁).and
        (failsWith_uploadDataViaSimpleAgg codec env none w₁)).mono
      rintro r w₂ ⟨h₂,hr₂⟩
      have hm:=h₁.trans (.of_eq h₂)
      cases r with
      | error st =>
        show Ensures True (abortAfterFailedUpload env none st >>= _)
          { w₂ with session := w₂.session.updateTask _ none } _
        rw [ensures_bind]
        apply (((tame_abortAfterFailedUpload (.refl env) none st).quiet _).and
          (failsWith_abortAfterFailedUpload env none st _)).mono
        rintro r w₃ ⟨h₃,hr₃⟩
        cases r with
        | error e => exact (hr₃ e rfl).elim
        | ok _ =>
          show Kept w.session w₃.session ∧ w₃.session.objectState=_ ∧
            (w₃.session.defaultTaskInfo.state=_ ∨ w₃.session.defaultTaskInfo.state=_ ∧ _)
          rw [h₃]
          exact ⟨⟨hm.kept.1,hm.kept.2,hm.kept.3⟩,hm.objectState,.inr ⟨rfl,st,rfl,hr₂ _ rfl⟩⟩
      | ok _ =>
        apply (quiet_notify env _ _ _ w₂).mono
        intro r w₃ h₃
        have ha:=hm.trans (.of_eq h₃)
        exact ⟨ha.kept,ha.objectState,.inl ha.taskState⟩
  · exact ⟨⟨rfl,rfl,rfl⟩,rfl,.inl rfl⟩

end Uploads

section Moves

variable (flags : Flags) (codec : Codec) (env : Environment)

inductive Call.Reports : Call → Prop
  | completed (results : ComputationResults) : Reports (.reportCompleted results none)
  | notCompleted : Reports (.reportNotCompleted none)

inductive Call.ReportsOther : Call → Prop
  | completed (results : ComputationResults) (id : String) :
      ReportsOther (.reportCompleted results (some id))
  | notCompleted (id : String) : ReportsOther (.reportNotCompleted (some id))

/-- What a call that returns does to a session whose map has no tasks. -/
inductive Moved (s : Session) : Call → StatusOr Reply → Session → Prop
  | eligibilityEvalFailed {status : Status} {s' : Session}
      (hbefore : s.objectState=.initialized) (htasks : SameTasks s s')
      (hgiven : TimesKept codec env s s')
      (hafter : s'.objectState =
        if isPermanentError flags status then .eligibilityEvalCheckinFailedPermanentError
        else .eligibilityEvalCheckinFailed) :
      Moved s .eligibilityEvalCheckin (.error status) s'
  | eligibilityEvalAnswered {result : EligibilityEvalCheckinResult} {s' : Session}
      (hbefore : s.objectState=.initialized) (htasks : SameTasks s s')
      (hgiven : TimesKept codec env s s')
      (hafter : s'.objectState =
        if isPermanentError flags .okStatus then .eligibilityEvalCheckinFailedPermanentError
        else result.objectState)
      (htimes : s'.retryTimes.isSome=true)
      (hcreator : result≠.rejection → s'.taskAssignmentRequestCreator.isSome=true) :
      Moved s .eligibilityEvalCheckin (.ok (.eligibilityEvalCheckin result)) s'
  | evalErrorReported {r : StatusOr Reply} (hr : ∀ reply,r=.ok reply → reply=.done) :
      Moved s .reportEligibilityEvalError r s
  | checkinFailed {info : Bool} {status : Status} {s' : Session}
      (hbefore : mayCheckin s.objectState=true) (hkept : Kept s s')
      (hafter : s'.objectState =
        if isPermanentError flags status then .checkinFailedPermanentError else .checkinFailed)
      (htask : s'.defaultTaskInfo.state=s.defaultTaskInfo.state) :
      Moved s (.checkin info) (.error status) s'
  | checkinAnswered {info : Bool} {result : CheckinResult} {s' : Session}
      (hbefore : mayCheckin s.objectState=true) (hkept : Kept s s')
      (hafter : s'.objectState =
        if isPermanentError flags .okStatus then .checkinFailedPermanentError
        else result.objectState)
      (htask : result.Leaves s.defaultTaskInfo s'.defaultTaskInfo) :
      Moved s (.checkin info) (.ok (.checkin result)) s'
  | assignmentsFailed {status : Status}
      (hbefore : s.objectState=.eligibilityEvalDisabled ∨ s.objectState=.eligibilityEvalEnabled) :
      Moved s .performMultipleTaskAssignments (.error status)
        { s with objectState := .multipleTaskAssignmentsFailed }
  | otherReported {call : Call} {status : Status} (hcall : call.ReportsOther) :
      Moved s call (.error status) s
  | reported {call : Call} {r : StatusOr Reply} {s' : Session} (hcall : call.Reports)
      (hr : ∀ reply,r=.ok reply → reply=.done)
      (hbefore : s.defaultTaskInfo.state=.checkinAccepted ∨
        s.defaultTaskInfo.state=.multipleTaskAssignmentsAccepted)
      (hkept : Kept s s') (hafter : s'.objectState=s.objectState)
      (htask : s'.defaultTaskInfo.state=.reportCalled) : Moved s call r s'
  | uploadFailed {results : ComputationResults} {status : Status} {s' : Session}
      (hbefore : s.defaultTaskInfo.state=.checkinAccepted ∨
        s.defaultTaskInfo.state=.multipleTaskAssignmentsAccepted)
      (hkept : Kept s s') (hafter : s'.objectState=s.objectState)
      (htask : s'.defaultTaskInfo.state=.reportFailedPermanentError)
      (hfault : FailsUpload codec env status) :
      Moved s (.reportCompleted results none) (.error status) s'

theorem ensures_beginReport {w : World Session}
    (h : w.session.defaultTaskInfo.state=.checkinAccepted ∨
        w.session.defaultTaskInfo.state=.multipleTaskAssignmentsAccepted →
      Ensures True (f ()) ⟨w.session.updateTask (fun info => { info with state := .reportCalled })
        none,w.issued,w.diags⟩ Q) :
    Ensures True (beginReport none >>= f) w Q := by
  show Ensures True ((check _ >>= fun _ => setTaskState none .reportCalled) >>= f) w Q
  rw [ensures_bind]
  apply (ensures_check_bind fun _ => trivial).mpr
  intro hs
  exact h (of_decide_eq_true hs)

variable (rs : ComputationResults) (w : World Session)

theorem ensures_reportViaSecureAggregation :
    Ensures True (reportViaSecureAggregation codec env none rs) w fun _ w' =>
      Unmoved w.session w'.session := by
  apply (tame_startSecureAggregation (.refl env) codec none).quiet.ensures_bind
  · exact fun _ _ h => .of_eq h
  intro responseProto w₁ h₁
  have hq : Quiet (do
      Program.ofExcept (createSendToServer responseProto)
      runSecAgg env.toAnswers codec.parses env.client rs.hasCheckpoint : Operation Session Unit) :=
    Keeps.bind (keeps_ofExcept _) fun _ => (tame_runSecAgg (.refl env.toAnswers) _ _ _).quiet
  apply Ensures.mono (hq _)
  intro _ w' h
  have hm : Unmoved w₁.session w'.session := by
    rw [h]
    exact ⟨⟨rfl,rfl,rfl⟩,rfl,rfl⟩
  exact (Unmoved.of_eq h₁).trans hm

theorem ensures_reportCompleted : Ensures True (reportCompleted codec env none rs) w fun r w' =>
      (w.session.defaultTaskInfo.state=.checkinAccepted ∨
        w.session.defaultTaskInfo.state=.multipleTaskAssignmentsAccepted) ∧
      Kept w.session w'.session ∧ w'.session.objectState=w.session.objectState ∧
      (w'.session.defaultTaskInfo.state=.reportCalled ∨
        w'.session.defaultTaskInfo.state=.reportFailedPermanentError ∧
        ∃ e,r=.error e ∧ FailsUpload codec env e) := by
  apply ensures_beginReport
  intro hb
  split
  · apply (ensures_reportViaSecureAggregation codec env rs _).mono
    intro _ w' h
    exact ⟨hb,⟨h.kept.1,h.kept.2,h.kept.3⟩,h.objectState,.inl h.taskState⟩
  · apply (ensures_reportViaSimpleAggregation codec env rs _).mono
    rintro _ w' ⟨hk,ho,ht⟩
    exact ⟨hb,⟨hk.1,hk.2,hk.3⟩,ho,ht⟩

theorem perform_moved {call : Call} {r : StatusOr Reply} {w w' : World Session}
    (hm : w.session.taskInfoMap=[]) (h : perform flags codec env call w=.ok (r,w')) :
    Moved flags codec env w.session call r w'.session := by
  suffices he : Ensures True (perform flags codec env call) w fun r w' =>
      Moved flags codec env w.session call r w'.session from he.of_eq h
  clear h
  have hunknown (id : String) : w.session.taskInfoMap.any (fun entry => entry.1=id)=false := by
    rw [hm]
    rfl
  cases call with
  | eligibilityEvalCheckin =>
    rw [perform,ensures_bind]
    apply (ensures_eligibilityEvalCheckin flags codec env w).mono
    rintro r w' ⟨hb,ht,hg,hr⟩
    cases r with
    | error st => exact .eligibilityEvalFailed hb ht hg hr
    | ok result => exact .eligibilityEvalAnswered hb ht hg hr.1 hr.2.1 hr.2.2
  | reportEligibilityEvalError =>
    rw [perform,ensures_bind]
    apply (quiet_reportEligibilityEvalError w).mono
    intro r w' hs
    cases r with
    | error st =>
      simp only
      rw [hs]
      exact .evalErrorReported nofun
    | ok _ =>
      show Moved flags codec env w.session _ (.ok .done) w'.session
      rw [hs]
      exact .evalErrorReported fun reply hreply => (Except.ok.inj hreply).symm
  | checkin info =>
    rw [perform,ensures_bind]
    apply (ensures_checkin flags codec env info w).mono
    rintro r w' ⟨hb,hk,hr⟩
    cases r with
    | error st => exact .checkinFailed hb hk hr.1 hr.2
    | ok result => exact .checkinAnswered hb hk hr.1 hr.2
  | performMultipleTaskAssignments =>
    rw [perform,performMultipleTaskAssignments,ensures_bind]
    apply (ensures_check_bind fun _ => trivial).mpr
    intro hstate
    exact .assignmentsFailed (of_decide_eq_true hstate)
  | reportCompleted rs id =>
    cases id with
    | none =>
      rw [perform,ensures_bind]
      apply (ensures_reportCompleted codec env rs w).mono
      rintro r w' ⟨hb,hk,ho,htask⟩
      obtain htask | ⟨htask,e,rfl,hf⟩:=htask
      · cases r with
        | error st => exact .reported (.completed rs) nofun hb hk ho htask
        | ok _ =>
          exact .reported (.completed rs) (fun reply hreply => (Except.ok.inj hreply).symm)
            hb hk ho htask
      · exact .uploadFailed hb hk ho htask hf
    | some id =>
      rw [perform,reportCompleted,beginReport,ensures_bind,ensures_bind,ensures_bind,ensures_read]
      simp only [Option.all_some,hunknown id]
      exact .otherReported (.completed rs id)
  | reportNotCompleted id =>
    cases id with
    | none =>
      rw [perform,ensures_bind,reportNotCompleted]
      apply ensures_beginReport
      intro hb
      apply (quiet_notify env _ _ _ _).mono
      intro r w' hs
      have hu : Unmoved _ w'.session := .of_eq hs
      cases r with
      | error st =>
        exact .reported .notCompleted nofun hb ⟨hu.kept.1,hu.kept.2,hu.kept.3⟩ hu.objectState
          hu.taskState
      | ok _ =>
        exact .reported .notCompleted (fun reply hreply => (Except.ok.inj hreply).symm) hb
          ⟨hu.kept.1,hu.kept.2,hu.kept.3⟩ hu.objectState
          hu.taskState
    | some id =>
      rw [perform,reportNotCompleted,beginReport,ensures_bind,ensures_bind,ensures_bind,
        ensures_read]
      simp only [Option.all_some,hunknown id]
      exact .otherReported (.notCompleted id)

end Moves

end Fcp.Client.Http

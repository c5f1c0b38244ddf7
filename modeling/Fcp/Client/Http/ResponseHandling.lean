import Fcp.Client.Http.HandledFailures

/-!
# How the protocol handles responses

A call that may be made reads no response that is an error and returns the code of the first
mandatory one that is, unless a report by secure aggregation fails at its first or last message.
-/

namespace Fcp.Client.Http

open Program Similar

section BestEffort

variable {env env' : Environment} (h : AgreeOn env env') (flags : Flags) (codec : Codec)
  (task : TaskRef)

theorem similar_updateSession (f : Session → Session) :
    Similar SameSession (updateSession f) (updateSession f) :=
  similar_update fun _ _ hw => congrArg f hw

theorem similar_updateObjectStateIfPermanentError (st : Status) (state : ObjectState) :
    Similar SameSession (updateObjectStateIfPermanentError flags st state)
      (updateObjectStateIfPermanentError flags st state) := by
  unfold updateObjectStateIfPermanentError
  split
  · exact similar_updateSession _
  · exact similar_pure ()

theorem similar_beginReport : Similar SameSession (beginReport task) (beginReport task) := by
  apply Similar.bind
  · exact (tame_read fun s : Session => task.all fun id => s.taskInfoMap.any (·.1=id)).similar
  intro known
  split
  · apply Similar.bind (tame_check _).similar
    intro _
    exact similar_updateSession _
  · exact similar_fail _

variable (http : StatusOr InMemoryHttpResponse)

theorem similar_handleStartDataAggregationUploadOperationResponse :
    Similar SameSession (handleStartDataAggregationUploadOperationResponse codec task http)
      (handleStartDataAggregationUploadOperationResponse codec task http) := by
  apply bind (similar_ofExcept _)
  intro resp
  split
  · exact similar_fail _
  · apply bind (similar_ofExcept _)
    intro aggregationCreator
    apply bind (similar_updateSession _)
    intro _
    apply bind (similar_ofExcept _)
    intro uploadCreator
    exact similar_updateSession _

include h

theorem similar_handleEligibilityEvalResult (result : EligibilityEvalResult) :
    Similar SameSession (handleEligibilityEvalResult flags codec env result)
      (handleEligibilityEvalResult flags codec env' result) := by
  cases result with
  | rejectionInfo | notSet => exact similar_fail _
  | noEligibilityEvalConfigured =>
    apply bind (similar_updateSession _)
    exact fun _ => similar_pure _
  | eligibilityEvalTask task =>
    apply bind (tame_fetchTaskResources h.answers codec _ _).similar
    intro payloads
    apply bind (tame_fetchSpecIfSupported h flags codec _).similar
    intro spec
    apply bind (similar_updateSession _)
    exact fun _ => similar_pure _

theorem similar_handleEligibilityEvalTaskResponse :
    Similar SameSession (handleEligibilityEvalTaskResponse flags codec env http)
      (handleEligibilityEvalTaskResponse flags codec env' http) := by
  apply bind (similar_ofExcept _)
  intro resp
  rw [h.drawIfRejected,h.drawIfAccepted]
  split
  · exact similar_fail _
  · apply bind (similar_updateSession _)
    intro _
    split
    · apply bind (similar_updateSession _)
      exact fun _ => similar_pure _
    · apply bind (similar_updateSession _)
      intro _
      apply bind (similar_ofExcept _)
      intro creator
      apply bind (similar_updateSession _)
      intro _
      exact similar_handleEligibilityEvalResult h flags codec _

theorem similar_eligibilityEvalCheckin :
    Similar SameSession (eligibilityEvalCheckin flags codec env)
      (eligibilityEvalCheckin flags codec env') := by
  apply bind (tame_check _).similar
  intro _
  apply bind (similar_updateSession _)
  intro _
  apply bind (tame_performEligibilityEvalTaskRequest h).similar.attempt
  intro http
  apply bind (similar_handleEligibilityEvalTaskResponse h flags codec _).attempt
  intro resp
  apply bind (similar_updateObjectStateIfPermanentError flags _ _)
  intro _
  split
  · exact bind (similar_updateSession _) fun _ => similar_ofExcept _
  · exact bind (similar_pure ()) fun _ => similar_ofExcept _

theorem similar_handleTaskAssignmentOperationResponse :
    Similar SameSession (handleTaskAssignmentOperationResponse codec env http)
      (handleTaskAssignmentOperationResponse codec env' http) := by
  apply bind (similar_ofExcept _)
  intro resp
  split
  · exact similar_fail _
  next responseProto _ =>
    cases responseProto with
    | rejectionInfo =>
      apply bind (similar_updateSession _)
      exact fun _ => similar_pure _
    | notSet => exact similar_fail _
    | taskAssignment info =>
      apply bind (similar_ofExcept _)
      intro creator
      apply bind (similar_updateSession _)
      intro _
      apply bind (tame_fetchTaskResources h.answers codec _ _).similar
      intro payloads
      apply bind (similar_updateSession _)
      intro _
      apply bind (similar_updateSession _)
      exact fun _ => similar_pure _

theorem similar_checkin (hasInfo : Bool) : Similar SameSession (checkin flags codec env hasInfo)
      (checkin flags codec env' hasInfo) := by
  apply Similar.bind (tame_check _).similar
  intro _
  apply Similar.bind (tame_check _).similar
  intro _
  apply Similar.bind (similar_updateSession _)
  intro _
  apply Similar.bind
  · apply Similar.attempt
    exact Similar.bind (tame_performTaskAssignment h).similar fun _ => similar_ofExcept _
  intro http
  apply Similar.bind (similar_handleTaskAssignmentOperationResponse h codec _).attempt
  intro resp
  apply Similar.bind (similar_updateObjectStateIfPermanentError flags _ _)
  exact fun _ => similar_ofExcept _

theorem similar_reportViaSimpleAggregation (rs : ComputationResults) :
    Similar SameSession (reportViaSimpleAggregation codec env task rs)
      (reportViaSimpleAggregation codec env' task rs) := by
  have hn : ∀ (creator : Session → Option ProtocolRequestCreator) (req : Request)
      (text : String), req.isReport=false →
      Similar SameSession (notify env creator req text) (notify env' creator req text) := by
    intro creator req text hr
    apply (tame_notify h.answers.created (h.answers.sameResponses ?_) creator text).similar
    simpa using hr
  have hs : Similar SameSession (startDataUpload codec env task)
      (startDataUpload codec env' task) := by
    apply Similar.bind
    · apply Similar.attempt
      exact Similar.bind (tame_performStartDataUpload h task).similar fun _ => similar_ofExcept _
    · intro http
      exact similar_handleStartDataAggregationUploadOperationResponse codec task http
  unfold reportViaSimpleAggregation
  split
  · apply Similar.bind hs.attempt
    intro startUploadStatus
    cases startUploadStatus with
    | error st =>
      apply Similar.bind (similar_updateSession _)
      exact fun _ => similar_fail _
    | ok _ =>
      apply Similar.bind (hn _ _ _ rfl).attempt
      intro uploadStatus
      cases uploadStatus with
      | error st =>
        apply Similar.bind (similar_updateSession _)
        intro _
        apply Similar.bind (tame_abortAfterFailedUpload h task st).similar
        exact fun _ => similar_fail _
      | ok _ => exact hn _ _ _ rfl
  · exact similar_fail _

theorem similar_reportViaSecureAggregation (rs : ComputationResults) :
    Similar SameSession (reportViaSecureAggregation codec env task rs)
      (reportViaSecureAggregation codec env' task rs) := by
  unfold reportViaSecureAggregation
  rw [h.client]
  apply bind (tame_startSecureAggregation h codec task).similar
  intro responseProto
  apply bind (similar_updateSession _)
  intro _
  apply bind (similar_ofExcept _)
  intro _
  exact (tame_runSecAgg h.answers codec.parses env'.client _).similar

theorem similar_perform {call : Call} (hc : ∀ id,call≠.reportNotCompleted id)
    (he : call≠.reportEligibilityEvalError) :
    Similar SameSession (perform flags codec env call) (perform flags codec env' call) := by
  cases call with
  | eligibilityEvalCheckin =>
    apply Similar.bind (similar_eligibilityEvalCheckin h flags codec)
    exact fun _ => similar_pure _
  | reportEligibilityEvalError => exact (he rfl).elim
  | checkin hasInfo =>
    apply Similar.bind (similar_checkin h flags codec hasInfo)
    exact fun _ => similar_pure _
  | performMultipleTaskAssignments =>
    apply Similar.bind
    · apply Similar.bind (tame_check _).similar
      intro _
      apply Similar.bind (similar_updateSession _)
      exact fun _ => similar_fail _
    · exact fun _ => similar_pure _
  | reportCompleted rs id =>
    apply Similar.bind
    · apply Similar.bind (similar_beginReport id)
      intro _
      split
      · exact similar_reportViaSecureAggregation h codec id rs
      · exact similar_reportViaSimpleAggregation h codec id rs
    · exact fun _ => similar_pure _
  | reportNotCompleted id => exact (hc id rfl).elim

end BestEffort

section Handled

variable (flags : Flags) (codec : Codec) (env : Environment)

def Told {α : Type} (r : StatusOr α) (w : World Session) : Prop :=
  ∀ entry,firstFailure w.issued=some entry →
    ∃ status,r=.error status ∧ status.code=entry.status.code

/-- The call reads no failed response and returns the code of the first mandatory one; the reports
that are sent as a best effort do not matter. -/
structure Handled (s : Session) (call : Call) : Prop where
  told : Ensures False (perform flags codec env call) ⟨s,[],[]⟩ Told
  bestEffort : (∀ id,call≠.reportNotCompleted id) → ∀ env',AgreeOn env env' →
    SameOutcome SameSession (perform flags codec env call ⟨s,[],[]⟩)
      (perform flags codec env' call ⟨s,[],[]⟩)

def Call.MayBeMade (s : Session) : Call → Prop
  | .eligibilityEvalCheckin => s.objectState=.initialized
  | .checkin hasTaskEligibilityInfo => mayCheckin s.objectState=true ∧
      hasTaskEligibilityInfo=decide (s.objectState=.eligibilityEvalEnabled)
  | .reportCompleted _ none | .reportNotCompleted none =>
    s.defaultTaskInfo.state=.checkinAccepted ∨
      s.defaultTaskInfo.state=.multipleTaskAssignmentsAccepted
  | .reportCompleted _ (some _) | .reportNotCompleted (some _) => True
  | .reportEligibilityEvalError | .performMultipleTaskAssignments => False

def Call.Mishandled : Call → Prop
  | .reportCompleted results none =>
    (results.any fun result => result.2.isQuantizedTensor)=true ∧
      (Misreads env ∨ Misses codec env results)
  | _ => False

variable {flags codec env}

theorem told_of_triple {α : Type} {P : World Session → Prop} {x : Operation Session α}
    (hx : Blames P x anySession)
    (f : α → Reply) {w : World Session} (hw : P w) :
    Ensures False (x >>= fun a => pure (f a)) w Told := by
  rw [ensures_bind]
  apply (hx w hw).mono
  intro r w' hr
  cases r with
  | error e => exact fun entry he => ⟨e,rfl,hr.1 entry he⟩
  | ok a =>
    intro entry he
    have hn:=hr.1
    cases hn.symm.trans he

variable {s : Session}

theorem mayReport_of_mayBeMade (hs : Sound s) (h : s.defaultTaskInfo.state=.checkinAccepted ∨
      s.defaultTaskInfo.state=.multipleTaskAssignmentsAccepted) :
    s.defaultTaskInfo.state=.checkinAccepted ∧ mayReport s := by
  obtain hstate | hstate:=h
  · exact ⟨hstate,hs.taskCreators hstate⟩
  · have hu:=hs.taskUsed
    rw [hstate] at hu
    cases hu

theorem told_reportOther (hs : Sound s) (id : String) (x : Unit → Operation Session Unit) :
    Ensures False (do
      let _ ← beginReport (some id) >>= x
      pure Reply.done) ⟨s,[],[]⟩ Told := by
  have hb : beginReport (some id) ⟨s,[],[]⟩ =
      .ok (.error ⟨.invalidArgument,"Unexpected aggregation_session_id."⟩,⟨s,[],[]⟩) := by
    rw [beginReport,bind_apply,Program.read]
    simp [hs.taskInfoMap,Program.fail]
  rw [ensures_bind,ensures_bind]
  apply ensures_of_eq hb
  intro entry he
  cases he

variable {rs : ComputationResults}

variable (flags) in
theorem reportCompleted_secure (hs : s.defaultTaskInfo.state=.checkinAccepted ∧ mayReport s)
    (hq : (rs.any fun result => result.2.isQuantizedTensor)=true) :
    ∃ w,Ready mayReport w ∧ perform flags codec env (.reportCompleted rs none) ⟨s,[],[]⟩ =
      (reportViaSecureAggregation codec env none rs >>= fun _ => pure .done) w := by
  obtain ⟨r,w,hb,hr⟩:=ensures_false.mp (triple_beginReport ⟨s,[],[]⟩ ⟨rfl,hs⟩)
  cases r with
  | error e => exact hr.elim
  | ok _ =>
    refine ⟨w,hr,?_⟩
    rw [perform,reportCompleted,bind_assoc,bind_apply,hb]
    simp only [hq,if_true]

theorem told_secure (hs : s.defaultTaskInfo.state=.checkinAccepted ∧ mayReport s)
    (hq : (rs.any fun result => result.2.isQuantizedTensor)=true) :
    Ensures False (perform flags codec env (.reportCompleted rs none)) ⟨s,[],[]⟩ Told ↔
      ¬ (Misreads env ∨ Misses codec env rs) := by
  obtain ⟨w,hw,hp⟩:=reportCompleted_secure flags hs hq
  unfold Ensures
  rw [hp,bind_apply]
  by_cases hm : Misreads env
  · rw [reportViaSecureAggregation_misreads codec env hm rs hw]
    exact ⟨fun h => h.elim,fun h => h (.inl hm)⟩
  · obtain ⟨r,w',hreport,hr⟩ :=
      ensures_false.mp (triple_reportViaSecureAggregation codec env hm rs w hw)
    rw [hreport]
    cases r with
    | error e =>
      refine ⟨fun _ => not_or.mpr ⟨hm,hr.1⟩,fun _ entry he => ?_⟩
      exact ⟨e,rfl,hr.2.1 entry he⟩
    | ok _ =>
      obtain ⟨hmisses,hready⟩ | ⟨hmisses,hf⟩:=hr
      · refine ⟨fun _ => not_or.mpr ⟨hm,hmisses⟩,fun _ entry he => ?_⟩
        rw [hready.1] at he
        cases he
      · refine ⟨fun ht => ?_,fun h => (h (.inr hmisses)).elim⟩
        obtain ⟨entry,he⟩:=Option.ne_none_iff_exists'.mp hf
        obtain ⟨st,hstatus,-⟩:=ht entry he
        cases hstatus

variable (flags) in
theorem told_perform (hs : Sound s) {call : Call} (hc : call.MayBeMade s) :
    Ensures False (perform flags codec env call) ⟨s,[],[]⟩ Told ↔ ¬ call.Mishandled codec env := by
  -- all calls but one are never mishandled
  have ho : Ensures False (perform flags codec env call) ⟨s,[],[]⟩ Told →
      ¬ call.Mishandled codec env →
      (Ensures False (perform flags codec env call) ⟨s,[],[]⟩ Told ↔
        ¬ call.Mishandled codec env) := fun h h' => ⟨fun _ => h',fun _ => h⟩
  cases call with
  | eligibilityEvalCheckin =>
    apply ho _ id
    exact told_of_triple (blames_eligibilityEvalCheckin flags codec env) _ ⟨rfl,hc⟩
  | reportEligibilityEvalError | performMultipleTaskAssignments => exact hc.elim
  | checkin hasInfo =>
    apply ho _ id
    exact told_of_triple (blames_checkin flags codec env hasInfo) _ ⟨rfl,hc.1,hc.2,hs.creator hc.1⟩
  | reportNotCompleted task =>
    apply ho _ id
    cases task with
    | some id => exact told_reportOther hs id _
    | none =>
      have hr : Blames (Ready fun s => s.defaultTaskInfo.state=.checkinAccepted ∧ mayReport s)
          (reportNotCompleted env none) anySession := by
        apply Triple.bind
        · exact triple_beginReport.imp (fun _ _ hw => hw) fun _ _ hw => hw.elim
        · intro _
          exact (blames_notify env (fun s hs => hs.1) _ _).imp
            (fun _ _ hw => hw.any) fun _ _ hw => hw.any
      exact told_of_triple hr _ ⟨rfl,mayReport_of_mayBeMade hs hc⟩
  | reportCompleted rs task =>
    cases task with
    | some id =>
      apply ho _ fun h => h
      exact told_reportOther hs id _
    | none =>
      have hm:=mayReport_of_mayBeMade hs hc
      by_cases hq : (rs.any fun result => result.2.isQuantizedTensor)=true
      · rw [told_secure hm hq]
        exact not_congr ⟨fun h => ⟨hq,h⟩,fun h => h.2⟩
      · apply ho _ fun h => hq h.1
        have hr : Blames (Ready fun s => s.defaultTaskInfo.state=.checkinAccepted ∧ mayReport s)
            (reportCompleted codec env none rs) anySession := by
          apply Triple.bind
          · exact triple_beginReport.imp (fun _ _ hw => hw) fun _ _ hw => hw.elim
          · intro _
            simp only [hq]
            exact blames_reportViaSimpleAggregation codec env rs
        exact told_of_triple hr _ ⟨rfl,hm⟩

/-- Every call that may be made handles the responses it is given, but for a report by secure
aggregation whose first response or last message fails. -/
theorem responses_handled {history : List (Progress × (Call × Environment))} {p : Progress}
    (hr : Run (step flags codec) {} history p) {call : Call} (hc : call.MayBeMade p.session) :
    Handled flags codec env p.session call ↔ ¬ call.Mishandled codec env := by
  rw [← told_perform flags (run_sound hr) hc]
  refine ⟨fun h => h.told,fun h => ⟨h,fun ho env' ha => ?_⟩⟩
  apply similar_perform ha flags codec ho _ _ _ rfl
  rintro rfl
  exact hc

end Handled

section Samples

def sampleTensor : ComputationResults := [("t",.quantizedTensor [1] 4 [1])]

def assignment : List (Call × Environment) :=
  let env := sampleEnvironment .dataUpload .ok
  [(.eligibilityEvalCheckin,env),(.checkin false,env)]

theorem responses_handled_unavailable : ∃ history p,
    Run (step (sampleFlags false) sampleCodec) {} history p ∧ history.map Prod.snd=assignment ∧
      Handled (sampleFlags false) sampleCodec (sampleEnvironment .shareKeys .unavailable) p.session
        (.reportCompleted sampleTensor none) := by
  obtain ⟨history,p,hrun,he,ht⟩:=exists_recorded
    (step (sampleFlags false) sampleCodec) {} assignment
    (P := fun _ p => p.session.defaultTaskInfo.state=.checkinAccepted) (by decide +kernel)
  have hc : (Call.reportCompleted sampleTensor none).MayBeMade p.session := Or.inl ht
  refine ⟨history,p,hrun,he,(responses_handled hrun hc).mpr ?_⟩
  rintro ⟨-,⟨-,hm⟩ | ⟨-,-,hl⟩⟩
  · exact absurd hm (by decide)
  · obtain ⟨-,-,-,-,⟨-,response,hr,-⟩,-⟩:=hl
    cases hr

/-- A failed response that starts secure aggregation is read, and a last message that is lost is
taken for one that arrived. -/
theorem responses_mishandled : ∃ history p,
    Run (step (sampleFlags false) sampleCodec) {} history p ∧ history.map Prod.snd=assignment ∧
      perform (sampleFlags false) sampleCodec
        (sampleEnvironment .startSecureAggregation .unavailable)
        (.reportCompleted sampleTensor none) ⟨p.session,[],[]⟩=.error .badStatusOrAccess ∧
      (∃ w,perform (sampleFlags false) sampleCodec (sampleEnvironment .unmask .unavailable)
          (.reportCompleted sampleTensor none) ⟨p.session,[],[]⟩=.ok (.ok .done,w) ∧
        firstFailure w.issued=some ⟨.unmask,true,⟨.unavailable,""⟩⟩) ∧
      ∀ request∈[Request.startSecureAggregation,.unmask],
        ¬ Handled (sampleFlags false) sampleCodec (sampleEnvironment request .unavailable) p.session
          (.reportCompleted sampleTensor none) := by
  obtain ⟨history,p,hrun,he,hread,⟨_,w⟩,hp,rfl,hf⟩:=exists_recorded
    (step (sampleFlags false) sampleCodec) {} assignment
    (P := fun _ p =>
      faultOf (perform (sampleFlags false) sampleCodec
        (sampleEnvironment .startSecureAggregation .unavailable)
        (.reportCompleted sampleTensor none) ⟨p.session,[],[]⟩)=some .badStatusOrAccess ∧
      ∃ result,perform (sampleFlags false) sampleCodec (sampleEnvironment .unmask .unavailable)
          (.reportCompleted sampleTensor none) ⟨p.session,[],[]⟩=.ok result ∧
        result.1=.ok .done ∧ firstFailure result.2.issued=some ⟨.unmask,true,⟨.unavailable,""⟩⟩)
    (by decide +kernel)
  have hread:=eq_error_of_faultOf hread
  refine ⟨history,p,hrun,he,hread,⟨w,hp,hf⟩,fun request hr h => ?_⟩
  simp only [List.mem_cons,List.not_mem_nil,or_false] at hr
  obtain rfl | rfl:=hr
  · have htold:=h.told
    unfold Ensures at htold
    rw [hread] at htold
    exact htold
  · obtain ⟨status,hs,-⟩:=h.told.of_eq hp _ hf
    cases hs

end Samples

end Fcp.Client.Http

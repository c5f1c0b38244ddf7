import Fcp.Client.Http.HttpFederatedProtocol

/-!
# Rules for requests

Requests leave the session alone, and do the same, up to the logs, in environments that agree on all
requests but those that are sent as a best effort.
-/

namespace Fcp.Client.Http

open Program List Answers Program

section Tame

variable {σ α β : Type}

abbrev Quiet (x : Operation σ α) : Prop := Keeps World.session x

def SameSession (w w' : World σ) : Prop := w.session=w'.session

/-- The first program does not change the session, and the second one does the same. -/
structure Tame (x y : Operation σ α) : Prop where
  similar : Similar SameSession x y
  quiet : Quiet x

variable {x y : Operation σ α}

theorem Tame.bind {f g : α → Operation σ β} (hx : Tame x y)
    (hf : ∀ a,Tame (f a) (g a)) : Tame (x >>= f) (y >>= g) :=
  ⟨hx.similar.bind fun a => (hf a).similar,hx.quiet.bind fun a => (hf a).quiet⟩

theorem Tame.attempt (hx : Tame x y) : Tame (attempt x) (attempt y) :=
  ⟨hx.similar.attempt,hx.quiet.attempt⟩

theorem tame_pure (a : α) : Tame (pure a : Operation σ α) (pure a) := ⟨similar_pure a,keeps_pure a⟩

variable (r : StatusOr α) (st : Status)

theorem tame_fail : Tame (fail st : Operation σ α) (fail st) := ⟨similar_fail st,keeps_fail st⟩

theorem tame_crash (fault : Fault) : Tame (crash fault : Operation σ α) (crash fault) :=
  ⟨similar_crash fault,keeps_crash fault⟩

theorem tame_ofExcept : Tame (ofExcept r : Operation σ α) (ofExcept r) :=
  ⟨similar_ofExcept r,keeps_ofExcept r⟩

theorem tame_read (f : σ → α) : Tame (read fun w => f w.session : Operation σ α)
      (read fun w => f w.session) :=
  ⟨similar_read fun _ _ h => congrArg f h,keeps_read _⟩

theorem tame_update {f g : World σ → World σ} (hf : ∀ w,(f w).session=w.session)
    (hg : ∀ w,(g w).session=w.session) :
    Tame (update f : Operation σ Unit) (update g) :=
  ⟨similar_update fun w w' h => (hf w).trans (Eq.trans h (hg w').symm),keeps_update hf⟩

theorem tame_ofChecked (x : Checked α) : Tame (ofChecked x : Operation σ α) (ofChecked x) := by
  cases x with
  | ok a => exact tame_pure a
  | error fault => exact tame_crash fault

theorem tame_returnIfError : Tame (returnIfError st : Operation σ Unit) (returnIfError st) := by
  unfold returnIfError
  split
  · exact tame_pure ()
  · exact tame_fail st

theorem tame_valueOf : Tame (valueOf r : Operation σ α) (valueOf r) := by
  cases r with
  | ok a => exact tame_pure a
  | error st => exact tame_crash _

theorem tame_logDiag (code : ProdDiagCode) :
    Tame (logDiag code : Operation σ Unit) (logDiag code) :=
  tame_update (fun _ => rfl) fun _ => rfl

theorem tame_giveResponses (reqs : List (Request × Bool))
    (responses : List (StatusOr InMemoryHttpResponse)) :
    Tame (giveResponses reqs responses : Operation σ _) (giveResponses reqs responses) := by
  apply Tame.bind
  · exact tame_update (fun _ => rfl) fun _ => rfl
  · exact fun _ => tame_pure _

theorem tame_failRequests (reqs : List (Request × Bool)) (st : Status) :
    Tame (failRequests reqs st : Operation σ _) (failRequests reqs st) := by
  apply Tame.bind
  · exact tame_update (fun _ => rfl) fun _ => rfl
  · exact fun _ => tame_fail _

end Tame

section Agreement

variable {σ : Type} {answers answers' : Answers}

def Request.isReport : Request → Bool
  | .reportTaskResult | .reportEligibilityEvalTaskResult => true
  | _ => false

structure Agree (answers answers' : Answers) : Prop where
  created : answers.created=answers'.created
  performed : answers.performed=answers'.performed
  cached : answers.cached=answers'.cached
  status : ∀ request,request.isReport=false → answers.status request=answers'.status request
  response : ∀ request,request.isReport=false → answers.response request=answers'.response request

theorem Agree.refl (answers : Answers) : Agree answers answers :=
  ⟨rfl,rfl,rfl,fun _ _ => rfl,fun _ _ => rfl⟩

theorem Agree.responseTo (h : Agree answers answers') {req : Request} (hr : req.isReport=false) :
    answers.responseTo req=answers'.responseTo req := by
  rw [Answers.responseTo,Answers.responseTo,h.status req hr,h.response req hr]

def SameResponses (answers answers' : Answers) (requests : List Request) : Prop :=
  answers.performed=answers'.performed ∧
    ∀ request∈requests,answers.responseTo request=answers'.responseTo request

variable {reqs : List Request}

theorem Agree.sameResponses (h : Agree answers answers')
    (hrequests : ∀ req∈reqs,req.isReport=false) :
    SameResponses answers answers' reqs :=
  ⟨h.performed,fun req hr => h.responseTo (hrequests req hr)⟩

theorem SameResponses.performMultipleRequestsInMemory
    (h : SameResponses answers answers' reqs) (batch : Request) :
    performMultipleRequestsInMemory answers batch reqs =
      performMultipleRequestsInMemory answers' batch reqs := by
  unfold Http.performMultipleRequestsInMemory
  rw [h.1,map_congr_left h.2]

theorem tame_performMultipleProtocolRequests {reqs : List (Request × Bool)}
    (h : SameResponses answers answers' (reqs.map Prod.fst)) (batch : Request) :
    Tame (performMultipleProtocolRequests answers batch reqs : Operation σ _)
      (performMultipleProtocolRequests answers' batch reqs) := by
  rw [performMultipleProtocolRequests,performMultipleProtocolRequests,
    h.performMultipleRequestsInMemory]
  split
  · exact tame_failRequests _ _
  · exact tame_giveResponses _ _

theorem tame_performProtocolRequest {req : Request}
    (h : SameResponses answers answers' [req]) (mandatory : Bool) :
    Tame (performProtocolRequest answers req mandatory : Operation σ _)
      (performProtocolRequest answers' req mandatory) := by
  apply Tame.bind (tame_performMultipleProtocolRequests h req)
  intro _
  apply Tame.bind (tame_ofChecked _)
  intro _
  exact tame_ofExcept _

theorem Agree.sources (h : Agree answers answers') : answers.sources=answers'.sources := by
  rw [Answers.sources,Answers.sources,h.created,h.cached]

variable {ress : List (Request × UriOrInlineData)}

theorem tame_fetchResourcesInMemory (h : Agree answers answers')
    (uncompress : Bytes → Except String Bytes) (batch : Request)
    (hresources : ∀ req∈ress.map Prod.fst,req.isReport=false) :
    Tame (fetchResourcesInMemory answers uncompress batch ress : Operation σ _)
      (fetchResourcesInMemory answers' uncompress batch ress) := by
  unfold fetchResourcesInMemory
  rw [← h.sources]
  cases hc : compileRequests answers.sources [] ress with
  | error st => exact tame_fail st
  | ok compiled =>
    obtain ⟨accs,reqs⟩:=compiled
    have hs : SameResponses answers answers' (reqs.map Prod.fst) := by
      refine h.sameResponses fun req hr => ?_
      obtain ⟨pair,hp,rfl⟩:=mem_map.mp hr
      exact hresources _ ((compileRequests_subset hc pair hp).resolve_left not_mem_nil)
    simp only [ofExcept_ok_bind]
    rw [← hs.performMultipleRequestsInMemory]
    split
    · exact tame_failRequests _ _
    · apply Tame.bind (tame_ofChecked _)
      intro _
      exact tame_giveResponses _ _

end Agreement

section SecAggRounds

variable {σ : Type} {answers answers' : Answers} (h : Agree answers answers')
  (parses : Request → Bytes → Bool) (c : SecAggClient)

include h

theorem tame_exchange {req : Request} (hr : req.isReport=false) (parseError : Status) :
    Tame (exchange answers parses req parseError : Operation σ Unit)
      (exchange answers' parses req parseError) := by
  unfold exchange
  rw [h.created]
  apply Tame.bind (tame_returnIfError _)
  intro _
  apply Tame.bind
  · exact tame_performProtocolRequest (h.sameResponses (by simpa using hr)) true
  · intro resp
    split
    · exact tame_pure ()
    · exact tame_fail parseError

theorem tame_request {req : Request} (hr : req.isReport=false) (mandatory : Bool) : Tame (do
        returnIfError (answers.created req)
        let _ ← performProtocolRequest answers req mandatory
        pure () : Operation σ Unit)
      (do
        returnIfError (answers'.created req)
        let _ ← performProtocolRequest answers' req mandatory
        pure ()) := by
  rw [h.created]
  apply Tame.bind (tame_returnIfError _)
  intro _
  apply Tame.bind
  · exact tame_performProtocolRequest (h.sameResponses (by simpa using hr)) mandatory
  · exact fun _ => tame_pure ()

omit h in
theorem tame_returnFirstError (responses : List (StatusOr InMemoryHttpResponse)) :
    Tame (returnFirstError responses : Operation σ Unit) (returnFirstError responses) := by
  induction responses with
  | nil => exact tame_pure ()
  | cons resp responses ih =>
    cases resp with
    | error st => exact tame_fail st
    | ok _ => exact ih

theorem tame_createUploads (reqs : List Request) :
    Tame (createUploads answers reqs : Operation σ Unit) (createUploads answers' reqs) := by
  induction reqs with
  | nil => exact tame_pure ()
  | cons req reqs ih =>
    unfold createUploads
    rw [h.created]
    exact Tame.bind (tame_returnIfError _) fun _ => ih

variable (hasCp : Bool)

theorem tame_doR2SubmitSecureAggregationResult :
    Tame (doR2SubmitSecureAggregationResult answers parses hasCp : Operation σ Unit)
      (doR2SubmitSecureAggregationResult answers' parses hasCp) := by
  apply Tame.bind (tame_createUploads h _)
  intro _
  apply Tame.bind
  · apply tame_performMultipleProtocolRequests
    apply h.sameResponses
    cases hasCp <;> decide
  intro _
  apply Tame.bind (tame_returnFirstError _)
  intro _
  exact tame_exchange h parses rfl _

theorem tame_send (round : Round) : Tame (send answers parses hasCp round : Operation σ _)
      (send answers' parses hasCp round) := by
  cases round with
  | shareKeys => exact (tame_exchange h parses rfl _).attempt
  | maskedInput => exact (tame_doR2SubmitSecureAggregationResult h parses hasCp).attempt
  | unmasking => exact (tame_request h rfl true).attempt

theorem tame_receiveMessages (serverResponse : StatusOr Unit) (rounds : List Round) :
    Tame (receiveMessages answers parses c hasCp serverResponse rounds : Operation σ Unit)
      (receiveMessages answers' parses c hasCp serverResponse rounds) := by
  induction rounds generalizing serverResponse with
  | nil => exact tame_pure ()
  | cons round rounds ih =>
    cases serverResponse with
    | error st => exact tame_fail _
    | ok _ =>
      rw [receiveMessages,receiveMessages]
      split
      · exact Tame.bind (tame_send h parses hasCp round) fun resp => ih resp
      · exact tame_pure ()
      · split
        · exact Tame.bind (tame_request h rfl false).attempt fun _ => tame_fail _
        · exact Tame.bind (tame_pure _) fun _ => tame_fail _
      · exact tame_fail _

theorem tame_runSecAgg : Tame (runSecAgg answers parses c hasCp : Operation σ Unit)
      (runSecAgg answers' parses c hasCp) := by
  apply Tame.bind (tame_returnIfError _)
  intro _
  apply Tame.bind (tame_returnIfError _)
  intro _
  apply Tame.bind (tame_exchange h parses rfl _).attempt
  intro _
  exact tame_receiveMessages h parses c hasCp _ _

end SecAggRounds

section Pairs

variable (answers : Answers) {F : Prop} (request : Request)

def Answers.checked : StatusOr InMemoryHttpResponse :=
  checkResponseContentEncoding (answers.responseTo request)

def Answers.replied : StatusOr (StatusOr InMemoryHttpResponse) :=
  if (answers.performed request).isOk then .ok (answers.checked request)
  else .error (answers.performed request)

def Answers.outcome (batch request : Request) : Status :=
  if (answers.performed batch).isOk then statusOf (answers.checked request)
  else answers.performed batch

def World.issue {σ : Type} (w : World σ) (batch : Request) (requests : List (Request × Bool)) :
    World σ :=
  { w with issued := w.issued++requests.map fun request =>
      ⟨request.1,request.2,answers.outcome batch request.1⟩ }

theorem performMultipleProtocolRequests_apply {σ : Type} (batch : Request)
    (reqs : List (Request × Bool)) (w : World σ) :
    performMultipleProtocolRequests answers batch reqs w =
      .ok (if (answers.performed batch).isOk then
          .ok (reqs.map fun req => answers.checked req.1)
        else .error (answers.performed batch),w.issue answers batch reqs) := by
  rw [performMultipleProtocolRequests,performMultipleRequestsInMemory]
  unfold World.issue outcome
  by_cases hp : (answers.performed batch).isOk=true
  · simp only [hp,if_true,giveResponses,map_map,zipWith_map_right,zipWith_self]
    rfl
  · simp only [hp,failRequests]
    rfl

def Answers.answer : StatusOr InMemoryHttpResponse := do
  let response ← answers.replied request
  response

variable {req : Request}

theorem answer_error {e : Status} (h : answers.answer req=.error e) :
    (answers.performed req).isOk=false ∧ e=answers.performed req ∨
      (answers.status req).isOk=false ∧ e=answers.status req ∨
      (answers.response req).contentEncoding≠"" ∧ e.code=.unavailable := by
  unfold answer replied checked responseTo at h
  cases hp : (answers.performed req).isOk with
  | false =>
    rw [hp] at h
    cases h
    exact .inl ⟨rfl,rfl⟩
  | true =>
    rw [hp] at h
    cases hs : (answers.status req).isOk with
    | false =>
      rw [hs] at h
      cases h
      exact .inr (.inl ⟨rfl,rfl⟩)
    | true =>
      rw [hs] at h
      by_cases he : (answers.response req).contentEncoding=""
      · simp [checkResponseContentEncoding,he] at h
      · simp [checkResponseContentEncoding,he] at h
        exact .inr (.inr ⟨he,by rw [← h]⟩)

theorem answer_ok {resp : InMemoryHttpResponse} :
    answers.answer req=.ok resp ↔ (answers.performed req).isOk=true ∧
      (answers.status req).isOk=true ∧ resp=answers.response req ∧
      resp.contentEncoding="" := by
  unfold answer replied checked responseTo
  cases (answers.performed req).isOk with
  | false => simp
  | true =>
    cases (answers.status req).isOk with
    | false => simp [checkResponseContentEncoding]
    | true =>
      by_cases he : (answers.response req).contentEncoding=""
      · simp only [checkResponseContentEncoding,he,if_true,ok_bind,true_and,Except.ok.injEq]
        constructor
        · rintro rfl
          exact ⟨rfl,he⟩
        · rintro ⟨rfl,-⟩
          rfl
      · simp only [checkResponseContentEncoding,he,if_false,if_true,ok_bind,true_and,
          reduceCtorEq,false_iff]
        rintro ⟨rfl,h⟩
        exact he h

theorem ensures_performProtocolRequest {σ : Type} {mandatory : Bool} {w : World σ}
    {Q : StatusOr InMemoryHttpResponse → World σ → Prop} :
    Ensures F (performProtocolRequest answers req mandatory) w Q ↔
      Q (answers.answer req) (w.issue answers req [(req,mandatory)]) := by
  unfold Ensures
  rw [performProtocolRequest,bind_apply,performMultipleProtocolRequests_apply]
  unfold answer replied
  cases (answers.performed req).isOk with
  | true | false => rfl

theorem mandatoryResponse_apply (first second : StatusOr InMemoryHttpResponse)
    (code : ProdDiagCode) (w : World Session) :
    ∃ diags,mandatoryResponse code [first,second] w =
      .ok (.ok first,{ w with diags := diags }) := by
  cases second with
  | error st => exact ⟨_,rfl⟩
  | ok resp => exact ⟨w.diags,rfl⟩

theorem pair_apply (main other : Request) (code : ProdDiagCode) (w : World Session) : ∃ diags,(do
      let responses ← performMultipleProtocolRequests answers main [(main,true),(other,false)]
      mandatoryResponse code responses : Operation Session _) w=.ok (answers.replied main,
          { w.issue answers main [(main,true),(other,false)] with diags := diags }) := by
  rw [bind_apply,performMultipleProtocolRequests_apply]
  unfold replied
  cases (answers.performed main).isOk with
  | true =>
    obtain ⟨diags,ha⟩:=mandatoryResponse_apply (answers.checked main)
      (answers.checked other) code (w.issue answers main [(main,true),(other,false)])
    exact ⟨diags,ha⟩
  | false => exact ⟨w.diags,rfl⟩

theorem performWithReport_apply (req : Request) (w : World Session) :
    ∃ diags,performWithReport answers req w=.ok (answers.replied req,
      { w.issue answers req [(req,true),(.reportTaskResult,false)] with
        diags := diags }) := by
  obtain ⟨diags,ha⟩:=pair_apply answers req .reportTaskResult .httpReportTaskResultRequestFailed w
  refine ⟨diags,Eq.trans ?_ ha⟩
  rw [performWithReport,bind_apply,bind_apply,performMultipleProtocolRequests_apply]
  cases (answers.performed req).isOk with
  | true | false => rfl

end Pairs

theorem Agree.replied {answers answers' : Answers} (h : Agree answers answers') {req : Request}
    (hr : req.isReport=false) : answers.replied req=answers'.replied req := by
  rw [Answers.replied,Answers.replied,Answers.checked,Answers.checked,h.performed,h.responseTo hr]

section Calls

variable {answers answers' : Answers} (h : Agree answers answers') (codec : Codec)

theorem tame_check (condition : Session → Bool) : Tame (check condition) (check condition) := by
  apply Tame.bind (tame_read _)
  intro ho
  exact tame_ofChecked _

theorem ensures_check_bind {F : Prop} {α : Type} {condition : Session → Bool}
    {f : Unit → Operation Session α} {w : World Session}
    {Q : StatusOr α → World Session → Prop} (hc : condition w.session=false → F) :
    Ensures F (check condition >>= f) w Q ↔ (condition w.session=true → Ensures F (f ()) w Q) := by
  rw [check,ensures_bind,ensures_bind,ensures_read]
  cases hcondition : condition w.session with
  | false => exact ⟨fun _ h => absurd h (by decide),fun _ => hc hcondition⟩
  | true => exact ⟨fun h _ => h,fun h => h rfl⟩

include h

theorem tame_createProtocolRequest (creator : Session → Option ProtocolRequestCreator)
    (req : Request) :
    Tame (createProtocolRequest answers creator req)
      (createProtocolRequest answers' creator req) := by
  unfold createProtocolRequest
  rw [h.created]
  apply Tame.bind (tame_read fun s => (creator s).isSome)
  intro set
  split
  · exact tame_returnIfError _
  · exact tame_crash _

theorem tame_fetchTaskResources (plan cp : Resource) :
    Tame (fetchTaskResources codec answers plan cp)
      (fetchTaskResources codec answers' plan cp) := by
  apply Tame.bind (tame_ofExcept _)
  intro _
  apply Tame.bind (tame_ofExcept _)
  intro _
  apply Tame.bind (tame_fetchResourcesInMemory h _ _ (by simp [Request.isReport]))
  intro _
  apply Tame.bind (tame_ofChecked _)
  intro _
  apply Tame.bind (tame_ofChecked _)
  intro _
  apply Tame.bind (tame_ofExcept _)
  intro _
  apply Tame.bind (tame_ofExcept _)
  intro _
  exact tame_pure _

theorem tame_fetchPopulationEligibilitySpec (res : Resource) :
    Tame (fetchPopulationEligibilitySpec codec answers res)
      (fetchPopulationEligibilitySpec codec answers' res) := by
  apply Tame.bind (tame_ofExcept _)
  intro _
  apply Tame.bind (tame_fetchResourcesInMemory h _ _ (by simp [Request.isReport]))
  intro _
  apply Tame.bind (tame_ofChecked _)
  intro _
  apply Tame.bind (tame_ofExcept _)
  intro resp
  split
  · exact tame_pure _
  · exact tame_fail _

theorem tame_pair {main other : Request} (hm : main.isReport=false) (code : ProdDiagCode) : Tame (do
        let responses ← performMultipleProtocolRequests answers main
          [(main,true),(other,false)]
        mandatoryResponse code responses)
      (do
        let responses ← performMultipleProtocolRequests answers' main
          [(main,true),(other,false)]
        mandatoryResponse code responses) := by
  constructor
  · intro w w' hw
    obtain ⟨diags,ha⟩:=pair_apply answers main other code w
    obtain ⟨diags',ha'⟩:=pair_apply answers' main other code w'
    rw [ha,ha']
    exact ⟨h.replied hm,hw⟩
  · intro w
    obtain ⟨diags,ha⟩:=pair_apply answers main other code w
    exact ensures_of_eq ha rfl

theorem tame_performWithReport {req : Request} (hr : req.isReport=false) :
    Tame (performWithReport answers req) (performWithReport answers' req) := by
  constructor
  · intro w w' hw
    obtain ⟨diags,ha⟩:=performWithReport_apply answers req w
    obtain ⟨diags',ha'⟩:=performWithReport_apply answers' req w'
    rw [ha,ha']
    exact ⟨h.replied hr,hw⟩
  · intro w
    obtain ⟨diags,ha⟩:=performWithReport_apply answers req w
    exact ensures_of_eq ha rfl

end Calls

section Environments

/-- Two environments of an operation that differ in the fate of reports only. -/
structure AgreeOn (env env' : Environment) : Prop where
  answers : Agree env.toAnswers env'.toAnswers
  client : env.client=env'.client
  drawIfRejected : env.drawIfRejected=env'.drawIfRejected
  drawIfAccepted : env.drawIfAccepted=env'.drawIfAccepted

theorem AgreeOn.refl (env : Environment) : AgreeOn env env := ⟨.refl _,rfl,rfl,rfl⟩

variable {env env' : Environment} (h : AgreeOn env env') (flags : Flags) (codec : Codec)
  (task : TaskRef)

theorem tame_notify (hc : env.created=env'.created) {req : Request}
    (hr : SameResponses env.toAnswers env'.toAnswers [req])
    (creator : Session → Option ProtocolRequestCreator) (text : String) :
    Tame (notify env creator req text) (notify env' creator req text) := by
  unfold notify createProtocolRequest
  rw [hc]
  apply Tame.bind
  · apply Tame.bind (tame_read fun s => (creator s).isSome)
    intro set
    split
    · exact tame_returnIfError _
    · exact tame_crash _
  intro _
  apply Tame.bind (tame_performProtocolRequest hr true).attempt
  intro _
  apply Tame.bind (tame_ofExcept _)
  intro _
  exact tame_pure ()

theorem quiet_reportEligibilityEvalError : Quiet (reportEligibilityEvalError env) := by
  have hr : Tame (reportEligibilityEvalErrorInternal env)
      (reportEligibilityEvalErrorInternal env) := by
    apply Tame.bind (tame_returnIfError _)
    intro _
    apply Tame.bind (tame_performProtocolRequest ⟨rfl,fun _ _ => rfl⟩ true)
    intro _
    exact tame_pure ()
  apply Keeps.bind hr.attempt.quiet
  intro st
  cases st with
  | ok _ => exact keeps_pure ()
  | error _ => exact (tame_logDiag _).quiet

include h

theorem tame_performEligibilityEvalTaskRequest :
    Tame (performEligibilityEvalTaskRequest env) (performEligibilityEvalTaskRequest env') := by
  unfold performEligibilityEvalTaskRequest
  rw [h.answers.created]
  apply Tame.bind (tame_returnIfError _)
  intro _
  exact tame_performProtocolRequest (h.answers.sameResponses (by simp [Request.isReport])) true

theorem tame_fetchSpecIfSupported (res : Option Resource) :
    Tame (fetchSpecIfSupported flags codec env res)
      (fetchSpecIfSupported flags codec env' res) := by
  cases res with
  | none => exact tame_pure _
  | some res =>
    rw [fetchSpecIfSupported,fetchSpecIfSupported]
    split
    · apply Tame.bind (tame_fetchPopulationEligibilitySpec h.answers codec res)
      intro _
      exact tame_pure _
    · exact tame_pure _

theorem tame_performTaskAssignment :
    Tame (performTaskAssignmentAndReportEligibilityEvalResultRequests env)
      (performTaskAssignmentAndReportEligibilityEvalResultRequests env') := by
  unfold performTaskAssignmentAndReportEligibilityEvalResultRequests
  rw [h.answers.created]
  apply Tame.bind (tame_createProtocolRequest h.answers _ _)
  intro _
  apply Tame.bind (tame_read Session.eligibilityEvalEnabled)
  intro enabled
  split
  · apply Tame.bind (tame_returnIfError _)
    intro _
    exact tame_pair h.answers rfl _
  · apply Tame.bind
    · exact tame_performMultipleProtocolRequests
        (h.answers.sameResponses (by simp [Request.isReport])) _
    · exact fun _ => tame_ofChecked _

theorem tame_performStartDataUpload :
    Tame (performStartDataUploadRequestAndReportTaskResult env task)
      (performStartDataUploadRequestAndReportTaskResult env' task) := by
  apply Tame.bind (tame_createProtocolRequest h.answers _ _)
  intro _
  apply Tame.bind (tame_createProtocolRequest h.answers _ _)
  intro _
  exact tame_performWithReport h.answers rfl

theorem tame_abortAfterFailedUpload (st : Status) :
    Tame (abortAfterFailedUpload env task st) (abortAfterFailedUpload env' task st) := by
  unfold abortAfterFailedUpload
  split
  · exact tame_pure ()
  · have ha : Tame (abortAggregation env task) (abortAggregation env' task) := by
      apply Tame.bind (tame_check _)
      intro _
      apply Tame.bind (tame_createProtocolRequest h.answers _ _)
      intro _
      apply Tame.bind
      · exact tame_performProtocolRequest
          (h.answers.sameResponses (by simp [Request.isReport])) false
      · exact fun _ => tame_pure ()
    apply Tame.bind ha.attempt
    intro aborted
    cases aborted with
    | ok _ => exact tame_pure ()
    | error _ => exact tame_logDiag _

theorem tame_startSecureAggregation :
    Tame (startSecureAggregationAndReportTaskResult codec env task)
      (startSecureAggregationAndReportTaskResult codec env' task) := by
  apply Tame.bind (tame_createProtocolRequest h.answers _ _)
  intro _
  apply Tame.bind (tame_createProtocolRequest h.answers _ _)
  intro _
  apply Tame.bind (tame_performWithReport h.answers rfl)
  intro _
  apply Tame.bind (tame_valueOf _)
  intro resp
  split
  · exact tame_fail _
  · exact tame_pure _

end Environments

end Fcp.Client.Http

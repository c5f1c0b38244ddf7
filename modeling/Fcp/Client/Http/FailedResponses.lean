import Fcp.Client.Http.ProtocolRuns

/-!
# Failed responses

An operation ends with the code of the first failed response to a mandatory request, except where a
report by secure aggregation starts and at the last message of its rounds.
-/

namespace Fcp.Client.Http

open Program List Answers

section Logs

variable {σ α β : Type} {S : σ → Prop}

def firstFailure (issued : List Issued) : Option Issued :=
  issued.find? fun entry => entry.mandatory && !entry.status.isOk

/-- No response has failed so far. -/
def Ready (S : σ → Prop) (w : World σ) : Prop := firstFailure w.issued=none ∧ S w.session

def Blamed (S : σ → Prop) (status : Status) (w : World σ) : Prop :=
  (∀ entry,firstFailure w.issued=some entry → status.code=entry.status.code) ∧ S w.session

theorem firstFailure_append (issued issued' : List Issued) :
    firstFailure (issued++issued')=(firstFailure issued).or (firstFailure issued') :=
  find?_append

variable {w : World σ}

theorem Ready.blamed (h : Ready S w) (st : Status) : Blamed S st w := by
  constructor
  · intro entry he
    rw [h.1] at he
    cases he
  · exact h.2

theorem Blamed.of_code {st status' : Status} (h : Blamed S st w)
    (hc : status'.code=st.code) : Blamed S status' w :=
  ⟨fun entry he => hc.trans (h.1 entry he),h.2⟩

def Blames (P : World σ → Prop) (x : Operation σ α) (S : σ → Prop) : Prop :=
  Triple P x (fun _ => Ready S) (Blamed S)

/-- An operation that blames the first failed response and succeeds exactly under a condition. -/
def Decides (S : σ → Prop) (c : Prop) (x : Operation σ α) : Prop :=
  Triple (Ready S) x (fun _ w => c ∧ Ready S w) (fun e w => ¬ c ∧ Blamed S e w)

theorem Decides.bind {c d : Prop} {x : Operation σ α} {f : α → Operation σ β}
    {Q : β → World σ → Prop} (hx : Decides S c x) (hd : d → c)
    (hf : ∀ a,c → Triple (Ready S) (f a) Q fun e w => ¬ d ∧ Blamed S e w) :
    Triple (Ready S) (x >>= f) Q fun e w => ¬ d ∧ Blamed S e w := by
  apply Triple.bind (Triple.imp hx (fun _ _ hw => hw) fun e w hw => ⟨fun h => hw.1 (hd h),hw.2⟩)
  rintro a w ⟨hc,hw⟩
  exact hf a hc w hw

end Logs

section Requests

variable {σ : Type} {S : σ → Prop} (answers : Answers)

theorem decides_returnIfError (st : Status) : Decides S (st.isOk=true) (returnIfError st) := by
  unfold returnIfError
  cases hs : st.isOk with
  | true => exact triple_pure fun _ hw => ⟨rfl,hw⟩
  | false => exact triple_fail fun _ hw => ⟨Bool.false_ne_true,hw.blamed st⟩

variable {req : Request} {st : Status}

theorem checked_error (h : answers.checked req=.error st) : st.isOk=false := by
  unfold checked responseTo at h
  cases hs : (answers.status req).isOk with
  | false =>
    rw [hs] at h
    cases h
    exact hs
  | true =>
    rw [hs] at h
    simp only [if_true,checkResponseContentEncoding] at h
    split at h
    · cases h
    · cases h
      rfl

theorem outcome_self (req : Request) : answers.outcome req req=statusOf (answers.answer req) := by
  unfold outcome answer replied
  cases (answers.performed req).isOk with
  | true | false => rfl

theorem answer_error_isOk (h : answers.answer req=.error st) : st.isOk=false := by
  unfold answer replied at h
  cases hp : (answers.performed req).isOk with
  | true =>
    rw [hp] at h
    exact checked_error answers h
  | false =>
    rw [hp] at h
    cases h
    exact hp

theorem Ready.issue_ok {w : World σ} (h : Ready S w) (others : List Request)
    {resp : InMemoryHttpResponse} (ha : answers.answer req=.ok resp) :
    Ready S (w.issue answers req ((req,true)::others.map (·,false))) := by
  refine ⟨?_,h.2⟩
  show firstFailure (w.issued++_)=none
  rw [firstFailure_append,h.1]
  simp [firstFailure,outcome_self,ha,statusOf,Status.isOk,Status.okStatus]

theorem Ready.issue_error {w : World σ} (h : Ready S w) (others : List Request)
    (ha : answers.answer req=.error st) :
    Blamed S st (w.issue answers req ((req,true)::others.map (·,false))) := by
  refine ⟨fun entry he => ?_,h.2⟩
  change firstFailure (w.issued++_)=some entry at he
  rw [firstFailure_append,h.1] at he
  simp [firstFailure,outcome_self,ha,statusOf,answer_error_isOk answers ha] at he
  rw [← he]

theorem firstFailure_issue_bestEffort (w : World σ) (req : Request) :
    firstFailure (w.issue answers req [(req,false)]).issued=firstFailure w.issued := by
  show firstFailure (w.issued++_)=_
  rw [firstFailure_append]
  simp [firstFailure]

theorem triple_performProtocolRequest (req : Request) :
    Triple (Ready S) (performProtocolRequest answers req true)
      (fun resp w => answers.answer req=.ok resp ∧ Ready S w)
      (fun e w => answers.answer req=.error e ∧ Blamed S e w) := by
  intro w hw
  rw [ensures_performProtocolRequest]
  cases ha : answers.answer req with
  | ok resp => exact ⟨rfl,hw.issue_ok answers [] ha⟩
  | error st => exact ⟨rfl,hw.issue_error answers [] ha⟩

end Requests

section Rounds

variable {σ : Type} {S : σ → Prop} (answers : Answers) (parses : Request → Bytes → Bool)
  (client : SecAggClient) (hasCheckpoint : Bool)

def Answers.Exchanges (request : Request) : Prop := (answers.created request).isOk=true ∧
    ∃ response,answers.answer request=.ok response ∧ parses request response.body=true

theorem decides_exchange (req : Request) (parseError : Status) :
    Decides S (answers.Exchanges parses req) (exchange answers parses req parseError) := by
  apply (decides_returnIfError (answers.created req)).bind (fun he => he.1)
  intro _ hc
  apply Triple.bind
  · apply (triple_performProtocolRequest answers req).imp (fun _ _ hw => hw)
    rintro e w ⟨ha,hw⟩
    refine ⟨fun ⟨_,resp,hr,_⟩ => ?_,hw⟩
    cases ha.symm.trans hr
  · intro resp w ⟨ha,hw⟩
    cases hp : parses req resp.body with
    | true => exact ⟨⟨hc,resp,ha,hp⟩,hw⟩
    | false =>
      refine ⟨fun ⟨_,response',hr,hp'⟩ => ?_,hw.blamed parseError⟩
      cases ha.symm.trans hr
      cases hp.symm.trans hp'

theorem decides_createUploads (reqs : List Request) :
    Decides S (∀ req∈reqs,(answers.created req).isOk=true) (createUploads answers reqs) := by
  induction reqs with
  | nil => exact triple_pure fun _ hw => ⟨nofun,hw⟩
  | cons req reqs ih =>
    apply (decides_returnIfError (answers.created req)).bind (fun ha => ha req mem_cons_self)
    intro _ hc
    apply Triple.imp ih
    · exact fun _ w hw => ⟨forall_mem_cons.mpr ⟨hc,hw.1⟩,hw.2⟩
    · exact fun _ w hw => ⟨fun ha => hw.1 (forall_mem_cons.mp ha).2,hw.2⟩

theorem triple_returnFirstError (reqs : List Request) :
    Triple (fun w : World σ => firstFailure w.issued=firstFailure (reqs.map fun req =>
        ⟨req,true,statusOf (answers.checked req)⟩) ∧ S w.session)
      (returnFirstError (reqs.map answers.checked))
      (fun _ w => (∀ req∈reqs,(answers.checked req).isOk=true) ∧ Ready S w)
      (fun e w => ¬ (∀ req∈reqs,(answers.checked req).isOk=true) ∧ Blamed S e w) := by
  induction reqs with
  | nil => exact triple_pure fun w hw => ⟨nofun,hw⟩
  | cons req reqs ih =>
    obtain ⟨checked,hc⟩ : ∃ checked,answers.checked req=checked := ⟨_,rfl⟩
    have hr : (req::reqs).map answers.checked =
        checked::reqs.map answers.checked := by rw [map_cons,hc]
    rw [hr]
    cases checked with
    | error st =>
      apply triple_fail
      intro w hw
      refine ⟨fun ha => ?_,fun entry he => ?_,hw.2⟩
      · have hok:=ha req mem_cons_self
        rw [hc] at hok
        cases hok
      · rw [hw.1] at he
        simp [firstFailure,statusOf,hc,checked_error answers hc] at he
        rw [← he]
    | ok resp =>
      apply ih.mono
      · intro w hw
        refine ⟨hw.1.trans ?_,hw.2⟩
        simp [firstFailure,statusOf,hc,Status.isOk,Status.okStatus]
      · rintro _ w ⟨ha,hw⟩
        exact ⟨forall_mem_cons.mpr ⟨by rw [hc]; rfl,ha⟩,hw⟩
      · rintro e w ⟨ha,hw⟩
        exact ⟨fun h => ha (forall_mem_cons.mp h).2,hw⟩

def Answers.Submits : Prop :=
  (∀ request∈resultUploads hasCheckpoint,(answers.created request).isOk=true) ∧
    (answers.performed .maskedResultUpload).isOk=true ∧
    (∀ request∈resultUploads hasCheckpoint,(answers.checked request).isOk=true) ∧
    answers.Exchanges parses .submitSecureAggregationResult

theorem decides_doR2SubmitSecureAggregationResult : Decides S (answers.Submits parses hasCheckpoint)
      (doR2SubmitSecureAggregationResult answers parses hasCheckpoint) := by
  apply (decides_createUploads answers (resultUploads hasCheckpoint)).bind (fun hs => hs.1)
  intro _ hc w hw
  rw [ensures_bind]
  unfold Ensures
  rw [performMultipleProtocolRequests_apply]
  cases hp : (answers.performed .maskedResultUpload).isOk with
  | false =>
    refine ⟨fun hs => ?_,fun entry he => ?_,hw.2⟩
    · rw [hs.2.1] at hp
      cases hp
    · change firstFailure (w.issued++_)=some entry at he
      rw [firstFailure_append,hw.1] at he
      have hm:=mem_of_find?_eq_some he
      obtain ⟨req,-,rfl⟩:=mem_map.mp hm
      simp [outcome,hp]
  | true =>
    simp only [if_true,map_map]
    show Ensures False (_ >>= _) _ _
    have hl : firstFailure (w.issue answers .maskedResultUpload
        ((resultUploads hasCheckpoint).map (·,true))).issued =
        firstFailure ((resultUploads hasCheckpoint).map fun req =>
          ⟨req,true,statusOf (answers.checked req)⟩) := by
      show firstFailure (w.issued++_)=_
      rw [firstFailure_append,hw.1]
      simp [outcome,hp,Function.comp_def]
    rw [ensures_bind]
    apply Ensures.mono (triple_returnFirstError answers (resultUploads hasCheckpoint)
      (w.issue answers .maskedResultUpload ((resultUploads hasCheckpoint).map (·,true)))
      ⟨hl,hw.2⟩)
    intro r w' hr
    cases r with
    | error e => exact ⟨fun hs => hr.1 hs.2.2.1,hr.2⟩
    | ok _ =>
      apply (decides_exchange answers parses _ _ w' hr.2).mono
      intro r w'' hr'
      cases r with
      | error e => exact ⟨fun hs => hr'.1 hs.2.2.2,hr'.2⟩
      | ok _ => exact ⟨⟨hc,hp,hr.1,hr'.1⟩,hr'.2⟩

def Ended (S : σ → Prop) (lost : Prop) (w : World σ) : Prop :=
  ¬ lost ∧ Ready S w ∨ lost ∧ firstFailure w.issued≠none

def Answers.LosesUnmasking : Prop :=
  client.reaction .unmasking=.sends ∧ (answers.created .unmask).isOk=true ∧
    ∃ status,answers.answer .unmask=.error status

variable {rounds : List Round} {lost : Prop}

theorem triple_noMessage {round : Round} (hround : client.reaction round≠.sends) (hl : ¬ lost) :
    Triple (Ready S) (receiveMessages answers parses client hasCheckpoint (.ok ())
      (round::rounds))
      (fun _ w => Ended S lost w) (fun e w => ¬ lost ∧ Blamed S e w) := by
  rw [receiveMessages]
  split
  · exact (hround ‹_›).elim
  · exact triple_pure fun w hw => .inl ⟨hl,hw⟩
  · split
    · intro w hw
      rw [ensures_bind,ensures_attempt]
      unfold abortSecureAggregation returnIfError
      cases (answers.created .abortSecureAggregation).isOk with
      | false => exact ⟨hl,hw.blamed _⟩
      | true =>
        rw [ensures_bind]
        show Ensures False (_ >>= _) w _
        rw [ensures_bind,ensures_performProtocolRequest]
        have hr : Ready S (w.issue answers .abortSecureAggregation
            [(.abortSecureAggregation,false)]) :=
          ⟨(firstFailure_issue_bestEffort answers w _).trans hw.1,hw.2⟩
        cases answers.answer .abortSecureAggregation with
        | error _ | ok _ => exact ⟨hl,hr.blamed _⟩
    · exact fun w hw => ⟨hl,hw.blamed _⟩
  · exact triple_fail fun w hw => ⟨hl,hw.blamed _⟩

theorem triple_unmasking : Triple (Ready S)
      (receiveMessages answers parses client hasCheckpoint (.ok ()) [.unmasking])
      (fun _ w => Ended S (answers.LosesUnmasking client) w)
      (fun e w => ¬ answers.LosesUnmasking client ∧ Blamed S e w) := by
  by_cases hr : client.reaction .unmasking=.sends
  · rw [receiveMessages]
    simp only [hr]
    intro w hw
    rw [ensures_bind]
    unfold send doR3Unmask returnIfError
    rw [ensures_attempt]
    cases hc : (answers.created .unmask).isOk with
    | false =>
      refine .inl ⟨fun hlost => ?_,hw⟩
      rw [hlost.2.1] at hc
      cases hc
    | true =>
      rw [ensures_bind,if_pos rfl,ensures_pure]
      show Ensures False (_ >>= _) w _
      rw [ensures_bind,ensures_performProtocolRequest]
      cases ha : answers.answer .unmask with
      | ok resp =>
        refine .inl ⟨fun hl => ?_,hw.issue_ok answers [] ha⟩
        obtain ⟨-,-,st,hlost⟩:=hl
        cases ha.symm.trans hlost
      | error st =>
        -- the failure is in the log, and the run ends well
        refine .inr ⟨⟨hr,hc,st,ha⟩,?_⟩
        show firstFailure (w.issued++_)≠none
        rw [firstFailure_append,hw.1]
        simp [firstFailure,outcome_self,ha,statusOf,answer_error_isOk answers ha]
  · exact triple_noMessage answers parses client hasCheckpoint hr fun hlost => hr hlost.1

theorem triple_round (round : Round) {next : Round} {x : Operation σ Unit}
    {sent : Prop} (hs : send answers parses hasCheckpoint round=Program.attempt x)
    (hx : Decides S sent x)
    (hrest : Triple (Ready S)
      (receiveMessages answers parses client hasCheckpoint (.ok ()) (next::rounds))
      (fun _ w => Ended S lost w) (fun e w => ¬ lost ∧ Blamed S e w)) :
    Triple (Ready S)
      (receiveMessages answers parses client hasCheckpoint (.ok ()) (round::next::rounds))
      (fun _ w => Ended S (client.reaction round=.sends ∧ sent ∧ lost) w)
      (fun e w => ¬ (client.reaction round=.sends ∧ sent ∧ lost) ∧ Blamed S e w) := by
  by_cases hround : client.reaction round=.sends
  · rw [receiveMessages]
    simp only [hround,hs,true_and]
    apply hx.attempt_bind
    · rintro _ w ⟨hsent,hw⟩
      apply (hrest w hw).mono
      intro r w' hr
      simp only [hsent,true_and]
      exact hr
    · intro e
      apply triple_fail
      rintro w ⟨hsent,hw⟩
      exact ⟨fun hl => hsent hl.1,hw.of_code rfl⟩
  · exact triple_noMessage answers parses client hasCheckpoint hround fun hl => hround hl.1

def Answers.LosesRounds : Prop := client.inputs.isOk=true ∧ client.started.isOk=true ∧
    answers.Exchanges parses .advertiseKeys ∧
    client.reaction .shareKeys=.sends ∧ answers.Exchanges parses .shareKeys ∧
    client.reaction .maskedInput=.sends ∧ answers.Submits parses hasCheckpoint ∧
    answers.LosesUnmasking client

theorem triple_runSecAgg : Triple (Ready S) (runSecAgg answers parses client hasCheckpoint)
      (fun _ w => Ended S (answers.LosesRounds parses client hasCheckpoint) w)
      (fun e w => ¬ answers.LosesRounds parses client hasCheckpoint ∧ Blamed S e w) := by
  have hm:=triple_round answers parses client hasCheckpoint .maskedInput rfl
    (decides_doR2SubmitSecureAggregationResult answers parses hasCheckpoint)
    (triple_unmasking (S := S) answers parses client hasCheckpoint)
  have hshare:=triple_round answers parses client hasCheckpoint .shareKeys rfl
    (decides_exchange answers parses .shareKeys _) hm
  apply (decides_returnIfError client.inputs).bind (fun hl => hl.1)
  intro _ hi
  apply (decides_returnIfError client.started).bind (fun hl => hl.2.1)
  intro _ hs
  apply (decides_exchange answers parses .advertiseKeys _).attempt_bind
  · intro _ w ⟨ha,hw⟩
    apply (hshare w hw).mono
    intro r w' hr
    unfold Answers.LosesRounds
    simp only [hi,hs,ha,true_and]
    exact hr
  · intro e
    apply triple_fail
    rintro w ⟨ha,hw⟩
    exact ⟨fun hl => ha hl.2.2.1,hw.of_code rfl⟩

end Rounds

end Fcp.Client.Http

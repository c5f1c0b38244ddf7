import Fcp.Client.Http.SessionMoves
import Fcp.Lib.Run

/-!
# Runs of the protocol

Beside the session a run keeps what its caller knows: how the most recent checkin or report ended,
and whether a task was assigned and reported.
-/

namespace Fcp.Client.Http

open Program

structure Progress where
  session : Session := {}
  lastFailure : Option Status := none
  accepted : Bool := false
  reported : Bool := false
  permanentError : Bool := false

def Call.isReport : Call → Bool
  | .reportCompleted .. | .reportNotCompleted _ => true
  | _ => false

def Call.isCheckinOrReport : Call → Bool
  | .reportEligibilityEvalError => false
  | _ => true

def failureOf {α : Type} : StatusOr α → Option Status
  | .ok _ => none
  | .error status => some status

def assignsTask : StatusOr Reply → Bool
  | .ok (.checkin (.taskAssignment ..)) => true
  | _ => false

section Step

variable (flags : Flags) (codec : Codec) (p : Progress) (call : Call)

def Progress.after (r : StatusOr Reply) (s : Session) : Progress where
  session := s
  lastFailure := if call.isCheckinOrReport then failureOf r else p.lastFailure
  accepted := p.accepted || assignsTask r
  reported := p.reported || call.isReport
  permanentError := !assignsTask r && (p.permanentError ||
    call.isCheckinOrReport && (failureOf r).any (isPermanentError flags))

def step (event : Call × Environment) : Checked Progress := do
  let (r,w) ← perform flags codec event.2 event.1 ⟨p.session,[],[]⟩
  .ok (p.after flags event.1 r w.session)

def Permitted : Prop := call.isReport=true → p.accepted=true ∧ p.reported=false

instance (p : Progress) (call : Call) : Decidable (Permitted p call) :=
  inferInstanceAs (Decidable (_ → _))

end Step

section Sound

variable {flags : Flags} {codec : Codec} {env : Environment}

def beforeRetryTimes : ObjectState → Bool
  | .initialized | .eligibilityEvalCheckinFailed | .eligibilityEvalCheckinFailedPermanentError =>
    true
  | _ => false

def unused : ObjectState → Bool
  | .multipleTaskAssignmentsAccepted | .multipleTaskAssignmentsFailedPermanentError
  | .multipleTaskAssignmentsNoAvailableTask => true
  | _ => false

def mayHaveTask : ObjectState → Bool
  | .checkinAccepted | .checkinFailedPermanentError => true
  | _ => false

structure Sound (s : Session) : Prop where
  taskInfoMap : s.taskInfoMap=[]
  used : unused s.objectState=false
  retryTimes : beforeRetryTimes s.objectState=false → s.retryTimes.isSome=true
  creator : mayCheckin s.objectState=true → s.taskAssignmentRequestCreator.isSome=true
  idle : mayHaveTask s.objectState=false → s.defaultTaskInfo.state=.initialized
  taskUsed : unused s.defaultTaskInfo.state=false
  taskCreators : s.defaultTaskInfo.state=.checkinAccepted →
    s.taskAssignmentRequestCreator.isSome=true ∧
      s.defaultTaskInfo.aggregationRequestCreator.isSome=true

theorem sound_initial : Sound {} := ⟨rfl,rfl,nofun,nofun,fun _ => rfl,rfl,nofun⟩

variable {s : Session}

theorem retryTimes_of_mayCheckin (hs : Sound s) (h : mayCheckin s.objectState=true) :
    s.retryTimes.isSome=true := by
  apply hs.retryTimes
  cases hstate : s.objectState <;> first | rfl | (rw [hstate] at h; cases h)

theorem idle_of_mayCheckin (hs : Sound s) (h : mayCheckin s.objectState=true) :
    s.defaultTaskInfo.state=.initialized := by
  apply hs.idle
  cases hstate : s.objectState <;> first | rfl | (rw [hstate] at h; cases h)

theorem Sound.of_idle (hm : s.taskInfoMap=[]) (hu : unused s.objectState=false)
    (ht : beforeRetryTimes s.objectState=false → s.retryTimes.isSome=true)
    (hc : mayCheckin s.objectState=true → s.taskAssignmentRequestCreator.isSome=true)
    (hi : s.defaultTaskInfo.state=.initialized) : Sound s where
  taskInfoMap := hm
  used := hu
  retryTimes := ht
  creator := hc
  idle := fun _ => hi
  taskUsed := by rw [hi]; rfl
  taskCreators := fun h => by rw [hi] at h; cases h

theorem Sound.of_report {s' : Session} (hs : Sound s) (hk : Kept s s')
    (ho : s'.objectState=s.objectState)
    (hb : s.defaultTaskInfo.state=.checkinAccepted ∨
      s.defaultTaskInfo.state=.multipleTaskAssignmentsAccepted)
    (hafter : s'.defaultTaskInfo.state=.reportCalled ∨
      s'.defaultTaskInfo.state=.reportFailedPermanentError) : Sound s' where
  taskInfoMap := hk.taskInfoMap.trans hs.taskInfoMap
  used := by rw [ho]; exact hs.used
  retryTimes := by rw [ho,hk.retryTimes]; exact hs.retryTimes
  creator := by rw [ho,hk.taskAssignmentRequestCreator]; exact hs.creator
  idle := by
    intro h
    rw [ho] at h
    have hi:=hs.idle h
    obtain hstate | hstate:=hb
    · cases hstate.symm.trans hi
    · cases hstate.symm.trans hi
  taskUsed := by
    obtain h | h:=hafter
    · rw [h]; rfl
    · rw [h]; rfl
  taskCreators := by
    intro ha
    obtain h | h:=hafter
    · cases h.symm.trans ha
    · cases h.symm.trans ha

theorem Moved.sound {s' : Session} {call : Call} {r : StatusOr Reply}
    (h : Moved flags codec env s call r s') (hs : Sound s) : Sound s' := by
  cases h with
  | @eligibilityEvalFailed st _ hb htasks _ ha =>
    have hi : s'.defaultTaskInfo.state=.initialized := by
      rw [htasks.1]
      exact hs.idle (by rw [hb]; rfl)
    apply Sound.of_idle (htasks.2.trans hs.taskInfoMap) _ _ _ hi
    all_goals
      rw [ha]
      cases isPermanentError flags st
    all_goals first | rfl | nofun
  | @eligibilityEvalAnswered result _ hb htasks _ ha ht hcreator =>
    have hi : s'.defaultTaskInfo.state=.initialized := by
      rw [htasks.1]
      exact hs.idle (by rw [hb]; rfl)
    apply Sound.of_idle (htasks.2.trans hs.taskInfoMap) _ (fun _ => ht) _ hi
    · rw [ha]
      cases isPermanentError flags .okStatus <;> cases result <;> rfl
    · intro hm
      apply hcreator
      rintro rfl
      rw [ha] at hm
      cases hp : isPermanentError flags .okStatus <;> rw [hp] at hm <;> cases hm
  | evalErrorReported hr | otherReported hc => exact hs
  | @checkinFailed _ st _ hb hk ha htask =>
    apply Sound.of_idle (hk.taskInfoMap.trans hs.taskInfoMap)
    · rw [ha]
      cases isPermanentError flags st <;> rfl
    · intro _
      rw [hk.retryTimes]
      exact retryTimes_of_mayCheckin hs hb
    · intro hm
      rw [ha] at hm
      cases hp : isPermanentError flags st <;> rw [hp] at hm <;> cases hm
    · rw [htask]
      exact idle_of_mayCheckin hs hb
  | @checkinAnswered _ result _ hb hk ha htask =>
    have hu : unused s'.objectState=false ∧ mayCheckin s'.objectState=false := by
      rw [ha]
      cases isPermanentError flags .okStatus <;> cases result <;> exact ⟨rfl,rfl⟩
    have ht : s'.retryTimes.isSome=true := by
      rw [hk.retryTimes]
      exact retryTimes_of_mayCheckin hs hb
    cases result with
    | rejection =>
      apply Sound.of_idle (hk.taskInfoMap.trans hs.taskInfoMap) hu.1 (fun _ => ht)
      · rw [hu.2]
        exact nofun
      · exact (show s'.defaultTaskInfo.state=_ from htask).trans (idle_of_mayCheckin hs hb)
    | taskAssignment _ _ _ _ =>
      obtain ⟨hstate,haggregation⟩:=htask
      constructor
      · exact hk.taskInfoMap.trans hs.taskInfoMap
      · exact hu.1
      · exact fun _ => ht
      · rw [hu.2]
        exact nofun
      · intro hi
        rw [ha] at hi
        cases hp : isPermanentError flags .okStatus <;> rw [hp] at hi <;> cases hi
      · rw [hstate]
        rfl
      · intro _
        rw [hk.taskAssignmentRequestCreator]
        exact ⟨hs.creator hb,haggregation⟩
  | assignmentsFailed hb =>
    have hm : mayCheckin s.objectState=true := by obtain h | h:=hb <;> rw [h] <;> rfl
    have ht:=retryTimes_of_mayCheckin hs hm
    have hi:=idle_of_mayCheckin hs hm
    apply Sound.of_idle
    · exact hs.taskInfoMap
    · rfl
    · exact fun _ => ht
    · exact fun _ => hs.creator hm
    · exact hi
  | reported hc hr hb hk ha htask => exact hs.of_report hk ha hb (.inl htask)
  | uploadFailed hb hk ha htask hf => exact hs.of_report hk ha hb (.inr htask)

theorem step_moved {p p' : Progress} {e : Call × Environment} (hs : Sound p.session)
    (h : step flags codec p e=.ok p') : ∃ r,Moved flags codec e.2 p.session e.1 r p'.session ∧
      p'=p.after flags e.1 r p'.session := by
  obtain ⟨⟨r,w⟩,hp,⟨⟩⟩:=bind_eq_ok.mp h
  exact ⟨r,perform_moved flags codec e.2 hs.taskInfoMap hp,rfl⟩

theorem run_sound {hist : List (Progress × (Call × Environment))} {p : Progress}
    (h : Run (step flags codec) {} hist p) : Sound p.session := by
  apply h.reachable.invariant (P := fun p => Sound p.session) sound_initial
  intro p p' e hp hs
  obtain ⟨r,hm,-⟩:=step_moved hp hs
  exact hm.sound hp

end Sound

section Times

variable {flags : Flags} {codec : Codec} {env : Environment}

/-- Only the eligibility eval checkin changes the retry times. -/
theorem Moved.retryTimes {s s' : Session} {call : Call} {r : StatusOr Reply}
    (h : Moved flags codec env s call r s') :
    s'.retryTimes=s.retryTimes ∨ call=.eligibilityEvalCheckin ∧ TimesKept codec env s s' := by
  cases h with
  | eligibilityEvalFailed _ _ hg _ | eligibilityEvalAnswered _ _ hg _ _ _ => exact .inr ⟨rfl,hg⟩
  | evalErrorReported _ | assignmentsFailed _ | otherReported _ => exact .inl rfl
  | checkinFailed _ hk _ _ | checkinAnswered _ hk _ _ => exact .inl hk.retryTimes
  | reported _ _ _ hk _ _ | uploadFailed _ hk _ _ _ => exact .inl hk.retryTimes

/-- The retry times come from the response to an eligibility eval checkin of the run. -/
theorem run_retryTimes {hist : List (Progress × (Call × Environment))} {p : Progress}
    (h : Run (step flags codec) {} hist p) :
    ∀ times,p.session.retryTimes=some times →
      ∃ entry∈hist,entry.2.1=.eligibilityEvalCheckin ∧ GivenTimes codec entry.2.2 times := by
  induction h with
  | nil => exact nofun
  | @snoc hist p p' e hr hs ih =>
    intro times ht
    obtain ⟨r,hm,-⟩:=step_moved (run_sound hr) hs
    have hold : p.session.retryTimes=some times ∨
        e.1=.eligibilityEvalCheckin ∧ GivenTimes codec e.2 times := by
      obtain hk | ⟨hc,hk⟩:=hm.retryTimes
      · exact .inl (hk ▸ ht)
      · exact (hk times ht).imp_right fun hg => ⟨hc,hg⟩
    obtain ho | hn:=hold
    · obtain ⟨entry,he,hg⟩:=ih times ho
      exact ⟨entry,List.mem_append_left _ he,hg⟩
    · exact ⟨(p,e),List.mem_append_right _ (List.mem_singleton_self _),hn⟩

end Times

section Samples

def sampleForwarding : ForwardingInfo := ⟨"https://a",[]⟩

def sampleResource : ByteStreamResource := ⟨sampleForwarding,"r"⟩

def sampleCodec : Codec where
  eligibilityEvalTaskResponse _ := some
    ⟨sampleForwarding,"s",.noEligibilityEvalConfigured,⟨10,20⟩,⟨30,40⟩⟩
  populationEligibilitySpec _ := none
  startTaskAssignmentResponse _ := some (.taskAssignment
    ⟨sampleForwarding,none,"s","a","t","n",.notSet,.notSet,""⟩)
  startAggregationDataUploadResponse _ := some ⟨sampleForwarding,sampleResource,""⟩
  startSecureAggregationResponse _ := some
    ⟨sampleForwarding,sampleResource,sampleResource,""⟩
  parses _ _ := true
  uncompressWithGzip data := .ok data

def sampleEnvironment (request : Request) (code : StatusCode) : Environment where
  created _ := .okStatus
  performed _ := .okStatus
  status r := if r=request then ⟨code,""⟩ else .okStatus
  response _ := ⟨"","",[]⟩
  cached _ := none
  client := ⟨.okStatus,.okStatus,fun _ => .sends⟩
  drawIfRejected := ⟨0,0⟩
  drawIfAccepted := ⟨0,0⟩

def sampleFlags (supportsMultipleTaskAssignments : Bool) : Flags :=
  ⟨supportsMultipleTaskAssignments,[5],60,0,3600,0⟩

def sampleCheckpoint : ComputationResults := [("c",.tfCheckpoint [])]

end Samples

end Fcp.Client.Http

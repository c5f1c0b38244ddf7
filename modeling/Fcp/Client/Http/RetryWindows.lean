import Fcp.Client.Http.ProtocolRuns

/-!
# Which retry window is returned

The window is chosen by the states of the object and of its tasks. They follow what the caller has
seen, except after an upload error that is not permanent and for one of several assigned tasks.
-/

namespace Fcp.Client.Http

open Progress

section Choice

variable {flags : Flags} {codec : Codec}

def FailedPermanently (flags : Flags) (failure : Option Status) : Prop :=
  ∃ status,failure=some status ∧ isPermanentError flags status=true

/-- What is right after the history of a run: the window for permanent errors stands for a permanent
error, and an accepted client waits for a time in the window that the server's response to its
eligibility eval checkin names for accepted clients. -/
structure Faithful (flags : Flags) (codec : Codec)
    (history : List (Progress × (Call × Environment))) (p : Progress) : Prop where
  permanent : latestRetrySource flags p.session=.ok .permanentErrors →
    FailedPermanently flags p.lastFailure
  accepted : p.accepted=true → p.permanentError=false →
    latestRetrySource flags p.session=.ok .ifAccepted ∧
    ∃ times,p.session.retryTimes=some times ∧
      (∃ entry∈history,entry.2.1=.eligibilityEvalCheckin ∧ GivenTimes codec entry.2.2 times) ∧
      ∀ draw,getLatestRetryWindow flags draw p.session =
        .ok (generateRetryWindowFromRetryTime times.retryTimeIfAccepted draw.now)

def UploadsPermanent (flags : Flags) (codec : Codec) (event : Call × Environment) : Prop :=
  ∀ results id,event.1=.reportCompleted results id → ∀ status : Status,
    FailsUpload codec event.2 status → isPermanentError flags status=true

variable {s s' : Session} {state : ObjectState} {call : Call}

theorem getLatestRetryWindow_of_source (src : RetrySource) (h : latestRetrySource flags s=.ok src)
    (ht : s.retryTimes=none → src≠.ifAccepted ∧ src≠.ifRejected) (draw : Draw) :
    ∃ window,getLatestRetryWindow flags draw s=.ok window := by
  rw [getLatestRetryWindow,h]
  cases hretry : s.retryTimes with
  | some times => cases src <;> exact ⟨_,rfl⟩
  | none =>
    obtain ⟨ha,hr⟩:=ht hretry
    cases src with
    | ifAccepted => exact (ha rfl).elim
    | ifRejected => exact (hr rfl).elim
    | transientErrors | permanentErrors => exact ⟨_,rfl⟩

/-- With retry times the switch never fails its check. -/
theorem retrySource_of_times (state : ObjectState) : ∃ src,retrySource state true=.ok src := by
  cases state <;> exact ⟨_,rfl⟩

theorem retrySource_of_before (h : beforeRetryTimes state=true) :
    ∃ src,retrySource state false=.ok src ∧ src≠.ifAccepted ∧ src≠.ifRejected := by
  cases state <;> first | exact ⟨_,rfl,nofun,nofun⟩ | cases h

theorem getLatestRetryWindow_total (hs : Sound s) (draw : Draw) :
    ∃ window,getLatestRetryWindow flags draw s=.ok window := by
  cases hr : s.retryTimes with
  | some times =>
    obtain ⟨src,hsource⟩:=retrySource_of_times (getTheLatestStateFromAllTasks flags s)
    apply getLatestRetryWindow_of_source src _ _ draw
    · rw [latestRetrySource,hr]
      exact hsource
    · rw [hr]
      exact nofun
  | none =>
    have hb : beforeRetryTimes s.objectState=true := by
      cases h : beforeRetryTimes s.objectState with
      | true => rfl
      | false =>
        have hsome:=hs.retryTimes h
        rw [hr] at hsome
        cases hsome
    have hstate : getTheLatestStateFromAllTasks flags s=s.objectState := by
      rw [getTheLatestStateFromAllTasks,if_pos]
      constructor
      · intro h
        rw [h] at hb
        cases hb
      · intro h
        rw [h] at hb
        cases hb
    obtain ⟨src,hsource,hn⟩:=retrySource_of_before hb
    apply getLatestRetryWindow_of_source src _ (fun _ => hn) draw
    rw [latestRetrySource,hstate,hr]
    exact hsource

end Choice

section Tracking

variable {flags : Flags} {codec : Codec}

def permanentErrorState : ObjectState → Bool
  | .eligibilityEvalCheckinFailedPermanentError | .checkinFailedPermanentError
  | .multipleTaskAssignmentsFailedPermanentError | .reportFailedPermanentError => true
  | _ => false

theorem permanentErrorState_of_retrySource {hasInfo : Bool}
    (h : retrySource state hasInfo=.ok .permanentErrors) :
    permanentErrorState state=true := by
  cases hasInfo <;> cases state <;> first | rfl | cases h

structure Tracks (flags : Flags) (p : Progress) : Prop where
  sound : Sound p.session
  unassigned : p.accepted=false → p.session.objectState≠.checkinAccepted ∧
    p.session.defaultTaskInfo.state=.initialized ∧
    (permanentErrorState p.session.objectState=true → FailedPermanently flags p.lastFailure)
  assigned : p.accepted=true → p.session.objectState=.checkinAccepted ∧
    (p.session.defaultTaskInfo.state=.checkinAccepted ∨
      p.session.defaultTaskInfo.state=.reportCalled ∨
      p.session.defaultTaskInfo.state=.reportFailedPermanentError ∧ p.reported=true ∧
        p.permanentError=true ∧ FailedPermanently flags p.lastFailure)

theorem tracks_initial : Tracks flags {} := ⟨sound_initial,fun _ => ⟨nofun,rfl,nofun⟩,nofun⟩

variable {r : StatusOr Reply}

theorem not_assignsTask (hr : ∀ reply,r=.ok reply → reply=.done) : assignsTask r=false := by
  cases r with
  | error st => rfl
  | ok reply =>
    rw [hr reply rfl]
    rfl

variable {p : Progress}

section

variable (h : Tracks flags p)
include h

theorem Tracks.not_accepted (hs : p.session.objectState≠.checkinAccepted) : p.accepted=false := by
  cases ha : p.accepted with
  | false => rfl
  | true => exact (hs (h.assigned ha).1).elim

theorem Tracks.not_accepted_of_mayCheckin
    (hm : mayCheckin p.session.objectState=true) : p.accepted=false := by
  apply h.not_accepted
  intro hs
  rw [hs] at hm
  cases hm

theorem Tracks.after_unassigned
    (hs : Sound s') (hn : p.accepted=false) (hc : call.isCheckinOrReport=true)
    (ha : assignsTask r=false) (ho : s'.objectState≠.checkinAccepted)
    (ht : s'.defaultTaskInfo.state=p.session.defaultTaskInfo.state)
    (hp : permanentErrorState s'.objectState=true →
      ∃ st,r=.error st ∧ isPermanentError flags st=true) :
    Tracks flags (p.after flags call r s') := by
  refine ⟨hs,fun _ => ⟨ho,ht.trans (h.unassigned hn).2.1,fun hstate => ?_⟩,?_⟩
  · obtain ⟨st,rfl,hcode⟩:=hp hstate
    exact ⟨st,if_pos hc,hcode⟩
  · simp [after,hn,ha]

theorem Tracks.step {env : Environment}
    (hok : isPermanentError flags .okStatus=false) (hp : Permitted p call)
    (hu : UploadsPermanent flags codec (call,env))
    (hm : Moved flags codec env p.session call r s') :
    Tracks flags (p.after flags call r s') := by
  have hs : Sound s' := hm.sound h.sound
  cases hm with
  | @eligibilityEvalFailed st _ hb ht _ ha =>
    have hn:=h.not_accepted (by rw [hb]; exact nofun)
    refine h.after_unassigned hs hn rfl rfl ?_ (congrArg PerTaskInfo.state ht.1) ?_
    · rw [ha]
      split <;> exact nofun
    · rw [ha]
      split
      next hcode => exact fun _ => ⟨st,rfl,hcode⟩
      · exact nofun
  | @eligibilityEvalAnswered result _ hb ht _ ha htimes hcreated =>
    have hn:=h.not_accepted (by rw [hb]; exact nofun)
    rw [hok] at ha
    refine h.after_unassigned hs hn rfl rfl ?_ (congrArg PerTaskInfo.state ht.1) ?_
    · rw [ha]
      cases result <;> exact nofun
    · rw [ha]
      cases result <;> exact nofun
  | evalErrorReported hr =>
    have hassigns:=not_assignsTask hr
    refine ⟨hs,?_,?_⟩
    · intro haccepted
      simp only [after,hassigns,Bool.or_false] at haccepted
      exact h.unassigned haccepted
    · intro haccepted
      simp only [after,hassigns,Bool.or_false] at haccepted
      simpa [after,hassigns,Call.isCheckinOrReport,Call.isReport] using h.assigned haccepted
  | @checkinFailed _ st _ hb hk ha htask =>
    have hn:=h.not_accepted_of_mayCheckin hb
    refine h.after_unassigned hs hn rfl rfl ?_ htask ?_
    · rw [ha]
      split <;> exact nofun
    · rw [ha]
      split
      next hcode => exact fun _ => ⟨st,rfl,hcode⟩
      · exact nofun
  | @checkinAnswered _ result _ hb hk ha htask =>
    have hn:=h.not_accepted_of_mayCheckin hb
    rw [hok] at ha
    cases result with
    | rejection =>
      refine h.after_unassigned hs hn rfl rfl ?_ htask ?_
      · rw [ha]
        exact nofun
      · rw [ha]
        exact nofun
    | taskAssignment _ _ _ _ =>
      refine ⟨hs,?_,fun _ => ⟨ha,.inl htask.1⟩⟩
      simp [after,assignsTask]
  | @assignmentsFailed st hb =>
    have hmay : mayCheckin p.session.objectState=true := by
      obtain hstate | hstate:=hb <;> rw [hstate] <;> rfl
    have hn:=h.not_accepted_of_mayCheckin hmay
    exact h.after_unassigned hs hn rfl rfl nofun rfl nofun
  | @otherReported _ st hc =>
    -- the task of the report is not known, and the state of the default task stays
    have hreport : call.isReport=true := by cases hc <;> rfl
    obtain ⟨haccepted,hreported⟩:=hp hreport
    refine ⟨hs,?_,?_⟩
    · simp [after,haccepted]
    · intro _
      obtain ⟨ho,hstate⟩:=h.assigned haccepted
      refine ⟨ho,?_⟩
      obtain hstate | hstate | ⟨-,hreported',-⟩:=hstate
      · exact .inl hstate
      · exact .inr (.inl hstate)
      · cases hreported.symm.trans hreported'
  | reported hc hr hb hk ha htask =>
    have hreport : call.isReport=true := by cases hc <;> rfl
    obtain ⟨haccepted,hreported⟩:=hp hreport
    refine ⟨hs,?_,?_⟩
    · simp [after,haccepted]
    · intro _
      exact ⟨ha.trans (h.assigned haccepted).1,.inr (.inl htask)⟩
  | @uploadFailed rs st _ hb hk ha htask hf =>
    obtain ⟨haccepted,hreported⟩:=hp rfl
    have hperm:=hu rs none rfl st hf
    refine ⟨hs,?_,?_⟩
    · simp [after,haccepted]
    · intro _
      refine ⟨ha.trans (h.assigned haccepted).1,.inr (.inr ⟨htask,?_,?_,st,rfl,hperm⟩)⟩
      · simp [after,Call.isReport]
      · simp [after,assignsTask,Call.isCheckinOrReport,failureOf,hperm]

end

theorem run_tracks {hist : List (Progress × (Call × Environment))}
    (h : Run (step flags codec) {} hist p) (hok : isPermanentError flags .okStatus=false)
    (he : ∀ entry∈hist,Permitted entry.1 entry.2.1 ∧
      UploadsPermanent flags codec entry.2) : Tracks flags p := by
  apply h.invariant (G := fun p e => Permitted p e.1 ∧ UploadsPermanent flags codec e)
    he (P := fun _ p => Tracks flags p) tracks_initial
  intro _ p p' e hp hg hs
  obtain ⟨r,hm,hp'⟩:=step_moved hp.sound hs
  rw [hp']
  exact hp.step hok hg.1 hg.2 hm

theorem latestState_of_assigned (hs : Sound s) (ho : s.objectState=.checkinAccepted)
    (hc : flags.httpProtocolSupportsMultipleTaskAssignments=false ∨
      s.defaultTaskInfo.state=.reportCalled ∨
      s.defaultTaskInfo.state=.reportFailedPermanentError) :
    getTheLatestStateFromAllTasks flags s=s.defaultTaskInfo.state := by
  rw [getTheLatestStateFromAllTasks,if_neg (by simp [ho]),hs.taskInfoMap]
  cases hflag : flags.httpProtocolSupportsMultipleTaskAssignments with
  | false => rfl
  | true =>
    obtain hf | hstate | hstate:=hc
    · cases hflag.symm.trans hf
    · simp [hstate,count]
    · simp [hstate,count]

theorem Tracks.faithful {hist : List (Progress × (Call × Environment))} (h : Tracks flags p)
    (hr : Run (Http.step flags codec) {} hist p)
    (hc : flags.httpProtocolSupportsMultipleTaskAssignments=false ∨
      p.session.defaultTaskInfo.state≠.checkinAccepted) : Faithful flags codec hist p := by
  cases ha : p.accepted with
  | false =>
    obtain ⟨hobject,-,hp⟩:=h.unassigned ha
    have hstate : getTheLatestStateFromAllTasks flags p.session=p.session.objectState := by
      rw [getTheLatestStateFromAllTasks,if_pos]
      refine ⟨hobject,fun hm => ?_⟩
      have hu:=h.sound.used
      rw [hm] at hu
      cases hu
    constructor
    · intro hs
      rw [latestRetrySource,hstate] at hs
      exact hp (permanentErrorState_of_retrySource hs)
    · rw [ha]
      exact nofun
  | true =>
    obtain ⟨hobject,ht⟩:=h.assigned ha
    have hstate : getTheLatestStateFromAllTasks flags p.session =
        p.session.defaultTaskInfo.state := by
      apply latestState_of_assigned h.sound hobject
      obtain hflag | hc:=hc
      · exact .inl hflag
      · obtain ht | ht | ⟨ht,-⟩:=ht
        · exact (hc ht).elim
        · exact .inr (.inl ht)
        · exact .inr (.inr ht)
    have htimes:=h.sound.retryTimes (by rw [hobject]; rfl)
    obtain ⟨times,htimes'⟩:=Option.isSome_iff_exists.mp htimes
    -- a task that has not failed permanently leads to the window of an accepted client
    have hw : p.session.defaultTaskInfo.state=.checkinAccepted ∨
        p.session.defaultTaskInfo.state=.reportCalled →
        latestRetrySource flags p.session=.ok .ifAccepted := by
      intro ho
      rw [latestRetrySource,hstate,htimes]
      obtain ho | ho:=ho <;> rw [ho] <;> rfl
    constructor
    · intro hs
      obtain ht | ht | ⟨-,-,-,hf⟩:=ht
      · rw [hw (.inl ht)] at hs
        cases hs
      · rw [hw (.inr ht)] at hs
        cases hs
      · exact hf
    · intro _ hp
      have ho : p.session.defaultTaskInfo.state=.checkinAccepted ∨
          p.session.defaultTaskInfo.state=.reportCalled := by
        obtain ht | ht | ⟨-,-,he,-⟩:=ht
        · exact .inl ht
        · exact .inr ht
        · rw [hp] at he
          cases he
      refine ⟨hw ho,times,htimes',run_retryTimes hr times htimes',fun draw => ?_⟩
      rw [getLatestRetryWindow,hw ho,htimes']
      rfl

/-- The retry window is always found. It is the right one in a run in which OK does not count as a
permanent error and uploads fail with permanent errors only, unless several tasks are supported and
the assigned one is not reported yet. -/
theorem retry_windows_right {history : List (Progress × (Call × Environment))} {p : Progress}
    (hr : Run (step flags codec) {} history p) :
    (∀ draw,∃ window,getLatestRetryWindow flags draw p.session=.ok window) ∧
    (isPermanentError flags .okStatus=false →
      (∀ entry∈history,Permitted entry.1 entry.2.1 ∧ UploadsPermanent flags codec entry.2) →
      flags.httpProtocolSupportsMultipleTaskAssignments=false ∨
        p.session.defaultTaskInfo.state≠.checkinAccepted →
      Faithful flags codec history p) := by
  constructor
  · intro draw
    exact getLatestRetryWindow_total (run_sound hr) draw
  · intro hok he hc
    exact (run_tracks hr hok he).faithful hr hc

end Tracking

def unavailableReport : List (Call × Environment) :=
  let env := sampleEnvironment .reportTaskResult .unavailable
  [(.eligibilityEvalCheckin,env),(.checkin false,env),(.reportNotCompleted none,env)]

theorem retry_windows_right_unavailable : ∃ history p,
    Run (step (sampleFlags false) sampleCodec) {} history p ∧
      history.map Prod.snd=unavailableReport ∧ p.accepted=true ∧
      p.lastFailure.map Status.code=some .unavailable ∧
      Faithful (sampleFlags false) sampleCodec history p := by
  obtain ⟨history,p,hr,hevents,hp,ha,hf⟩:=exists_recorded
    (step (sampleFlags false) sampleCodec) {} unavailableReport
    (P := fun history p => (∀ entry∈history,Permitted entry.1 entry.2.1) ∧
      p.accepted=true ∧ p.lastFailure.map Status.code=some .unavailable)
    (by decide +kernel)
  refine ⟨history,p,hr,hevents,ha,hf,?_⟩
  apply (retry_windows_right hr).2 (by decide) _ (.inl rfl)
  intro entry he
  refine ⟨hp entry he,fun results id hc => ?_⟩
  -- no event of this run is a report of a completed task
  have hm : entry.2∈unavailableReport := by
    rw [← hevents]
    exact List.mem_map_of_mem he
  simp only [unavailableReport,List.mem_cons,List.not_mem_nil,or_false] at hm
  obtain h | h | h:=hm <;> rw [h] at hc <;> cases hc

def unavailableUpload : List (Call × Environment) :=
  let env := sampleEnvironment .dataUpload .unavailable
  [(.eligibilityEvalCheckin,env),(.checkin false,env),(.reportCompleted sampleCheckpoint none,env)]

/-- An upload that fails with a transient error leads to the window for permanent errors, and with
several tasks an assigned one leads to the window for rejected clients until it is reported. -/
theorem retry_window_of_other_outcome :
    (∃ history p,Run (step (sampleFlags false) sampleCodec) {} history p ∧
      history.map Prod.snd=unavailableUpload ∧
      (∀ entry∈history,Permitted entry.1 entry.2.1) ∧
      latestRetrySource (sampleFlags false) p.session=.ok .permanentErrors ∧
      p.lastFailure.map Status.code=some .unavailable ∧
      ¬ Faithful (sampleFlags false) sampleCodec history p) ∧
    ∃ history p,Run (step (sampleFlags true) sampleCodec) {} history p ∧
      history.map Prod.snd=unavailableUpload.take 2 ∧
      (∀ entry∈history,Permitted entry.1 entry.2.1) ∧
      p.accepted=true ∧ p.permanentError=false ∧
      latestRetrySource (sampleFlags true) p.session=.ok .ifRejected ∧
      ¬ Faithful (sampleFlags true) sampleCodec history p := by
  constructor
  · obtain ⟨history,p,hr,he,hperm,hs,hf⟩:=exists_recorded
      (step (sampleFlags false) sampleCodec) {} unavailableUpload
      (P := fun history p => (∀ entry∈history,Permitted entry.1 entry.2.1) ∧
        latestRetrySource (sampleFlags false) p.session=.ok .permanentErrors ∧
        p.lastFailure.map Status.code=some .unavailable) (by decide +kernel)
    refine ⟨history,p,hr,he,hperm,hs,hf,fun hfaithful => ?_⟩
    obtain ⟨status,hstatus,hp⟩:=hfaithful.permanent hs
    rw [hstatus] at hf
    rw [isPermanentError,Option.some.inj hf] at hp
    exact absurd hp (by decide)
  · obtain ⟨history,p,hr,he,hperm,haccepted,hp,hs⟩:=exists_recorded
      (step (sampleFlags true) sampleCodec) {} (unavailableUpload.take 2)
      (P := fun history p => (∀ entry∈history,Permitted entry.1 entry.2.1) ∧
        p.accepted=true ∧ p.permanentError=false ∧
        latestRetrySource (sampleFlags true) p.session=.ok .ifRejected) (by decide +kernel)
    refine ⟨history,p,hr,he,hperm,haccepted,hp,hs,fun hfaithful => ?_⟩
    have ha:=(hfaithful.accepted haccepted hp).1
    cases hs.symm.trans ha

end Fcp.Client.Http

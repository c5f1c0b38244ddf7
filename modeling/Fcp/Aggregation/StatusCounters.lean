import Fcp.Aggregation.ClosedClients

/-!
# The status counters and the checks of the client states

Every call of `SetClientState` and `SetProtocolState` passes its checks, so the counters are exact.
-/

namespace Fcp.Aggregation.Protocol

variable {V : Type} {env : ProtocolEnv V} {s s' : Protocol V} {c : ℕ}

theorem setClientState_isOk {old new : ClientState}
    (hf : s.clientStates[c]?=some old) (hm : mayChange old new=true) :
    ∃ s',s.setClientState c new=.ok s' := by
  unfold setClientState
  rw [hf]
  cases old <;> cases new <;> first | exact ⟨_,rfl⟩ | cases hm

variable {closing : ClientState → Option ClientState}

theorem closeClients_isOk (hc : ∀ state new,closing state=some new → mayChange state new=true)
    (clients : List ℕ) (s : Protocol V) : ∃ s',closeClients closing clients s=.ok s' := by
  induction clients generalizing s with
  | nil => exact ⟨s,rfl⟩
  | cons c rest ih =>
    unfold closeClients
    cases hs : s.clientStates[c]?.bind closing with
    | none => exact ih s
    | some new =>
      obtain ⟨old,hf,hto⟩:=Option.bind_eq_some_iff.mp hs
      obtain ⟨s₁,hset⟩:=setClientState_isOk hf (hc old new hto)
      obtain ⟨s',hr⟩:=ih s₁
      refine ⟨s',?_⟩
      dsimp only
      rw [hset]
      exact hr

variable {state new : ClientState}

theorem closingOfComplete_mayChange (h : closingOfComplete state=some new) :
    mayChange state new=true := by
  cases state <;> cases h <;> rfl

theorem closingOfAbort_mayChange (h : closingOfAbort state=some new) :
    mayChange state new=true := by
  cases state <;> cases h <;> rfl

structure Settled (s : Protocol V) : Prop where
  outcomes : ∀ client message status state,
    s.calls client=some ⟨message,.aggregated status state⟩ → isOpen state=false
  ended : s.protocolState=.completed ∨ s.protocolState=.aborted →
    ∀ state∈s.clientStates,isOpen state=false

variable {e : Event}

theorem Settled.move (h : Settled s) (hm : Move env s e s') : Settled s' := by
  refine ⟨fun c msg st state hcall => ?_,?_⟩
  · obtain hold | ⟨_,ha⟩:=hm.outcome hcall
    · exact h.outcomes c msg st state hold
    · cases ha with
      | unreadable => rfl
      | aggregated => split <;> rfl
  -- a client that is still open can be changed only before the end
  have hchanged {old new : ClientState} {c : ℕ} {s₁ : Protocol V}
      (hset : s.setClientState c new=.ok s₁)
      (hf : s.clientStates[c]?=some old) (ho : isOpen old=true) :
      ¬(s₁.protocolState=.completed ∨ s₁.protocolState=.aborted) := by
    intro he
    obtain ⟨-,-,-,-,hs,-⟩:=setClientState_eq_ok hset
    rw [hs.protocolState] at he
    have hclose:=h.ended he old (List.mem_of_getElem? hf)
    cases ho.symm.trans hclose
  cases hm with
  | unchanged | aggregate | recordLate | callback => exact h.ended
  | start => exact nofun
  | addClients hstarted => simp [hstarted]
  | mark _ hf _ hset | close _ hf _ hset | record _ hf hset =>
    have ho:=hchanged hset hf rfl
    exact fun he => absurd he ho
  | reportFails _ hr =>
    obtain ⟨rs,finished,rfl⟩:=createReport_eq_ok hr
    exact h.ended
  | complete _ hr hc => exact fun _ => (closesAll_complete hr hc).isOpen_eq_false
  | abort _ hc => exact fun _ => (closesAll_abort hc).isOpen_eq_false

theorem settled (h : Reachable (step env) (create env) s) : Settled s :=
  h.invariant ⟨nofun,nofun⟩ fun _ _ _ hs hstep => hs.move (step_move hstep)

def AggregationFails (env : ProtocolEnv V) (s : Protocol V) : Event → Prop
  | .aggregate client => ∃ message tensorMap fault,s.calls client=some ⟨message,.marked⟩ ∧
      readInput env client message=.ok tensorMap ∧
      aggregateClientInput env s tensorMap=.error fault
  | .complete => ∃ fault,s.createReport env=.error fault
  | _ => False

theorem start_isOk (h : Consistent s) (n : ℤ) : ∃ r,s.start n=.ok r := by
  unfold start
  split
  · exact ⟨_,rfl⟩
  · split
    · exact ⟨_,rfl⟩
    next hcheck =>
      have hc:=checkProtocolState_eq_ok hcheck
      simp only [setProtocolState,hc,(h.created hc).1,true_and,reduceCtorEq,
        false_and,or_false,decide_true,fcpCheck_true,List.isEmpty_nil,ok_bind,pure_bind]
      split <;> exact ⟨_,rfl⟩

theorem receiveClientMessage_isOk (s : Protocol V) (id : ℤ) (msg : ClientMessage) :
    ∃ r,s.receiveClientMessage id msg=.ok r := by
  unfold receiveClientMessage
  split
  · exact ⟨_,rfl⟩
  · exact ⟨_,rfl⟩
  · split
    · exact ⟨_,rfl⟩
    · split
      · exact ⟨_,rfl⟩
      next hg =>
        split
        · exact ⟨_,rfl⟩
        next hp =>
          rw [not_not.mp hp] at hg
          obtain ⟨s₁,hs⟩:=setClientState_isOk (getClientState_eq_ok hg).1
            (show mayChange .pending .receivedInputAndPending=true from rfl)
          exact ⟨_,by rw [hs]; rfl⟩

theorem closeClient_isOk (s : Protocol V) (id : ℤ) (clientStatus : Status) :
    ∃ r,s.closeClient id clientStatus=.ok r := by
  unfold closeClient
  split
  · exact ⟨_,rfl⟩
  · split
    · exact ⟨_,rfl⟩
    next hg =>
      split
      next hp =>
        rw [hp] at hg
        obtain ⟨s₁,hs⟩:=setClientState_isOk (getClientState_eq_ok hg).1
          (show mayChange .pending (if clientStatus.code=.ok then .discarded else .failed)=true
            by split <;> rfl)
        exact ⟨_,by rw [hs]; rfl⟩
      · exact ⟨_,rfl⟩

theorem record_isOk (h : Settled s) (c : ℕ) : ∃ s',s.record c=.ok s' := by
  unfold record
  split
  next message status state hcall =>
    have hc:=h.outcomes c message status state hcall
    dsimp only
    split
    next hr =>
      have hm : mayChange .receivedInputAndPending state=true := by
        revert hc
        cases state <;> decide
      obtain ⟨s₁,hs⟩:=setClientState_isOk hr hm
      exact ⟨_,by rw [hs]; rfl⟩
    · exact ⟨_,rfl⟩
  · exact ⟨_,rfl⟩

theorem abort_isOk (s : Protocol V) : ∃ r,s.abort=.ok r := by
  unfold abort
  split
  · exact ⟨_,rfl⟩
  next hc =>
    have hs:=checkProtocolState_eq_ok hc
    simp only [setProtocolState,hs,reduceCtorEq,false_and,true_and,or_true,decide_true,
      fcpCheck_true,ok_bind,pure_bind]
    obtain ⟨s₁,hclose⟩:=closeClients_isOk (fun _ _ => closingOfAbort_mayChange)
      (List.range s.clientStates.length)
      { s with
        aggregationFinished := true
        protocolState := .aborted }
    exact ⟨_,by rw [hclose]; rfl⟩

theorem complete_isOk (env : ProtocolEnv V) (s : Protocol V) :
    (∃ r,s.complete env=.ok r) ∨ ∃ fault,s.createReport env=.error fault := by
  cases hr : s.createReport env with
  | error fault => exact .inr ⟨fault,rfl⟩
  | ok r =>
    refine .inl ?_
    obtain ⟨s₁,rep⟩:=r
    unfold complete
    split
    · exact ⟨_,rfl⟩
    next hc =>
      have hs:=checkProtocolState_eq_ok hc
      rw [hr]
      cases rep with
      | error st => exact ⟨_,rfl⟩
      | ok result =>
        obtain ⟨rs,finished,rfl⟩:=createReport_eq_ok hr
        simp only [setProtocolState,hs,reduceCtorEq,false_and,true_and,false_or,
          true_or,decide_true,fcpCheck_true,ok_bind,pure_bind]
        obtain ⟨s₂,hclose⟩:=closeClients_isOk (fun _ _ => closingOfComplete_mayChange)
          (List.range s.clientStates.length)
          { s with
            results := rs
            aggregationFinished := finished
            protocolState := .completed }
        exact ⟨_,by rw [hclose]; rfl⟩

theorem aggregate_isOk (s : Protocol V) (c : ℕ) :
    (∃ s',s.aggregate env c=.ok s') ∨ AggregationFails env s (.aggregate c) := by
  unfold aggregate
  split
  next msg hc =>
    cases hr : readInput env c msg with
    | error st => exact .inl ⟨_,rfl⟩
    | ok tensorMap =>
      cases ha : aggregateClientInput env s tensorMap with
      | error fault => exact .inr ⟨msg,tensorMap,fault,hc,hr,ha⟩
      | ok r =>
        simp only [ha,ok_bind]
        exact .inl ⟨_,rfl⟩
  · exact .inl ⟨_,rfl⟩

/-- No check of `SetClientState` or `SetProtocolState` fails: a step that has no successor has
been ended by the aggregation core. -/
theorem step_isOk (h : Reachable (step env) (create env) s) (e : Event) :
    (∃ s',s.step env e=.ok s') ∨ AggregationFails env s e := by
  cases e with
  | addClients _ | makeCallback _ => exact .inl ⟨_,rfl⟩
  | aggregate c => exact aggregate_isOk s c
  | record c => exact .inl (record_isOk (settled h) c)
  | start n =>
    obtain ⟨r,hr⟩:=start_isOk (consistent h) n
    exact .inl ⟨r.1,by simp only [step,hr]; rfl⟩
  | receiveClientMessage id msg =>
    obtain ⟨r,hr⟩:=receiveClientMessage_isOk s id msg
    exact .inl ⟨r.1,by simp only [step,hr]; rfl⟩
  | closeClient id clientStatus =>
    obtain ⟨r,hr⟩:=closeClient_isOk s id clientStatus
    exact .inl ⟨r.1,by simp only [step,hr]; rfl⟩
  | abort =>
    obtain ⟨r,hr⟩:=abort_isOk s
    exact .inl ⟨r.1,by simp only [step,hr]; rfl⟩
  | complete =>
    obtain ⟨r,hr⟩ | hf:=complete_isOk env s
    · exact .inl ⟨r.1,by simp only [step,hr]; rfl⟩
    · exact .inr hf

def isFinal (state : ClientState) : Bool :=
  decide (state=.failed ∨ state=.aborted ∨ state=.discarded)

theorem mayChange_final (h : isFinal state=true) : mayChange state new=false := by
  cases state <;> first | rfl | cases h

theorem setClientState_keeps {other : ℕ} (hset : s.setClientState c new=.ok s')
    (hfin : isFinal state=true) (hs : s.clientStates[other]?=some state) :
    s'.clientStates[other]?=some state := by
  obtain ⟨old,hf,hm,hstate,-,-⟩:=setClientState_eq_ok hset
  rw [hstate]
  by_cases ho : c=other
  · subst ho
    cases hs.symm.trans hf
    rw [mayChange_final hfin] at hm
    cases hm
  · rw [List.getElem?_set_ne ho,hs]

theorem ClosesAll.keeps {closedStatus : Status}
    {last : List Callback} (h : ClosesAll s s' closing closedStatus last)
    (hf : isFinal state=true) (hs : s.clientStates[c]?=some state) :
    s'.clientStates[c]?=some state := by
  rw [h.getElem?,hs,Option.map_some]
  cases hto : closing state with
  | none => rfl
  | some new =>
    have hm:=(h.mayChange state new hto).1
    rw [mayChange_final hf] at hm
    cases hm

theorem Move.keeps (hm : Move env s e s') (hf : isFinal state=true)
    (hs : s.clientStates[c]?=some state) : s'.clientStates[c]?=some state := by
  cases hm with
  | unchanged | aggregate | recordLate | callback => exact hs
  | start _ he =>
    rw [he] at hs
    cases hs
  | addClients => exact (List.getElem?_append_left (List.getElem?_eq_some_iff.mp hs).1).trans hs
  | mark _ _ _ hset | record _ _ hset | close _ _ _ hset =>
    have hk:=setClientState_keeps hset hf hs
    exact hk
  | reportFails _ hr =>
    obtain ⟨rs,finished,rfl⟩:=createReport_eq_ok hr
    exact hs
  | complete _ hr hc => exact (closesAll_complete hr hc).keeps hf hs
  | abort _ hc => exact (closesAll_abort hc).keeps hf hs

theorem Move.ended (hm : Move env s e s')
    (he : s.protocolState=.completed ∨ s.protocolState=.aborted) :
    s'.protocolState=.completed ∨ s'.protocolState=.aborted := by
  obtain hs | ⟨hc,-⟩ | ⟨hstarted,-⟩:=hm.protocolState
  · rwa [hs]
  · simp [hc] at he
  · simp [hstarted] at he

theorem length_eq_counts (states : List ClientState) :
    states.length=states.count .pending+states.count .receivedInputAndPending +
      states.count .completed+states.count .failed+states.count .aborted +
      states.count .discarded := by
  induction states with
  | nil => rfl
  | cons state states ih =>
    cases state <;> simp [ih] <;> omega

theorem getStatus_pending (h : CountersExact s) :
    s.getStatus.numClientsPending=s.clientStates.count .pending := by
  have hl:=length_eq_counts s.clientStates
  simp only [getStatus,h.received,h.aggregated,h.failed,h.aborted,h.discarded]
  omega

theorem isOpen_eq_false (h : isOpen state=false) :
    state≠.pending ∧ state≠.receivedInputAndPending := by
  simpa [isOpen] using h

theorem ended_of_step {s₁ : Protocol V} (he : e=.complete ∨ e=.abort)
    (hs : s.step env e=.ok s₁) (hchanged : s₁.protocolState≠s.protocolState) :
    s₁.protocolState=.completed ∨ s₁.protocolState=.aborted := by
  have hm:=step_move hs
  cases hm with
  | unchanged => exact absurd rfl hchanged
  | reportFails _ hr =>
    obtain ⟨rs,finished,rfl⟩:=createReport_eq_ok hr
    exact absurd rfl hchanged
  | complete _ _ hc => exact .inl (closeAll_eq_ok hc rfl).1.protocolState
  | abort _ hc => exact .inr (closeAll_eq_ok hc rfl).1.protocolState
  | _ => simp at he

theorem status_of_run (h : Reachable (step env) (create env) s) : CountersExact s ∧
    (0 ≤ s.getStatus.numClientsPending ∧
      s.getStatus.numClientsCompleted+s.getStatus.numClientsFailed +
        s.getStatus.numClientsPending+s.getStatus.numClientsAborted=s.clientStates.length) ∧
    (∀ e,(∃ s',s.step env e=.ok s') ∨ AggregationFails env s e) ∧
    (∀ (c : ℕ) (state : ClientState) s',s.clientStates[c]?=some state →
      state=.failed ∨ state=.aborted ∨ state=.discarded →
      Reachable (step env) s s' → s'.clientStates[c]?=some state) ∧
    ∀ e s₁ s',e=.complete ∨ e=.abort → s.step env e=.ok s₁ →
      s₁.protocolState≠s.protocolState → Reachable (step env) s₁ s' →
      ∀ state∈s'.clientStates,state≠.pending ∧ state≠.receivedInputAndPending := by
  have hc:=(consistent h).counters
  refine ⟨hc,⟨?_,?_⟩,step_isOk h,?_,?_⟩
  · rw [getStatus_pending hc]
    exact Int.natCast_nonneg _
  · simp only [getStatus]
    omega
  · intro c state s' hstate hf hr
    exact hr.invariant (P := fun s' => s'.clientStates[c]?=some state) hstate
      fun _ _ _ hk hstep => (step_move hstep).keeps (decide_eq_true hf) hk
  · intro e s₁ s' he hstep hchanged hr state hm
    have hended:=hr.invariant
      (P := fun s' => s'.protocolState=.completed ∨ s'.protocolState=.aborted)
      (ended_of_step he hstep hchanged) fun _ _ _ hend hs => (step_move hs).ended hend
    have hset:=hr.invariant ((settled h).move (step_move hstep))
      fun _ _ _ hs hstep => hs.move (step_move hstep)
    exact isOpen_eq_false (hset.ended hended state hm)

/-- One client has been aggregated, one has failed, the message of a third is being processed and
a fourth has sent nothing; `Complete` then closes the last two. -/
theorem status_of_run_four : ∃ s s₁ : Protocol ℕ,
      s.clientStates=[.completed,.failed,.receivedInputAndPending,.pending] ∧
      s.getStatus=⟨2,1,1,1,1,0,0⟩ ∧ 0 ≤ s.getStatus.numClientsPending ∧
      s.step sumEnv .complete=.ok s₁ ∧
      ∀ state∈s₁.clientStates,state≠.pending ∧ state≠.receivedInputAndPending := by
  obtain ⟨history,s,hr,hs,hstates,hstatus,s₁,hstep,hc⟩:=exists_run (step sumEnv) (create sumEnv)
    [.start 3,.receiveClientMessage 0 (.inlineBytes [2,3]),.aggregate 0,.record 0,
      .addClients 1,.closeClient 1 ⟨.aborted,""⟩,.receiveClientMessage 2 (.inlineBytes [7])]
    (P := fun s => s.protocolState=.started ∧
      s.clientStates=[.completed,.failed,.receivedInputAndPending,.pending] ∧
      s.getStatus=⟨2,1,1,1,1,0,0⟩ ∧
      ∃ s₁,s.step sumEnv .complete=.ok s₁ ∧ s₁.protocolState=.completed) (by decide +kernel)
  obtain ⟨-,⟨hp,-⟩,-,-,he⟩:=status_of_run hr.reachable
  refine ⟨s,s₁,hstates,hstatus,hp,hstep,?_⟩
  exact he .complete s₁ s₁ (.inl rfl) hstep (by rw [hc,hs]; nofun) .init

end Fcp.Aggregation.Protocol

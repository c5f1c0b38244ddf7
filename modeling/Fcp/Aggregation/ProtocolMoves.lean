import Fcp.Aggregation.SimpleAggregationProtocol

/-!
# What an atomic step does to the protocol

`Move` lists the effects of the steps. The changes of single clients are kept as calls of
`setClientState`, about which one lemma says everything.
-/

namespace Fcp.Aggregation.Protocol

open List

variable {V : Type} {env : ProtocolEnv V} {s s' : Protocol V}

structure SameRest (s s' : Protocol V) : Prop where
  protocolState : s'.protocolState=s.protocolState
  aggregationFinished : s'.aggregationFinished=s.aggregationFinished
  results : s'.results=s.results
  calls : s'.calls=s.calls
  owed : s'.owed=s.owed
  callbacks : s'.callbacks=s.callbacks

theorem SameRest.refl (s : Protocol V) : SameRest s s := ⟨rfl,rfl,rfl,rfl,rfl,rfl⟩

theorem SameRest.trans {s₁ s₂ s₃ : Protocol V} (h : SameRest s₁ s₂) (h' : SameRest s₂ s₃) :
    SameRest s₁ s₃ where
  protocolState := h'.protocolState.trans h.protocolState
  aggregationFinished := h'.aggregationFinished.trans h.aggregationFinished
  results := h'.results.trans h.results
  calls := h'.calls.trans h.calls
  owed := h'.owed.trans h.owed
  callbacks := h'.callbacks.trans h.callbacks

structure CountersExact (s : Protocol V) : Prop where
  received : s.numClientsReceivedAndPending=s.clientStates.count .receivedInputAndPending
  aggregated : s.numClientsAggregated=s.clientStates.count .completed
  failed : s.numClientsFailed=s.clientStates.count .failed
  aborted : s.numClientsAborted=s.clientStates.count .aborted
  discarded : s.numClientsDiscarded=s.clientStates.count .discarded

def mayChange : ClientState → ClientState → Bool
  | .pending, toState => decide (toState≠.pending)
  | .receivedInputAndPending, toState =>
    decide (toState≠.pending ∧ toState≠.receivedInputAndPending)
  | .completed, toState => decide (toState=.discarded)
  | _, _ => false

variable {c : ℕ}

theorem count_set {states : List ClientState} {old : ClientState}
    (hf : states[c]?=some old) (new state : ClientState) :
    (states.set c new).count state+(if old=state then 1 else 0) =
      states.count state + if new=state then 1 else 0 := by
  obtain ⟨hlt,rfl⟩:=List.getElem?_eq_some_iff.mp hf
  have hp : states[c]=state → 0<states.count state := fun h =>
    count_pos_iff.mpr (h ▸ getElem_mem hlt)
  rw [List.count_set hlt]
  simp only [beq_iff_eq]
  split
  · have := hp ‹_›
    omega
  · omega

theorem setClientState_eq_ok {new : ClientState} (h : s.setClientState c new=.ok s') :
    ∃ old,s.clientStates[c]?=some old ∧ mayChange old new=true ∧
      s'.clientStates=s.clientStates.set c new ∧ SameRest s s' ∧
      (CountersExact s → CountersExact s') := by
  unfold setClientState at h
  cases hfrom : s.clientStates[c]? with
  | none =>
    rw [hfrom] at h
    cases h
  | some old =>
    rw [hfrom] at h
    have hc:=count_set hfrom new
    refine ⟨old,rfl,?_⟩
    cases old <;> cases new <;>
      simp only [leaveClientState,enterClientState,ne_eq,reduceCtorEq,not_false_eq_true,
        not_true_eq_false,decide_true,decide_false,fcpCheck_true,fcpCheck_false,ok_bind,
        error_bind,pure_bind,Except.ok.injEq] at h <;> try cases h
    all_goals
      refine ⟨rfl,rfl,⟨rfl,rfl,rfl,rfl,rfl,rfl⟩,fun he => ?_⟩
      obtain ⟨hr,haggregated,hf,ha,hd⟩:=he
      have h1:=hc .receivedInputAndPending
      have h2:=hc .completed
      have h3:=hc .failed
      have h4:=hc .aborted
      have h5:=hc .discarded
      simp only [reduceCtorEq,if_true,if_false] at h1 h2 h3 h4 h5
      constructor <;> dsimp only <;> omega

theorem closeClients_eq_ok {closing : ClientState → Option ClientState} {clients : List ℕ}
    (hn : clients.Nodup) (h : closeClients closing clients s=.ok s') :
    SameRest s s' ∧ (CountersExact s → CountersExact s') ∧ ∀ c,s'.clientStates[c]? =
        if c∈clients then s.clientStates[c]?.map fun state => (closing state).getD state
        else s.clientStates[c]? := by
  induction clients generalizing s with
  | nil =>
    cases h
    exact ⟨.refl _,id,fun _ => rfl⟩
  | cons first rest ih =>
    obtain ⟨hfirst,hr⟩:=nodup_cons.mp hn
    unfold closeClients at h
    cases hclosing : s.clientStates[first]?.bind closing with
    | none =>
      rw [hclosing] at h
      obtain ⟨hs,hcounters,hstates⟩:=ih hr h
      refine ⟨hs,hcounters,fun c => ?_⟩
      rw [hstates]
      by_cases hc : c=first
      · subst hc
        rw [if_neg hfirst,if_pos mem_cons_self]
        cases hstate : s.clientStates[c]? with
        | none => rfl
        | some state =>
          rw [hstate,Option.bind_some] at hclosing
          rw [Option.map_some,hclosing,Option.getD_none]
      · simp [hc]
    | some new =>
      rw [hclosing] at h
      obtain ⟨s₁,hset,h⟩:=bind_eq_ok.mp h
      obtain ⟨old,hf,-,hset,hs₁,hc₁⟩:=setClientState_eq_ok hset
      obtain ⟨hs,hcounters,hstates⟩:=ih hr h
      refine ⟨hs₁.trans hs,hcounters ∘ hc₁,fun c => ?_⟩
      rw [hstates,hset]
      by_cases hc : c=first
      · subst hc
        rw [hf,Option.bind_some] at hclosing
        rw [if_neg hfirst,if_pos mem_cons_self,hf,Option.map_some,hclosing,
          getElem?_set_self (List.getElem?_eq_some_iff.mp hf).1,Option.getD_some]
      · rw [getElem?_set_ne (Ne.symm hc)]
        simp [hc]

theorem closeAll_eq_ok {closing : ClientState → Option ClientState} {n : ℕ}
    (h : closeClients closing (List.range n) s=.ok s') (hn : s.clientStates.length=n) :
    SameRest s s' ∧ (CountersExact s → CountersExact s') ∧
      s'.clientStates=s.clientStates.map fun state => (closing state).getD state := by
  obtain ⟨hs,hc,hstates⟩:=closeClients_eq_ok nodup_range h
  refine ⟨hs,hc,ext_getElem? fun c => ?_⟩
  rw [hstates,getElem?_map]
  split
  · rfl
  next ho =>
    rw [mem_range] at ho
    rw [getElem?_eq_none (by omega),Option.map_none]

def isOpen (state : ClientState) : Bool := decide (state=.pending ∨ state=.receivedInputAndPending)

theorem mem_openClients : c∈s.openClients ↔
      ∃ state,s.clientStates[c]?=some state ∧ isOpen state=true := by
  unfold openClients
  rw [mem_filter,mem_range,decide_eq_true_iff]
  constructor
  · rintro ⟨-,hp | hr⟩
    · exact ⟨_,hp,rfl⟩
    · exact ⟨_,hr,rfl⟩
  · rintro ⟨state,hs,ho⟩
    rw [hs,Option.some.injEq,Option.some.injEq]
    exact ⟨(List.getElem?_eq_some_iff.mp hs).1,of_decide_eq_true ho⟩

structure ClosesAll (s s' : Protocol V) (closing : ClientState → Option ClientState)
    (closedStatus : Status) (last : List Callback) : Prop where
  closed : ∀ state,isOpen ((closing state).getD state)=false
  mayChange : ∀ state toState,closing state=some toState →
    mayChange state toState=true ∧ toState≠.completed
  ended : s'.protocolState=.completed ∨ s'.protocolState=.aborted
  clientStates : s'.clientStates=s.clientStates.map fun state => (closing state).getD state
  counters : CountersExact s → CountersExact s'
  calls : s'.calls=s.calls
  callbacks : s'.callbacks=s.callbacks
  owed : s'.owed=s.owed++[s.openClients.map (Callback.onCloseClient · closedStatus)++last]
  last : ∀ callback∈last,∃ result,callback=.onComplete result

section ClosesAll

variable {closing : ClientState → Option ClientState} {closedStatus : Status}
  {last : List Callback} (h : ClosesAll s s' closing closedStatus last)

include h

theorem ClosesAll.getElem? (c : ℕ) : s'.clientStates[c]? =
      s.clientStates[c]?.map fun state => (closing state).getD state := by
  rw [h.clientStates,getElem?_map]

theorem ClosesAll.isOpen_eq_false (state : ClientState) (hm : state∈s'.clientStates) :
    isOpen state=false := by
  rw [h.clientStates] at hm
  obtain ⟨old,-,rfl⟩:=mem_map.mp hm
  exact h.closed old

theorem ClosesAll.completed {state : ClientState}
    (hc : (closing state).getD state=.completed) : state=.completed := by
  cases hto : closing state with
  | none => rwa [hto] at hc
  | some new =>
    rw [hto] at hc
    exact absurd hc (h.mayChange state new hto).2

end ClosesAll

theorem CountersExact.rest (h : CountersExact s) (protocolState : ProtocolState) (finished : Bool)
    (rs : List (ResultTensor V)) (calls : ℕ → Option Call) (owed : List (List Callback))
    (callbacks : List Callback) :
    CountersExact { s with
      protocolState := protocolState
      aggregationFinished := finished
      results := rs
      calls := calls
      owed := owed
      callbacks := callbacks } :=
  ⟨h.received,h.aggregated,h.failed,h.aborted,h.discarded⟩

theorem calls_update {calls : ℕ → Option Call} {other : ℕ} {call call' : Call}
    (h : Function.update calls c (some call) other=some call') :
    other=c ∧ call=call' ∨ other≠c ∧ calls other=some call' := by
  by_cases ho : other=c
  · subst ho
    rw [Function.update_self] at h
    exact .inl ⟨rfl,Option.some.inj h⟩
  · rw [Function.update_of_ne ho] at h
    exact .inr ⟨ho,h⟩

variable {id : ℤ} {state : ClientState} {n : ℤ} {msg : ClientMessage}

theorem getClientState_eq_ok (h : s.getClientState id=.ok state) :
    s.clientStates[id.toNat]?=some state ∧ 0 ≤ id := by
  unfold getClientState at h
  simp only at h
  split at h
  · cases h
  · split at h
    · cases h
    · cases h
      exact ⟨by assumption,by omega⟩

/-- What the second section of `ReceiveClientMessage` finds: the input cannot be read, or the
aggregators have been called. -/
inductive Aggregates (env : ProtocolEnv V) (s : Protocol V) (client : ℕ) (message : ClientMessage) :
    Status → ClientState → List (ResultTensor V) → Prop
  | unreadable {status : Status} (hread : readInput env client message=.error status) :
      Aggregates env s client message status .failed s.results
  | aggregated {tensorMap : TensorMap V} {status : Status} {results : List (ResultTensor V)}
      (hread : readInput env client message=.ok tensorMap)
      (hcall : aggregateClientInput env s tensorMap=.ok (status,results)) :
      Aggregates env s client message status
        (if status.code=.ok then .completed else .discarded) results

inductive Move (env : ProtocolEnv V) (s : Protocol V) : Event → Protocol V → Prop
  | unchanged {event : Event} : Move env s event s
  | start {numClients : ℤ} (hcreated : s.protocolState=.created) (hempty : s.clientStates=[])
      (hpos : 0≤numClients) :
      Move env s (.start numClients)
        { s with
          protocolState := .started
          clientStates := List.replicate numClients.toNat .pending
          owed := s.owed ++
            if numClients>0 then [[.onAcceptClients 0 numClients.toNat]] else [] }
  | addClients {numClients : ℤ} (hstarted : s.protocolState=.started) (hpos : 0<numClients) :
      Move env s (.addClients numClients)
        { s with
          clientStates := s.clientStates++List.replicate numClients.toNat .pending
          owed := s.owed++[[.onAcceptClients s.clientStates.length numClients.toNat]] }
  | mark {clientId : ℤ} {message : ClientMessage} {s₁ : Protocol V}
      (hrunning : s.protocolState≠.created)
      (hpending : s.clientStates[clientId.toNat]?=some .pending) (hid : 0≤clientId)
      (hset : s.setClientState clientId.toNat .receivedInputAndPending=.ok s₁) :
      Move env s (.receiveClientMessage clientId message)
        { s₁ with calls := Function.update s₁.calls clientId.toNat (some ⟨message,.marked⟩) }
  | aggregate {client : ℕ} {message : ClientMessage} {status : Status} {state : ClientState}
      {results : List (ResultTensor V)} (hcall : s.calls client=some ⟨message,.marked⟩)
      (haggregates : Aggregates env s client message status state results) :
      Move env s (.aggregate client)
        { s with
          results := results
          calls := Function.update s.calls client (some ⟨message,.aggregated status state⟩) }
  | record {client : ℕ} {message : ClientMessage} {status : Status} {state : ClientState}
      {s₁ : Protocol V} (hcall : s.calls client=some ⟨message,.aggregated status state⟩)
      (hreceived : s.clientStates[client]?=some .receivedInputAndPending)
      (hset : s.setClientState client state=.ok s₁) :
      Move env s (.record client)
        { s₁ with
          calls := Function.update s₁.calls client (some ⟨message,.returned⟩)
          callbacks := s₁.callbacks++[.onCloseClient client status] }
  | recordLate {client : ℕ} {message : ClientMessage} {status : Status} {state : ClientState}
      (hcall : s.calls client=some ⟨message,.aggregated status state⟩)
      (hclosed : s.clientStates[client]?≠some .receivedInputAndPending) :
      Move env s (.record client)
        { s with calls := Function.update s.calls client (some ⟨message,.returned⟩) }
  | close {clientId : ℤ} {clientStatus : Status} {s₁ : Protocol V}
      (hrunning : s.protocolState≠.created)
      (hpending : s.clientStates[clientId.toNat]?=some .pending) (hid : 0≤clientId)
      (hset : s.setClientState clientId.toNat
        (if clientStatus.code=.ok then .discarded else .failed)=.ok s₁) :
      Move env s (.closeClient clientId clientStatus) s₁
  | reportFails {s₁ : Protocol V} {status : Status} (hstarted : s.protocolState=.started)
      (hreport : s.createReport env=.ok (s₁,.error status)) : Move env s .complete s₁
  | complete {s₁ s₂ : Protocol V} {result : Bytes} (hstarted : s.protocolState=.started)
      (hreport : s.createReport env=.ok (s₁,.ok result))
      (hclose : closeClients closingOfComplete (List.range s₁.clientStates.length)
        { s₁ with protocolState := .completed }=.ok s₂) :
      Move env s .complete (s₂.owe
        (s₁.openClients.map (Callback.onCloseClient · closedByComplete)++[.onComplete result]))
  | abort {s₁ : Protocol V} (hstarted : s.protocolState=.started)
      (hclose : closeClients closingOfAbort (List.range s.clientStates.length)
        { s with
          aggregationFinished := true
          protocolState := .aborted }=.ok s₁) :
      Move env s .abort (s₁.owe
        (s.openClients.map (Callback.onCloseClient · closedByAbort)))
  | callback {thread : ℕ} {callback : Callback} {rest : List Callback}
      (howed : s.owed[thread]?=some (callback::rest)) :
      Move env s (.makeCallback thread)
        { s with
          owed := s.owed.set thread rest
          callbacks := s.callbacks++[callback] }

theorem checkProtocolState_eq_ok {state : ProtocolState} {u : Unit}
    (h : s.checkProtocolState state=.ok u) : s.protocolState=state := by
  unfold checkProtocolState at h
  split at h
  · cases h
  · exact not_not.mp ‹_›

theorem createReport_eq_ok {s₁ : Protocol V} {rep : StatusOr Bytes}
    (h : s.createReport env=.ok (s₁,rep)) :
    ∃ rs finished,s₁={ s with
      results := rs
      aggregationFinished := finished } := by
  unfold createReport at h
  split at h
  · cases h
    exact ⟨_,_,rfl⟩
  · obtain ⟨⟨ts,rs⟩,-,h⟩:=bind_eq_ok.mp h
    cases ts <;> cases h <;> exact ⟨_,_,rfl⟩

variable {s₁ s₂ : Protocol V}

theorem closesAll_complete {result : Bytes} (hr : s.createReport env=.ok (s₁,.ok result))
    (hc : closeClients closingOfComplete (List.range s₁.clientStates.length)
      { s₁ with protocolState := .completed }=.ok s₂) :
    ClosesAll s (s₂.owe (s₁.openClients.map (Callback.onCloseClient · closedByComplete) ++
      [.onComplete result])) closingOfComplete closedByComplete [.onComplete result] := by
  obtain ⟨_,_,rfl⟩:=createReport_eq_ok hr
  obtain ⟨hs,hcount,hm⟩:=closeAll_eq_ok hc rfl
  refine ⟨fun state => by cases state <;> rfl,fun state new hto => ?_,
    .inl hs.protocolState,hm,fun h => (hcount (h.rest ..)).rest ..,hs.calls,
    hs.callbacks,congrArg (·++_) hs.owed,by simp⟩
  cases state <;> cases hto <;> decide

theorem closesAll_abort (hc : closeClients closingOfAbort (List.range s.clientStates.length)
      { s with
        aggregationFinished := true
        protocolState := .aborted }=.ok s₁) :
    ClosesAll s (s₁.owe (s.openClients.map (Callback.onCloseClient · closedByAbort)))
      closingOfAbort closedByAbort [] := by
  obtain ⟨hs,hcount,hm⟩:=closeAll_eq_ok hc rfl
  refine ⟨fun state => by cases state <;> rfl,fun state new hto => ?_,
    .inr hs.protocolState,hm,fun h => (hcount (h.rest ..)).rest ..,hs.calls,
    hs.callbacks,by rw [append_nil]; exact congrArg (·++_) hs.owed,by simp⟩
  cases state <;> cases hto <;> decide

variable {r : Protocol V × Status}

theorem start_move (h : s.start n=.ok r) : Move env s (.start n) r.1 := by
  unfold start at h
  split at h
  · cases h
    exact .unchanged
  next hp =>
    split at h
    · cases h
      exact .unchanged
    next hcheck =>
      have hc:=checkProtocolState_eq_ok hcheck
      simp only [setProtocolState,hc,bind_eq_ok,fcpCheck_eq_ok,pure_eq_ok] at h
      obtain ⟨_,⟨-,-,rfl⟩,-,he,h⟩:=h
      have hm : Move env s (.start n) _ := .start hc (List.isEmpty_iff.mp he) (Int.not_lt.mp hp)
      split at h
      next hgt =>
        cases h
        simpa [hgt,owe] using hm
      next hgt =>
        cases h
        simpa [hgt] using hm

theorem addClients_move : Move env s (.addClients n) (s.addClients n).1 := by
  unfold addClients
  split
  · exact .unchanged
  next hc =>
    split
    · exact .unchanged
    · exact .addClients (checkProtocolState_eq_ok hc) (by omega)

theorem receiveClientMessage_move (h : s.receiveClientMessage id msg=.ok r) :
    Move env s (.receiveClientMessage id msg) r.1 := by
  unfold receiveClientMessage at h
  split at h
  · cases h
    exact .unchanged
  · cases h
    exact .unchanged
  · split at h
    · cases h
      exact .unchanged
    next hr =>
      split at h
      · cases h
        exact .unchanged
      next hg =>
        obtain ⟨hs,hid⟩:=getClientState_eq_ok hg
        split at h
        · cases h
          exact .unchanged
        next hp =>
          obtain ⟨s₁,hset,⟨⟩⟩:=bind_eq_ok.mp h
          exact .mark hr (not_not.mp hp ▸ hs) hid hset

theorem aggregate_move (h : s.aggregate env c=.ok s') : Move env s (.aggregate c) s' := by
  unfold aggregate at h
  split at h
  next hc =>
    split at h
    next hr =>
      cases h
      exact .aggregate hc (.unreadable hr)
    next hr =>
      obtain ⟨⟨st,rs⟩,ha,⟨⟩⟩:=bind_eq_ok.mp h
      exact .aggregate hc (.aggregated hr ha)
  · cases h
    exact .unchanged

theorem record_move (h : s.record c=.ok s') : Move env s (.record c) s' := by
  unfold record at h
  split at h
  next msg status state hcall =>
    simp only at h
    split at h
    next hr =>
      obtain ⟨s₁,hs,⟨⟩⟩:=bind_eq_ok.mp h
      exact .record hcall hr hs
    next hc =>
      cases h
      exact .recordLate hcall hc
  · cases h
    exact .unchanged

theorem closeClient_move {clientStatus : Status} (h : s.closeClient id clientStatus=.ok r) :
    Move env s (.closeClient id clientStatus) r.1 := by
  unfold closeClient at h
  split at h
  · cases h
    exact .unchanged
  next hr =>
    split at h
    · cases h
      exact .unchanged
    next hg =>
      obtain ⟨hs,hid⟩:=getClientState_eq_ok hg
      split at h
      next hp =>
        obtain ⟨s₁,hset,⟨⟩⟩:=bind_eq_ok.mp h
        exact .close hr (hp ▸ hs) hid hset
      · cases h
        exact .unchanged

theorem setProtocolState_eq_ok {state : ProtocolState} (h : s.setProtocolState state=.ok s') :
    s'={ s with protocolState := state } := by
  simp only [setProtocolState,bind_eq_ok,pure_eq_ok] at h
  obtain ⟨-,-,rfl⟩:=h
  rfl

theorem complete_move (h : s.complete env=.ok r) : Move env s .complete r.1 := by
  unfold complete at h
  split at h
  · cases h
    exact .unchanged
  next hc =>
    have hs:=checkProtocolState_eq_ok hc
    obtain ⟨⟨s₁,rep⟩,hr,h⟩:=bind_eq_ok.mp h
    cases rep with
    | error st =>
      cases h
      exact .reportFails hs hr
    | ok result =>
      obtain ⟨s₂,hset,h⟩:=bind_eq_ok.mp h
      obtain ⟨s₃,hclose,⟨⟩⟩:=bind_eq_ok.mp h
      cases setProtocolState_eq_ok hset
      have hm : Move env s .complete (s₃.owe (s₁.openClients.map
          (Callback.onCloseClient · closedByComplete)++[.onComplete result])) :=
        .complete hs hr hclose
      exact hm

theorem abort_move (h : s.abort=.ok r) : Move env s .abort r.1 := by
  unfold abort at h
  split at h
  · cases h
    exact .unchanged
  next hc =>
    obtain ⟨s₁,hs,h⟩:=bind_eq_ok.mp h
    obtain ⟨s₂,hclose,⟨⟩⟩:=bind_eq_ok.mp h
    cases setProtocolState_eq_ok hs
    exact .abort (checkProtocolState_eq_ok hc) hclose

theorem step_move {e : Event} (h : s.step env e=.ok s') : Move env s e s' := by
  cases e with
  | addClients n =>
    cases h
    exact addClients_move
  | makeCallback thread =>
    cases h
    unfold makeCallback
    split
    next ho => exact .callback ho
    · exact .unchanged
  | aggregate c => exact aggregate_move h
  | record c => exact record_move h
  | start n =>
    obtain ⟨r,hr,⟨⟩⟩:=bind_eq_ok.mp h
    exact start_move hr
  | receiveClientMessage id msg =>
    obtain ⟨r,hr,⟨⟩⟩:=bind_eq_ok.mp h
    exact receiveClientMessage_move hr
  | closeClient id clientStatus =>
    obtain ⟨r,hr,⟨⟩⟩:=bind_eq_ok.mp h
    exact closeClient_move hr
  | complete =>
    obtain ⟨r,hr,⟨⟩⟩:=bind_eq_ok.mp h
    exact complete_move hr
  | abort =>
    obtain ⟨r,hr,⟨⟩⟩:=bind_eq_ok.mp h
    exact abort_move hr

variable {e : Event}

theorem Move.protocolState (h : Move env s e s') : s'.protocolState=s.protocolState ∨
      (s.protocolState=.created ∧ s'.protocolState=.started) ∨
      (s.protocolState=.started ∧
        (s'.protocolState=.aborted ∨ e=.complete ∧ s'.protocolState=.completed)) := by
  cases h with
  | unchanged | addClients | aggregate | recordLate | callback => exact .inl rfl
  | start hcreated => exact .inr (.inl ⟨hcreated,rfl⟩)
  | mark _ _ _ hset | record _ _ hset | close _ _ _ hset =>
    obtain ⟨-,-,-,-,hsame,-⟩:=setClientState_eq_ok hset
    exact .inl hsame.protocolState
  | reportFails _ hr =>
    obtain ⟨_,_,rfl⟩:=createReport_eq_ok hr
    exact .inl rfl
  | complete hs _ hc => exact .inr (.inr ⟨hs,.inr ⟨rfl,(closeAll_eq_ok hc rfl).1.protocolState⟩⟩)
  | abort hs hc => exact .inr (.inr ⟨hs,.inl (closeAll_eq_ok hc rfl).1.protocolState⟩)

theorem Move.outcome {st : Status}
    (h : Move env s e s') (hc : s'.calls c=some ⟨msg,.aggregated st state⟩) :
    s.calls c=some ⟨msg,.aggregated st state⟩ ∨ ∃ rs,Aggregates env s c msg st state rs := by
  cases h with
  | unchanged | start | addClients | callback => exact .inl hc
  | mark _ _ _ hset | record _ _ hset =>
    obtain ⟨-,-,-,-,hs,-⟩:=setClientState_eq_ok hset
    obtain ⟨-,hn⟩ | ho:=calls_update hc
    · cases hn
    · exact .inl (hs.calls ▸ ho.2)
  | aggregate _ ha =>
    obtain ⟨rfl,hn⟩ | ho:=calls_update hc
    · cases hn
      exact .inr ⟨_,ha⟩
    · exact .inl ho.2
  | recordLate =>
    obtain ⟨-,hn⟩ | ho:=calls_update hc
    · cases hn
    · exact .inl ho.2
  | close _ _ _ hset =>
    obtain ⟨-,-,-,-,hs,-⟩:=setClientState_eq_ok hset
    exact .inl (hs.calls ▸ hc)
  | reportFails _ hr =>
    obtain ⟨_,_,rfl⟩:=createReport_eq_ok hr
    exact .inl hc
  | complete _ hr hclosing => exact .inl ((closesAll_complete hr hclosing).calls ▸ hc)
  | abort _ hclosing => exact .inl ((closesAll_abort hclosing).calls ▸ hc)

end Fcp.Aggregation.Protocol

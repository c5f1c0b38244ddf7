import Fcp.Lib.Run
import Fcp.Aggregation.ProtocolMoves

/-!
# Calls, client states and callbacks agree

While the protocol is started a call in progress finds its client waiting for it, the counters are
exact, and a client that was closed is closed for good.
-/

namespace Fcp.Aggregation.Protocol

open List

variable {V : Type} {env : ProtocolEnv V} {s s' : Protocol V}

def log (s : Protocol V) : List Callback := s.callbacks++s.owed.flatten

variable {callback : Callback}

theorem mem_log_owe {callbacks : List Callback} :
    callback∈(s.owe callbacks).log ↔ callback∈s.log ∨ callback∈callbacks := by
  simp [log,owe,or_assoc]

theorem mem_log_append {accepted : List (List Callback)} :
    callback∈s.callbacks++(s.owed++accepted).flatten ↔
      callback∈s.log ∨ callback∈accepted.flatten := by
  simp [log,or_assoc]

theorem mem_log_set {thread : ℕ} {next : Callback} {rest : List Callback}
    (ho : s.owed[thread]?=some (next::rest)) :
    callback∈(s.callbacks++[next])++(s.owed.set thread rest).flatten ↔ callback∈s.log := by
  obtain ⟨hlt,hg⟩:=List.getElem?_eq_some_iff.mp ho
  obtain ⟨before,after,hs,-,hset⟩:=exists_of_set hlt
  rw [hg] at hs
  rw [hset,log,hs]
  simp only [mem_append,flatten_append,flatten_cons,mem_cons,cons_append]
  tauto

structure Consistent (s : Protocol V) : Prop where
  created : s.protocolState=.created → s.clientStates=[] ∧ ∀ client,s.calls client=none
  phases : s.protocolState=.started → ∀ client call,s.calls client=some call →
    call.phase≠.returned → s.clientStates[client]?=some .receivedInputAndPending
  statuses : ∀ client message status,
    s.calls client=some ⟨message,.aggregated status .completed⟩ → status.code=.ok
  counters : CountersExact s
  closed : ∀ client status,.onCloseClient client status∈s.log →
    ∃ state,s.clientStates[client]?=some state ∧ isOpen state=false ∧
      (state=.completed → status.code=.ok)
  finished : s.protocolState=.completed → ∀ state∈s.clientStates,isOpen state=false

theorem consistent_create : Consistent (create env) where
  created _ := ⟨rfl,fun _ => rfl⟩
  phases h := nomatch h
  statuses _ _ _ h := nomatch h
  counters := ⟨rfl,rfl,rfl,rfl,rfl⟩
  closed _ _ h := absurd h not_mem_nil
  finished h := nomatch h

variable {c : ℕ}

section

variable (h : Consistent s)
include h

theorem Consistent.change {old new : ClientState} {s₁ : Protocol V}
    (hset : s.setClientState c new=.ok s₁)
    (hf : s.clientStates[c]?=some old) (hopen : isOpen old=true)
    (calls : ℕ → Option Call) (callbacks : List Callback)
    (hcalls : ∀ other,other≠c → calls other=s.calls other)
    (hphase : s.protocolState=.started → ∀ call,calls c=some call →
      call.phase≠.returned → new=.receivedInputAndPending)
    (hstatuses : ∀ other msg st,calls other=some ⟨msg,.aggregated st .completed⟩ → st.code=.ok)
    (hcallbacks : ∀ callback∈callbacks,∃ st,callback=.onCloseClient c st ∧
      isOpen new=false ∧ (new=.completed → st.code=.ok)) :
    Consistent { s₁ with
      calls := calls
      callbacks := s₁.callbacks++callbacks } := by
  obtain ⟨_,hf',-,hstates,hs,hcounted⟩:=setClientState_eq_ok hset
  have hlt : c<s.clientStates.length := (List.getElem?_eq_some_iff.mp hf).1
  have hcreated : s.protocolState≠.created := by
    intro hcreated
    rw [(h.created hcreated).1] at hlt
    exact absurd hlt (Nat.not_lt_zero _)
  have hcompleted : s.protocolState≠.completed := by
    intro hcompleted
    have hclosed:=h.finished hcompleted _ (mem_of_getElem? hf)
    cases hopen.symm.trans hclosed
  constructor
  · exact fun hc => absurd (hs.protocolState ▸ hc) hcreated
  · intro hstate other call hcall hp
    dsimp only at hstate hcall ⊢
    rw [hstates]
    by_cases ho : other=c
    · subst ho
      rw [getElem?_set_self hlt,hphase (hs.protocolState ▸ hstate) call hcall hp]
    · rw [getElem?_set_ne (Ne.symm ho)]
      rw [hcalls other ho] at hcall
      exact h.phases (hs.protocolState ▸ hstate) other call hcall hp
  · exact hstatuses
  · exact (hcounted h.counters).rest ..
  · intro other st hm
    have hl : .onCloseClient other st∈s.log ∨ .onCloseClient other st∈callbacks := by
      rw [log,hs.callbacks,hs.owed] at hm
      simp only [mem_append] at hm
      rw [log,mem_append]
      tauto
    dsimp only
    rw [hstates]
    obtain hold | hn:=hl
    · obtain ⟨state,hstatus,hclosed,hstatuses⟩:=h.closed other st hold
      have ho : c≠other := by
        intro ho
        rw [← ho,hf] at hstatus
        cases hstatus
        cases hopen.symm.trans hclosed
      exact ⟨state,by rw [getElem?_set_ne ho,hstatus],hclosed,hstatuses⟩
    · obtain ⟨status',heq,hclosed,hstatuses⟩:=hcallbacks _ hn
      cases heq
      exact ⟨new,getElem?_set_self hlt,hclosed,hstatuses⟩
  · exact fun hc => absurd (hs.protocolState ▸ hc) hcompleted

theorem Consistent.frame (hprotocol : s'.protocolState=s.protocolState)
    (hstates : s'.clientStates=s.clientStates) (hcounted : CountersExact s')
    (hcreated : s.protocolState≠.created ∨ s'.calls=s.calls)
    (hcalls : ∀ c call',s'.calls c=some call' → call'.phase≠.returned →
      ∃ call,s.calls c=some call ∧ call.phase≠.returned)
    (hstatuses : ∀ c msg st,s'.calls c=some ⟨msg,.aggregated st .completed⟩ → st.code=.ok)
    (hl : ∀ callback,callback∈s'.log → callback∈s.log) : Consistent s' where
  created hc := by
    rw [hprotocol] at hc
    obtain hn | heq:=hcreated
    · exact absurd hc hn
    · rw [hstates,heq]
      exact h.created hc
  phases hs c call' hcall hp := by
    obtain ⟨call,hcall,hp⟩:=hcalls c call' hcall hp
    rw [hstates]
    exact h.phases (hprotocol ▸ hs) c call hcall hp
  statuses := hstatuses
  counters := hcounted
  closed c st hm := by
    rw [hstates]
    exact h.closed c st (hl _ hm)
  finished hc := by
    rw [hstates]
    exact h.finished (hprotocol ▸ hc)

theorem Consistent.setCall {call call' : Call}
    (hcall : s.calls c=some call) (hp : call'.phase≠.returned → call.phase≠.returned)
    (rs : List (ResultTensor V))
    (hs : ∀ other msg st,Function.update s.calls c (some call') other =
      some ⟨msg,.aggregated st .completed⟩ → st.code=.ok) :
    Consistent { s with
      results := rs
      calls := Function.update s.calls c (some call') } := by
  have hcreated : s.protocolState≠.created := by
    intro hc
    rw [(h.created hc).2 c] at hcall
    cases hcall
  refine h.frame rfl rfl (h.counters.rest ..) (.inl hcreated) ?_ hs fun _ hm => hm
  intro other call'' hc'' hn
  obtain ⟨rfl,rfl⟩ | ho:=calls_update hc''
  · exact ⟨call,hcall,hp hn⟩
  · exact ⟨call'',ho.2,hn⟩

theorem Consistent.closeAll {closing : ClientState → Option ClientState} {closedStatus : Status}
    {last : List Callback}
    (hclosing : ClosesAll s s' closing closedStatus last) : Consistent s' := by
  have he:=hclosing.ended
  refine ⟨fun hc => ?_,fun hs => ?_,fun c msg st hcalls => ?_,
    hclosing.counters h.counters,fun c st hm => ?_,fun _ => hclosing.isOpen_eq_false⟩
  · simp [hc] at he
  · simp [hs] at he
  · exact h.statuses c msg st (hclosing.calls ▸ hcalls)
  · rw [log,hclosing.callbacks,hclosing.owed,mem_log_append,flatten_singleton,mem_append] at hm
    rw [hclosing.getElem?]
    obtain hold | ho | hl:=hm
    · obtain ⟨state,hstate,-,hstates⟩:=h.closed c st hold
      refine ⟨_,by rw [hstate]; rfl,hclosing.closed state,fun hcompleted => ?_⟩
      exact hstates (hclosing.completed hcompleted)
    · obtain ⟨_,hclient,heq⟩:=mem_map.mp ho
      cases heq
      obtain ⟨state,hstate,hopen⟩:=mem_openClients.mp hclient
      refine ⟨_,by rw [hstate]; rfl,hclosing.closed state,fun hcompleted => ?_⟩
      rw [hclosing.completed hcompleted] at hopen
      cases hopen
    · obtain ⟨_,heq⟩:=hclosing.last _ hl
      cases heq

end

theorem CountersExact.addPending (h : CountersExact s) (n : ℕ) (owed : List (List Callback))
    (protocolState : ProtocolState) :
    CountersExact { s with
      protocolState := protocolState
      clientStates := s.clientStates++List.replicate n .pending
      owed := owed } where
  received := by simp [h.received,count_replicate]
  aggregated := by simp [h.aggregated,count_replicate]
  failed := by simp [h.failed,count_replicate]
  aborted := by simp [h.aborted,count_replicate]
  discarded := by simp [h.discarded,count_replicate]

theorem Consistent.addPending (h : Consistent s) (n : ℕ) (accepted : List (List Callback))
    (ha : ∀ c st,.onCloseClient c st∉accepted.flatten)
    (ho : s.protocolState=.created ∨ s.protocolState=.started) :
    Consistent { s with
      protocolState := .started
      clientStates := s.clientStates++List.replicate n .pending
      owed := s.owed++accepted } where
  created hc := nomatch hc
  phases _ c call hcall hp := by
    obtain hcreated | hstarted:=ho
    · rw [(h.created hcreated).2 c] at hcall
      cases hcall
    · have hs:=h.phases hstarted c call hcall hp
      exact (getElem?_append_left (List.getElem?_eq_some_iff.mp hs).1).trans hs
  statuses := h.statuses
  counters := h.counters.addPending n _ _
  closed c st hm := by
    have hold : .onCloseClient c st∈s.log := (mem_log_append.mp hm).resolve_right (ha c st)
    obtain ⟨state,hs,hr⟩:=h.closed c st hold
    exact ⟨state,(getElem?_append_left (List.getElem?_eq_some_iff.mp hs).1).trans hs,hr⟩
  finished hc := nomatch hc

theorem aggregates_status {msg : ClientMessage} {st : Status} {rs : List (ResultTensor V)}
    (h : Aggregates env s c msg st .completed rs) : st.code=.ok := by
  generalize hs : ClientState.completed=state at h
  cases h with
  | unreadable => cases hs
  | aggregated =>
    split at hs
    · assumption
    · cases hs

theorem Consistent.move {e : Event} (h : Consistent s) (hm : Move env s e s') : Consistent s' := by
  have hstates : ∀ c msg st,s'.calls c=some ⟨msg,.aggregated st .completed⟩ → st.code=.ok := by
    intro c msg st hc
    obtain hold | ⟨_,ha⟩:=hm.outcome hc
    · exact h.statuses c msg st hold
    · exact aggregates_status ha
  cases hm with
  | unchanged => exact h
  | @start n hcreated he =>
    have hadd:=h.addPending n.toNat
      (if n>0 then [[.onAcceptClients 0 n.toNat]] else [])
      (fun c st => by split <;> simp) (.inl hcreated)
    simpa [he] using hadd
  | @addClients n hstarted =>
    have hadd:=h.addPending n.toNat
      [[.onAcceptClients s.clientStates.length n.toNat]]
      (fun c st => by simp) (.inr hstarted)
    simpa [hstarted] using hadd
  | @mark id msg s₁ _ hpending _ hset =>
    obtain ⟨-,-,-,-,hs,-⟩:=setClientState_eq_ok hset
    have hchanged:=h.change hset hpending rfl
      (Function.update s₁.calls id.toNat (some ⟨msg,.marked⟩)) []
      (fun other ho => by rw [Function.update_of_ne ho,hs.calls])
      (fun _ call _ _ => rfl) hstates
      (fun callback hmem => absurd hmem not_mem_nil)
    simpa using hchanged
  | aggregate hc => exact h.setCall hc (fun _ => nofun) _ hstates
  | @record c msg st state s₁ hc hr hset =>
    obtain ⟨old,hf,hmay,-,hs,-⟩:=setClientState_eq_ok hset
    cases hr.symm.trans hf
    refine h.change hset hr rfl _ [.onCloseClient c st] ?_ ?_ hstates ?_
    · intro other ho
      rw [Function.update_of_ne ho,hs.calls]
    · intro _ call hc' hp
      rw [Function.update_self] at hc'
      cases hc'
      exact absurd rfl hp
    · intro callback hmem
      refine ⟨st,mem_singleton.mp hmem,?_,fun hcompleted => ?_⟩
      · revert hmay
        cases state <;> decide
      · exact h.statuses c msg st (hcompleted ▸ hc)
  | recordLate hc => exact h.setCall hc (fun hn => absurd rfl hn) _ hstates
  | close _ hpending _ hset =>
    obtain ⟨-,-,-,-,hs,-⟩:=setClientState_eq_ok hset
    have hchanged:=h.change hset hpending rfl s'.calls [] (fun other _ => by rw [hs.calls])
      ?_ hstates (fun callback hmem => absurd hmem not_mem_nil)
    · simpa using hchanged
    · intro hstarted call hc hp
      have hr:=h.phases hstarted _ call (hs.calls ▸ hc) hp
      cases hpending.symm.trans hr
  | reportFails hstarted hreport =>
    obtain ⟨rs,finished,rfl⟩:=createReport_eq_ok hreport
    exact h.frame rfl rfl (h.counters.rest ..) (.inr rfl)
      (fun c call hc hp => ⟨call,hc,hp⟩) h.statuses fun _ hmem => hmem
  | complete _ hreport hclose => exact h.closeAll (closesAll_complete hreport hclose)
  | abort _ hclose => exact h.closeAll (closesAll_abort hclose)
  | @callback thread next rest howed =>
    exact h.frame rfl rfl (h.counters.rest ..) (.inr rfl)
      (fun c call hc hp => ⟨call,hc,hp⟩) h.statuses
      fun _ hmem => (mem_log_set howed).mp hmem

theorem consistent (h : Reachable (step env) (create env) s) : Consistent s :=
  h.invariant consistent_create fun _ _ _ hs hstep => hs.move (step_move hstep)

end Fcp.Aggregation.Protocol

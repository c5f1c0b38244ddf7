import Fcp.Aggregation.StatusCounters

/-!
# The order of the callbacks for a client (protocol/aggregation_protocol.h)

A client is accepted first, closed at most once and not heard of afterwards, as long as no call
closes it before its acceptance has been delivered.
-/

namespace Fcp.Aggregation.Protocol

open List

variable {V : Type} {env : ProtocolEnv V} {s s' : Protocol V} {c : ℕ}

def concerns (client : ℕ) : Callback → Bool
  | .onAcceptClients startIndex numClients =>
    decide (startIndex≤client ∧ client<startIndex+numClients)
  | .onCloseClient other _ => decide (other=client)
  | .onComplete _ => false

def isAcceptance : Callback → Bool
  | .onAcceptClients _ _ => true
  | _ => false

def madeFor (s : Protocol V) (client : ℕ) : List Callback := s.callbacks.filter (concerns client)

def owedFor (s : Protocol V) (client : ℕ) : List Callback := s.owed.flatten.filter (concerns client)

variable {other thread : ℕ} {new : ClientState} {s₁ : Protocol V} {rest : List Callback}
  {e : Event} {hist : List (Protocol V × Event)} {clientStatus : Status}

theorem filter_onCloseClient_of_ne (h : other≠c) (st : Status) :
    [Callback.onCloseClient other st].filter (concerns c)=[] := by
  simp [concerns,h]

theorem filter_closing {clients : List ℕ} (hn : clients.Nodup) (st : Status) :
    (clients.map (Callback.onCloseClient · st)).filter (concerns c) =
      if c∈clients then [.onCloseClient c st] else [] := by
  induction clients with
  | nil => rfl
  | cons first rest ih =>
    obtain ⟨hf,hr⟩:=nodup_cons.mp hn
    rw [map_cons,filter_cons,ih hr]
    by_cases heq : first=c
    · subst heq
      simp [concerns,hf]
    · simp [concerns,heq,Ne.symm heq]

theorem nodup_openClients (s : Protocol V) : s.openClients.Nodup := nodup_range.filter _

/-- The client is closed and no callback for it is on its way. -/
structure Silent (s : Protocol V) (client : ℕ) : Prop where
  closed : ∃ state,s.clientStates[client]?=some state ∧ isOpen state=false
  owed : s.owedFor client=[]

theorem Silent.change {old : ClientState}
    (h : Silent s c) (hset : s.setClientState other new=.ok s₁)
    (hf : s.clientStates[other]?=some old) (hopen : isOpen old=true) :
    other≠c ∧ Silent s₁ c ∧ s₁.madeFor c=s.madeFor c := by
  obtain ⟨-,-,-,hstate,hs,-⟩:=setClientState_eq_ok hset
  obtain ⟨state,hstates,hc⟩:=h.closed
  have ho : other≠c := by
    rintro rfl
    cases hf.symm.trans hstates
    cases hopen.symm.trans hc
  refine ⟨ho,⟨⟨state,?_,hc⟩,?_⟩,?_⟩
  · rw [hstate,getElem?_set_ne ho,hstates]
  · rw [owedFor,hs.owed]
    exact h.owed
  · rw [madeFor,hs.callbacks,madeFor]

section ClosesAll

variable {closing : ClientState → Option ClientState} {closedStatus : Status}
  {last : List Callback} (hclose : ClosesAll s s' closing closedStatus last)

include hclose

theorem ClosesAll.madeFor_eq : s'.madeFor c=s.madeFor c := by
  rw [madeFor,hclose.callbacks,madeFor]

theorem ClosesAll.owedFor_eq : s'.owedFor c=s.owedFor c ++
      if c∈s.openClients then [.onCloseClient c closedStatus] else [] := by
  have hl : last.filter (concerns c)=[] := by
    refine filter_eq_nil_iff.mpr fun callback hm => ?_
    obtain ⟨result,rfl⟩:=hclose.last callback hm
    exact Bool.false_ne_true
  simp [owedFor,hclose.owed,filter_closing (nodup_openClients s),hl]

theorem Silent.closeAll (h : Silent s c) : Silent s' c ∧ s'.madeFor c=s.madeFor c := by
  obtain ⟨state,hs,hc⟩:=h.closed
  have hn : c∉s.openClients := by
    intro hm
    obtain ⟨state',hs',ho⟩:=mem_openClients.mp hm
    cases hs.symm.trans hs'
    cases ho.symm.trans hc
  refine ⟨⟨⟨(closing state).getD state,?_,hclose.closed state⟩,?_⟩,hclose.madeFor_eq⟩
  · rw [hclose.getElem?,hs]
    rfl
  · rw [hclose.owedFor_eq,h.owed,if_neg hn,append_nil]

end ClosesAll

theorem filter_onAcceptClients_of_lt {start : ℕ} (h : c<start) (n : ℕ) :
    [Callback.onAcceptClients start n].filter (concerns c)=[] := by
  have hn : ¬ start≤c := Nat.not_le.mpr h
  simp [concerns,hn]

variable {next : Callback}

theorem owedFor_set (c : ℕ) (ho : s.owed[thread]?=some (next::rest)) :
    ∃ before after,s.owedFor c=before++[next].filter (concerns c)++after ∧
      (s.owed.set thread rest).flatten.filter (concerns c)=before++after := by
  obtain ⟨hlt,hg⟩:=List.getElem?_eq_some_iff.mp ho
  obtain ⟨before,after,hs,-,hset⟩:=exists_of_set hlt
  rw [hg] at hs
  refine ⟨before.flatten.filter (concerns c),
    rest.filter (concerns c)++after.flatten.filter (concerns c),?_,?_⟩
  · rw [owedFor,hs]
    simp [filter_cons,filter_append]
    split <;> simp
  · rw [hset]
    simp

theorem Silent.move (h : Silent s c) (hmove : Move env s e s') :
    Silent s' c ∧ s'.madeFor c=s.madeFor c := by
  obtain ⟨state,hstarted,hc⟩:=h.closed
  have hlt:=(List.getElem?_eq_some_iff.mp hstarted).1
  cases hmove with
  | unchanged => exact ⟨h,rfl⟩
  | start _ he =>
    rw [he] at hstarted
    cases hstarted
  | addClients =>
    refine ⟨⟨⟨state,?_,hc⟩,?_⟩,rfl⟩
    · exact (getElem?_append_left hlt).trans hstarted
    · have ho:=h.owed
      simp only [owedFor] at ho ⊢
      simp [ho,filter_onAcceptClients_of_lt hlt]
  | mark _ hp _ hset =>
    obtain ⟨-,hs,hm⟩:=h.change hset hp rfl
    exact ⟨⟨hs.closed,hs.owed⟩,hm⟩
  | aggregate | recordLate => exact ⟨⟨h.closed,h.owed⟩,rfl⟩
  | record _ hreceived hset =>
    obtain ⟨hother,hs,hm⟩:=h.change hset hreceived rfl
    refine ⟨⟨hs.closed,hs.owed⟩,?_⟩
    simp only [madeFor] at hm ⊢
    rw [filter_append,filter_onCloseClient_of_ne hother,append_nil,hm]
  | close _ hp _ hset =>
    obtain ⟨-,hs,hm⟩:=h.change hset hp rfl
    exact ⟨hs,hm⟩
  | reportFails _ hr =>
    obtain ⟨rs,finished,rfl⟩:=createReport_eq_ok hr
    exact ⟨⟨h.closed,h.owed⟩,rfl⟩
  | complete _ hr hclose => exact h.closeAll (closesAll_complete hr hclose)
  | abort _ hclose => exact h.closeAll (closesAll_abort hclose)
  | @callback thread next rest ho =>
    obtain ⟨before,after,hsplit,hset⟩:=owedFor_set c ho
    rw [h.owed] at hsplit
    simp only [nil_eq,append_eq_nil_iff] at hsplit
    obtain ⟨⟨rfl,hn⟩,rfl⟩:=hsplit
    refine ⟨⟨h.closed,hset⟩,?_⟩
    simp only [madeFor]
    rw [filter_append,hn,append_nil]

inductive Stage (client : ℕ) : Option ClientState → List Callback → List Callback → Prop
  | unknown : Stage client none [] []
  | joining {state : ClientState} {startIndex numClients : ℕ}
      (haccept : concerns client (.onAcceptClients startIndex numClients)=true)
      (hopen : isOpen state=true) :
      Stage client (some state) [] [.onAcceptClients startIndex numClients]
  | accepted {state : ClientState} {startIndex numClients : ℕ}
      (haccept : concerns client (.onAcceptClients startIndex numClients)=true) :
      Stage client (some state) [.onAcceptClients startIndex numClients] []
  | closing {state : ClientState} {startIndex numClients : ℕ} {status : Status}
      (haccept : concerns client (.onAcceptClients startIndex numClients)=true)
      (hclosed : isOpen state=false) :
      Stage client (some state) [.onAcceptClients startIndex numClients]
        [.onCloseClient client status]
  | closed {state : ClientState} {startIndex numClients : ℕ} {status : Status}
      (haccept : concerns client (.onAcceptClients startIndex numClients)=true)
      (hclosed : isOpen state=false) :
      Stage client (some state)
        [.onAcceptClients startIndex numClients,.onCloseClient client status] []

variable {state state' : ClientState} {made owed : List Callback}

theorem Stage.congr (h : Stage c (some state) made owed) (heq : isOpen state'=isOpen state) :
    Stage c (some state') made owed := by
  cases h with
  | joining ha ho => exact .joining ha (heq.trans ho)
  | accepted ha => exact .accepted ha
  | closing ha hc => exact .closing ha (heq.trans hc)
  | closed ha hc => exact .closed ha (heq.trans hc)

theorem Stage.accepted_of_open (h : Stage c (some state) made owed)
    (ho : isOpen state=true) (haccepted : ∀ callback∈owed,isAcceptance callback=false) :
    owed=[] ∧ ∃ start n,made=[.onAcceptClients start n] ∧
      concerns c (.onAcceptClients start n)=true := by
  cases h with
  | joining => exact nomatch haccepted _ mem_cons_self
  | accepted ha => exact ⟨rfl,_,_,rfl,ha⟩
  | closing _ hc | closed _ hc =>
    cases ho.symm.trans hc

variable {cur : Option ClientState}

theorem Stage.deliver (h : Stage c cur made [next]) : Stage c cur (made++[next]) [] := by
  cases h with
  | joining ha => exact .accepted ha
  | closing ha hc => exact .closed ha hc

theorem Stage.length_owed (h : Stage c cur made owed) : owed.length≤1 := by
  cases h <;> simp

theorem Stage.made_initial (h : Stage c cur made owed) : ∃ start n st,start≤c ∧ c<start+n ∧
      made <+: [.onAcceptClients start n,.onCloseClient c st] := by
  cases h with
  | unknown => exact ⟨c,1,.okStatus,le_rfl,Nat.lt_succ_self _,List.nil_prefix⟩
  | joining ha =>
    obtain ⟨hle,hlt⟩:=of_decide_eq_true ha
    exact ⟨_,_,.okStatus,hle,hlt,List.nil_prefix⟩
  | accepted ha =>
    obtain ⟨hle,hlt⟩:=of_decide_eq_true ha
    exact ⟨_,_,.okStatus,hle,hlt,[_],rfl⟩
  | @closing _ _ _ st ha =>
    obtain ⟨hle,hlt⟩:=of_decide_eq_true ha
    exact ⟨_,_,st,hle,hlt,[_],rfl⟩
  | @closed _ _ _ st ha =>
    obtain ⟨hle,hlt⟩:=of_decide_eq_true ha
    exact ⟨_,_,st,hle,hlt,prefix_rfl⟩

/-- No call closes a client whose acceptance has still to be delivered, and the host does not
close a client that is unknown, that is being processed or that a callback is owed for. -/
def InOrder (s : Protocol V) : Event → Prop
  | .record client => ∀ callback∈s.owedFor client,isAcceptance callback=false
  | .complete => ∀ callback∈s.owed.flatten,isAcceptance callback=false
  | .abort => ∀ callback∈s.owed.flatten,isAcceptance callback=false
  | .closeClient clientId _ => 0≤clientId ∧ clientId.toNat<s.clientStates.length ∧
      s.clientStates[clientId.toNat]?≠some .receivedInputAndPending ∧
      s.owedFor clientId.toNat=[]
  | _ => True

instance (s : Protocol V) (event : Event) : Decidable (InOrder s event) := by
  cases event <;> unfold InOrder <;> infer_instance

def Staged (s : Protocol V) : Prop :=
  ∀ client,Stage client s.clientStates[client]? (s.madeFor client) (s.owedFor client)

section

variable (h : Staged s)
include h

theorem Staged.change (hset : s.setClientState c new=.ok s₁) (told : List Callback)
    (ht : ∀ other,other≠c → told.filter (concerns other)=[])
    (hstates : Stage c (some new) (s.madeFor c++told.filter (concerns c))
      (s.owedFor c)) (calls : ℕ → Option Call) :
    Staged { s₁ with
      calls := calls
      callbacks := s₁.callbacks++told } := by
  obtain ⟨old,hf,-,hstate,hs,-⟩:=setClientState_eq_ok hset
  intro other
  have hm : (s₁.callbacks++told).filter (concerns other) =
      s.madeFor other++told.filter (concerns other) := by
    rw [filter_append,hs.callbacks,madeFor]
  have howed : s₁.owed.flatten.filter (concerns other)=s.owedFor other := by rw [hs.owed,owedFor]
  simp only [madeFor,owedFor] at hm howed ⊢
  rw [hm,howed,hstate]
  by_cases ho : other=c
  · subst ho
    rw [getElem?_set_self (List.getElem?_eq_some_iff.mp hf).1]
    exact hstates
  · rw [getElem?_set_ne (Ne.symm ho),ht other ho,append_nil]
    exact h other

theorem Staged.closeAll {closing : ClientState → Option ClientState} {closedStatus : Status}
    {last : List Callback} (hclose : ClosesAll s s' closing closedStatus last)
    (haccepted : ∀ callback∈s.owed.flatten,isAcceptance callback=false) : Staged s' := by
  intro c
  have hs:=h c
  rw [hclose.getElem?,hclose.madeFor_eq,hclose.owedFor_eq]
  by_cases hm : c∈s.openClients
  · obtain ⟨state,hstate,ho⟩:=mem_openClients.mp hm
    rw [hstate] at hs
    obtain ⟨hn,start,n,ha,hconcerns⟩:=hs.accepted_of_open ho fun callback hm =>
        haccepted callback (mem_of_mem_filter hm)
    rw [if_pos hm,hstate,hn,ha]
    exact .closing hconcerns (hclose.closed state)
  · rw [if_neg hm,append_nil]
    cases hstate : s.clientStates[c]? with
    | none =>
      rw [hstate] at hs
      exact hs
    | some state =>
      rw [hstate] at hs
      have hc : isOpen state=false :=
        Bool.eq_false_iff.mpr fun ho => hm (mem_openClients.mpr ⟨state,hstate,ho⟩)
      exact hs.congr ((hclose.closed state).trans hc.symm)

theorem Staged.join {n : ℕ} (hcall : s'.callbacks=s.callbacks)
    (hstate : s'.clientStates=s.clientStates++List.replicate n .pending)
    (ho : s'.owed=s.owed++[[.onAcceptClients s.clientStates.length n]]) :
    Staged s' := by
  intro c
  have hs:=h c
  have ho' : s'.owedFor c=s.owedFor c ++
      [Callback.onAcceptClients s.clientStates.length n].filter (concerns c) := by
    simp [owedFor,ho]
  rw [ho',madeFor,hcall,hstate]
  by_cases hold : c<s.clientStates.length
  · rw [filter_onAcceptClients_of_lt hold,append_nil,getElem?_append_left hold]
    exact hs
  · rw [getElem?_eq_none (Nat.not_lt.mp hold)] at hs
    rw [getElem?_append_right (Nat.not_lt.mp hold)]
    generalize hm : s.madeFor c=made at hs
    generalize s.owedFor c=owed at hs ⊢
    cases hs
    rw [madeFor] at hm
    rw [hm,nil_append]
    by_cases hn : c<s.clientStates.length+n
    · have hc : concerns c (.onAcceptClients s.clientStates.length n)=true :=
        decide_eq_true ⟨Nat.not_lt.mp hold,hn⟩
      rw [getElem?_replicate_of_lt (by omega),filter_cons_of_pos hc]
      exact .joining hc rfl
    · have hc : ¬ concerns c (.onAcceptClients s.clientStates.length n)=true := by
        intro ht
        exact hn (of_decide_eq_true ht).2
      rw [getElem?_eq_none (by rw [length_replicate]; omega),filter_cons_of_neg hc]
      exact .unknown

theorem Staged.callback (ho : s.owed[thread]?=some (next::rest)) : Staged { s with
      owed := s.owed.set thread rest
      callbacks := s.callbacks++[next] } := by
  intro c
  have hstage:=h c
  obtain ⟨before,after,hs,hset⟩:=owedFor_set c ho
  simp only [madeFor,owedFor,filter_append] at hstage hs hset ⊢
  rw [hset]
  by_cases hc : concerns c next=true
  · -- It was the only callback owed for the client.
    rw [filter_cons_of_pos hc,filter_nil] at hs ⊢
    have hl:=hstage.length_owed
    rw [hs] at hl
    simp only [length_append,length_singleton] at hl
    have hb : before=[] := eq_nil_of_length_eq_zero (by omega)
    have ha : after=[] := eq_nil_of_length_eq_zero (by omega)
    rw [hs,hb,ha] at hstage
    rw [hb,ha]
    exact hstage.deliver
  · rw [filter_cons_of_neg hc,filter_nil,append_nil] at hs ⊢
    rw [hs] at hstage
    exact hstage

theorem Staged.move (ho : InOrder s e) (hm : Move env s e s') : Staged s' := by
  cases hm with
  | unchanged | aggregate | recordLate => exact h
  | @start n _ he hpos =>
    by_cases hgt : n>0
    · exact h.join rfl (by rw [he]; rfl) (by rw [he,if_pos hgt]; rfl)
    · have hz : n.toNat=0 := by omega
      intro c
      have hs:=h c
      rw [he] at hs
      simpa [hz,hgt,madeFor,owedFor] using hs
  | addClients => exact h.join rfl rfl rfl
  | @mark id msg s₁ _ hp _ hset =>
    have hs:=h id.toNat
    rw [hp] at hs
    have hr : Stage id.toNat (some .receivedInputAndPending)
        (s.madeFor id.toNat) (s.owedFor id.toNat) := hs.congr rfl
    have hc:=h.change hset [] (fun _ _ => rfl) (by simpa using hr)
      (Function.update s₁.calls id.toNat (some ⟨msg,.marked⟩))
    simpa using hc
  | @record c msg st state s₁ hcall hr hset =>
    obtain ⟨old,hf,hmay,-⟩:=setClientState_eq_ok hset
    cases hr.symm.trans hf
    have hclosed : isOpen state=false := by
      revert hmay
      cases state <;> decide
    have hs:=h c
    rw [hr] at hs
    obtain ⟨hn,startIndex,n,ha,hconcerns⟩:=hs.accepted_of_open rfl ho
    refine h.change hset [.onCloseClient c st]
      (fun other hother => filter_onCloseClient_of_ne (Ne.symm hother) st) ?_ _
    have ht : concerns c (.onCloseClient c st)=true := decide_eq_true rfl
    rw [hn,ha,filter_cons_of_pos ht,filter_nil]
    exact .closed hconcerns hclosed
  | @close id clientStatus _ _ hp _ hset =>
    obtain ⟨-,-,-,howed⟩:=ho
    have hs:=h id.toNat
    rw [hp] at hs
    obtain ⟨-,startIndex,n,ha,hconcerns⟩:=hs.accepted_of_open rfl (by simp [howed])
    have hc:=h.change hset [] (fun _ _ => rfl) (by
        rw [howed,ha]
        exact .accepted hconcerns) s'.calls
    simpa using hc
  | reportFails _ hreport =>
    obtain ⟨rs,finished,rfl⟩:=createReport_eq_ok hreport
    exact h
  | complete _ hreport hclose => exact h.closeAll (closesAll_complete hreport hclose) ho
  | abort _ hclose => exact h.closeAll (closesAll_abort hclose) ho
  | callback howed => exact h.callback howed

end

theorem staged_of_run (hr : Run (step env) (create env) hist s)
    (ho : ∀ entry∈hist,InOrder entry.1 entry.2) : Staged s := by
  induction hr with
  | nil => exact fun _ => .unknown
  | @snoc hist s s' e _ hs ih =>
    have hl : InOrder s e := ho (s,e) (by simp)
    have hstaged : Staged s := ih fun entry he => ho entry (mem_append_left _ he)
    exact hstaged.move hl (step_move hs)

theorem silent_of_close (hc : Consistent s)
    (hstep : s.step env (.closeClient c clientStatus)=.ok s')
    (horder : InOrder s (.closeClient c clientStatus)) :
    Silent s' c ∧ s'.madeFor c=s.madeFor c := by
  obtain ⟨-,hlt,hreceived,ho⟩:=horder
  rw [Int.toNat_natCast] at hlt hreceived ho
  have hs:=getElem?_eq_getElem hlt
  generalize s.clientStates[c]=state at hs
  rw [hs,ne_eq,Option.some.injEq] at hreceived
  have hrun : s.protocolState≠.created := by
    intro hcreated
    rw [(hc.created hcreated).1] at hs
    cases hs
  have hg : s.getClientState c=.ok state := by simp [getClientState,hs]
  simp only [step,closeClient,hrun,if_false,hg,Int.toNat_natCast] at hstep
  by_cases hp : state=.pending
  · rw [if_pos hp] at hstep
    obtain ⟨r,hr,hstep⟩:=bind_eq_ok.mp hstep
    obtain ⟨s₁,hset,⟨⟩⟩:=bind_eq_ok.mp hr
    cases hstep
    obtain ⟨-,-,-,hstate,hsame,-⟩:=setClientState_eq_ok hset
    refine ⟨⟨⟨if clientStatus.code=.ok then .discarded else .failed,?_,?_⟩,?_⟩,?_⟩
    · rw [hstate,getElem?_set_self (List.getElem?_eq_some_iff.mp hs).1]
    · split <;> rfl
    · rw [owedFor,hsame.owed]
      exact ho
    · rw [madeFor,hsame.callbacks,madeFor]
  · rw [if_neg hp] at hstep
    cases hstep
    refine ⟨⟨⟨state,hs,?_⟩,ho⟩,rfl⟩
    simpa [isOpen,hp] using hreceived

theorem silent_of_run {s₀ : Protocol V} (hr : Run (step env) (create env) hist s)
    (ho : ∀ entry∈hist,InOrder entry.1 entry.2)
    (hclose : (s₀,.closeClient c clientStatus)∈hist) :
    Silent s c ∧ s.madeFor c=s₀.madeFor c := by
  induction hr with
  | nil => cases hclose
  | @snoc hist s s' e hb hs ih =>
    obtain hold | hl:=mem_append.mp hclose
    · obtain ⟨hsilent,hm⟩:=ih (fun entry he => ho entry (mem_append_left _ he)) hold
      obtain ⟨hsilent',hm'⟩:=hsilent.move (step_move hs)
      exact ⟨hsilent',hm'.trans hm⟩
    · cases mem_singleton.mp hl
      exact silent_of_close (consistent hb.reachable) hs (ho _ hclose)

/-- Each client is accepted first, closed at most once and not heard of after that, nor after the
host has closed it. -/
theorem callbacks_of_run {hist : List (Protocol V × Event)}
    (hr : Run (step env) (create env) hist s)
    (ho : ∀ entry∈hist,InOrder entry.1 entry.2) (c : ℕ) :
    (∃ startIndex numClients status,startIndex≤c ∧ c<startIndex+numClients ∧
      s.callbacks.filter (concerns c) <+:
        [.onAcceptClients startIndex numClients,.onCloseClient c status]) ∧
    ∀ s₀ clientStatus,(s₀,.closeClient c clientStatus)∈hist →
      s.callbacks.filter (concerns c)=s₀.callbacks.filter (concerns c) := by
  refine ⟨(staged_of_run hr ho c).made_initial,fun s₀ clientStatus hclose => ?_⟩
  exact (silent_of_run hr ho hclose).2

theorem callbacks_of_run_two : ∃ hist s,Run (step sumEnv) (create sumEnv) hist s ∧
      s.callbacks=[.onAcceptClients 0 2,.onCloseClient 0 .okStatus,.onComplete [5]] ∧
      ∀ c,∃ startIndex numClients status,startIndex≤c ∧
        c<startIndex+numClients ∧ s.callbacks.filter (concerns c) <+:
          [.onAcceptClients startIndex numClients,.onCloseClient c status] := by
  obtain ⟨hist,s,hr,-,ho,ht⟩:=exists_recorded (step sumEnv) (create sumEnv)
    [.start 2,.makeCallback 0,.receiveClientMessage 0 (.inlineBytes [2,3]),.aggregate 0,
      .record 0,.closeClient 1 .okStatus,.complete,.makeCallback 1]
    (P := fun hist s => (∀ entry∈hist,InOrder entry.1 entry.2) ∧
      s.callbacks=[.onAcceptClients 0 2,.onCloseClient 0 .okStatus,.onComplete [5]])
    (by decide +kernel)
  exact ⟨hist,s,hr,ht,fun c => (callbacks_of_run hr ho c).1⟩

/-- `Abort` closes a client before `AddClients` has announced it, and a client is told that it is
closed although the host closed it while its message was being processed. -/
theorem callbacks_out_of_order : (∃ hist s,Run (step sumEnv) (create sumEnv) hist s ∧
      s.callbacks=[.onCloseClient 0 closedByAbort,.onAcceptClients 0 1]) ∧
    ∃ hist s s₀,Run (step sumEnv) (create sumEnv) hist s ∧
      (s₀,.closeClient 0 .okStatus)∈hist ∧ s₀.callbacks=[.onAcceptClients 0 1] ∧
      s.callbacks=[.onAcceptClients 0 1,.onCloseClient 0 .okStatus] := by
  constructor
  · exact exists_run _ _ [.start 0,.addClients 1,.abort,.makeCallback 1,.makeCallback 0]
      (by decide +kernel)
  · obtain ⟨hist,s,hr,-,⟨s₀,_⟩,hm,rfl,hb,ha⟩:=exists_recorded (step sumEnv) (create sumEnv)
      [.start 1,.makeCallback 0,.receiveClientMessage 0 (.inlineBytes [2,3]),
        .closeClient 0 .okStatus,.aggregate 0,.record 0]
      (P := fun hist s => ∃ entry∈hist,entry.2=.closeClient 0 .okStatus ∧
        entry.1.callbacks=[.onAcceptClients 0 1] ∧
        s.callbacks=[.onAcceptClients 0 1,.onCloseClient 0 .okStatus]) (by decide +kernel)
    exact ⟨hist,s,s₀,hr,hm,hb,ha⟩

end Fcp.Aggregation.Protocol

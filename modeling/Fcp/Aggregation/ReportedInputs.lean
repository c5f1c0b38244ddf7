import Fcp.Aggregation.ClosedClients
import Fcp.Lib.Tally

/-!
# Which inputs are in the result

The aggregators hold the inputs of the clients that are completed and of those whose call has still
to record its outcome.
-/

namespace Fcp.Aggregation

open List

variable {V : Type} {env : ProtocolEnv V}

namespace Intrinsic

variable (k : Intrinsic V) (inputs : List (TensorMap V))

def dataOf : V := inputs.foldl (fun data tensorMap =>
    match tensorMap.lookup k.input.name with
    | none => data
    | some tensor => k.aggregateVector data tensor.data) k.initialData

def aggregateOf : Tensor V := ⟨k.input.dtype,k.input.shape,k.dataOf inputs⟩

def Fits (tensorMap : TensorMap V) : Prop :=
  ∃ tensor,tensorMap.lookup k.input.name=some tensor ∧ tensor.dtype=k.input.dtype ∧
    tensor.shape=k.input.shape

end Intrinsic

theorem parseTensor_eq_ok {getTensor : String → StatusOr (Tensor V)} {k : Intrinsic V}
    {e : String × Tensor V} (h : parseTensor getTensor k=.ok e) :
    e.1=k.input.name ∧ getTensor k.input.name=.ok e.2 ∧ e.2.dtype=k.input.dtype ∧
      e.2.shape=k.input.shape := by
  obtain ⟨t,ht,h⟩:=bind_eq_ok.mp h
  split at h
  · cases h
  next hs =>
    cases h
    exact ⟨rfl,ht,by tauto,by tauto⟩

variable {tensorMap : TensorMap V}

theorem parseCheckpoint_fits {rep : Bytes} (h : parseCheckpoint env rep=.ok tensorMap) :
    ∀ k∈env.intrinsics,k.Fits tensorMap := by
  intro k hk
  simp only [parseCheckpoint,bind_eq_ok,pure_eq_ok] at h
  obtain ⟨getTensor,-,es,he,rfl⟩:=h
  obtain ⟨e,hm,hp⟩:=exists_of_mapM_eq_ok he hk
  obtain ⟨hn,ht,hd,hs⟩:=parseTensor_eq_ok hp
  -- all entries of this name were read from the same place
  obtain ⟨t,hl⟩:=NameMap.exists_lookup_ofEntries hm
  rw [hn] at hl
  obtain ⟨k',-,hp'⟩:=mem_of_mapM_eq_ok he (NameMap.mem_of_lookup_ofEntries hl)
  obtain ⟨hn',ht',-,-⟩:=parseTensor_eq_ok hp'
  rw [← hn',ht] at ht'
  cases ht'
  exact ⟨e.2,hl,hd,hs⟩

variable {ks : List (Intrinsic V)}

theorem accumulateAll_eq (hf : ∀ k∈ks,k.Fits tensorMap) (ins : List (TensorMap V)) :
    accumulateAll tensorMap ks (ks.map fun k => some (k.aggregateOf ins)) =
      .ok (.okStatus,ks.map fun k => some (k.aggregateOf (ins++[tensorMap]))) := by
  induction ks with
  | nil => rfl
  | cons k ks ih =>
    obtain ⟨t,hl,hd,hs⟩:=hf k mem_cons_self
    have hr:=ih fun k' hk' => hf k' (mem_cons_of_mem _ hk')
    rw [map_cons,accumulateAll,hl]
    have ha : k.accumulate (some (k.aggregateOf ins)) t =
        .ok (k.aggregateOf (ins++[tensorMap])) := by
      simp [Intrinsic.accumulate,Intrinsic.aggregateOf,hd,hs,Intrinsic.dataOf,hl]
    simp only [ha,hr,ok_bind]
    rfl

theorem accumulateAll_none {rs results' : List (ResultTensor V)} {st : Status}
    (h : accumulateAll tensorMap ks rs=.ok (st,results')) (hn : none∈rs) :
    none∈results' := by
  induction ks generalizing rs results' st with
  | nil =>
    cases h
    exact hn
  | cons k ks ih =>
    cases rs with
    | nil => cases hn
    | cons result rs =>
      rw [accumulateAll] at h
      cases hl : tensorMap.lookup k.input.name with
      | none =>
        rw [hl] at h
        cases h
      | some tensor =>
        simp only [hl] at h
        cases ha : k.accumulate result tensor with
        | error e =>
          rw [ha] at h
          cases h
          exact hn
        | ok t =>
          rw [ha] at h
          obtain ⟨⟨status',rest⟩,hrest,⟨⟩⟩:=bind_eq_ok.mp h
          obtain hr | hm:=mem_cons.mp hn
          · rw [← hr] at ha
            cases ha
          · exact mem_cons_of_mem _ (ih hrest hm)

theorem reportAll_eq_ok {T : Intrinsic V → Tensor V} {added : List (String × Tensor V)}
    {rep : StatusOr (List (String × Tensor V))} {rs : List (ResultTensor V)}
    (h : reportAll env added ks (ks.map fun k => some (T k))=.ok (rep,rs)) :
    (∀ ts,rep=.ok ts → ts=added++ks.map fun k => (k.output.name,T k)) ∧
    (ks=[] ∨ none∈rs) := by
  induction ks generalizing added rep rs with
  | nil =>
    cases h
    refine ⟨fun ts ht => ?_,.inl rfl⟩
    cases ht
    simp
  | cons k ks ih =>
    rw [map_cons,reportAll] at h
    simp only [bind_eq_ok] at h
    obtain ⟨-,-,-,-,h⟩:=h
    split at h
    · cases h
      exact ⟨nofun,.inr mem_cons_self⟩
    · obtain ⟨⟨report',rest⟩,hr,⟨⟩⟩:=bind_eq_ok.mp h
      refine ⟨fun ts ht => ?_,.inr mem_cons_self⟩
      rw [(ih hr).1 ts ht]
      simp

namespace Protocol

variable {s s' : Protocol V}

def Counted (s : Protocol V) (client : ℕ) : Prop := s.clientStates[client]?=some .completed ∨
    (s.clientStates[client]?=some .receivedInputAndPending ∧
      ∃ message status,s.calls client=some ⟨message,.aggregated status .completed⟩)

/-- Nobody is between the aggregation and the record of its outcome. -/
def Quiet (s : Protocol V) : Prop :=
  ∀ client message status,s.calls client≠some ⟨message,.aggregated status .completed⟩

structure Inputs (env : ProtocolEnv V) (s : Protocol V) (inputs : List (ℕ × TensorMap V)) :
    Prop where
  nodup : (inputs.map Prod.fst).Nodup
  read : ∀ e∈inputs,∃ call,s.calls e.1=some call ∧ readInput env e.1 call.message=.ok e.2

def checkpointOf (env : ProtocolEnv V) (inputs : List (ℕ × TensorMap V)) :
    List (String × Tensor V) :=
  env.intrinsics.map fun k => (k.output.name,k.aggregateOf (inputs.map Prod.snd))

/-- While the protocol is started the aggregators hold the inputs of the counted clients, unless
a failed `CreateReport` has emptied one of them. -/
def Accounted (env : ProtocolEnv V) (s : Protocol V) : Prop := none∈s.results ∨
    ∃ inputs,Inputs env s inputs ∧ (∀ client,client∈inputs.map Prod.fst ↔ Counted s client) ∧
      s.results=env.intrinsics.map (fun k => some (k.aggregateOf (inputs.map Prod.snd))) ∧
      (s.aggregationFinished=true → env.intrinsics=[])

def Released (env : ProtocolEnv V) (s : Protocol V) : Prop := ∃ inputs,Inputs env s inputs ∧
    (∀ client,client∈inputs.map Prod.fst ↔ s.clientStates[client]?=some .completed) ∧
    ∀ result,.onComplete result∈s.log → env.buildCheckpoint (checkpointOf env inputs)=.ok result

structure Accounts (env : ProtocolEnv V) (s : Protocol V) : Prop where
  fresh : s.protocolState=.created → s.aggregationFinished=false ∧
    s.results=env.intrinsics.map Intrinsic.createAggregator
  running : s.protocolState=.started → Accounted env s
  unreleased : s.protocolState≠.completed → ∀ result,.onComplete result∉s.log
  released : s.protocolState=.completed → Released env s

theorem accounts_create : Accounts env (create env) where
  fresh _ := ⟨rfl,rfl⟩
  running h := nomatch h
  unreleased _ _ h := absurd h not_mem_nil
  released h := nomatch h

theorem Inputs.congr {ins : List (ℕ × TensorMap V)} (h : Inputs env s ins)
    (hc : ∀ e∈ins,∀ call,s.calls e.1=some call →
      ∃ call',s'.calls e.1=some call' ∧ call'.message=call.message) :
    Inputs env s' ins where
  nodup := h.nodup
  read e he := by
    obtain ⟨call,hcall,hr⟩:=h.read e he
    obtain ⟨call',hcall',hm⟩:=hc e he call hcall
    exact ⟨call',hcall',hm ▸ hr⟩

theorem Accounted.frame (h : Accounted env s) (hr : s'.results=s.results)
    (hf : s'.aggregationFinished=s.aggregationFinished)
    (hcounted : ∀ c,Counted s' c ↔ Counted s c)
    (hcalls : ∀ c call,Counted s c → s.calls c=some call →
      ∃ call',s'.calls c=some call' ∧ call'.message=call.message) :
    Accounted env s' := by
  obtain hn | ⟨ins,hi,hc,ha,ho⟩:=h
  · exact .inl (hr ▸ hn)
  · refine .inr ⟨ins,hi.congr fun e he call hcall => ?_,?_,?_,?_⟩
    · exact hcalls e.1 call ((hc e.1).mp (mem_map_of_mem he)) hcall
    · exact fun c => (hc c).trans (hcounted c).symm
    · rw [hr,ha]
    · rw [hf]
      exact ho

variable {c : ℕ} {state : ClientState}

theorem not_open_of_completed (hc : Consistent s) (hp : s.protocolState=.completed)
    (hs : s.clientStates[c]?=some state) (ho : isOpen state=true) : False := by
  have hclosed:=hc.finished hp state (mem_of_getElem? hs)
  cases ho.symm.trans hclosed

theorem Released.frame (h : Released env s) (hs : s'.clientStates=s.clientStates)
    (hl : ∀ callback,callback∈s'.log → callback∈s.log)
    (hc : ∀ c call,s.calls c=some call →
      ∃ call',s'.calls c=some call' ∧ call'.message=call.message) :
    Released env s' := by
  obtain ⟨ins,hi,hclients,hr⟩:=h
  refine ⟨ins,hi.congr fun e _ call hcall => hc e.1 call hcall,?_,?_⟩
  · rw [hs]
    exact hclients
  · exact fun result hm => hr result (hl _ hm)

variable {msg : ClientMessage} {calls : ℕ → Option Call} {n : ℕ} {owed : List (List Callback)}

theorem update_message {phase phase' : CallPhase}
    (hc : calls c=some ⟨msg,phase⟩) (other : ℕ) (call : Call)
    (ho : calls other=some call) :
    ∃ call',Function.update calls c (some ⟨msg,phase'⟩) other=some call' ∧
      call'.message=call.message := by
  by_cases heq : other=c
  · subst heq
    cases hc.symm.trans ho
    exact ⟨_,Function.update_self ..,rfl⟩
  · exact ⟨call,by rw [Function.update_of_ne heq,ho],rfl⟩

variable {st : Status} {rs : List (ResultTensor V)}

theorem counted_aggregate (hr : s.clientStates[c]?=some .receivedInputAndPending) (other : ℕ) :
    Counted { s with
        results := rs
        calls := Function.update s.calls c (some ⟨msg,.aggregated st state⟩) } other ↔
      (other=c ∧ state=.completed) ∨ (other≠c ∧ Counted s other) := by
  by_cases heq : other=c
  · subst heq
    simp [Counted,hr]
  · simp [Counted,heq]

theorem aggregateClientInput_eq {ins : List (TensorMap V)}
    (hread : readInput env c msg=.ok tensorMap)
    (hc : aggregateClientInput env s tensorMap=.ok (st,rs))
    (hr : s.results=env.intrinsics.map fun k => some (k.aggregateOf ins))
    (hf : s.aggregationFinished=true → env.intrinsics=[]) :
    st=.okStatus ∧ rs=env.intrinsics.map fun k => some (k.aggregateOf (ins++[tensorMap])) := by
  obtain ⟨rep,-,hp⟩:=bind_eq_ok.mp hread
  unfold aggregateClientInput at hc
  split at hc
  next hfin =>
    cases hc
    rw [hr,hf hfin]
    exact ⟨rfl,rfl⟩
  · rw [hr,accumulateAll_eq (parseCheckpoint_fits hp)] at hc
    cases hc
    exact ⟨rfl,rfl⟩

theorem aggregateClientInput_none (hc : aggregateClientInput env s tensorMap=.ok (st,rs))
    (hn : none∈s.results) : none∈rs := by
  unfold aggregateClientInput at hc
  split at hc
  · cases hc
    exact hn
  · exact accumulateAll_none hc hn

theorem Accounted.aggregate (h : Accounted env s)
    (hr : s.clientStates[c]?=some .receivedInputAndPending)
    (hcall : s.calls c=some ⟨msg,.marked⟩)
    (haggregate : Aggregates env s c msg st state rs) :
    Accounted env { s with
      results := rs
      calls := Function.update s.calls c (some ⟨msg,.aggregated st state⟩) } := by
  have hnot : ¬Counted s c := by simp [Counted,hr,hcall]
  cases haggregate with
  | unreadable =>
    refine h.frame rfl rfl (fun other => ?_) fun other call _ => update_message hcall other call
    rw [counted_aggregate hr]
    constructor
    · rintro (⟨-,hs⟩ | ⟨-,hc⟩)
      · cases hs
      · exact hc
    · exact fun hc => .inr ⟨fun heq => hnot (heq ▸ hc),hc⟩
  | @aggregated tensorMap _ _ hread ha =>
    obtain hn | ⟨ins,hi,hclients,hresults,hf⟩:=h
    · exact .inl (aggregateClientInput_none ha hn)
    · obtain ⟨rfl,rfl⟩:=aggregateClientInput_eq hread ha hresults hf
      have hnew : c∉ins.map Prod.fst := fun hmem => hnot ((hclients c).mp hmem)
      refine .inr ⟨ins++[(c,tensorMap)],⟨?_,?_⟩,?_,?_,hf⟩
      · rw [map_append,map_singleton]
        exact hi.nodup.append (nodup_singleton c) (disjoint_singleton.mpr hnew)
      · intro e he
        obtain he | he:=mem_append.mp he
        · obtain ⟨call,hc',hr'⟩:=hi.read e he
          obtain ⟨call',hc'',hm⟩:=update_message hcall e.1 call hc'
          exact ⟨call',hc'',hm ▸ hr'⟩
        · rw [mem_singleton.mp he]
          exact ⟨_,Function.update_self ..,hread⟩
      · intro other
        rw [counted_aggregate hr,map_append,mem_append,hclients]
        simp only [map_singleton,mem_singleton,Status.okStatus,if_true,and_true]
        constructor
        · rintro (hc | heq)
          · exact .inr ⟨fun heq => hnot (heq ▸ hc),hc⟩
          · exact .inl heq
        · rintro (heq | ⟨-,hc⟩)
          · exact .inr heq
          · exact .inl hc
      · rw [map_append,map_singleton]

variable {s₁ : Protocol V}

theorem Accounted.change {new : ClientState} (h : Accounted env s)
    (hset : s.setClientState c new=.ok s₁)
    {callbacks : List Callback} (ho : ∀ other,other≠c → calls other=s.calls other)
    (hclient : Counted { s₁ with calls, callbacks } c ↔ Counted s c)
    (hcall : Counted s c → ∀ call,s.calls c=some call →
      ∃ call',calls c=some call' ∧ call'.message=call.message) :
    Accounted env { s₁ with
      calls := calls
      callbacks := callbacks } := by
  obtain ⟨_,_,-,hstates,hs,-⟩:=setClientState_eq_ok hset
  refine h.frame hs.results hs.aggregationFinished (fun other => ?_) ?_
  · by_cases heq : other=c
    · rw [heq,hclient]
    · simp [Counted,hstates,getElem?_set_ne (Ne.symm heq),ho other heq]
  · intro other call hc hc'
    by_cases heq : other=c
    · rw [heq] at hc hc'
      rw [heq]
      exact hcall hc call hc'
    · exact ⟨call,(ho other heq).trans hc',rfl⟩

variable {result : Bytes}

theorem createReport_ok (h : s.createReport env=.ok (s₁,.ok result)) : ∃ ts rs,none∉s.results ∧
      reportAll env [] env.intrinsics s.results=.ok (.ok ts,rs) ∧
      env.buildCheckpoint ts=.ok result ∧
      s₁={ s with
        results := rs
        aggregationFinished := true } := by
  unfold createReport at h
  split at h
  · cases h
  next ha =>
    obtain ⟨⟨ts,rs⟩,hr,h⟩:=bind_eq_ok.mp h
    cases ts with
    | error st => cases h
    | ok ts =>
      simp only [pure_eq_ok,Prod.mk.injEq] at h
      refine ⟨ts,rs,fun hn => ?_,hr,h.2,h.1.symm⟩
      exact ha (any_eq_true.mpr ⟨none,hn,rfl⟩)

theorem Accounted.reportFails (h : Accounted env s)
    (hr : s.createReport env=.ok (s₁,.error st)) : Accounted env s₁ := by
  unfold createReport at hr
  split at hr
  · cases hr
    exact h
  next hany =>
    obtain ⟨⟨ts,rs⟩,ha,hr⟩:=bind_eq_ok.mp hr
    obtain hn | ⟨ins,hi,hclients,hresult,hf⟩:=h
    · exact absurd (any_eq_true.mpr ⟨none,hn,rfl⟩) hany
    · have hs₁ : s₁.results=rs ∧ s₁.calls=s.calls ∧ s₁.clientStates=s.clientStates := by
        cases ts <;> simp only [pure_eq_ok,Prod.mk.injEq] at hr <;>
          obtain ⟨rfl,-⟩:=hr <;> exact ⟨rfl,rfl,rfl⟩
      obtain ⟨hresults,hc,hs⟩:=hs₁
      rw [hresult] at ha
      obtain he | hn:=(reportAll_eq_ok ha).2
      · refine .inr ⟨ins,hi.congr fun e _ call hcall => ?_,?_,?_,fun _ => he⟩
        · exact ⟨call,hc ▸ hcall,rfl⟩
        · simpa only [Counted,hc,hs] using hclients
        · rw [he] at ha
          cases ha
          rw [hresults,he]
      · exact .inl (hresults ▸ hn)

theorem Accounted.complete {s₂ : Protocol V} (h : Accounted env s) (hq : Quiet s)
    (hr : s.createReport env=.ok (s₁,.ok result))
    (hclose : closeClients closingOfComplete (List.range s₁.clientStates.length)
      { s₁ with protocolState := .completed }=.ok s₂)
    (hl : ∀ result,.onComplete result∉s.log) {closed : List Callback}
    (hclosed : ∀ result,.onComplete result∉closed) :
    Released env (s₂.owe (closed++[.onComplete result])) := by
  obtain ⟨ts,rs,hn,ha,hb,rfl⟩:=createReport_ok hr
  obtain ⟨hs,-,hstates⟩:=closeAll_eq_ok hclose rfl
  obtain hn' | ⟨ins,hi,hclients,hresult,-⟩:=h
  · exact absurd hn' hn
  refine ⟨ins,?_,fun c => ?_,fun result' hm => ?_⟩
  · exact hi.congr fun e _ call hc => ⟨call,by rw [owe,hs.calls,hc],rfl⟩
  · -- a counted client is completed, since nobody waits for its record
    have hcounted : Counted s c ↔ s.clientStates[c]?=some .completed := by
      constructor
      · rintro (hcompleted | ⟨-,msg,st,hc⟩)
        · exact hcompleted
        · exact absurd hc (hq c msg st)
      · exact .inl
    rw [hclients,hcounted,owe,hstates,getElem?_map]
    cases hstate : s.clientStates[c]? with
    | none => simp
    | some state => cases state <;> simp [closingOfComplete]
  · have hresults : result'=result := by
      obtain ho | hnew:=mem_log_owe.mp hm
      · rw [log,hs.callbacks,hs.owed] at ho
        exact absurd ho (hl result')
      · simpa [hclosed result'] using hnew
    rw [hresult] at ha
    have ht:=(reportAll_eq_ok ha).1 ts rfl
    rw [hresults,checkpointOf,← hb,ht,nil_append]

variable {e : Event}

theorem Move.onComplete (h : Move env s e s') (hm : .onComplete result∈s'.log) :
    .onComplete result∈s.log ∨ e=.complete ∧ s'.protocolState=.completed := by
  cases h with
  | unchanged | aggregate | recordLate => exact .inl hm
  | start =>
    refine .inl ((mem_log_append.mp hm).resolve_right ?_)
    split <;> simp
  | addClients => exact .inl ((mem_log_append.mp hm).resolve_right (by simp))
  | mark _ _ _ hset | close _ _ _ hset =>
    obtain ⟨-,-,-,-,hs,-⟩:=setClientState_eq_ok hset
    rw [log,hs.callbacks,hs.owed] at hm
    exact .inl hm
  | record _ _ hset =>
    obtain ⟨-,-,-,-,hs,-⟩:=setClientState_eq_ok hset
    rw [log,hs.callbacks,hs.owed] at hm
    left
    simpa [log] using hm
  | reportFails _ hr =>
    obtain ⟨_,_,rfl⟩:=createReport_eq_ok hr
    exact .inl hm
  | complete _ _ hc => exact .inr ⟨rfl,(closeAll_eq_ok hc rfl).1.protocolState⟩
  | abort _ hc =>
    obtain ⟨hs,-,-⟩:=closeAll_eq_ok hc rfl
    obtain hold | hn:=mem_log_owe.mp hm
    · rw [log,hs.callbacks,hs.owed] at hold
      exact .inl hold
    · simp at hn
  | callback ho => exact .inl ((mem_log_set ho).mp hm)

theorem counted_of_pending (h : s.clientStates[c]?=some .pending) :
    ¬Counted s c := by simp [Counted,h]

theorem counted_append (c : ℕ) : Counted { s with
        clientStates := s.clientStates++List.replicate n .pending
        owed := owed } c ↔ Counted s c := by
  by_cases hlt : c<s.clientStates.length
  · simp [Counted,getElem?_append_left hlt]
  · have hn : s.clientStates[c]?=none := getElem?_eq_none (by omega)
    have hnew : ∀ state,(s.clientStates++List.replicate n .pending)[c]?=some state →
        state=.pending := by
      intro state hs
      rw [getElem?_append_right (by omega)] at hs
      exact eq_of_mem_replicate (mem_of_getElem? hs)
    constructor
    · rintro (hs | ⟨hs,-⟩) <;> cases hnew _ hs
    · rintro (hs | ⟨hs,-⟩) <;> rw [hn] at hs <;> cases hs

theorem Accounted.move (h : Accounted env s) (hc : Consistent s)
    (hstarted : s.protocolState=.started) (hm : Move env s e s')
    (hstarted' : s'.protocolState=.started) : Accounted env s' := by
  cases hm with
  | unchanged => exact h
  | start hcreated => exact absurd (hstarted.symm.trans hcreated) nofun
  | addClients => exact h.frame rfl rfl counted_append fun c call _ hcall => ⟨call,hcall,rfl⟩
  | @mark id msg s₁ _ hp _ hset =>
    obtain ⟨-,-,-,hstates,hs,-⟩:=setClientState_eq_ok hset
    have hn:=counted_of_pending hp
    have hlt:=(List.getElem?_eq_some_iff.mp hp).1
    refine h.change hset (fun other ho => by rw [Function.update_of_ne ho,hs.calls])
      (iff_of_false ?_ hn) fun hcounted => absurd hcounted hn
    simp [Counted,hstates,getElem?_set_self hlt]
  | aggregate hcall haggregates =>
    exact h.aggregate (hc.phases hstarted _ _ hcall nofun) hcall haggregates
  | @record c msg st state s₁ hcall hr hset =>
    obtain ⟨-,-,-,hstates,hs,-⟩:=setClientState_eq_ok hset
    have hlt:=(List.getElem?_eq_some_iff.mp hr).1
    refine h.change hset (fun other ho => by rw [Function.update_of_ne ho,hs.calls])
      ?_ fun _ call hc' => ?_
    · simp [Counted,hstates,getElem?_set_self hlt,hr,hcall]
    · rw [hs.calls]
      exact update_message hcall c call hc'
  | recordLate hcall hclosed => exact absurd (hc.phases hstarted _ _ hcall nofun) hclosed
  | @close id clientStatus s₁ _ hp _ hset =>
    obtain ⟨-,-,-,hstates,hs,-⟩:=setClientState_eq_ok hset
    have hn:=counted_of_pending hp
    have hlt:=(List.getElem?_eq_some_iff.mp hp).1
    refine h.frame hs.results hs.aggregationFinished (fun other => ?_)
      fun other call _ hcall => ⟨call,hs.calls ▸ hcall,rfl⟩
    by_cases heq : id.toNat=other
    · subst heq
      refine iff_of_false ?_ hn
      simp only [Counted,hstates,getElem?_set_self hlt]
      split <;> simp
    · simp [Counted,hstates,getElem?_set_ne heq,hs.calls]
  | reportFails _ hreport => exact h.reportFails hreport
  | complete _ _ hclose =>
    have hcompleted:=(closeAll_eq_ok hclose rfl).1.protocolState
    exact absurd (hcompleted.symm.trans hstarted') nofun
  | abort _ hclose =>
    have ha:=(closeAll_eq_ok hclose rfl).1.protocolState
    exact absurd (ha.symm.trans hstarted') nofun
  | callback => exact h.frame rfl rfl (fun _ => Iff.rfl) fun c call _ hcall => ⟨call,hcall,rfl⟩

theorem Released.move (h : Released env s) (hc : Consistent s)
    (hcompleted : s.protocolState=.completed) (hm : Move env s e s') :
    Released env s' := by
  have hsame : ∀ c call,s.calls c=some call →
      ∃ call',s.calls c=some call' ∧ call'.message=call.message :=
    fun c call hcall => ⟨call,hcall,rfl⟩
  cases hm with
  | unchanged => exact h
  | start hcreated => exact absurd (hcompleted.symm.trans hcreated) nofun
  | addClients hs | reportFails hs | complete hs | abort hs =>
    exact absurd (hcompleted.symm.trans hs) nofun
  | mark _ hp | close _ hp => exact (not_open_of_completed hc hcompleted hp rfl).elim
  | record _ hr => exact (not_open_of_completed hc hcompleted hr rfl).elim
  | aggregate hcall => exact h.frame rfl (fun _ hmem => hmem) (update_message hcall)
  | recordLate hcall => exact h.frame rfl (fun _ hmem => hmem) (update_message hcall)
  | callback ho => exact h.frame rfl (fun _ hmem => (mem_log_set ho).mp hmem) hsame

theorem accounted_start (hf : s.aggregationFinished=false)
    (hr : s.results=env.intrinsics.map Intrinsic.createAggregator) :
    Accounted env { s with
      protocolState := .started
      clientStates := List.replicate n .pending
      owed := owed } := by
  refine .inr ⟨[],⟨nodup_nil,fun e he => absurd he not_mem_nil⟩,fun c => ?_,
    hr,fun hfin => absurd (hf ▸ hfin) Bool.false_ne_true⟩
  refine iff_of_false not_mem_nil ?_
  rintro (hs | ⟨hs,-⟩) <;> cases eq_of_mem_replicate (mem_of_getElem? hs)

theorem fresh_move (hc : Consistent s) (hcreated : s.protocolState=.created)
    (hm : Move env s e s') :
    s'.aggregationFinished=s.aggregationFinished ∧ s'.results=s.results := by
  obtain ⟨he,hcalls⟩:=hc.created hcreated
  cases hm with
  | unchanged | start | callback | recordLate => exact ⟨rfl,rfl⟩
  | addClients hs | reportFails hs | complete hs | abort hs =>
    exact absurd (hcreated.symm.trans hs) nofun
  | mark hr | close hr => exact absurd hcreated hr
  | @aggregate c _ _ _ _ hcall | @record c _ _ _ _ hcall =>
    rw [hcalls c] at hcall
    cases hcall

def Fresh (env : ProtocolEnv V) (s : Protocol V) : Prop :=
  s.aggregationFinished=false ∧ s.results=env.intrinsics.map Intrinsic.createAggregator

theorem Fresh.move (h : s.protocolState=.created → Fresh env s) (hc : Consistent s)
    (hm : Move env s e s') (hcreated' : s'.protocolState=.created) : Fresh env s' := by
  have hp:=hm.protocolState
  rw [hcreated'] at hp
  have hcreated : s.protocolState=.created := by simpa [eq_comm] using hp
  obtain ⟨hf,hr⟩:=fresh_move hc hcreated hm
  rw [Fresh,hf,hr]
  exact h hcreated

theorem accounted_of_move (hf : s.protocolState=.created → Fresh env s)
    (hrun : s.protocolState=.started → Accounted env s) (hc : Consistent s)
    (hm : Move env s e s') (hs' : s'.protocolState=.started) : Accounted env s' := by
  have hp:=hm.protocolState
  rw [hs'] at hp
  obtain hs | ⟨hcreated,-⟩ | ⟨-,he⟩:=hp
  · exact (hrun hs.symm).move hc hs.symm hm hs'
  · obtain ⟨hfin,hr⟩:=hf hcreated
    cases hm with
    | start => exact accounted_start hfin hr
    | unchanged | callback | recordLate | aggregate => exact absurd (hcreated.symm.trans hs') nofun
    | addClients hs | reportFails hs | complete hs | abort hs =>
      exact absurd (hcreated.symm.trans hs) nofun
    | mark hrun | close hrun => exact absurd hcreated hrun
    | record _ _ hset =>
      obtain ⟨-,-,-,-,hsame,-⟩:=setClientState_eq_ok hset
      exact absurd (hcreated.symm.trans (hsame.protocolState.symm.trans hs')) nofun
  · simp at he

theorem Accounts.move (h : Accounts env s) (hc : Consistent s)
    (hq : e=.complete → Quiet s) (hm : Move env s e s') : Accounts env s' := by
  have hp:=hm.protocolState
  constructor
  · exact Fresh.move h.fresh hc hm
  · exact accounted_of_move h.fresh h.running hc hm
  · intro hn result hmem
    have ho:=(hm.onComplete hmem).resolve_right fun hend => hn hend.2
    refine h.unreleased (fun hcompleted => hn ?_) result ho
    rw [hcompleted] at hp
    simpa using hp
  · intro hcompleted'
    rw [hcompleted'] at hp
    obtain hcompleted | ⟨-,hs⟩ | ⟨hs,he⟩:=hp
    · exact (h.released hcompleted.symm).move hc hcompleted.symm hm
    · cases hs
    · obtain ha | ⟨rfl,-⟩:=he
      · cases ha
      · have hu:=h.unreleased (hs ▸ nofun)
        cases hm with
        | unchanged => exact absurd (hs.symm.trans hcompleted') nofun
        | reportFails _ hr =>
          obtain ⟨_,_,rfl⟩:=createReport_eq_ok hr
          exact absurd (hs.symm.trans hcompleted') nofun
        | complete _ hr hclose =>
          exact (h.running hs).complete (hq rfl) hr hclose hu fun result => by simp

abbrev History (V : Type) := List (Protocol V × Event)

theorem accounts_of_run {hist : History V} (h : Run (step env) (create env) hist s)
    (hq : ∀ entry∈hist,entry.2=.complete → Quiet entry.1) : Accounts env s := by
  induction h with
  | nil => exact accounts_create
  | snoc hr hs ih =>
    have ha:=ih fun entry he => hq entry (mem_append_left _ he)
    have hl:=hq _ (mem_append_right _ (mem_singleton.mpr rfl))
    exact ha.move (consistent hr.reachable) hl (step_move hs)

/-- If `Complete` is never taken while a client is between the aggregation of its input and the
record of the outcome, then a result that is passed to `OnComplete` is the aggregate of the inputs
of exactly the completed clients, these are the clients counted as aggregated, and none of them
is closed with an error. -/
theorem result_of_run {history : History V} (h : Run (step env) (create env) history s)
    (hq : ∀ entry∈history,entry.2=.complete → Quiet entry.1) {result : Bytes}
    (hr : .onComplete result∈s.log) :
    ∃ inputs,Inputs env s inputs ∧
      (∀ c,c∈inputs.map Prod.fst ↔ s.clientStates[c]?=some .completed) ∧
      s.numClientsAggregated=inputs.length ∧
      env.buildCheckpoint (checkpointOf env inputs)=.ok result ∧
      ∀ c∈inputs.map Prod.fst,∀ st,.onCloseClient c st∈s.log → st.code=.ok := by
  have hconsistent:=consistent h.reachable
  have ha:=accounts_of_run h hq
  have hcompleted : s.protocolState=.completed := by
    by_contra hn
    exact ha.unreleased hn result hr
  obtain ⟨inputs,hi,hc,hb⟩:=ha.released hcompleted
  refine ⟨inputs,hi,hc,?_,hb result hr,?_⟩
  · rw [hconsistent.counters.aggregated,count_eq_length hi.nodup hc,length_map]
  · intro c hclients st hm
    obtain ⟨state,hs,-,hstate⟩:=hconsistent.closed c st hm
    rw [(hc c).mp hclients] at hs
    cases hs
    exact hstate rfl

theorem result_of_run_sum : ∃ history s inputs,Run (step sumEnv) (create sumEnv) history s ∧
      .onComplete [5]∈s.log ∧ Inputs sumEnv s inputs ∧ s.clientStates=[.completed] ∧
      sumEnv.buildCheckpoint (checkpointOf sumEnv inputs)=.ok [5] := by
  obtain ⟨history,s,hrun,hevents,hstarted,hs,s',hstep,hr,hs'⟩:=exists_recorded
    (step sumEnv) (create sumEnv)
    [.start 1,.receiveClientMessage 0 (.inlineBytes [2,3]),.aggregate 0,.record 0]
    (P := fun _ s => s.protocolState=.started ∧ s.clientStates=[.completed] ∧
      ∃ s',s.step sumEnv .complete=.ok s' ∧ .onComplete [5]∈s'.log ∧ s'.clientStates=[.completed])
    (by decide +kernel)
  have hq : ∀ entry∈history++[(s,Event.complete)],entry.2=.complete → Quiet entry.1 := by
    intro entry he hc c msg st hcall
    obtain ho | hn:=mem_append.mp he
    · have hm : entry.2∈history.map Prod.snd := mem_map_of_mem ho
      rw [hevents,hc] at hm
      simp at hm
    · rw [mem_singleton.mp hn] at hcall
      have hreceived:=(consistent hrun.reachable).phases hstarted c _ hcall nofun
      have hm:=mem_of_getElem? hreceived
      rw [hs] at hm
      simp at hm
  obtain ⟨inputs,hi,-,-,hb,-⟩:=result_of_run (.snoc hrun hstep) hq hr
  exact ⟨_,s',inputs,.snoc hrun hstep,hr,hi,hs',hb⟩

/-- `Complete` runs after a client's input has been aggregated and before its outcome is recorded:
the input is in the result, and the client is discarded, not counted and closed with an error. -/
theorem result_holds_discarded_input : ∃ history s,Run (step sumEnv) (create sumEnv) history s ∧
      .onComplete [5]∈s.log ∧ s.clientStates=[.discarded] ∧ s.numClientsAggregated=0 ∧
      .onCloseClient 0 closedByComplete∈s.log ∧
      sumEnv.buildCheckpoint (checkpointOf sumEnv [])=.ok [0] ∧
      ¬∃ inputs,Inputs sumEnv s inputs ∧
        (∀ c,c∈inputs.map Prod.fst ↔ s.clientStates[c]?=some .completed) ∧
        sumEnv.buildCheckpoint (checkpointOf sumEnv inputs)=.ok [5] := by
  obtain ⟨history,s,hrun,hr,hs,hcount,hclosed⟩:=exists_run (step sumEnv) (create sumEnv)
    [.start 1,.receiveClientMessage 0 (.inlineBytes [2,3]),.aggregate 0,.complete,.record 0]
    (P := fun s => .onComplete [5]∈s.log ∧ s.clientStates=[.discarded] ∧
      s.numClientsAggregated=0 ∧ .onCloseClient 0 closedByComplete∈s.log) (by decide +kernel)
  refine ⟨history,s,hrun,hr,hs,hcount,hclosed,rfl,?_⟩
  rintro ⟨inputs,-,hc,hb⟩
  cases inputs with
  | nil => exact absurd hb (by decide)
  | cons e rest =>
    have hcompleted:=(hc e.1).mp (by simp)
    have hm:=mem_of_getElem? hcompleted
    rw [hs] at hm
    simp at hm

end Protocol
end Fcp.Aggregation

import Fcp.SecAgg.Server.AccumulatorInvariants

/-!
# Accumulators under any schedule

No counter is taken below zero, an idle accumulator holds a fold over the results of all its tasks,
and an observer is called once, after the tasks that were scheduled before it.
-/

namespace Fcp.SecAgg.SecAggScheduler

open TaskPhase List Accumulator TaskPhase

variable {T : Type} {accumulatorFunc : T → T → Checked T} {a a' : Accumulator T} {e : Event T}
  {v₀ : T}

theorem decrementActiveCount_ne_error (h : Counted a) (task : ℕ) (fault : Fault) :
    a.decrementActiveCount task≠.error fault := by
  unfold decrementActiveCount
  split
  next partialValue ho =>
    have ha:=h.active_pos ho rfl
    rw [decide_eq_true ha]
    nofun
  · nofun

theorem startSequential_ne_error (h : Sequenced a) (pos : ℕ) (fault : Fault) :
    a.startSequential pos≠.error fault := by
  unfold startSequential
  split
  · nofun
  next hc _ =>
    have hg:=h.guard
    rw [hc] at hg
    split
    · rw [hg]
      nofun
    · nofun
  · nofun

theorem updateCounts_ne_error (h : Counted a) (fault : Fault) :
    a.updateCountsAndGetCallback≠.error fault := by
  unfold updateCountsAndGetCallback
  split
  · split
    next partialValue ho =>
      obtain ⟨activeCount,ha⟩:=Nat.exists_eq_succ_of_ne_zero (h.active_pos ho rfl).ne'
      obtain ⟨remaining,hr⟩:=Nat.exists_eq_succ_of_ne_zero (h.remaining_pos ho rfl).ne'
      rw [ha,hr]
      intro hf
      simp only [decrement,ok_bind] at hf
      split at hf
      · split at hf <;> cases hf
      · cases hf
    · nofun
  · nofun

variable {fault : Fault} {queue : List SequentialTask} {item : SequentialTask} {new : TaskPhase T}
  {observer : ℕ}

theorem accumulate_eq_error (hc : Counted a) (hf : Folded accumulatorFunc v₀ a)
    (h : a.accumulate accumulatorFunc=.error fault) :
    ∃ (task : ℕ) (v p : T),a.tasks[task]?=some (.accumulating p) ∧
      a.accumulatedValue=some v ∧ accumulatorFunc v p=.error fault := by
  unfold accumulate at h
  split at h
  next task _ =>
    split at h
    next partialValue ho =>
      split at h
      next hn =>
        have ha:=hc.active_pos ho rfl
        rw [(hf.taken hn).2] at ha
        exact absurd ha (lt_irrefl 0)
      next v hv =>
        refine ⟨task,v,partialValue,ho,hv,?_⟩
        cases hfunc : accumulatorFunc v partialValue with
        | error e =>
          rw [hfunc] at h
          cases h
          rfl
        | ok r =>
          rw [hfunc] at h
          cases h
    · cases h
  · cases h

/-- Only `GetResultAndCancel` and the accumulator function itself can end the process. -/
theorem step_eq_error (hc : Counted a) (hs : Sequenced a) (hf : Folded accumulatorFunc v₀ a)
    (h : step accumulatorFunc a e=.error fault) :
    (e=.getResultAndCancel ∧ a.isIdle=false) ∨
    (e=.accumulate ∧ ∃ (task : ℕ) (v p : T),a.tasks[task]?=some (.accumulating p) ∧
      a.accumulatedValue=some v ∧ accumulatorFunc v p=.error fault) := by
  cases e with
  | getResultAndCancel =>
    refine Or.inl ⟨rfl,decide_eq_false fun hi => ?_⟩
    rw [step,getResultAndCancel,decide_eq_true (hc.inactive hi)] at h
    cases h
  | decrementActiveCount task => exact absurd h (decrementActiveCount_ne_error hc _ _)
  | startSequential pos => exact absurd h (startSequential_ne_error hs _ _)
  | accumulate => exact Or.inr ⟨rfl,accumulate_eq_error hc hf h⟩
  | updateCountsAndGetCallback => exact absurd h (updateCounts_ne_error hc _)
  | _ => cases h

theorem Folded.exists_order (h : Folded accumulatorFunc v₀ a) (hc : Counted a)
    (hi : a.isIdle=true) {value : T} (hv : a.accumulatedValue=some value) :
    ∃ rs order : List T,a.tasks=rs.map .finished ∧ order.Perm rs ∧
      order.foldlM accumulatorFunc v₀=.ok value := by
  have hfin : ∀ phase∈a.tasks,∃ p,phase=.finished p := fun phase hp =>
    hc.finished (of_decide_eq_true hi) hp
  have ht : a.tasks=(a.tasks.filterMap summand).map .finished := by
    generalize a.tasks=tasks at hfin
    induction tasks with
    | nil => rfl
    | cons phase tasks ih =>
      obtain ⟨p,rfl⟩:=hfin phase mem_cons_self
      simp only [filterMap_cons,summand,map_cons]
      rw [← ih fun phase hp => hfin phase (mem_cons_of_mem _ hp)]
  obtain ⟨order,hperm,hf⟩:=h.value value hv
  exact ⟨_,order,ht,hperm,hf⟩

theorem Folded.exists_fold (h : Folded accumulatorFunc v₀ a) (hcounted : Counted a)
    (hi : a.isIdle=true) (hc : a.isCancelled=false) :
    ∃ (rs order : List T) (value : T),a.tasks=rs.map .finished ∧
      order.Perm rs ∧ order.foldlM accumulatorFunc v₀=.ok value ∧
      a.accumulatedValue=some value := by
  cases hv : a.accumulatedValue with
  | none =>
    rw [(h.taken hv).1] at hc
    cases hc
  | some value =>
    obtain ⟨rs,order,ht,hp,hf⟩:=h.exists_order hcounted hi hv
    exact ⟨rs,order,value,ht,hp,hf,rfl⟩

def TaskPhase.rank : TaskPhase T → ℕ
  | .delayed => 12
  | .scheduled => 11
  | .generating => 10
  | .generated _ => 9
  | .released _ => 8
  | .continued _ => 7
  | .posted _ => 6
  | .entered _ => 5
  | .accumulating _ => 4
  | .accumulated _ => 3
  | .finished _ | .skipped => 0

def SequentialTask.rank : SequentialTask → ℕ
  | .accumulate _ => 0
  | .observe _ => 3

def SequentialCall.rank : SequentialCall → ℕ
  | .accumulate _ => 0
  | .fetched _ _ => 2
  | .calling _ _ => 1

def Accumulator.workLeft (a : Accumulator T) : ℕ :=
  (a.tasks.map rank).sum+(a.sequentialQueue.map SequentialTask.rank).sum +
    (a.current.elim 0 SequentialCall.rank)+4*a.posting.length

/-- What the caller of an accumulator does, and not its tasks. -/
def Event.isCall : Event T → Bool
  | .schedule _ | .setAsyncObserver | .getResultAndCancel | .cancel | .cancelWakeUp => true
  | _ => false

variable {task : ℕ} {old : TaskPhase T}

theorem sum_rank_set {tasks : List (TaskPhase T)} (ho : tasks[task]?=some old) (new : TaskPhase T) :
    ((tasks.set task new).map rank).sum+old.rank=(tasks.map rank).sum+new.rank := by
  rw [((set_perm_of_getElem? ho new).map _).sum_eq,((perm_of_getElem? ho).map _).sum_eq,
    map_cons,sum_cons,map_cons,sum_cons]
  omega

theorem sum_rank_eraseIdx {pos : ℕ} (hi : queue[pos]?=some item) :
    ((queue.eraseIdx pos).map SequentialTask.rank).sum+item.rank =
      (queue.map SequentialTask.rank).sum := by
  rw [((perm_of_getElem? hi).map _).sum_eq,map_cons,sum_cons]
  omega

theorem PhaseStep.rank_lt {isCancelled : Bool}
    (h : PhaseStep isCancelled old new) : new.rank<old.rank := by
  cases h <;> simp [rank]

theorem workLeft_move (hm : Move accumulatorFunc a e a') (hcall : e.isCall=false) :
    a'=a ∨ a'.workLeft<a.workLeft := by
  unfold workLeft
  cases hm with
  | stay e => exact Or.inl rfl
  | schedule | observeIdle | observeLater | takeResult | cancelWaits | cancelReturns
  | cancelWakesUp => cases hcall
  | postObserver hp =>
    right
    have hl:=length_erase_of_mem hp
    have hpos:=length_pos_of_mem hp
    simp [SequentialTask.rank,hl]
    omega
  | phase e ho hs =>
    right
    have hsum:=sum_rank_set ho
    have hr:=hs.rank_lt
    simp only [setTask]
    grind
  | startTask ho | generate _ ho | decrementActiveCount ho | startAccumulation _ ho
  | accumulate _ ho =>
    right
    have hsum:=sum_rank_set ho
    simp only [setTask]
    grind [rank]
  | @runSequential _ p ho =>
    right
    have hsum:=sum_rank_set ho (.posted p)
    simp only [setTask,map_append,sum_append,map_singleton,
      sum_singleton,SequentialTask.rank,rank] at hsum ⊢
    omega
  | startObserver hc hq =>
    right
    have hsum:=sum_rank_eraseIdx hq
    simp only [hc,Option.elim,SequentialTask.rank,SequentialCall.rank] at hsum ⊢
    omega
  | enter hc hq ho =>
    right
    have ht:=sum_rank_set ho
    have hsum:=sum_rank_eraseIdx hq
    simp only [setTask,hc,Option.elim,SequentialTask.rank,SequentialCall.rank] at hsum ⊢
    grind [rank]
  | skipAccumulation hc ho | finish hc ho | fetch hc ho =>
    right
    have hsum:=sum_rank_set ho
    simp only [setTask,hc,Option.elim,SequentialCall.rank]
    grind [rank]
  | callObserver hc | observerReturns hc =>
    right
    simp [hc,SequentialCall.rank]

theorem eq_of_ok_setTask (ho : a.tasks[task]?=some old)
    (h : (.ok a' : Checked (Accumulator T))=.ok a) (hs : a'.tasks=a.tasks.set task new) :
    new=old := by
  have hn:=getElem?_set_of_some ho new task
  rw [← hs,Except.ok.inj h,ho,if_pos rfl] at hn
  exact (Option.some.inj hn).symm

theorem current_moves (ht : ∀ v p,∃ r,accumulatorFunc v p=.ok r) (hcounted : Counted a)
    (hs : Sequenced a) (hf : Folded accumulatorFunc v₀ a)
    {call : SequentialCall} (hc : a.current=some call) :
    ∃ e : Event T,e.isCall=false ∧ step accumulatorFunc a e≠.ok a := by
  cases call with
  | fetched guarded observer =>
    refine ⟨.callObserver,rfl,fun h => ?_⟩
    have hsame:=congrArg current (Except.ok.inj h)
    simp [callObserver,hc] at hsame
  | calling guarded observer =>
    refine ⟨.observerReturns,rfl,fun h => ?_⟩
    have hsame:=congrArg current (Except.ok.inj h)
    cases guarded <;> simp [observerReturns,hc] at hsame
  | accumulate task =>
    have hi:=(hs.running task).mp hc
    cases hp : a.tasks[task]? with
    | none =>
      rw [hp] at hi
      cases hi
    | some phase =>
      rw [hp,Option.any_some] at hi
      cases phase with
      | entered p =>
        refine ⟨.startAccumulation,rfl,fun h => ?_⟩
        simp only [step,startAccumulation,hc,hp] at h
        split at h <;> cases eq_of_ok_setTask hp h rfl
      | accumulating p =>
        cases hv : a.accumulatedValue with
        | none =>
          have ha:=hcounted.active_pos hp rfl
          rw [(hf.taken hv).2] at ha
          exact absurd ha (lt_irrefl 0)
        | some v =>
          obtain ⟨r,hr⟩:=ht v p
          refine ⟨.accumulate,rfl,fun h => ?_⟩
          simp only [step,accumulate,hc,hp,hv,hr,ok_bind] at h
          cases eq_of_ok_setTask hp h rfl
      | accumulated p =>
        refine ⟨.updateCountsAndGetCallback,rfl,fun h => ?_⟩
        obtain ⟨active,ha⟩:=Nat.exists_eq_succ_of_ne_zero (hcounted.active_pos hp rfl).ne'
        simp only [step,updateCountsAndGetCallback,hc,hp,ha,decrement,ok_bind,bind_eq_ok] at h
        obtain ⟨remaining,-,h⟩:=h
        split at h
        · split at h <;> cases eq_of_ok_setTask hp h rfl
        · cases eq_of_ok_setTask hp h rfl
      | _ => cases hi

theorem queue_moves (hs : Sequenced a) (hc : a.current=none) (hq : a.sequentialQueue=item::queue) :
    ∃ e : Event T,e.isCall=false ∧ step accumulatorFunc a e≠.ok a := by
  refine ⟨.startSequential 0,rfl,fun h => ?_⟩
  have hg : a.inSequentialCall=false := by rw [hs.guard,hc]; rfl
  cases item with
  | observe observer =>
    simp only [step,startSequential,hc,hq,getElem?_cons_zero] at h
    have hsame:=congrArg current (Except.ok.inj h)
    simp [hc] at hsame
  | accumulate task =>
    have hqueue:=hs.queued task
    rw [hq,count_cons_self] at hqueue
    cases hp : a.tasks[task]? with
    | none => simp [hp] at hqueue
    | some phase =>
      cases phase with
      | posted p =>
        simp only [step,startSequential,hc,hq,getElem?_cons_zero,
          hp,hg,Bool.not_false,fcpCheck_true,ok_bind] at h
        cases eq_of_ok_setTask hp h rfl
      | _ => simp [hp,isPosted] at hqueue

theorem task_moves (hc : Counted a) (hs : Sequenced a) (v₀ : T)
    (hcurrent : a.current=none) (hqueued : a.sequentialQueue=[]) {phase : TaskPhase T}
    (hp : a.tasks[task]?=some phase) (hr : phase.rank≠0) :
    ∃ e : Event T,e.isCall=false ∧ step accumulatorFunc a e≠.ok a := by
  have hi : phase.isInside=false := by
    have hrun:=hs.running task
    rw [hcurrent,hp,Option.any_some] at hrun
    simpa using hrun
  have hpos : phase.isPosted=false := by
    have hq:=hs.queued task
    rw [hqueued,hp,Option.any_some,count_nil] at hq
    exact Bool.toNat_eq_zero.mp hq.symm
  cases phase with
  | delayed =>
    refine ⟨.wakeUp task,rfl,fun h => ?_⟩
    simp only [step,wakeUp,hp] at h
    cases eq_of_ok_setTask hp h rfl
  | scheduled =>
    refine ⟨.startTask task,rfl,fun h => ?_⟩
    simp only [step,startTask,hp] at h
    split at h <;> cases eq_of_ok_setTask hp h rfl
  | generating =>
    refine ⟨.generate task v₀,rfl,fun h => ?_⟩
    simp only [step,generate,hp] at h
    cases eq_of_ok_setTask hp h rfl
  | generated p =>
    refine ⟨.decrementActiveCount task,rfl,fun h => ?_⟩
    have ha:=hc.active_pos hp rfl
    simp only [step,decrementActiveCount,hp,gt_iff_lt,ha,decide_true,fcpCheck_true,ok_bind] at h
    cases eq_of_ok_setTask hp h rfl
  | released p =>
    refine ⟨.testCancelled task,rfl,fun h => ?_⟩
    simp only [step,testCancelled,hp] at h
    split at h <;> cases eq_of_ok_setTask hp h rfl
  | continued p =>
    refine ⟨.runSequential task,rfl,fun h => ?_⟩
    simp only [step,runSequential,hp] at h
    cases eq_of_ok_setTask hp h rfl
  | posted p => cases hpos
  | entered p | accumulating p | accumulated p => cases hi
  | finished p | skipped => exact absurd rfl hr

theorem work_moves (ht : ∀ v p,∃ r,accumulatorFunc v p=.ok r) (hcounted : Counted a)
    (hsequenced : Sequenced a) (hf : Folded accumulatorFunc v₀ a)
    (hw : a.workLeft≠0) :
    ∃ e a',e.isCall=false ∧ step accumulatorFunc a e=.ok a' ∧ a'.workLeft<a.workLeft := by
  suffices hm : ∃ e : Event T,e.isCall=false ∧ step accumulatorFunc a e≠.ok a by
    obtain ⟨e,hcall,hne⟩:=hm
    cases hs : step accumulatorFunc a e with
    | error fault =>
      obtain ⟨rfl,-⟩ | ⟨rfl,_,v,p,-,-,hfun⟩:=step_eq_error hcounted hsequenced hf hs
      · cases hcall
      · obtain ⟨r,hr⟩:=ht v p
        cases hr.symm.trans hfun
    | ok a' =>
      refine ⟨e,a',hcall,hs,(workLeft_move (move_of_step hs) hcall).resolve_left ?_⟩
      rintro rfl
      exact hne hs
  cases hc : a.current with
  | some call => exact current_moves ht hcounted hsequenced hf hc
  | none =>
    cases hq : a.sequentialQueue with
    | cons item queue => exact queue_moves hsequenced hc hq
    | nil =>
      cases hpos : a.posting with
      | cons observer posting =>
        refine ⟨.postObserver observer,rfl,fun h => ?_⟩
        have hsame:=congrArg sequentialQueue (Except.ok.inj h)
        simp [postObserver,hpos,hq] at hsame
      | nil =>
        have hsum : (a.tasks.map rank).sum≠0 := by simpa [workLeft,hc,hq,hpos] using hw
        obtain ⟨phase,hmem,hrank⟩ : ∃ phase∈a.tasks,phase.rank≠0 := by
          by_contra hn
          refine hsum (sum_eq_zero fun rank hrank => ?_)
          obtain ⟨phase,hmem,rfl⟩:=mem_map.mp hrank
          by_contra hne
          exact hn ⟨phase,hmem,hne⟩
        obtain ⟨task,hp⟩:=mem_iff_getElem?.mp hmem
        exact task_moves hcounted hsequenced v₀ hc hq hp hrank

structure Kept (accumulatorFunc : T → T → Checked T) (initialValue : T) (a : Accumulator T) :
    Prop where
  counted : Counted a
  sequenced : Sequenced a
  folded : Folded accumulatorFunc initialValue a
  observed : Observed a

theorem kept_create (v₀ : T) : Kept accumulatorFunc v₀ (.create v₀) :=
  ⟨counted_create _,sequenced_create _,folded_create _,observed_create _⟩

theorem Kept.step (h : Kept accumulatorFunc v₀ a) (ho : e=.setAsyncObserver → a.asyncCallback=none)
    (hs : step accumulatorFunc a e=.ok a') : Kept accumulatorFunc v₀ a' := by
  have hm:=move_of_step hs
  have hc:=h.counted.move hm
  exact ⟨hc,h.sequenced.move hm,h.folded.move hm,h.observed.move h.counted hm hc ho⟩

theorem foldlM_ok {f : T → T → T} (hf : ∀ x y,accumulatorFunc x y=.ok (f x y)) (l : List T)
    (x : T) : l.foldlM accumulatorFunc x=.ok (l.foldl f x) := by
  induction l generalizing x with
  | nil => rfl
  | cons y l ih => rw [foldlM_cons,hf,ok_bind,ih,foldl_cons]

theorem Observed.ready_of_fetched (h : Observed a) {guarded : Bool}
    (hc : a.current=some (.fetched guarded observer)) :
    ∃ n,a.observers[observer]?=some n ∧ ∀ k<n,(a.tasks[k]?).any isFinished=true := by
  have hp:=h.place observer
  rw [hc] at hp
  simp only [Option.any_some,SequentialCall.isFetched,beq_self_eq_true,Bool.toNat_true] at hp
  have hl : observer<a.observers.length := by
    by_contra hl
    rw [if_neg hl] at hp
    omega
  rw [if_pos hl] at hp
  have hn:=getElem?_eq_getElem hl
  refine ⟨_,hn,h.ready hn ?_⟩
  intro hs
  simp [hs] at hp

theorem Kept.called (h : Kept accumulatorFunc v₀ a) (hcancelled : a.isCancelled=false)
    (hw : a.workLeft=0) (ho : observer<a.observers.length) :
    a.called.count observer=1 := by
  simp only [workLeft,Nat.add_eq_zero_iff] at hw
  obtain ⟨⟨⟨ht,hq⟩,hc⟩,hpost⟩:=hw
  have hp:=h.observed.place observer
  rw [if_pos ho] at hp
  have hi : a.remainingSequentialTasksCount=0 := by
    rw [h.counted.remaining,countP_eq_zero]
    intro phase hphase
    have hr:=List.sum_eq_zero_iff_forall_eq_nat.mp ht _ (mem_map_of_mem hphase)
    cases phase with
    | finished p => exact Bool.false_ne_true
    | skipped => exact absurd hphase (h.folded.unskipped hcancelled)
    | _ => cases hr
  have hs : a.asyncCallback=none := by
    by_contra hsome
    exact h.observed.stored hsome hi
  have hqueue : a.sequentialQueue.count (.observe observer)=0 := by
    rw [count_eq_zero]
    intro hm
    cases List.sum_eq_zero_iff_forall_eq_nat.mp hq _ (mem_map_of_mem hm)
  have hpos : a.posting=[] := by
    apply length_eq_zero_iff.mp
    omega
  have hf : a.current.any (SequentialCall.isFetched observer)=false := by
    cases hcall : a.current with
    | none => rfl
    | some call =>
      rw [hcall] at hc
      cases call with
      | accumulate task => rfl
      | fetched _ _ | calling _ _ => cases hc
  rw [hs,hpos,hqueue,hf] at hp
  simpa using hp

structure Recorded (history : List (Accumulator T × Event T)) (a : Accumulator T) : Prop where
  generated {task : ℕ} {phase : TaskPhase T} {p : T} : a.tasks[task]?=some phase →
    phase.result=some p → ∃ s,(s,Event.generate task p)∈history ∧ s.tasks[task]?=some .generating
  registered {s : Accumulator T} : (s,Event.setAsyncObserver)∈history →
    s.setAsyncObserver.1=true → a.observers[s.observers.length]?=some s.tasks.length
  observers {entry : Accumulator T × Event T} : entry∈history → entry.1.observers <+: a.observers

theorem recorded_create (v₀ : T) : Recorded [] (create v₀) where
  generated h := by simp [create] at h
  registered h := absurd h not_mem_nil
  observers h := absurd h not_mem_nil

theorem observers_move (hm : Move accumulatorFunc a e a') : a.observers <+: a'.observers := by
  cases hm with
  | observeIdle | observeLater => exact prefix_append _ _
  | _ => exact prefix_rfl

theorem observers_setAsyncObserver (h : a.setAsyncObserver.1=true) :
    a.setAsyncObserver.2.observers=a.observers++[a.tasks.length] := by
  unfold setAsyncObserver at h ⊢
  split
  next hw =>
    rw [if_pos hw] at h
    cases h
  · dsimp only
    split <;> rfl

theorem getElem?_of_isPrefix {α : Type} {l l' : List α} (h : l <+: l') {i : ℕ} {x : α}
    (hx : l[i]?=some x) : l'[i]?=some x := by
  obtain ⟨rest,rfl⟩:=h
  rw [getElem?_append_left (List.getElem?_eq_some_iff.mp hx).1,hx]

theorem Recorded.step {hist : List (Accumulator T × Event T)} (h : Recorded hist a)
    (hs : step accumulatorFunc a e=.ok a') : Recorded (hist++[(a,e)]) a' := by
  have hm:=move_of_step hs
  have hstate:=observers_move hm
  refine ⟨fun {k phase p} hp hr => ?_,fun {s} hmem hreturned => ?_,fun {entry} hmem => ?_⟩
  · obtain ⟨old,ho,hr⟩ | ⟨rfl,ho⟩:=result_move hm hp hr
    · obtain ⟨s,hmem,hg⟩:=h.generated ho hr
      exact ⟨s,mem_append_left _ hmem,hg⟩
    · exact ⟨a,mem_append_right _ (mem_singleton_self _),ho⟩
  · obtain hmem | hl:=mem_append.mp hmem
    · exact getElem?_of_isPrefix hstate (h.registered hmem hreturned)
    · cases mem_singleton.mp hl
      cases hs
      rw [observers_setAsyncObserver hreturned,getElem?_append_right (le_refl _)]
      simp
  · obtain hmem | hl:=mem_append.mp hmem
    · exact (h.observers hmem).trans hstate
    · cases mem_singleton.mp hl
      exact hstate

structure Accumulates (accumulatorFunc : T → T → Checked T) (initialValue : T)
    (history : List (Accumulator T × Event T)) (a : Accumulator T) : Prop where
  counted : Counted a
  /-- No counter is taken below zero and no check fails, but for a `GetResultAndCancel` of an
  accumulator that is not idle. -/
  faults {event : Event T} {fault : Fault} : step accumulatorFunc a event=.error fault →
    (event=.getResultAndCancel ∧ a.isIdle=false) ∨
    (event=.accumulate ∧ ∃ (task : ℕ) (v p : T),a.tasks[task]?=some (.accumulating p) ∧
      a.accumulatedValue=some v ∧ accumulatorFunc v p=.error fault)
  inactive : a.isIdle=true → a.activeCount=0 ∧ (∀ phase∈a.tasks,phase.isActive=false) ∧
    ∃ r,a.getResultAndCancel=.ok r
  value : a.isIdle=true → a.isCancelled=false →
    ∃ (results order : List T) (value : T),a.tasks=results.map .finished ∧
      (∀ task p,results[task]?=some p → ∃ s,(s,Event.generate task p)∈history ∧
        s.tasks[task]?=some .generating) ∧
      order.Perm results ∧ order.foldlM accumulatorFunc initialValue=.ok value ∧
      a.accumulatedValue=some value
  anyOrder (f : T → T → T) : (∀ x y,accumulatorFunc x y=.ok (f x y)) →
    (∀ x y z,f (f x y) z=f x (f y z)) → (∀ x y,f x y=f y x) →
    a.isIdle=true → a.isCancelled=false → ∃ results : List T,
      a.tasks=results.map .finished ∧ a.accumulatedValue=some (results.foldl f initialValue)
  /-- An observer is never called twice, and it has been called when nothing is left to do. -/
  once {s : Accumulator T} : (s,Event.setAsyncObserver)∈history →
    s.setAsyncObserver.1=true → a.called.count s.observers.length≤1 ∧
      (a.isCancelled=false → a.workLeft=0 → a.called.count s.observers.length=1)
  after {s t : Accumulator T} {guarded : Bool} : (s,Event.setAsyncObserver)∈history →
    s.setAsyncObserver.1=true → (t,Event.callObserver)∈history →
    t.current=some (.fetched guarded s.observers.length) →
    ∀ task<s.tasks.length,(t.tasks[task]?).any isFinished=true
  /-- The tasks end, whatever the order of their steps. -/
  ends {event : Event T} {a' : Accumulator T} : event.isCall=false →
    step accumulatorFunc a event=.ok a' → a'=a ∨ a'.workLeft<a.workLeft
  proceeds : (∀ v p,∃ r,accumulatorFunc v p=.ok r) → a.workLeft≠0 →
    ∃ event a',event.isCall=false ∧ step accumulatorFunc a event=.ok a' ∧ a'.workLeft<a.workLeft

variable {hist : List (Accumulator T × Event T)}

theorem Recorded.called (h : Recorded hist a) (hk : Kept accumulatorFunc v₀ a)
    {s : Accumulator T} (hm : (s,Event.setAsyncObserver)∈hist)
    (hreturned : s.setAsyncObserver.1=true) : a.called.count s.observers.length≤1 ∧
      (a.isCancelled=false → a.workLeft=0 → a.called.count s.observers.length=1) := by
  have hr:=h.registered hm hreturned
  have hl:=(List.getElem?_eq_some_iff.mp hr).1
  refine ⟨?_,fun hc hw => hk.called hc hw hl⟩
  have hp:=hk.observed.place s.observers.length
  rw [if_pos hl] at hp
  omega

/-- Whatever the schedule, as long as no stored observer is replaced by another. -/
theorem accumulator_correct (hrun : Run (step accumulatorFunc) (.create v₀) hist a)
    (ho : ∀ entry∈hist,entry.2=.setAsyncObserver → entry.1.asyncCallback=none) :
    Accumulates accumulatorFunc v₀ hist a := by
  have hinv : Kept accumulatorFunc v₀ a ∧ Recorded hist a ∧
      ∀ entry∈hist,Kept accumulatorFunc v₀ entry.1 := by
    refine hrun.invariant (G := fun s e => e=.setAsyncObserver → s.asyncCallback=none)
      (P := fun hist a => Kept accumulatorFunc v₀ a ∧ Recorded hist a ∧
        ∀ entry∈hist,Kept accumulatorFunc v₀ entry.1) ho ?_ ?_
    · exact ⟨kept_create _,recorded_create v₀,fun _ h => absurd h not_mem_nil⟩
    · rintro hist s s' e ⟨hk,hr,hall⟩ hg hs
      refine ⟨hk.step hg hs,hr.step hs,fun entry he => ?_⟩
      obtain hm | hl:=mem_append.mp he
      · exact hall entry hm
      · cases mem_singleton.mp hl
        exact hk
  obtain ⟨hk,hr,hall⟩:=hinv
  constructor
  case counted => exact hk.counted
  case faults => exact step_eq_error hk.counted hk.sequenced hk.folded
  case inactive =>
    intro hi
    have hremaining:=of_decide_eq_true hi
    have ha:=hk.counted.inactive hremaining
    refine ⟨ha,fun phase hphase => ?_,_,by
      rw [getResultAndCancel,decide_eq_true ha]; rfl⟩
    obtain ⟨p,rfl⟩:=hk.counted.finished hremaining hphase
    rfl
  case value =>
    intro hi hc
    obtain ⟨results,order,value,ht,hperm,hfold,hv⟩ := hk.folded.exists_fold hk.counted hi hc
    refine ⟨results,order,value,ht,fun task p hp => ?_,hperm,hfold,hv⟩
    have hphase : a.tasks[task]?=some (.finished p) := by
      rw [ht,getElem?_map,hp]
      rfl
    exact hr.generated hphase rfl
  case anyOrder =>
    intro f hf hassoc hcomm hi hc
    obtain ⟨results,order,value,ht,hperm,hfold,hv⟩ := hk.folded.exists_fold hk.counted hi hc
    have hright : RightCommutative f := ⟨fun x y z => by rw [hassoc,hcomm y z,← hassoc]⟩
    rw [foldlM_ok hf,Except.ok.injEq,hperm.foldl_eq] at hfold
    exact ⟨results,ht,by rw [hv,hfold]⟩
  case once => exact hr.called hk
  case after =>
    intro s t guarded hregistered hreturned hcalled hcurrent task htask
    obtain ⟨n,hn,hready⟩:=(hall _ hcalled).observed.ready_of_fetched hcurrent
    have hsame:=getElem?_of_isPrefix (hr.observers hcalled) hn
    rw [hr.registered hregistered hreturned] at hsame
    cases hsame
    exact hready task htask
  case ends => exact fun hcall hs => workLeft_move (move_of_step hs) hcall
  case proceeds => exact fun htotal => work_moves htotal hk.counted hk.sequenced hk.folded

theorem accumulator_correct_two_tasks :
    ∃ hist s,Run (step fun x y : ℕ => .ok (x+y)) (.create 100) hist s ∧
      (∀ entry∈hist,entry.2=.setAsyncObserver → entry.1.asyncCallback=none) ∧
      (s.isIdle=true ∧ s.accumulatedValue=some 112 ∧ s.called=[0] ∧ s.workLeft=0) ∧
      Accumulates (fun x y => .ok (x+y)) 100 hist s := by
  obtain ⟨hist,s,hr,-,ho,ht⟩:=exists_recorded (step fun x y : ℕ => .ok (x+y)) (.create 100)
    [.schedule false,.schedule true,.setAsyncObserver,.startTask 0,.wakeUp 1,.generate 0 5,
      .startTask 1,.decrementActiveCount 0,.testCancelled 0,.runSequential 0,
      .startSequential 0,.startAccumulation,.accumulate,.generate 1 7,
      .updateCountsAndGetCallback,.decrementActiveCount 1,.testCancelled 1,.runSequential 1,
      .startSequential 0,.startAccumulation,.accumulate,.updateCountsAndGetCallback,
      .callObserver,.observerReturns]
    (P := fun hist s => (∀ entry∈hist,entry.2=.setAsyncObserver → entry.1.asyncCallback=none) ∧
      (s.isIdle=true ∧ s.accumulatedValue=some 112 ∧ s.called=[0] ∧ s.workLeft=0))
    (by decide +kernel)
  exact ⟨hist,s,hr,ho,ht,accumulator_correct hr ho⟩

end Fcp.SecAgg.SecAggScheduler

import Fcp.Base.Monitoring
import Fcp.Lib.Behavior

/-!
# Workers (`WorkerImpl` in fcp/base/scheduler.cc)

A worker hands its tasks to a scheduler, one closure for each, which runs closures in whatever order
and possibly in parallel. Sections under the mutex, and the start and the end of a task, are steps.
-/

namespace Fcp.Scheduling

open List

inductive Phase where
  | handed
  | executing
  | returned
  | ended
  deriving Repr, DecidableEq

structure Closure (τ : Type) where
  task : τ
  phase : Phase
  deriving Repr, DecidableEq

structure WorkerImpl (τ : Type) where
  running : Bool
  steps : List τ
  closures : List (Closure τ)
  scheduled : List τ
  started : List τ
  deriving Repr, DecidableEq

inductive WorkerEvent (τ : Type) where
  | schedule (task : τ)
  | proceed (closure : ℕ)
  deriving Repr, DecidableEq

variable {τ : Type}

namespace WorkerImpl

def initial : WorkerImpl τ := ⟨false,[],[],[],[]⟩

def maybeRunNext (s : WorkerImpl τ) : WorkerImpl τ :=
  if s.running then s
  else
    match s.steps with
    | [] => s
    | task::rest => { s with
        steps := rest
        running := true
        closures := s.closures++[⟨task,.handed⟩] }

def schedule (s : WorkerImpl τ) (task : τ) : WorkerImpl τ := maybeRunNext { s with
    steps := s.steps++[task]
    scheduled := s.scheduled++[task] }

/-- The steps of the closure of a task: nothing happens after its end. -/
def proceed (s : WorkerImpl τ) (i : ℕ) : Except Unit (WorkerImpl τ) :=
  match s.closures[i]? with
  | some ⟨task,.handed⟩ => .ok { s with
      closures := s.closures.set i ⟨task,.executing⟩
      started := s.started++[task] }
  | some ⟨task,.executing⟩ => .ok { s with closures := s.closures.set i ⟨task,.returned⟩ }
  | some ⟨task,.returned⟩ => .ok <| maybeRunNext { s with
      closures := s.closures.set i ⟨task,.ended⟩
      running := false }
  | some ⟨_,.ended⟩ => .error ()
  | none => .error ()

end WorkerImpl

def workerStep (s : WorkerImpl τ) : WorkerEvent τ → Except Unit (WorkerImpl τ)
  | .schedule task => .ok (s.schedule task)
  | .proceed closure => s.proceed closure

section States

def idleWorker (done : List (Closure τ)) : WorkerImpl τ :=
  ⟨false,[],done,done.map Closure.task,done.map Closure.task⟩

def busyWorker (done : List (Closure τ)) (current : Closure τ) (steps : List τ) : WorkerImpl τ :=
  ⟨true,steps,done++[current],done.map Closure.task++current.task::steps,
    done.map Closure.task ++ if current.phase=.handed then [] else [current.task]⟩

def Ended (done : List (Closure τ)) : Prop := ∀ closure∈done,closure.phase=.ended

inductive Shape : WorkerImpl τ → Prop
  | idle {done : List (Closure τ)} (hdone : Ended done) : Shape (idleWorker done)
  | busy {done : List (Closure τ)} (hdone : Ended done) {current : Closure τ}
      (hcurrent : current.phase≠.ended) (steps : List τ) :
      Shape (busyWorker done current steps)

variable {done : List (Closure τ)} {cur : Closure τ} {steps : List τ} {task : τ} {i : ℕ}

theorem schedule_idle : (idleWorker done).schedule task=busyWorker done ⟨task,.handed⟩ [] := by
  simp [WorkerImpl.schedule,WorkerImpl.maybeRunNext,idleWorker,busyWorker]

theorem schedule_busy :
    (busyWorker done cur steps).schedule task=busyWorker done cur (steps++[task]) := by
  simp [WorkerImpl.schedule,WorkerImpl.maybeRunNext,busyWorker]

variable {s s' : WorkerImpl τ}

theorem closure_of_proceed (h : s.proceed i=.ok s') :
    ∃ closure,s.closures[i]?=some closure ∧ closure.phase≠.ended := by
  unfold WorkerImpl.proceed at h
  split at h
  · exact ⟨_,‹_›,by simp⟩
  · exact ⟨_,‹_›,by simp⟩
  · exact ⟨_,‹_›,by simp⟩
  · cases h
  · cases h

theorem eq_length_of_getElem? (hd : Ended done) {closure : Closure τ}
    (hg : (done++[cur])[i]?=some closure) (hc : closure.phase≠.ended) :
    i=done.length := by
  obtain hlt | heq | hgt:=Nat.lt_trichotomy i done.length
  · rw [getElem?_append_left hlt] at hg
    exact (hc (hd closure (mem_of_getElem? hg))).elim
  · exact heq
  · rw [getElem?_eq_none (by simp; omega)] at hg
    cases hg

theorem proceed_handed : (busyWorker done ⟨task,.handed⟩ steps).proceed done.length =
      .ok (busyWorker done ⟨task,.executing⟩ steps) := by
  simp [WorkerImpl.proceed,busyWorker]

theorem proceed_executing : (busyWorker done ⟨task,.executing⟩ steps).proceed done.length =
      .ok (busyWorker done ⟨task,.returned⟩ steps) := by
  simp [WorkerImpl.proceed,busyWorker]

theorem proceed_returned_last : (busyWorker done ⟨task,.returned⟩ []).proceed done.length =
      .ok (idleWorker (done++[⟨task,.ended⟩])) := by
  simp [WorkerImpl.proceed,WorkerImpl.maybeRunNext,busyWorker,idleWorker]

theorem proceed_returned_next {next : τ} :
    (busyWorker done ⟨task,.returned⟩ (next::steps)).proceed done.length =
      .ok (busyWorker (done++[⟨task,.ended⟩]) ⟨next,.handed⟩ steps) := by
  simp [WorkerImpl.proceed,WorkerImpl.maybeRunNext,busyWorker]

theorem Ended.concat (hd : Ended done) : Ended (done++[⟨task,.ended⟩]) := by
  intro closure hc
  obtain ho | hl:=mem_append.mp hc
  · exact hd closure ho
  · rw [mem_singleton.mp hl]

def BusyAt (n : ℕ) (phase : Phase) (s : WorkerImpl τ) : Prop :=
  ∃ done task steps,Ended done ∧ done.length=n ∧ s=busyWorker done ⟨task,phase⟩ steps

def EndedAt (n : ℕ) (s : WorkerImpl τ) : Prop :=
  ∃ done rest,s.closures=done++rest ∧ Ended done ∧ done.length=n+1

def Later (n : ℕ) : Phase → WorkerImpl τ → Prop
  | .handed => BusyAt n .executing
  | .executing => BusyAt n .returned
  | .returned => EndedAt n
  | .ended => fun _ => False

variable {e : WorkerEvent τ}

theorem busyAt_step {n : ℕ} {phase : Phase} (hp : phase≠.ended)
    (h : BusyAt n phase s) (hs : workerStep s e=.ok s') :
    Shape s' ∧ (BusyAt n phase s' ∧ e≠.proceed n ∨ Later n phase s') := by
  obtain ⟨done,task,steps,hd,hl,rfl⟩:=h
  cases e with
  | schedule next =>
    cases hs
    rw [schedule_busy]
    exact ⟨.busy hd hp _,.inl ⟨⟨done,task,_,hd,hl,rfl⟩,nofun⟩⟩
  | proceed i =>
    obtain ⟨closure,hg,hc⟩:=closure_of_proceed hs
    have hi : i=done.length := eq_length_of_getElem? hd hg hc
    subst hi
    cases phase with
    | handed =>
      rw [workerStep,proceed_handed] at hs
      cases hs
      exact ⟨.busy hd (by simp) _,.inr ⟨done,task,steps,hd,hl,rfl⟩⟩
    | executing =>
      rw [workerStep,proceed_executing] at hs
      cases hs
      exact ⟨.busy hd (by simp) _,.inr ⟨done,task,steps,hd,hl,rfl⟩⟩
    | returned =>
      cases steps with
      | nil =>
        rw [workerStep,proceed_returned_last] at hs
        cases hs
        refine ⟨.idle hd.concat,.inr ⟨done++[⟨task,.ended⟩],[],?_,hd.concat,?_⟩⟩
        · exact (append_nil _).symm
        rw [length_append,hl]
        rfl
      | cons next steps =>
        rw [workerStep,proceed_returned_next] at hs
        cases hs
        refine ⟨.busy hd.concat (by simp) _,.inr ⟨_,_,rfl,hd.concat,?_⟩⟩
        rw [length_append,hl]
        rfl
    | ended => exact (hp rfl).elim

theorem shape_step (h : Shape s) (hs : workerStep s e=.ok s') : Shape s' := by
  cases h with
  | idle hd =>
    cases e with
    | schedule task =>
      cases hs
      rw [schedule_idle]
      exact .busy hd (by simp) _
    | proceed i =>
      obtain ⟨closure,hg,hc⟩:=closure_of_proceed hs
      exact (hc (hd closure (mem_of_getElem? hg))).elim
  | @busy done hd cur hcurrent steps =>
    exact (busyAt_step hcurrent ⟨done,cur.task,steps,hd,rfl,rfl⟩ hs).1

theorem shape_of_reachable (h : Reachable workerStep .initial s) : Shape s :=
  h.invariant (P := Shape) (.idle nofun) fun _ _ _ hs hstep => shape_step hs hstep

end States

section Sequential

structure Sequential (s : WorkerImpl τ) : Prop where
  oneAtATime : (s.closures.filter fun closure => closure.phase=.executing).length≤1
  inOrder : s.started <+: s.scheduled
  handedOnce : s.closures.map Closure.task++s.steps=s.scheduled

theorem filter_executing_ended {done : List (Closure τ)} (hd : Ended done) :
    done.filter (fun closure => closure.phase=.executing)=[] := by
  rw [filter_eq_nil_iff]
  intro closure hc
  rw [hd closure hc]
  decide

variable {s : WorkerImpl τ}

theorem Shape.sequential (h : Shape s) : Sequential s := by
  cases h with
  | @idle done hd =>
    refine ⟨?_,prefix_refl _,append_nil _⟩
    show (done.filter _).length≤1
    rw [filter_executing_ended hd]
    exact Nat.zero_le 1
  | @busy done hd cur hc steps =>
    refine ⟨?_,?_,?_⟩
    · show ((done++[cur]).filter _).length≤1
      rw [filter_append,filter_executing_ended hd,nil_append]
      exact length_filter_le _ [cur]
    · show _++_ <+: _++_
      rw [prefix_append_right_inj]
      split
      · exact List.nil_prefix
      · exact ⟨steps,rfl⟩
    · simp [busyWorker]

def FairScheduler (b : Behavior workerStep (WorkerImpl.initial : WorkerImpl τ)) : Prop :=
  ∀ i,b.WeakFair (fun s => ∃ closure,s.closures[i]?=some closure ∧ closure.phase≠.ended)
    (·=.proceed i)

variable {b : Behavior workerStep (WorkerImpl.initial : WorkerImpl τ)} {n : ℕ} {phase : Phase}
  {t : ℕ}

theorem eventually_later (hf : FairScheduler b) (hp : phase≠.ended)
    (ht : BusyAt n phase (b.state t)) :
    ∃ u,t≤u ∧ Later n phase (b.state u) := by
  apply (hf n).eventually (P := BusyAt n phase) _ _ _ ht
  · intro s s' e _ hs hstep _
    obtain ⟨-,⟨hb,-⟩ | hl⟩:=busyAt_step hp hs hstep
    · exact .inl hb
    · exact .inr hl
  · rintro s-⟨done,task,steps,hd,hlen,rfl⟩
    refine ⟨⟨task,phase⟩,?_,hp⟩
    show (done++[_])[n]?=_
    rw [← hlen,getElem?_append_right (Nat.le_refl _),Nat.sub_self]
    rfl
  · rintro s s' e-hs rfl hstep
    obtain ⟨-,⟨-,hne⟩ | hl⟩:=busyAt_step hp hs hstep
    · exact (hne rfl).elim
    · exact hl

theorem eventually_ended (hf : FairScheduler b) (hp : phase≠.ended)
    (ht : BusyAt n phase (b.state t)) :
    ∃ u,t≤u ∧ EndedAt n (b.state u) := by
  have hr : ∀ t,BusyAt n .returned (b.state t) → ∃ u,t≤u ∧ EndedAt n (b.state u) :=
    fun t ht => eventually_later hf (by decide) ht
  have he : ∀ t,BusyAt n .executing (b.state t) → ∃ u,t≤u ∧ EndedAt n (b.state u) := by
    intro t ht
    obtain ⟨u,hu,hl⟩:=eventually_later hf (by decide) ht
    obtain ⟨v,hv,hend⟩:=hr u hl
    exact ⟨v,Nat.le_trans hu hv,hend⟩
  cases phase with
  | handed =>
    obtain ⟨u,hu,hl⟩:=eventually_later hf hp ht
    obtain ⟨v,hv,hend⟩:=he u hl
    exact ⟨v,Nat.le_trans hu hv,hend⟩
  | executing => exact he t ht
  | returned => exact hr t ht
  | ended => exact (hp rfl).elim

def endedCount (s : WorkerImpl τ) : ℕ := s.closures.countP fun closure => closure.phase=.ended

theorem countP_ended {done : List (Closure τ)} (hd : Ended done) :
    done.countP (fun closure => closure.phase=.ended)=done.length := by
  rw [countP_eq_length]
  intro closure hc
  exact decide_eq_true (hd closure hc)

theorem endedCount_busy {done : List (Closure τ)} (hd : Ended done) {cur : Closure τ}
    (hc : cur.phase≠.ended) {steps : List τ} :
    endedCount (busyWorker done cur steps)=done.length := by
  show (done++[cur]).countP _=_
  rw [countP_append,countP_ended hd]
  simp [hc]

theorem EndedAt.lt_endedCount (h : EndedAt n s) : n<endedCount s := by
  obtain ⟨done,rest,hc,hd,hl⟩:=h
  rw [endedCount,hc,countP_append,countP_ended hd]
  omega

theorem Shape.busyAt (h : Shape s) (hlt : endedCount s<s.scheduled.length) :
    ∃ phase,phase≠.ended ∧ BusyAt (endedCount s) phase s := by
  cases h with
  | @idle done hd =>
    have hcount : endedCount (idleWorker done)=done.length := countP_ended hd
    rw [hcount] at hlt
    simp [idleWorker] at hlt
  | @busy done hd cur hc steps =>
    rw [endedCount_busy hd hc]
    exact ⟨cur.phase,hc,done,cur.task,steps,hd,rfl,rfl⟩

theorem scheduled_step {s' : WorkerImpl τ} {e : WorkerEvent τ} (hs : workerStep s e=.ok s') :
    s.scheduled <+: s'.scheduled := by
  have hn : ∀ s : WorkerImpl τ,s.maybeRunNext.scheduled=s.scheduled := by
    intro s
    unfold WorkerImpl.maybeRunNext
    split
    · rfl
    · split <;> rfl
  cases e with
  | schedule task =>
    cases hs
    rw [WorkerImpl.schedule,hn]
    exact prefix_append _ _
  | proceed i =>
    rw [workerStep,WorkerImpl.proceed] at hs
    split at hs
    · cases hs
      exact prefix_refl _
    · cases hs
      exact prefix_refl _
    · cases hs
      simp only [hn,prefix_refl]
    · cases hs
    · cases hs

theorem Shape.getElem?_ended (h : Shape s) (hn : n<endedCount s) :
    ∃ task,s.closures[n]?=some ⟨task,.ended⟩ ∧ s.scheduled[n]?=some task := by
  have hf : ∀ (done : List (Closure τ)) (closures : List (Closure τ)) (tasks : List τ),
      Ended done → n<done.length →
      ∃ task,(done++closures)[n]?=some ⟨task,.ended⟩ ∧
        (done.map Closure.task++tasks)[n]?=some task := by
    intro done closures tasks hd hlt
    have hp:=hd done[n] (getElem_mem hlt)
    refine ⟨done[n].task,?_,?_⟩
    · rw [getElem?_append_left hlt,getElem?_eq_getElem hlt,← hp]
    · rw [getElem?_append_left (by rwa [length_map]),getElem?_map,getElem?_eq_getElem hlt]
      rfl
  cases h with
  | @idle done hd =>
    have hcount : endedCount (idleWorker done)=done.length := countP_ended hd
    have he:=hf done [] [] hd (by omega)
    rwa [append_nil,append_nil] at he
  | @busy done hd cur hc steps =>
    rw [endedCount_busy hd hc] at hn
    exact hf done _ _ hd hn

/-- A worker runs its tasks one after the other, in the order in which they were scheduled; if the
scheduler runs its closures and all tasks return, every task is handed to the scheduler and run. -/
theorem worker_sequential (b : Behavior workerStep (WorkerImpl.initial : WorkerImpl τ)) :
    (∀ t,Sequential (b.state t)) ∧
    (FairScheduler b → ∀ (t n : ℕ) (task : τ),(b.state t).scheduled[n]?=some task →
      ∃ u,t≤u ∧ (b.state u).closures[n]?=some ⟨task,.ended⟩) := by
  have hshape : ∀ t,Shape (b.state t) := fun t => shape_of_reachable (b.reachable t)
  refine ⟨fun t => (hshape t).sequential,?_⟩
  intro hf t n task ht
  have hg : ∀ u,t≤u → (b.state t).scheduled <+: (b.state u).scheduled := by
    intro u hu
    apply b.keeps (P := fun s => (b.state t).scheduled <+: s.scheduled) _ hu (prefix_refl _)
    exact fun s s' e _ hs hstep => hs.trans (scheduled_step hstep)
  obtain ⟨hl,-⟩:=List.getElem?_eq_some_iff.mp ht
  -- as long as the task has not ended, the worker is busy and ends another one
  have hgrow : ∀ u,t≤u → endedCount (b.state u)<n+1 →
      ∃ v,u≤v ∧ endedCount (b.state u)<endedCount (b.state v) := by
    intro u hu hlt
    have hle:=(hg u hu).length_le
    obtain ⟨phase,hp,hb⟩:=(hshape u).busyAt (by omega)
    obtain ⟨v,hv,he⟩:=eventually_ended hf hp hb
    exact ⟨v,hv,he.lt_endedCount⟩
  obtain ⟨u,hu,hcount⟩:=b.eventually_reaches endedCount (n+1) hgrow
  obtain ⟨task',hc,hscheduled⟩:=(hshape u).getElem?_ended hcount
  have hsame : (b.state u).scheduled[n]?=some task := by
    obtain ⟨rest,hr⟩:=hg u hu
    rw [← hr,getElem?_append_left hl,ht]
  cases hsame.symm.trans hscheduled
  exact ⟨u,hu,hc⟩

def twoTasks : List (WorkerEvent ℕ) :=
  [.schedule 7,.proceed 0,.schedule 8,.proceed 0,.proceed 0,.proceed 1,.proceed 1,.proceed 1]

theorem worker_sequential_twoTasks :
    ∃ b : Behavior workerStep (WorkerImpl.initial : WorkerImpl ℕ),FairScheduler b ∧
      (∀ t,Sequential (b.state t)) ∧
      ∃ u,3≤u ∧ (b.state u).closures[1]?=some ⟨8,.ended⟩ := by
  have hr : twoTasks.foldlM workerStep WorkerImpl.initial =
      .ok (idleWorker [⟨7,.ended⟩,⟨8,.ended⟩]) := by decide
  have he : Ended [(⟨7,.ended⟩ : Closure ℕ),⟨8,.ended⟩] := by
    unfold Ended
    decide
  have hf : FairScheduler (Behavior.ofEvents workerStep .initial twoTasks _ hr) := by
    intro i
    apply Behavior.weakFair_ofEvents
    rintro ⟨closure,hc,hp⟩
    exact hp (he closure (mem_of_getElem? hc))
  obtain ⟨hs,hl⟩:=worker_sequential (Behavior.ofEvents workerStep .initial twoTasks _ hr)
  exact ⟨_,hf,hs,hl hf 3 1 8 rfl⟩

end Sequential

end Fcp.Scheduling

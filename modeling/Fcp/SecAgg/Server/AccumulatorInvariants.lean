import Fcp.Lib.ListUpdate
import Fcp.Lib.Tally
import Fcp.SecAgg.Server.AccumulatorMoves

/-!
# What an accumulator keeps

The counters count tasks, the sequential scheduler holds each posted task once, the value is a
fold over the accumulated tasks, and each observer is at one place.
-/

namespace Fcp.SecAgg.SecAggScheduler

open List Accumulator SequentialCall

variable {T : Type}

namespace TaskPhase

def isActive : TaskPhase T → Bool
  | .generating | .generated _ | .accumulating _ | .accumulated _ => true
  | _ => false

def isFinished : TaskPhase T → Bool
  | .finished _ => true
  | _ => false

def isPosted : TaskPhase T → Bool
  | .posted _ => true
  | _ => false

def isInside : TaskPhase T → Bool
  | .entered _ | .accumulating _ | .accumulated _ => true
  | _ => false

def summand : TaskPhase T → Option T
  | .accumulated partialValue | .finished partialValue => some partialValue
  | _ => none

def result : TaskPhase T → Option T
  | .generated p | .released p | .continued p | .posted p | .entered p | .accumulating p
  | .accumulated p | .finished p => some p
  | _ => none

end TaskPhase

open TaskPhase

variable {f : T → T → Checked T} {a a' : Accumulator T} {e : Event T}

structure Counted (a : Accumulator T) : Prop where
  active : a.activeCount=a.tasks.countP isActive
  remaining : a.remainingSequentialTasksCount=a.tasks.countP fun phase => !phase.isFinished

theorem counted_create (v₀ : T) : Counted (.create v₀) := ⟨rfl,rfl⟩

theorem Counted.move (h : Counted a) (hm : Move f a e a') : Counted a' := by
  obtain ⟨ha,hr⟩:=h
  cases hm with
  | schedule delayed =>
    constructor
    · cases delayed <;> simpa [schedule,isActive] using ha
    · cases delayed <;> simpa [schedule,isFinished] using hr
  | phase e ho hs =>
    rw [(perm_of_getElem? ho).countP_eq _,countP_cons] at ha hr
    constructor
    · rw [setTask,(set_perm_of_getElem? ho _).countP_eq _,countP_cons]
      cases hs <;> exact ha
    · rw [setTask,(set_perm_of_getElem? ho _).countP_eq _,countP_cons]
      cases hs <;> exact hr
  | startTask ho | generate _ ho | decrementActiveCount ho | runSequential ho
  | enter _ _ ho
  | skipAccumulation _ ho | startAccumulation _ ho | accumulate _ ho | finish _ ho
  | fetch _ ho =>
    rw [(perm_of_getElem? ho).countP_eq _,countP_cons] at ha hr
    simp only [isActive,isFinished] at ha hr
    constructor
    · simp only [setTask,(set_perm_of_getElem? ho _).countP_eq,countP_cons,isActive]
      simp at *
      omega
    · simp only [setTask,(set_perm_of_getElem? ho _).countP_eq,countP_cons,isFinished]
      simp at *
      omega
  | _ => exact ⟨ha,hr⟩

variable {phase : TaskPhase T}

theorem Counted.finished (h : Counted a) (hi : a.remainingSequentialTasksCount=0)
    (hp : phase∈a.tasks) : ∃ p,phase=.finished p := by
  have hn:=countP_eq_zero.mp (h.remaining.symm.trans hi) phase hp
  cases phase <;> simp_all [isFinished]

theorem Counted.inactive (h : Counted a) (hi : a.remainingSequentialTasksCount=0) :
    a.activeCount=0 := by
  rw [h.active,countP_eq_zero]
  intro phase hp
  obtain ⟨p,rfl⟩:=h.finished hi hp
  exact Bool.false_ne_true

variable {task : ℕ}

theorem Counted.active_pos (h : Counted a) (hp : a.tasks[task]?=some phase)
    (ha : phase.isActive=true) : 0<a.activeCount := by
  rw [h.active,countP_pos_iff]
  exact ⟨phase,mem_of_getElem? hp,ha⟩

theorem Counted.remaining_pos (h : Counted a) (hp : a.tasks[task]?=some phase)
    (hu : phase.isFinished=false) : 0<a.remainingSequentialTasksCount := by
  rw [h.remaining,countP_pos_iff]
  exact ⟨phase,mem_of_getElem? hp,by rw [hu]; rfl⟩

def SequentialCall.isGuarded : SequentialCall → Bool
  | .accumulate _ => true
  | .fetched guarded _ | .calling guarded _ => guarded

structure Sequenced (a : Accumulator T) : Prop where
  queued (task : ℕ) : a.sequentialQueue.count (.accumulate task) =
    ((a.tasks[task]?).any isPosted).toNat
  running (task : ℕ) : a.current=some (.accumulate task) ↔ (a.tasks[task]?).any isInside=true
  guard : a.inSequentialCall=a.current.any isGuarded

theorem sequenced_create (v₀ : T) : Sequenced (.create v₀) where
  queued _ := by simp [create]
  running _ := by simp [create]
  guard := rfl

variable {tasks : List (TaskPhase T)} {old : TaskPhase T}

theorem any_getElem?_set (ho : tasks[task]?=some old) (new : TaskPhase T)
    (test : TaskPhase T → Bool) (k : ℕ) :
    ((tasks.set task new)[k]?).any test = if k=task then test new else (tasks[k]?).any test := by
  rw [getElem?_set_of_some ho]
  split <;> rfl

theorem any_getElem?_schedule (delayed : Bool) (test : TaskPhase T → Bool)
    (hd : test .delayed=false) (hs : test .scheduled=false) (k : ℕ) :
    ((a.schedule delayed).tasks[k]?).any test=(a.tasks[k]?).any test := by
  rw [schedule,getElem?_append]
  split
  · rfl
  next hl =>
    rw [getElem?_eq_none (by omega : a.tasks.length≤k)]
    cases k-a.tasks.length with
    | zero => cases delayed <;> simp [hd,hs]
    | succ n => rfl

variable {new : TaskPhase T}

theorem Sequenced.setTask (h : Sequenced a) (ho : a.tasks[task]?=some old)
    (ht : a'.tasks=a.tasks.set task new) (hp : new.isPosted=old.isPosted)
    (hi : new.isInside=old.isInside) (hq : a'.sequentialQueue=a.sequentialQueue)
    (hc : a'.current=a.current) (hg : a'.inSequentialCall=a.inSequentialCall) :
    Sequenced a' := by
  have ha (test : TaskPhase T → Bool) (htest : test new=test old) (k : ℕ) :
      (a'.tasks[k]?).any test=(a.tasks[k]?).any test := by
    rw [ht,any_getElem?_set ho,htest]
    split
    next heq =>
      rw [heq,ho]
      rfl
    · rfl
  refine ⟨fun k => ?_,fun k => ?_,?_⟩
  · rw [hq,ha _ hp]
    exact h.queued k
  · rw [hc,ha _ hi]
    exact h.running k
  · rw [hg,hc]
    exact h.guard

theorem Sequenced.leave (h : Sequenced a) (hc : a.current=some (.accumulate task))
    (hold : a.tasks[task]?=some old) (new : TaskPhase T) (hi : old.isPosted=false)
    (hn : new.isPosted=false ∧ new.isInside=false) (k : ℕ) :
    a.sequentialQueue.count (.accumulate k)=(((a.tasks.set task new)[k]?).any isPosted).toNat ∧
    ((a.tasks.set task new)[k]?).any isInside=false := by
  rw [any_getElem?_set hold,any_getElem?_set hold]
  by_cases hk : k=task
  · have hq:=h.queued task
    rw [hold] at hq
    rw [if_pos hk,if_pos hk,hk,hn.1,hn.2]
    exact ⟨by simpa [hi] using hq,rfl⟩
  · rw [if_neg hk,if_neg hk]
    refine ⟨h.queued k,Bool.eq_false_iff.mpr fun hr => hk ?_⟩
    have ho:=(h.running k).mpr hr
    cases hc.symm.trans ho
    rfl

theorem Sequenced.move (h : Sequenced a) (hm : Move f a e a') : Sequenced a' := by
  cases hm with
  | schedule delayed =>
    constructor
    · intro k
      rw [any_getElem?_schedule _ _ rfl rfl]
      exact h.queued k
    · intro k
      rw [any_getElem?_schedule _ _ rfl rfl]
      exact h.running k
    · exact h.guard
  | postObserver hp =>
    refine ⟨fun k => ?_,h.running,h.guard⟩
    rw [count_append,← h.queued k]
    simp
  | phase e ho hs => cases hs <;> exact h.setTask ho rfl rfl rfl rfl rfl rfl
  | startTask ho | generate _ ho | decrementActiveCount ho | startAccumulation _ ho
  | accumulate _ ho => exact h.setTask ho rfl rfl rfl rfl rfl rfl
  | @runSequential task partialValue ho =>
    have hq:=h.queued task
    have hr:=h.running task
    rw [ho] at hq hr
    refine ⟨fun k => ?_,fun k => ?_,h.guard⟩
    · simp only [Accumulator.setTask]
      rw [any_getElem?_set ho,count_append]
      by_cases hk : k=task
      · rw [if_pos hk,hk,hq]
        simp [isPosted]
      · rw [if_neg hk,h.queued k]
        simp [Ne.symm hk]
    · simp only [Accumulator.setTask]
      rw [any_getElem?_set ho]
      by_cases hk : k=task
      · rw [if_pos hk,hk]
        exact hr
      · rw [if_neg hk]
        exact h.running k
  | startObserver hc hqueue =>
    refine ⟨fun k => ?_,fun k => ?_,?_⟩
    · rw [← h.queued k,(perm_of_getElem? hqueue).count_eq]
      simp
    · rw [← h.running k,hc]
      simp
    · rw [h.guard,hc]
      rfl
  | @enter pos task partialValue hc hqueue ho hg =>
    refine ⟨fun k => ?_,fun k => ?_,rfl⟩
    · have hq:=h.queued k
      rw [(perm_of_getElem? hqueue).count_eq,count_cons] at hq
      simp only [Accumulator.setTask]
      rw [any_getElem?_set ho]
      by_cases hk : k=task
      · subst hk
        rw [ho] at hq
        simpa [isPosted] using hq
      · rw [if_neg hk,← hq]
        simp [Ne.symm hk]
    · simp only [Accumulator.setTask]
      rw [any_getElem?_set ho]
      by_cases hk : k=task
      · simp [hk,isInside]
      · rw [if_neg hk,← h.running k,hc]
        simp [Ne.symm hk]
  | skipAccumulation hc ho =>
    have hl:=h.leave hc ho .skipped rfl ⟨rfl,rfl⟩
    exact ⟨fun k => (hl k).1,fun k => by simp [Accumulator.setTask,(hl k).2],rfl⟩
  | @finish _ _ _ partialValue hc ho =>
    have hl:=h.leave hc ho (.finished partialValue) rfl ⟨rfl,rfl⟩
    exact ⟨fun k => (hl k).1,fun k => by simp [Accumulator.setTask,(hl k).2],rfl⟩
  | @fetch _ _ _ partialValue hc ho =>
    have hl:=h.leave hc ho (.finished partialValue) rfl ⟨rfl,rfl⟩
    refine ⟨fun k => (hl k).1,fun k => by simp [Accumulator.setTask,(hl k).2],?_⟩
    have hg:=h.guard
    rw [hc] at hg
    exact hg
  | callObserver hc =>
    refine ⟨h.queued,fun k => ?_,?_⟩
    · rw [← h.running k,hc]
      simp
    · rw [h.guard,hc]
      rfl
  | observerReturns hc =>
    refine ⟨h.queued,fun k => ?_,?_⟩
    · rw [← h.running k,hc]
      simp
    · rw [h.guard,hc]
      simp [isGuarded]
  | _ => exact ⟨h.queued,h.running,h.guard⟩

theorem result_set {k : ℕ} (ho : tasks[task]?=some old) (hp : (tasks.set task new)[k]?=some phase) :
    tasks[k]?=some phase ∨ (k=task ∧ phase=new) := by
  rw [getElem?_set_of_some ho] at hp
  split at hp
  next heq => exact Or.inr ⟨heq,(Option.some.inj hp).symm⟩
  · exact Or.inl hp

variable {k : ℕ}

theorem result_move {p : T} (hm : Move f a e a')
    (hp : a'.tasks[k]?=some phase) (hr : phase.result=some p) :
    (∃ old,a.tasks[k]?=some old ∧ old.result=some p) ∨
    (e=.generate k p ∧ a.tasks[k]?=some .generating) := by
  cases hm with
  | schedule delayed =>
    rw [schedule,getElem?_append] at hp
    split at hp
    · exact Or.inl ⟨phase,hp,hr⟩
    · rw [mem_singleton.mp (mem_of_getElem? hp)] at hr
      cases delayed <;> cases hr
  | phase e ho hstep =>
    obtain hs | ⟨rfl,rfl⟩:=result_set ho hp
    · exact Or.inl ⟨phase,hs,hr⟩
    · refine Or.inl ⟨_,ho,?_⟩
      cases hstep <;> first | exact hr | cases hr
  | generate partialValue ho =>
    obtain hs | ⟨rfl,rfl⟩:=result_set ho hp
    · exact Or.inl ⟨phase,hs,hr⟩
    · cases hr
      exact Or.inr ⟨rfl,ho⟩
  | startTask ho | skipAccumulation _ ho =>
    obtain hs | ⟨rfl,rfl⟩:=result_set ho hp
    · exact Or.inl ⟨phase,hs,hr⟩
    · cases hr
  | decrementActiveCount ho | runSequential ho | enter _ _ ho | startAccumulation _ ho
  | accumulate _ ho | finish _ ho | fetch _ ho =>
    obtain hs | ⟨rfl,rfl⟩:=result_set ho hp
    · exact Or.inl ⟨phase,hs,hr⟩
    · exact Or.inl ⟨_,ho,hr⟩
  | _ => exact Or.inl ⟨phase,hp,hr⟩

theorem length_tasks_move (hm : Move f a e a')
    (he : ∀ delayed,e≠.schedule delayed) : a'.tasks.length=a.tasks.length := by
  cases hm with
  | schedule delayed => exact absurd rfl (he delayed)
  | phase | startTask | generate | decrementActiveCount | runSequential | enter | skipAccumulation
  | startAccumulation | accumulate | finish | fetch => exact length_set
  | _ => rfl

structure Folded (accumulatorFunc : T → T → Checked T) (initialValue : T) (a : Accumulator T) :
    Prop where
  unskipped : a.isCancelled=false → TaskPhase.skipped∉a.tasks
  taken : a.accumulatedValue=none → a.isCancelled=true ∧ a.activeCount=0
  value (v : T) : a.accumulatedValue=some v → ∃ order : List T,
    order.Perm (a.tasks.filterMap summand) ∧ order.foldlM accumulatorFunc initialValue=.ok v

variable {v₀ : T}

theorem folded_create (v₀ : T) : Folded f v₀ (.create v₀) where
  unskipped _ := nofun
  taken := nofun
  value v hv := by
    cases hv
    exact ⟨[],List.Perm.refl _,rfl⟩

theorem accumulatedValue_move (hm : Move f a e a')
    (he : e≠.getResultAndCancel) (hv : a.accumulatedValue≠none) :
    a'.accumulatedValue≠none := by
  cases hm with
  | takeResult => exact absurd rfl he
  | accumulate => exact Option.some_ne_none _
  | _ => exact hv

theorem not_mem_set (h : phase∉tasks) (hne : phase≠new) : phase∉tasks.set task new := by
  intro hm
  obtain ho | hn:=mem_or_eq_of_mem_set hm
  · exact h ho
  · exact hne hn

theorem filterMap_set (ho : tasks[task]?=some old) (hsum : new.summand=old.summand) :
    ((tasks.set task new).filterMap summand).Perm (tasks.filterMap summand) := by
  have hs:=(set_perm_of_getElem? ho new).filterMap summand
  have hb:=(perm_of_getElem? ho).filterMap summand
  rw [filterMap_cons,hsum,← filterMap_cons] at hs
  exact hs.trans hb.symm

theorem Folded.setTask (h : Folded f v₀ a)
    (ho : a.tasks[task]?=some old) (ht : a'.tasks=a.tasks.set task new)
    (hs : new.summand=old.summand) (hc : a'.isCancelled=a.isCancelled)
    (hvalue : a'.accumulatedValue=a.accumulatedValue)
    (hnew : new=.skipped → a.isCancelled=true)
    (htake : a.accumulatedValue=none → a'.activeCount=0) :
    Folded f v₀ a' where
  unskipped hnot := by
    rw [hc] at hnot
    rw [ht]
    refine not_mem_set (h.unskipped hnot) fun heq => ?_
    rw [hnew heq.symm] at hnot
    cases hnot
  taken hn := by
    rw [hvalue] at hn
    exact ⟨hc.trans (h.taken hn).1,htake hn⟩
  value v hv := by
    rw [hvalue] at hv
    obtain ⟨order,hp,hf⟩:=h.value v hv
    refine ⟨order,?_,hf⟩
    rw [ht]
    exact hp.trans (filterMap_set ho hs).symm

theorem Folded.move (h : Folded f v₀ a) (hm : Move f a e a') : Folded f v₀ a' := by
  cases hm with
  | schedule delayed =>
    refine ⟨fun hc hmem => ?_,h.taken,fun v hv => ?_⟩
    · obtain ho | hnew:=mem_append.mp hmem
      · exact h.unskipped hc ho
      · cases delayed <;> simp at hnew
    · obtain ⟨order,hp,hf⟩:=h.value v hv
      refine ⟨order,?_,hf⟩
      cases delayed <;> simpa [schedule,filterMap_cons,summand] using hp
  | takeResult ha => exact ⟨nofun,fun _ => ⟨rfl,ha⟩,nofun⟩
  | cancelWaits | cancelReturns => exact ⟨nofun,fun hn => ⟨rfl,(h.taken hn).2⟩,h.value⟩
  | phase e ho hs =>
    have ht (hn : a.accumulatedValue=none) := (h.taken hn).2
    cases hs with
    | skipStart hc | skipReleased _ hc => exact h.setTask ho rfl rfl rfl rfl (fun _ => hc) ht
    | wakeUp | proceed => exact h.setTask ho rfl rfl rfl rfl nofun ht
  | generate _ ho | runSequential ho | enter _ _ ho =>
    exact h.setTask ho rfl rfl rfl rfl nofun fun hn => (h.taken hn).2
  | skipAccumulation _ ho hc =>
    exact h.setTask ho rfl rfl rfl rfl (fun _ => hc) fun hn => (h.taken hn).2
  | startTask ho hc | startAccumulation _ ho hc =>
    refine h.setTask ho rfl rfl rfl rfl nofun fun hn => ?_
    rw [(h.taken hn).1] at hc
    cases hc
  | decrementActiveCount ho ha | finish _ ho ha | fetch _ ho ha =>
    -- the value has not been taken while something is active
    refine h.setTask ho rfl rfl rfl rfl nofun fun hn => ?_
    simp [(h.taken hn).2] at ha
  | @accumulate task partialValue value newValue _ ho hvalue hfun =>
    refine ⟨fun hc => not_mem_set (h.unskipped hc) nofun,nofun,fun v hv => ?_⟩
    cases hv
    obtain ⟨order,hp,hf⟩:=h.value value hvalue
    refine ⟨order++[partialValue],?_,?_⟩
    · have hset:=(set_perm_of_getElem? ho (.accumulated partialValue)).filterMap summand
      have hb:=(perm_of_getElem? ho).filterMap summand
      refine List.Perm.trans ?_ hset.symm
      exact (perm_append_singleton _ _).trans ((hp.trans hb).cons partialValue)
    · rw [foldlM_append,hf,ok_bind]
      simp [hfun]
  | _ => exact ⟨h.unskipped,h.taken,h.value⟩

def SequentialCall.isFetched (observer : ℕ) : SequentialCall → Bool
  | .fetched _ o => o == observer
  | _ => false

structure Observed (a : Accumulator T) : Prop where
  place (observer : ℕ) : a.called.count observer +
    (a.asyncCallback.any (· == observer)).toNat+a.posting.count observer +
    a.sequentialQueue.count (.observe observer) +
    (a.current.any (isFetched observer)).toNat =
    if observer<a.observers.length then 1 else 0
  stored : a.asyncCallback≠none → a.remainingSequentialTasksCount≠0
  registered : ∀ n∈a.observers,n≤a.tasks.length
  /-- The tasks before an observer that is no longer stored are done. -/
  ready {observer n : ℕ} : a.observers[observer]?=some n → a.asyncCallback≠some observer →
    ∀ k<n,(a.tasks[k]?).any isFinished=true

theorem observed_create (v₀ : T) : Observed (.create v₀) where
  place _ := by simp [create]
  stored h := absurd rfl h
  registered := nofun
  ready := nofun

theorem Counted.finished_lt (h : Counted a) (hi : a.remainingSequentialTasksCount=0)
    (hk : k<a.tasks.length) : (a.tasks[k]?).any isFinished=true := by
  obtain ⟨p,hp⟩:=h.finished hi (getElem_mem hk)
  rw [getElem?_eq_getElem hk,hp]
  rfl

theorem Observed.setTask (h : Observed a) (hold : a.tasks[task]?=some old)
    (hu : old.isFinished=false) (ht : a'.tasks=a.tasks.set task new)
    (ho : a'.observers=a.observers) (hc : a'.asyncCallback=a.asyncCallback)
    (hs : a.asyncCallback≠none → a'.remainingSequentialTasksCount≠0)
    (hp : ∀ observer,a'.called.count
      observer+(a'.asyncCallback.any (· == observer)).toNat+a'.posting.count
      observer+a'.sequentialQueue.count
      (.observe observer)+(a'.current.any (isFetched observer)).toNat = if observer <
      a.observers.length then 1 else 0) : Observed a' where
  place o := by
    rw [ho]
    exact hp o
  stored := hc ▸ hs
  registered n hn := by
    rw [ht,length_set]
    exact h.registered n (ho ▸ hn)
  ready hn hnot k hk := by
    have hf:=h.ready (ho ▸ hn) (hc ▸ hnot) k hk
    rw [ht,any_getElem?_set hold]
    split
    next heq =>
      rw [heq,hold,Option.any_some,hu] at hf
      cases hf
    · exact hf

theorem Observed.move (h : Observed a) (hcounted : Counted a)
    (hm : Move f a e a') (hcounted' : Counted a')
    (hone : e=.setAsyncObserver → a.asyncCallback=none) : Observed a' := by
  cases hm with
  | schedule delayed =>
    refine ⟨h.place,fun _ => Nat.succ_ne_zero _,fun n hn => ?_,fun hn hs k hk => ?_⟩
    · have := h.registered n hn
      simp [Accumulator.schedule]
      omega
    · rw [any_getElem?_schedule _ _ rfl rfl]
      exact h.ready hn hs k hk
  | observeIdle hw hi =>
    refine ⟨fun o => ?_,h.stored,fun n hn => ?_,fun {o n} hn hs k hk => ?_⟩
    · have hp:=h.place o
      rw [count_append,length_append,count_singleton,length_singleton]
      grind
    · obtain hold | hnew:=mem_append.mp hn
      · exact h.registered n hold
      · rw [mem_singleton.mp hnew]
    · rw [getElem?_append] at hn
      split at hn
      · exact h.ready hn hs k hk
      · have hl:=mem_singleton.mp (mem_of_getElem? hn)
        exact hcounted.finished_lt hi (by omega)
  | observeLater hw hb =>
    have hnone:=hone rfl
    refine ⟨fun o => ?_,fun _ => hb,fun n hn => ?_,fun {o n} hn hs k hk => ?_⟩
    · have hp:=h.place o
      rw [hnone] at hp
      rw [length_append,length_singleton]
      grind
    · obtain hold | hnew:=mem_append.mp hn
      · exact h.registered n hold
      · rw [mem_singleton.mp hnew]
    · rw [getElem?_append] at hn
      split at hn
      · refine h.ready hn ?_ k hk
        rw [hnone]
        nofun
      · obtain ⟨hl,-⟩:=List.getElem?_eq_some_iff.mp hn
        rw [length_singleton] at hl
        exact absurd (congrArg some (by omega)) hs
  | @postObserver observer hpos =>
    refine ⟨fun o => ?_,h.stored,h.registered,h.ready⟩
    have hp:=h.place o
    rw [(perm_cons_erase hpos).count_eq,count_cons] at hp
    rw [count_append,count_singleton]
    grind
  | phase e hold hstep => cases hstep <;> exact h.setTask hold rfl rfl rfl rfl h.stored h.place
  | startTask hold | generate _ hold | decrementActiveCount hold | startAccumulation _ hold
  | accumulate _ hold => exact h.setTask hold rfl rfl rfl rfl h.stored h.place
  | runSequential hold =>
    refine h.setTask hold rfl rfl rfl rfl h.stored fun o => ?_
    refine Eq.trans ?_ (h.place o)
    simp [Accumulator.setTask]
  | @startObserver pos observer hc hq =>
    refine ⟨fun o => ?_,h.stored,h.registered,h.ready⟩
    have hp:=h.place o
    rw [(perm_of_getElem? hq).count_eq,count_cons,hc] at hp
    rw [← hp]
    by_cases ho : observer=o
    · simp [isFetched,ho]
      omega
    · simp [isFetched,ho]
  | enter hc hq hold =>
    refine h.setTask hold rfl rfl rfl rfl h.stored fun o => ?_
    have hp:=h.place o
    rw [(perm_of_getElem? hq).count_eq,count_cons,hc] at hp
    refine Eq.trans ?_ hp
    simp [Accumulator.setTask,isFetched]
  | skipAccumulation hc hold =>
    refine h.setTask hold rfl rfl rfl rfl h.stored fun o => ?_
    have hp:=h.place o
    rw [hc] at hp
    exact hp
  | finish hc hold _ _ hcall =>
    refine h.setTask hold rfl rfl rfl rfl (fun hsome => hcall.resolve_left hsome) fun o => ?_
    have hp:=h.place o
    rw [hc] at hp
    exact hp
  | @fetch task _ observer partialValue hc _ _ _ hcall =>
    have hr : ∀ n∈a.observers,n≤(a.tasks.set task (.finished partialValue)).length := by
      rw [length_set]
      exact h.registered
    refine ⟨fun o => ?_,fun hsome => absurd rfl hsome,hr,fun {o n} hn _ k hk => ?_⟩
    · have hp:=h.place o
      rw [hc,hcall] at hp
      refine Eq.trans ?_ hp
      simp [Accumulator.setTask,isFetched]
      omega
    · have hlen:=hr n (mem_of_getElem? hn)
      exact hcounted'.finished_lt rfl (lt_of_lt_of_le hk hlen)
  | @callObserver guarded observer hc =>
    refine ⟨fun o => ?_,h.stored,h.registered,h.ready⟩
    have hp:=h.place o
    rw [hc] at hp
    rw [← hp,count_append,count_singleton]
    by_cases ho : observer=o
    · simp [isFetched,ho]
      omega
    · simp [isFetched,ho]
  | observerReturns hc =>
    refine ⟨fun o => ?_,h.stored,h.registered,h.ready⟩
    have hp:=h.place o
    rw [hc] at hp
    exact hp
  | _ => exact ⟨h.place,h.stored,h.registered,h.ready⟩

end Fcp.SecAgg.SecAggScheduler

import Fcp.SecAgg.Server.SecAggScheduler

/-!
# What one event does to an accumulator

Every event either leaves the accumulator as it is or makes one of the moves below.
-/

namespace Fcp.SecAgg.SecAggScheduler

open Accumulator

variable {T : Type}

inductive PhaseStep (isCancelled : Bool) : TaskPhase T → TaskPhase T → Prop
  | wakeUp : PhaseStep isCancelled .delayed .scheduled
  | skipStart (h : isCancelled=true) : PhaseStep isCancelled .scheduled .skipped
  | skipReleased (partialValue : T) (h : isCancelled=true) :
      PhaseStep isCancelled (.released partialValue) .skipped
  | proceed (partialValue : T) (h : isCancelled=false) :
      PhaseStep isCancelled (.released partialValue) (.continued partialValue)

inductive Move (accumulatorFunc : T → T → Checked T) (a : Accumulator T) :
    Event T → Accumulator T → Prop
  | stay (event : Event T) : Move accumulatorFunc a event a
  | schedule (delayed : Bool) : Move accumulatorFunc a (.schedule delayed) (a.schedule delayed)
  | observeIdle (hwork : a.hasUnobservedWork=true)
      (hidle : a.remainingSequentialTasksCount=0) :
      Move accumulatorFunc a .setAsyncObserver { a with
        observers := a.observers++[a.tasks.length]
        hasUnobservedWork := false
        posting := a.posting++[a.observers.length] }
  | observeLater (hwork : a.hasUnobservedWork=true)
      (hbusy : a.remainingSequentialTasksCount≠0) :
      Move accumulatorFunc a .setAsyncObserver { a with
        observers := a.observers++[a.tasks.length]
        asyncCallback := some a.observers.length }
  | postObserver {observer : ℕ} (hposting : observer∈a.posting) :
      Move accumulatorFunc a (.postObserver observer) { a with
        posting := a.posting.erase observer
        sequentialQueue := a.sequentialQueue++[.observe observer] }
  | takeResult (hactive : a.activeCount=0) : Move accumulatorFunc a .getResultAndCancel { a with
        isCancelled := true
        accumulatedValue := none }
  | cancelWaits (hactive : 0<a.activeCount) : Move accumulatorFunc a .cancel { a with
        isCancelled := true
        cancelsWaiting := a.cancelsWaiting+1 }
  | cancelReturns (hactive : a.activeCount=0) : Move accumulatorFunc a .cancel { a with
        isCancelled := true
        cancelReturned := true }
  | cancelWakesUp (hwaiting : 0<a.cancelsWaiting) (hactive : a.activeCount=0) :
      Move accumulatorFunc a .cancelWakeUp { a with
        cancelsWaiting := a.cancelsWaiting-1
        cancelReturned := true }
  | phase {task : ℕ} {old new : TaskPhase T} (event : Event T)
      (hold : a.tasks[task]?=some old) (hstep : PhaseStep a.isCancelled old new) :
      Move accumulatorFunc a event (a.setTask task new)
  | startTask {task : ℕ} (hold : a.tasks[task]?=some .scheduled)
      (hcancelled : a.isCancelled=false) :
      Move accumulatorFunc a (.startTask task)
        { a.setTask task .generating with activeCount := a.activeCount+1 }
  | generate {task : ℕ} (partialValue : T) (hold : a.tasks[task]?=some .generating) :
      Move accumulatorFunc a (.generate task partialValue)
        (a.setTask task (.generated partialValue))
  | decrementActiveCount {task : ℕ} {partialValue : T}
      (hold : a.tasks[task]?=some (.generated partialValue)) (hactive : 0<a.activeCount) :
      Move accumulatorFunc a (.decrementActiveCount task)
        { a.setTask task (.released partialValue) with activeCount := a.activeCount-1 }
  | runSequential {task : ℕ} {partialValue : T}
      (hold : a.tasks[task]?=some (.continued partialValue)) :
      Move accumulatorFunc a (.runSequential task)
        { a.setTask task (.posted partialValue) with
          sequentialQueue := a.sequentialQueue++[.accumulate task] }
  | startObserver {position observer : ℕ} (hcurrent : a.current=none)
      (hqueue : a.sequentialQueue[position]?=some (.observe observer)) :
      Move accumulatorFunc a (.startSequential position) { a with
        sequentialQueue := a.sequentialQueue.eraseIdx position
        current := some (.fetched false observer) }
  | enter {position task : ℕ} {partialValue : T} (hcurrent : a.current=none)
      (hqueue : a.sequentialQueue[position]?=some (.accumulate task))
      (hold : a.tasks[task]?=some (.posted partialValue))
      (hguard : a.inSequentialCall=false) :
      Move accumulatorFunc a (.startSequential position)
        { a.setTask task (.entered partialValue) with
          sequentialQueue := a.sequentialQueue.eraseIdx position
          inSequentialCall := true
          current := some (.accumulate task) }
  | skipAccumulation {task : ℕ} {partialValue : T} (hcurrent : a.current=some (.accumulate task))
      (hold : a.tasks[task]?=some (.entered partialValue)) (hcancelled : a.isCancelled=true) :
      Move accumulatorFunc a .startAccumulation
        { a.setTask task .skipped with inSequentialCall := false, current := none }
  | startAccumulation {task : ℕ} {partialValue : T}
      (hcurrent : a.current=some (.accumulate task))
      (hold : a.tasks[task]?=some (.entered partialValue)) (hcancelled : a.isCancelled=false) :
      Move accumulatorFunc a .startAccumulation
        { a.setTask task (.accumulating partialValue) with activeCount := a.activeCount+1 }
  | accumulate {task : ℕ} {partialValue value newValue : T}
      (hcurrent : a.current=some (.accumulate task))
      (hold : a.tasks[task]?=some (.accumulating partialValue))
      (hvalue : a.accumulatedValue=some value)
      (hfunc : accumulatorFunc value partialValue=.ok newValue) :
      Move accumulatorFunc a .accumulate
        { a.setTask task (.accumulated partialValue) with accumulatedValue := some newValue }
  | finish {task activeCount remaining : ℕ} {partialValue : T}
      (hcurrent : a.current=some (.accumulate task))
      (hold : a.tasks[task]?=some (.accumulated partialValue))
      (hactive : a.activeCount=activeCount+1)
      (hremaining : a.remainingSequentialTasksCount=remaining+1)
      (hcallback : a.asyncCallback=none ∨ remaining≠0) :
      Move accumulatorFunc a .updateCountsAndGetCallback
        { a.setTask task (.finished partialValue) with
          activeCount := activeCount
          remainingSequentialTasksCount := remaining
          inSequentialCall := false
          current := none }
  | fetch {task activeCount observer : ℕ} {partialValue : T}
      (hcurrent : a.current=some (.accumulate task))
      (hold : a.tasks[task]?=some (.accumulated partialValue))
      (hactive : a.activeCount=activeCount+1)
      (hremaining : a.remainingSequentialTasksCount=1)
      (hcallback : a.asyncCallback=some observer) :
      Move accumulatorFunc a .updateCountsAndGetCallback
        { a.setTask task (.finished partialValue) with
          activeCount := activeCount
          remainingSequentialTasksCount := 0
          hasUnobservedWork := false
          asyncCallback := none
          current := some (.fetched true observer) }
  | callObserver {guarded : Bool} {observer : ℕ}
      (hcurrent : a.current=some (.fetched guarded observer)) :
      Move accumulatorFunc a .callObserver { a with
        called := a.called++[observer]
        current := some (.calling guarded observer) }
  | observerReturns {guarded : Bool} {observer : ℕ}
      (hcurrent : a.current=some (.calling guarded observer)) :
      Move accumulatorFunc a .observerReturns { a with
        inSequentialCall := a.inSequentialCall && !guarded
        current := none }

variable {f : T → T → Checked T} {a a' : Accumulator T}

theorem decrement_eq_ok {n m : ℕ} (h : decrement n=.ok m) : n=m+1 := by
  cases n with
  | zero => cases h
  | succ n =>
    cases h
    rfl

theorem move_startSequential {pos : ℕ} (h : a.startSequential pos=.ok a') :
    Move f a (.startSequential pos) a' := by
  unfold startSequential at h
  split at h
  next hc hq =>
    cases h
    exact .startObserver hc hq
  next hc hq =>
    split at h
    next partialValue ho =>
      rw [bind_eq_ok] at h
      obtain ⟨_,hg,h⟩:=h
      rw [fcpCheck_eq_ok,Bool.not_eq_true'] at hg
      cases h
      exact .enter hc hq ho hg
    · cases h
      exact .stay _
  · cases h
    exact .stay _

theorem move_startAccumulation : Move f a .startAccumulation a.startAccumulation := by
  unfold startAccumulation
  split
  next task hcurrent =>
    split
    next partialValue ho =>
      split
      next hc => exact .skipAccumulation hcurrent ho hc
      next hc => exact .startAccumulation hcurrent ho (Bool.not_eq_true _ ▸ hc)
    · exact .stay _
  · exact .stay _

theorem move_accumulate (h : a.accumulate f=.ok a') : Move f a .accumulate a' := by
  unfold accumulate at h
  split at h
  next task hc =>
    split at h
    next partialValue ho =>
      split at h
      · cases h
      next value hv =>
        rw [bind_eq_ok] at h
        obtain ⟨newValue,hf,h⟩:=h
        cases h
        exact .accumulate hc ho hv hf
    · cases h
      exact .stay _
  · cases h
    exact .stay _

theorem move_updateCounts (h : a.updateCountsAndGetCallback=.ok a') :
    Move f a .updateCountsAndGetCallback a' := by
  unfold updateCountsAndGetCallback at h
  split at h
  next task hcurrent =>
    split at h
    next partialValue ho =>
      rw [bind_eq_ok] at h
      obtain ⟨activeCount,ha,h⟩:=h
      rw [bind_eq_ok] at h
      obtain ⟨remaining,hr,h⟩:=h
      have ha:=decrement_eq_ok ha
      have hr:=decrement_eq_ok hr
      dsimp only at h
      split at h
      next observer hc =>
        split at h
        next hz =>
          subst hz
          cases h
          exact .fetch hcurrent ho ha hr hc
        next hne =>
          cases h
          exact .finish hcurrent ho ha hr (Or.inr hne)
      next hc =>
        cases h
        exact .finish hcurrent ho ha hr (Or.inl hc)
    · cases h
      exact .stay _
  · cases h
    exact .stay _

theorem move_setAsyncObserver : Move f a .setAsyncObserver a.setAsyncObserver.2 := by
  unfold setAsyncObserver
  split
  · exact .stay _
  next hw =>
    have hw : a.hasUnobservedWork=true := by simpa using hw
    dsimp only
    split
    next hi => exact .observeIdle hw (of_decide_eq_true hi)
    next hi => exact .observeLater hw (by simpa [isIdle] using hi)

variable {task : ℕ}

theorem move_startTask : Move f a (.startTask task) (a.startTask task) := by
  unfold startTask
  split
  next ho =>
    split
    next hc => exact .phase _ ho (.skipStart hc)
    next hc => exact .startTask ho (Bool.not_eq_true _ ▸ hc)
  · exact .stay _

theorem move_testCancelled : Move f a (.testCancelled task) (a.testCancelled task) := by
  unfold testCancelled
  split
  next partialValue ho =>
    split
    next hc => exact .phase _ ho (.skipReleased partialValue hc)
    next hc => exact .phase _ ho (.proceed partialValue (Bool.not_eq_true _ ▸ hc))
  · exact .stay _

theorem move_decrementActiveCount (h : a.decrementActiveCount task=.ok a') :
    Move f a (.decrementActiveCount task) a' := by
  unfold decrementActiveCount at h
  split at h
  next partialValue ho =>
    rw [bind_eq_ok] at h
    obtain ⟨_,ha,h⟩:=h
    rw [fcpCheck_eq_ok,decide_eq_true_iff] at ha
    cases h
    exact .decrementActiveCount ho ha
  · cases h
    exact .stay _

theorem move_of_step {e : Event T} (h : step f a e=.ok a') : Move f a e a' := by
  cases e with
  | schedule delayed =>
    cases h
    exact .schedule delayed
  | setAsyncObserver =>
    cases h
    exact move_setAsyncObserver
  | postObserver observer =>
    cases h
    unfold postObserver
    split
    next hp => exact .postObserver hp
    · exact .stay _
  | getResultAndCancel =>
    rw [step,bind_eq_ok] at h
    obtain ⟨r,hr,h⟩:=h
    unfold getResultAndCancel at hr
    rw [bind_eq_ok] at hr
    obtain ⟨_,ha,hr⟩:=hr
    rw [fcpCheck_eq_ok,decide_eq_true_iff] at ha
    cases hr
    cases h
    exact .takeResult ha
  | cancel =>
    cases h
    unfold cancel
    split
    next ha => exact .cancelWaits ha
    next ha => exact .cancelReturns (by omega)
  | cancelWakeUp =>
    cases h
    unfold cancelWakeUp
    split
    next hb => exact .cancelWakesUp hb.1 hb.2
    · exact .stay _
  | wakeUp task =>
    cases h
    unfold wakeUp
    split
    next ho => exact .phase _ ho .wakeUp
    · exact .stay _
  | startTask task =>
    cases h
    exact move_startTask
  | generate task partialValue =>
    cases h
    unfold generate
    split
    next ho => exact .generate partialValue ho
    · exact .stay _
  | decrementActiveCount task => exact move_decrementActiveCount h
  | testCancelled task =>
    cases h
    exact move_testCancelled
  | runSequential task =>
    cases h
    unfold runSequential
    split
    next ho => exact .runSequential ho
    · exact .stay _
  | startSequential pos => exact move_startSequential h
  | startAccumulation =>
    cases h
    exact move_startAccumulation
  | accumulate => exact move_accumulate h
  | updateCountsAndGetCallback => exact move_updateCounts h
  | callObserver =>
    cases h
    unfold callObserver
    split
    next hc => exact .callObserver hc
    · exact .stay _
  | observerReturns =>
    cases h
    unfold observerReturns
    split
    next hc =>
      have hm : Move f a _ _ := .observerReturns hc
      simpa using hm
    next hc =>
      have hm : Move f a _ _ := .observerReturns hc
      simpa using hm
    · exact .stay _

end Fcp.SecAgg.SecAggScheduler

import Fcp.Base.Monitoring
import Fcp.Lib.Run

/-!
# Accumulators and their tasks (server/secagg_scheduler.h)

Each section under `mutex_` is one event, and so is each thing that a task does between two. The
sequential scheduler runs one task at a time. A generator is the value that it returns, an observer
the number of the `SetAsyncObserver` call that it was passed to, among those that returned true.
-/

namespace Fcp.SecAgg.SecAggScheduler

inductive TaskPhase (T : Type) where
  /-- The clock has not woken it up. -/
  | delayed
  | scheduled
  | generating
  | generated (partialValue : T)
  | released (partialValue : T)
  | continued (partialValue : T)
  | posted (partialValue : T)
  | entered (partialValue : T)
  | accumulating (partialValue : T)
  | accumulated (partialValue : T)
  | finished (partialValue : T)
  | skipped
  deriving DecidableEq

inductive SequentialTask where
  | accumulate (task : ℕ)
  | observe (observer : ℕ)
  deriving DecidableEq

inductive SequentialCall where
  | accumulate (task : ℕ)
  | fetched (guarded : Bool) (observer : ℕ)
  | calling (guarded : Bool) (observer : ℕ)
  deriving DecidableEq

structure Accumulator (T : Type) where
  accumulatedValue : Option T
  remainingSequentialTasksCount : ℕ
  hasUnobservedWork : Bool
  activeCount : ℕ
  isCancelled : Bool
  asyncCallback : Option ℕ
  inSequentialCall : Bool
  tasks : List (TaskPhase T)
  sequentialQueue : List SequentialTask
  current : Option SequentialCall
  posting : List ℕ
  observers : List ℕ
  called : List ℕ
  cancelsWaiting : ℕ
  cancelReturned : Bool
  deriving DecidableEq

variable {T : Type}

namespace Accumulator

def create (initialValue : T) : Accumulator T where
  accumulatedValue := some initialValue
  remainingSequentialTasksCount := 0
  hasUnobservedWork := false
  activeCount := 0
  isCancelled := false
  asyncCallback := none
  inSequentialCall := false
  tasks := []
  sequentialQueue := []
  current := none
  posting := []
  observers := []
  called := []
  cancelsWaiting := 0
  cancelReturned := false

variable (a : Accumulator T) (task : ℕ)

def setTask (phase : TaskPhase T) : Accumulator T :=
  { a with tasks := a.tasks.set task phase }

def schedule (delayed : Bool) : Accumulator T :=
  { a with
    hasUnobservedWork := a.hasUnobservedWork || decide (a.remainingSequentialTasksCount=0)
    remainingSequentialTasksCount := a.remainingSequentialTasksCount+1
    tasks := a.tasks++[if delayed then .delayed else .scheduled] }

def isIdle : Bool := decide (a.remainingSequentialTasksCount=0)

def setAsyncObserver : Bool × Accumulator T :=
  if !a.hasUnobservedWork then (false,a)
  else
    let observer := a.observers.length
    let a := { a with observers := a.observers++[a.tasks.length] }
    if a.isIdle then
      (true,{ a with hasUnobservedWork := false, posting := a.posting++[observer] })
    else (true,{ a with asyncCallback := some observer })

def postObserver (observer : ℕ) : Accumulator T :=
  if observer∈a.posting then
    { a with
      posting := a.posting.erase observer
      sequentialQueue := a.sequentialQueue++[.observe observer] }
  else a

def getResultAndCancel : Checked (Option T × Accumulator T) := do
  fcpCheck (decide (a.activeCount=0))
  return (a.accumulatedValue,{ a with isCancelled := true, accumulatedValue := none })

def cancel : Accumulator T :=
  if a.activeCount>0 then
    { a with isCancelled := true, cancelsWaiting := a.cancelsWaiting+1 }
  else { a with isCancelled := true, cancelReturned := true }

def cancelWakeUp : Accumulator T :=
  if a.cancelsWaiting>0 ∧ a.activeCount=0 then
    { a with cancelsWaiting := a.cancelsWaiting-1, cancelReturned := true }
  else a

def wakeUp : Accumulator T :=
  match a.tasks[task]? with
  | some .delayed => a.setTask task .scheduled
  | _ => a

def startTask : Accumulator T :=
  match a.tasks[task]? with
  | some .scheduled =>
    if a.isCancelled then a.setTask task .skipped
    else { a.setTask task .generating with activeCount := a.activeCount+1 }
  | _ => a

def generate (partialValue : T) : Accumulator T :=
  match a.tasks[task]? with
  | some .generating => a.setTask task (.generated partialValue)
  | _ => a

def decrementActiveCount : Checked (Accumulator T) :=
  match a.tasks[task]? with
  | some (.generated partialValue) => do
    fcpCheck (decide (a.activeCount>0))
    return { a.setTask task (.released partialValue) with activeCount := a.activeCount-1 }
  | _ => .ok a

def testCancelled : Accumulator T :=
  match a.tasks[task]? with
  | some (.released partialValue) =>
    if a.isCancelled then a.setTask task .skipped else a.setTask task (.continued partialValue)
  | _ => a

def runSequential : Accumulator T :=
  match a.tasks[task]? with
  | some (.continued partialValue) =>
    { a.setTask task (.posted partialValue) with
      sequentialQueue := a.sequentialQueue++[.accumulate task] }
  | _ => a

def startSequential (position : ℕ) : Checked (Accumulator T) :=
  match a.current, a.sequentialQueue[position]? with
  | none, some (.observe observer) =>
    .ok { a with
      sequentialQueue := a.sequentialQueue.eraseIdx position
      current := some (.fetched false observer) }
  | none, some (.accumulate task) =>
    match a.tasks[task]? with
    | some (.posted partialValue) => do
      fcpCheck (!a.inSequentialCall)
      return { a.setTask task (.entered partialValue) with
        sequentialQueue := a.sequentialQueue.eraseIdx position
        inSequentialCall := true
        current := some (.accumulate task) }
    | _ => .ok a
  | _, _ => .ok a

def startAccumulation : Accumulator T :=
  match a.current with
  | some (.accumulate task) =>
    match a.tasks[task]? with
    | some (.entered partialValue) =>
      if a.isCancelled then
        { a.setTask task .skipped with inSequentialCall := false, current := none }
      else { a.setTask task (.accumulating partialValue) with activeCount := a.activeCount+1 }
    | _ => a
  | _ => a

def accumulate (accumulatorFunc : T → T → Checked T) (a : Accumulator T) :
    Checked (Accumulator T) :=
  match a.current with
  | some (.accumulate task) =>
    match a.tasks[task]? with
    | some (.accumulating partialValue) =>
      match a.accumulatedValue with
      | none => .error .outOfRange
      | some value => do
        let newValue ← accumulatorFunc value partialValue
        return { a.setTask task (.accumulated partialValue) with accumulatedValue := some newValue }
    | _ => .ok a
  | _ => .ok a

def decrement : ℕ → Checked ℕ
  | 0 => .error .wrapAround
  | n+1 => .ok n

def updateCountsAndGetCallback : Checked (Accumulator T) :=
  match a.current with
  | some (.accumulate task) =>
    match a.tasks[task]? with
    | some (.accumulated partialValue) => do
      let activeCount ← decrement a.activeCount
      let remaining ← decrement a.remainingSequentialTasksCount
      let a := { a.setTask task (.finished partialValue) with
        activeCount := activeCount
        remainingSequentialTasksCount := remaining }
      match a.asyncCallback with
      | some observer =>
        if remaining=0 then
          return { a with
            hasUnobservedWork := false
            asyncCallback := none
            current := some (.fetched true observer) }
        else return { a with inSequentialCall := false, current := none }
      | none => return { a with inSequentialCall := false, current := none }
    | _ => .ok a
  | _ => .ok a

def callObserver : Accumulator T :=
  match a.current with
  | some (.fetched guarded observer) =>
    { a with called := a.called++[observer], current := some (.calling guarded observer) }
  | _ => a

def observerReturns : Accumulator T :=
  match a.current with
  | some (.calling true _) => { a with inSequentialCall := false, current := none }
  | some (.calling false _) => { a with current := none }
  | _ => a

end Accumulator

inductive Event (T : Type) where
  | schedule (delayed : Bool)
  | setAsyncObserver
  | postObserver (observer : ℕ)
  | getResultAndCancel
  | cancel
  | cancelWakeUp
  | wakeUp (task : ℕ)
  | startTask (task : ℕ)
  | generate (task : ℕ) (partialValue : T)
  | decrementActiveCount (task : ℕ)
  | testCancelled (task : ℕ)
  | runSequential (task : ℕ)
  | startSequential (position : ℕ)
  | startAccumulation
  | accumulate
  | updateCountsAndGetCallback
  | callObserver
  | observerReturns
  deriving DecidableEq

def step (accumulatorFunc : T → T → Checked T) (a : Accumulator T) :
    Event T → Checked (Accumulator T)
  | .schedule delayed => .ok (a.schedule delayed)
  | .setAsyncObserver => .ok a.setAsyncObserver.2
  | .postObserver observer => .ok (a.postObserver observer)
  | .getResultAndCancel => do return (← a.getResultAndCancel).2
  | .cancel => .ok a.cancel
  | .cancelWakeUp => .ok a.cancelWakeUp
  | .wakeUp task => .ok (a.wakeUp task)
  | .startTask task => .ok (a.startTask task)
  | .generate task partialValue => .ok (a.generate task partialValue)
  | .decrementActiveCount task => a.decrementActiveCount task
  | .testCancelled task => .ok (a.testCancelled task)
  | .runSequential task => .ok (a.runSequential task)
  | .startSequential position => a.startSequential position
  | .startAccumulation => .ok a.startAccumulation
  | .accumulate => a.accumulate accumulatorFunc
  | .updateCountsAndGetCallback => a.updateCountsAndGetCallback
  | .callObserver => .ok a.callObserver
  | .observerReturns => .ok a.observerReturns

end Fcp.SecAgg.SecAggScheduler

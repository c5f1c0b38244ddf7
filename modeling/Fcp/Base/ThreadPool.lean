import Fcp.Base.Monitoring
import Fcp.Lib.Behavior
import Mathlib.Data.List.Perm.Basic

/-!
# Thread pools (`ThreadPoolScheduler` in fcp/base/scheduler.cc)

Each section under `busy_` is one step. A thread that runs a task does so until its next section.
Each step changes the position of at most one thread, apart from the broadcast of the destructor.
-/

namespace Fcp.Scheduling

inductive Position (τ : Type) where
  | entering
  | waiting
  | signalled
  /-- Woken without a signal. -/
  | woken
  | running (task : τ)
  | terminated
  deriving Repr, DecidableEq

namespace Position

variable {τ : Type}

def isActive : Position τ → Bool
  | .entering => true
  | .running _ => true
  | _ => false

def isWaiting : Position τ → Bool
  | .waiting => true
  | _ => false

def isSignalled : Position τ → Bool
  | .signalled => true
  | _ => false

/-- The thread does not wait for anything but the lock or the end of its task. -/
def isRunnable : Position τ → Bool
  | .waiting => false
  | .terminated => false
  | _ => true

def task : Position τ → Option τ
  | .running task => some task
  | _ => none

def wake : Position τ → Position τ
  | .waiting => .signalled
  | position => position

end Position

structure ThreadPool (τ : Type) where
  todo : List τ
  activeCount : ℕ
  threadsShouldJoin : Bool
  threads : List (Position τ)
  scheduled : List τ
  taken : List τ
  finished : List τ
  deriving Repr, DecidableEq

inductive PoolEvent (τ : Type) where
  | schedule (task : τ) (wakes : Option ℕ)
  | proceed (thread : ℕ)
  | wakeUp (thread : ℕ)
  | waitUntilIdle
  | destroy
  deriving Repr, DecidableEq

inductive PoolStop where
  | impossible
  | fault (fault : Fault)
  deriving Repr, DecidableEq

namespace ThreadPool

variable {τ : Type}

def initial (threadCount : ℕ) : ThreadPool τ :=
  ⟨[],threadCount,false,List.replicate threadCount .entering,[],[],[]⟩

variable (s : ThreadPool τ)

def idleCondition : Bool := s.todo.isEmpty && s.activeCount == 0

def signal : Option ℕ → Except PoolStop (ThreadPool τ)
  | some i =>
    if (s.threads[i]?.any Position.isWaiting) then
      .ok { s with threads := s.threads.set i .signalled }
    else .error .impossible
  | none => if s.threads.any Position.isWaiting then .error .impossible else .ok s

def schedule (task : τ) (wakes : Option ℕ) : Except PoolStop (ThreadPool τ) := signal { s with
    todo := s.todo++[task]
    scheduled := s.scheduled++[task] } wakes

def look (i : ℕ) : Except PoolStop (ThreadPool τ) :=
  match s.todo with
  | [] =>
    if s.threadsShouldJoin then .ok { s with threads := s.threads.set i .terminated }
    else .ok { s with threads := s.threads.set i .waiting }
  | task::rest =>
    if s.threadsShouldJoin then .error (.fault .check)
    else .ok { s with
      todo := rest
      activeCount := s.activeCount+1
      threads := s.threads.set i (.running task)
      taken := s.taken++[task] }

def decrement : Except PoolStop (ThreadPool τ) :=
  match s.activeCount with
  | 0 => .error (.fault .wrapAround)
  | count+1 => .ok { s with activeCount := count }

def proceed (i : ℕ) : Except PoolStop (ThreadPool τ) :=
  match s.threads[i]? with
  | some .entering => do
    let s ← s.decrement
    s.look i
  | some (.running task) => do
    let s ← { s with finished := s.finished++[task] }.decrement
    s.look i
  | some .signalled => s.look i
  | some .woken => s.look i
  | some .waiting => .error .impossible
  | some .terminated => .error .impossible
  | none => .error .impossible

def destroy : Except PoolStop (ThreadPool τ) :=
  if s.idleCondition then
    .ok { s with
      threadsShouldJoin := true
      threads := s.threads.map Position.wake }
  else .error (.fault .check)

end ThreadPool

/-- The pool is not used any more once its destructor has begun. -/
def poolStep {τ : Type} (s : ThreadPool τ) : PoolEvent τ → Except PoolStop (ThreadPool τ)
  | .schedule task wakes =>
    if s.threadsShouldJoin then .error .impossible else s.schedule task wakes
  | .proceed thread => s.proceed thread
  | .wakeUp thread =>
    if s.threads[thread]?.any Position.isWaiting then
      .ok { s with threads := s.threads.set thread .woken }
    else .error .impossible
  | .waitUntilIdle =>
    if !s.threadsShouldJoin && s.idleCondition then .ok s else .error .impossible
  | .destroy => if s.threadsShouldJoin then .error .impossible else s.destroy

variable {τ : Type} {s s' : ThreadPool τ} {e : PoolEvent τ} {i : ℕ}

structure GoesOn (s : ThreadPool τ) (i : ℕ) (position : Position τ) (count : ℕ)
    (finished : List τ) : Prop where
  there : s.threads[i]?=some position
  runnable : position.isRunnable=true
  counted : s.activeCount=count + if position.isActive then 1 else 0
  returned : finished=s.finished++position.task.toList

inductive PoolMove (s : ThreadPool τ) : PoolEvent τ → ThreadPool τ → Prop
  | signals {task : τ} {i : ℕ} (hlive : s.threadsShouldJoin=false)
      (hi : s.threads[i]?=some .waiting) :
      PoolMove s (.schedule task (some i)) { s with
        todo := s.todo++[task]
        scheduled := s.scheduled++[task]
        threads := s.threads.set i .signalled }
  | unheard {task : τ} (hlive : s.threadsShouldJoin=false)
      (hnone : s.threads.countP Position.isWaiting=0) :
      PoolMove s (.schedule task none) { s with
        todo := s.todo++[task]
        scheduled := s.scheduled++[task] }
  | takes {i : ℕ} {position : Position τ} {count : ℕ} {finished : List τ} {task : τ}
      {rest : List τ} (hgoes : GoesOn s i position count finished)
      (hlive : s.threadsShouldJoin=false) (htodo : s.todo=task::rest) :
      PoolMove s (.proceed i) { s with
        todo := rest
        activeCount := count+1
        threads := s.threads.set i (.running task)
        taken := s.taken++[task]
        finished := finished }
  | waits {i : ℕ} {position : Position τ} {count : ℕ} {finished : List τ}
      (hgoes : GoesOn s i position count finished) (hlive : s.threadsShouldJoin=false)
      (htodo : s.todo=[]) :
      PoolMove s (.proceed i) { s with
        activeCount := count
        threads := s.threads.set i .waiting
        finished := finished }
  | terminates {i : ℕ} {position : Position τ} {count : ℕ} {finished : List τ}
      (hgoes : GoesOn s i position count finished) (hjoin : s.threadsShouldJoin=true)
      (htodo : s.todo=[]) :
      PoolMove s (.proceed i) { s with
        activeCount := count
        threads := s.threads.set i .terminated
        finished := finished }
  | wakes {i : ℕ} (hi : s.threads[i]?=some .waiting) :
      PoolMove s (.wakeUp i) { s with threads := s.threads.set i .woken }
  | idles (htodo : s.todo=[]) (hcount : s.activeCount=0) : PoolMove s .waitUntilIdle s
  | destroyed (hlive : s.threadsShouldJoin=false) (htodo : s.todo=[])
      (hcount : s.activeCount=0) :
      PoolMove s .destroy { s with
        threadsShouldJoin := true
        threads := s.threads.map Position.wake }

theorem idleCondition_iff : s.idleCondition=true ↔ s.todo=[] ∧ s.activeCount=0 := by
  simp [ThreadPool.idleCondition]

theorem waiting_of_any (h : s.threads[i]?.any Position.isWaiting=true) :
    s.threads[i]?=some .waiting := by
  cases hi : s.threads[i]? with
  | none =>
    rw [hi] at h
    cases h
  | some pos =>
    rw [hi] at h
    cases pos with
    | waiting => rfl
    | _ => cases h

theorem decrement_eq_ok : s.decrement=.ok s' ↔
    ∃ count,s.activeCount=count+1 ∧ s'={ s with activeCount := count } := by
  unfold ThreadPool.decrement
  cases s.activeCount with
  | zero => simp
  | succ count => simp [eq_comm]

theorem proceed_eq_ok (h : s.proceed i=.ok s') :
    ∃ pos count finished,GoesOn s i pos count finished ∧ ThreadPool.look { s with
        activeCount := count
        finished := finished } i=.ok s' := by
  unfold ThreadPool.proceed at h
  split at h
  next hi =>
    obtain ⟨s₁,hs₁,h⟩:=bind_eq_ok.mp h
    obtain ⟨count,hc,rfl⟩:=decrement_eq_ok.mp hs₁
    exact ⟨_,count,s.finished,⟨hi,rfl,hc,(List.append_nil _).symm⟩,h⟩
  next task hi =>
    obtain ⟨s₁,hs₁,h⟩:=bind_eq_ok.mp h
    obtain ⟨count,hc,rfl⟩:=decrement_eq_ok.mp hs₁
    exact ⟨_,count,s.finished++[task],⟨hi,rfl,hc,rfl⟩,h⟩
  next hi => exact ⟨_,s.activeCount,s.finished,⟨hi,rfl,rfl,(List.append_nil _).symm⟩,h⟩
  next hi => exact ⟨_,s.activeCount,s.finished,⟨hi,rfl,rfl,(List.append_nil _).symm⟩,h⟩
  · cases h
  · cases h
  · cases h

theorem move_of_proceed (h : s.proceed i=.ok s') : PoolMove s (.proceed i) s' := by
  obtain ⟨pos,count,finished,hg,h⟩:=proceed_eq_ok h
  unfold ThreadPool.look at h
  split at h
  · split at h
    · cases h
      exact .terminates hg ‹_› ‹_›
    · cases h
      exact .waits hg (Bool.not_eq_true _ ▸ ‹_›) ‹_›
  · split at h
    · cases h
    · cases h
      exact .takes hg (Bool.not_eq_true _ ▸ ‹_›) ‹_›

theorem move_of_step (h : poolStep s e=.ok s') : PoolMove s e s' := by
  cases e with
  | schedule task wakes =>
    rw [poolStep] at h
    split at h
    · cases h
    have hl : s.threadsShouldJoin=false := Bool.not_eq_true _ ▸ ‹_›
    unfold ThreadPool.schedule ThreadPool.signal at h
    cases wakes with
    | some i =>
      simp only at h
      split at h
      · cases h
        exact .signals hl (waiting_of_any ‹_›)
      · cases h
    | none =>
      simp only at h
      split at h
      · cases h
      next hn =>
        cases h
        refine .unheard hl (List.countP_eq_zero.mpr fun pos hp hw => ?_)
        exact hn (List.any_eq_true.mpr ⟨pos,hp,hw⟩)
  | proceed i => exact move_of_proceed h
  | wakeUp i =>
    rw [poolStep] at h
    split at h
    · cases h
      exact .wakes (waiting_of_any ‹_›)
    · cases h
  | waitUntilIdle =>
    rw [poolStep] at h
    split at h
    next hi =>
      cases h
      rw [Bool.and_eq_true,idleCondition_iff] at hi
      exact .idles hi.2.1 hi.2.2
    · cases h
  | destroy =>
    rw [poolStep] at h
    split at h
    · cases h
    have hl : s.threadsShouldJoin=false := Bool.not_eq_true _ ▸ ‹_›
    unfold ThreadPool.destroy at h
    split at h
    next hi =>
      cases h
      rw [idleCondition_iff] at hi
      exact .destroyed hl hi.1 hi.2
    · cases h

end Fcp.Scheduling

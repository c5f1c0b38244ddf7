import Fcp.SecAgg.Server.AccumulatorInvariants

/-!
# Cancelled accumulators

`Cancel` waits for the tasks that `active_count_` counts. A callback is not counted: it is fetched
or posted in a section and called later.
-/

namespace Fcp.SecAgg.SecAggScheduler

open TaskPhase List Accumulator

variable {T : Type} {f : T → T → Checked T} {a a' : Accumulator T} {e : Event T}
  {v₀ : T}

/-- Nothing of the accumulator runs, and no step starts anything. -/
structure Quiesced (accumulatorFunc : T → T → Checked T) (a : Accumulator T) : Prop where
  inactive {phase : TaskPhase T} : phase∈a.tasks → phase.isActive=false
  uncalled (guarded : Bool) (observer : ℕ) : a.current≠some (.calling guarded observer)
  idles {event : Event T} {a' : Accumulator T} : step accumulatorFunc a event=.ok a' →
    (∀ phase∈a'.tasks,phase.isActive=false) ∧ a'.called=a.called ∧
    (event≠.getResultAndCancel → a'.accumulatedValue=a.accumulatedValue)

def TaskPhase.isSumming : TaskPhase T → Bool
  | .accumulating _ | .accumulated _ => true
  | _ => false

def SequentialTask.isObserve : SequentialTask → Bool
  | .observe _ => true
  | .accumulate _ => false

def SequentialCall.isCallback : SequentialCall → Bool
  | .accumulate _ => false
  | .fetched _ _ | .calling _ _ => true

namespace Accumulator

def isLastOne (a : Accumulator T) : Bool :=
  decide (a.remainingSequentialTasksCount=1) && a.tasks.any isSumming

def isSettled (a : Accumulator T) : Bool :=
  a.posting.isEmpty && !a.sequentialQueue.any SequentialTask.isObserve &&
    !a.current.any SequentialCall.isCallback && (a.asyncCallback.isNone || !a.isLastOne)

def isCancelCalled (a : Accumulator T) : Bool := a.cancelReturned || decide (0<a.cancelsWaiting)

end Accumulator

/-- `Cancel` finds no callback on its way, and then none is put on its way. -/
def Event.isQuiet (a : Accumulator T) : Event T → Bool
  | .cancel => a.isSettled
  | .setAsyncObserver =>
    !(a.isCancelCalled && a.hasUnobservedWork && (a.isIdle || a.isLastOne))
  | _ => true

structure Settled (a : Accumulator T) : Prop where
  posting : a.posting=[]
  queue : a.sequentialQueue.any SequentialTask.isObserve=false
  current : a.current.any SequentialCall.isCallback=false
  callback : a.asyncCallback=none ∨ a.isLastOne=false

theorem settled_of_isSettled (h : a.isSettled=true) : Settled a := by
  simp only [isSettled,Bool.and_eq_true,Bool.or_eq_true,Bool.not_eq_true',
    List.isEmpty_iff,Option.isNone_iff_eq_none] at h
  exact ⟨h.1.1.1,h.1.1.2,h.1.2,h.2⟩

theorem Settled.setTask (h : Settled a) {task : ℕ} {old new : TaskPhase T}
    (ho : a.tasks[task]?=some old) (ht : a'.tasks=a.tasks.set task new)
    (hs : new.isSumming=old.isSumming)
    (hr : a'.remainingSequentialTasksCount=a.remainingSequentialTasksCount)
    (hc : a'.asyncCallback=a.asyncCallback) :
    a'.asyncCallback=none ∨ a'.isLastOne=false := by
  have hsum : a'.tasks.any isSumming=a.tasks.any isSumming := by
    rw [ht,(set_perm_of_getElem? ho new).any_eq,(perm_of_getElem? ho).any_eq,any_cons,any_cons,hs]
  rw [isLastOne,hsum,hr,hc]
  exact h.callback

theorem Sequenced.not_isSumming (h : Sequenced a) (hc : a.current=none) :
    a.tasks.any isSumming=false := by
  rw [any_eq_false]
  intro phase hp hs
  obtain ⟨task,ht⟩:=mem_iff_getElem?.mp hp
  have hr:=h.running task
  rw [hc,ht,Option.any_some] at hr
  cases phase with
  | accumulating p | accumulated p => cases hr.mpr rfl
  | _ => cases hs

theorem Counted.not_isLastOne_schedule (h : Counted a) (delayed : Bool) :
    (a.schedule delayed).isLastOne=false := by
  rw [isLastOne,Bool.and_eq_false_iff,decide_eq_false_iff_not,any_eq_false]
  by_cases hi : a.remainingSequentialTasksCount=0
  · right
    intro phase hp
    obtain ho | hn:=mem_append.mp hp
    · obtain ⟨p,rfl⟩:=h.finished hi ho
      exact Bool.false_ne_true
    · rw [mem_singleton.mp hn]
      cases delayed <;> exact Bool.false_ne_true
  · left
    intro hone
    exact hi (Nat.succ.inj hone)

theorem Settled.move (h : Settled a) (hcancelled : a.isCancelled=true)
    (hc : a.isCancelCalled=true) (hcounted : Counted a)
    (hm : Move f a e a') (hs : Sequenced a')
    (hquiet : e.isQuiet a=true) : Settled a' := by
  cases hm with
  | schedule delayed =>
    exact ⟨h.posting,h.queue,h.current,Or.inr (hcounted.not_isLastOne_schedule delayed)⟩
  | observeIdle hw hi => simp [Event.isQuiet,hc,hw,isIdle,hi] at hquiet
  | observeLater hw hb =>
    simp only [Event.isQuiet,hc,hw,Bool.true_and,Bool.not_or,Bool.and_eq_true,
      Bool.not_eq_true'] at hquiet
    exact ⟨h.posting,h.queue,h.current,Or.inr hquiet.2⟩
  | postObserver hp =>
    rw [h.posting] at hp
    cases hp
  | phase e ho hstep =>
    refine ⟨h.posting,h.queue,h.current,h.setTask ho rfl ?_ rfl rfl⟩
    cases hstep <;> rfl
  | startTask ho hnot | startAccumulation _ ho hnot =>
    rw [hcancelled] at hnot
    cases hnot
  | generate _ ho | decrementActiveCount ho | accumulate _ ho =>
    exact ⟨h.posting,h.queue,h.current,h.setTask ho rfl rfl rfl rfl⟩
  | runSequential ho =>
    refine ⟨h.posting,?_,h.current,h.setTask ho rfl rfl rfl rfl⟩
    rw [any_append,h.queue]
    rfl
  | startObserver _ hq =>
    have hn:=any_eq_false.mp h.queue _ (mem_of_getElem? hq)
    exact absurd rfl hn
  | enter _ hq ho =>
    refine ⟨h.posting,?_,rfl,h.setTask ho rfl rfl rfl rfl⟩
    have hr:=h.queue
    rw [(perm_of_getElem? hq).any_eq,any_cons] at hr
    exact hr
  | skipAccumulation _ ho => exact ⟨h.posting,h.queue,rfl,h.setTask ho rfl rfl rfl rfl⟩
  | finish =>
    refine ⟨h.posting,h.queue,rfl,Or.inr ?_⟩
    rw [isLastOne,hs.not_isSumming rfl,Bool.and_false]
  | fetch _ ho _ hremaining hcall =>
    obtain hn | hl:=h.callback
    · rw [hcall] at hn
      cases hn
    · rw [isLastOne,hremaining,decide_eq_true rfl,Bool.true_and,any_eq_false] at hl
      exact absurd rfl (hl _ (mem_of_getElem? ho))
  | callObserver hcurrent | observerReturns hcurrent =>
    have hn:=h.current
    rw [hcurrent] at hn
    cases hn
  | _ => exact ⟨h.posting,h.queue,h.current,h.callback⟩

theorem isCancelled_move (hm : Move f a e a') (h : a.isCancelled=true) : a'.isCancelled=true := by
  cases hm with
  | takeResult | cancelWaits | cancelReturns => rfl
  | _ => exact h

theorem activeCount_move (hm : Move f a e a') (h : a.isCancelled=true) :
    a'.activeCount≤a.activeCount := by
  cases hm with
  | startTask _ hn | startAccumulation _ _ hn =>
    cases h.symm.trans hn
  | decrementActiveCount => exact Nat.sub_le _ _
  | finish _ _ ha | fetch _ _ ha =>
    rw [ha]
    exact Nat.le_succ _
  | _ => exact le_refl _

structure Cancelling (a : Accumulator T) : Prop where
  settled : a.isCancelCalled=true → a.isCancelled=true ∧ Settled a
  returned : a.cancelReturned=true → a.activeCount=0

theorem cancelling_create (v₀ : T) : Cancelling (.create v₀) := ⟨nofun,nofun⟩

theorem Cancelling.settled_move (h : Cancelling a) (hcounted : Counted a)
    (hm : Move f a e a') (hs : Sequenced a')
    (hq : e.isQuiet a=true) (hc' : a'.isCancelCalled=true) :
    a'.isCancelled=true ∧ Settled a' := by
  cases hc : a.isCancelCalled with
  | true =>
    obtain ⟨hcancelled,hset⟩:=h.settled hc
    exact ⟨isCancelled_move hm hcancelled,hset.move hcancelled hc hcounted hm hs hq⟩
  | false =>
    cases hm with
    | cancelWaits | cancelReturns =>
      have hset:=settled_of_isSettled hq
      exact ⟨rfl,hset.posting,hset.queue,hset.current,hset.callback⟩
    | cancelWakesUp hw => simp [isCancelCalled,hw] at hc
    | _ =>
      rw [show a.isCancelCalled=true from hc'] at hc
      cases hc

theorem Cancelling.returned_move (h : Cancelling a) (hm : Move f a e a')
    (hr' : a'.cancelReturned=true) : a'.activeCount=0 := by
  cases hr : a.cancelReturned with
  | true =>
    have hc : a.isCancelCalled=true := by rw [isCancelCalled,hr]; rfl
    have ha:=activeCount_move hm (h.settled hc).1
    rw [h.returned hr] at ha
    exact Nat.le_zero.mp ha
  | false =>
    cases hm with
    | cancelReturns ha | cancelWakesUp _ ha => exact ha
    | _ =>
      rw [show a.cancelReturned=true from hr'] at hr
      cases hr

theorem Counted.not_isActive (h : Counted a) (ha : a.activeCount=0) {phase : TaskPhase T}
    (hp : phase∈a.tasks) : phase.isActive=false :=
  Bool.eq_false_iff.mpr (countP_eq_zero.mp (h.active.symm.trans ha) phase hp)

theorem Cancelling.quiesced (h : Cancelling a) (hc : Counted a)
    (hr : a.cancelReturned=true) : Quiesced f a := by
  have hcalled : a.isCancelCalled=true := by rw [isCancelCalled,hr]; rfl
  obtain ⟨hcancelled,hset⟩:=h.settled hcalled
  have ha:=h.returned hr
  refine ⟨hc.not_isActive ha,fun guarded observer hcurrent => ?_,fun {e a'} hs => ?_⟩
  · have hn:=hset.current
    rw [hcurrent] at hn
    cases hn
  · have hm:=move_of_step hs
    have ha':=activeCount_move hm hcancelled
    rw [ha,Nat.le_zero] at ha'
    refine ⟨fun phase hp => (hc.move hm).not_isActive ha' hp,?_⟩
    cases hm with
    | callObserver hcurrent =>
      have hn:=hset.current
      rw [hcurrent] at hn
      cases hn
    | accumulate _ ho =>
      cases hc.not_isActive ha (mem_of_getElem? ho)
    | takeResult => exact ⟨rfl,fun hne => absurd rfl hne⟩
    | _ => exact ⟨rfl,fun _ => rfl⟩

/-- `Cancel` leaves the accumulator at rest when no callback is on its way and none is put on
its way later. -/
theorem cancel_quiesces {history : List (Accumulator T × Event T)}
    (hrun : Run (step f) (.create v₀) history a)
    (hq : ∀ entry∈history,entry.2.isQuiet entry.1=true)
    (hr : a.cancelReturned=true) : Quiesced f a := by
  have hi : Counted a ∧ Sequenced a ∧ Cancelling a := by
    refine hrun.invariant (G := fun s e => e.isQuiet s=true)
      (P := fun _ a => Counted a ∧ Sequenced a ∧ Cancelling a) hq ?_ ?_
    · exact ⟨counted_create _,sequenced_create _,cancelling_create _⟩
    · rintro history s s' e ⟨hcounted,hsequenced,hc⟩ hq hs
      have hm:=move_of_step hs
      have hsequenced':=hsequenced.move hm
      exact ⟨hcounted.move hm,hsequenced',hc.settled_move hcounted hm hsequenced' hq,
        hc.returned_move hm⟩
  obtain ⟨hcounted,-,hc⟩:=hi
  exact hc.quiesced hcounted hr

theorem cancel_quiesces_two_tasks :
    ∃ history s,Run (step fun x y : ℕ => .ok (x+y)) (.create 100) history s ∧
      (∀ entry∈history,entry.2.isQuiet entry.1=true) ∧
      (s.cancelReturned=true ∧ s.accumulatedValue=some 105 ∧ s.asyncCallback=some 0 ∧
        .skipped∈s.tasks) ∧
      Quiesced (fun x y => .ok (x+y)) s := by
  obtain ⟨history,s,hr,-,hq,ht⟩:=exists_recorded (step fun x y : ℕ => .ok (x+y)) (.create 100)
    [.schedule false,.schedule false,.setAsyncObserver,.startTask 0,.generate 0 5,
      .decrementActiveCount 0,.testCancelled 0,.runSequential 0,.startSequential 0,
      .startAccumulation,.cancel,.startTask 1,.accumulate,.updateCountsAndGetCallback,
      .cancelWakeUp]
    (P := fun history s => (∀ entry∈history,entry.2.isQuiet entry.1=true) ∧
      (s.cancelReturned=true ∧ s.accumulatedValue=some 105 ∧ s.asyncCallback=some 0 ∧
        .skipped∈s.tasks)) (by decide +kernel)
  exact ⟨history,s,hr,hq,ht,cancel_quiesces hr hq ht.1⟩

/-- The last accumulation fetches the callback, brings the count to zero and wakes up `Cancel`,
which returns before the callback is called. -/
theorem callback_outlives_cancel :
    ∃ history s,Run (step fun x y : ℕ => .ok (x+y)) (.create 100) history s ∧
      s.cancelReturned=true ∧ ¬ Quiesced (fun x y => .ok (x+y)) s := by
  obtain ⟨history,s,hrun,hr,hcurrent⟩:=exists_run (step fun x y : ℕ => .ok (x+y)) (.create 100)
    [.schedule false,.setAsyncObserver,.startTask 0,.generate 0 5,.decrementActiveCount 0,
      .testCancelled 0,.runSequential 0,.startSequential 0,.startAccumulation,.cancel,
      .accumulate,.updateCountsAndGetCallback,.cancelWakeUp]
    (P := fun s => s.cancelReturned=true ∧ s.current=some (.fetched true 0))
    (by decide +kernel)
  refine ⟨history,s,hrun,hr,fun hq => ?_⟩
  have hcall : step (fun x y : ℕ => .ok (x+y)) s .callObserver=.ok s.callObserver := rfl
  have hc:=(hq.idles hcall).2.1
  simp [callObserver,hcurrent] at hc

end Fcp.SecAgg.SecAggScheduler

import Fcp.Base.Monitoring
import Fcp.Lib.Run
import Mathlib.Data.List.Perm.Basic

/-!
# Clocks (fcp/base/clock.cc, fcp/base/simulated_clock.cc)

Each section under the mutex is one step, and so is each call of `WakeUp`. A call of
`DispatchWakeups` is an activity, whichever thread makes it. Timers may fire at any time. The
buckets are sorted by deadline, and the waiters of a bucket by their registration.
-/

namespace Fcp.Timing

structure Waiter where
  id : ℕ
  deadline : ℤ
  deriving Repr, DecidableEq

abbrev Bucket := ℤ × List Waiter

inductive Activity where
  | entering
  | collecting
  | waking (pass : ℕ) (wakeupCalls : List Waiter)
  | returned
  deriving Repr, DecidableEq

structure Wakeup where
  waiter : Waiter
  time : ℤ
  pass : ℕ
  deriving Repr, DecidableEq

structure Clock where
  now : ℤ
  pendingWaiters : List Bucket
  dispatchLevel : ℕ
  activities : List Activity
  registered : ℕ
  passes : ℕ
  wakeups : List Wakeup
  scheduledWakeup : Option ℤ
  lastFinish : Option ℤ
  deriving Repr, DecidableEq

inductive ClockEvent where
  | register (deadline : ℤ)
  | setTime (now : ℤ)
  | tick (now : ℤ)
  | timer
  | proceed (activity : ℕ)
  deriving Repr, DecidableEq

inductive ClockStop where
  | impossible
  | fault (fault : Fault)
  deriving Repr, DecidableEq

def addWaiter (waiter : Waiter) : List Bucket → List Bucket
  | [] => [(waiter.deadline,[waiter])]
  | (deadline,waiters)::rest =>
    if waiter.deadline<deadline then (waiter.deadline,[waiter])::(deadline,waiters)::rest
    else if waiter.deadline=deadline then (deadline,waiters++[waiter])::rest
    else (deadline,waiters)::addWaiter waiter rest

def takeExpired (now : ℤ) : List Bucket → List Waiter × List Bucket
  | [] => ([],[])
  | (deadline,waiters)::rest =>
    if deadline≤now then
      let (wakeupCalls,remaining) := takeExpired now rest
      (waiters++wakeupCalls,remaining)
    else ([],(deadline,waiters)::rest)

namespace Clock

def initial (now : ℤ) : Clock := ⟨now,[],0,[],0,0,[],none,none⟩

variable (s : Clock) (i : ℕ)

def enter : Clock := { s with activities := s.activities++[.entering] }

def register (deadline : ℤ) : Clock := enter { s with
    pendingWaiters := addWaiter ⟨s.registered,deadline⟩ s.pendingWaiters
    registered := s.registered+1 }

def checkReentrancy : Except ClockStop Clock :=
  match intAdd s.dispatchLevel 1 with
  | .error fault => .error (.fault fault)
  | .ok level => .ok { s with
      dispatchLevel := level
      activities := s.activities.set i (if level>1 then .returned else .collecting) }

def getExpiredWaiters : Clock :=
  let (wakeupCalls,remaining) := takeExpired s.now s.pendingWaiters
  { s with
    pendingWaiters := remaining
    passes := s.passes+1
    activities := s.activities.set i (.waking (s.passes+1) wakeupCalls) }

def wakeUp (i pass : ℕ) (waiter : Waiter) (rest : List Waiter) : Clock :=
  { s with
    wakeups := s.wakeups++[⟨waiter,s.now,pass⟩]
    activities := s.activities.set i (.waking pass rest) }

def finishDispatchAndScheduleNextWakeup : Clock :=
  let again := { s with
    dispatchLevel := 0
    activities := s.activities.set i .entering }
  let finished := { s with
    dispatchLevel := 0
    lastFinish := some s.now
    activities := s.activities.set i .returned }
  match s.pendingWaiters with
  | [] => finished
  | (nextWakeup,_)::_ =>
    if s.dispatchLevel>1 then again
    else if nextWakeup ≤ s.now then again
    else { finished with scheduledWakeup := some nextWakeup }

def proceed : Except ClockStop Clock :=
  match s.activities[i]? with
  | some .entering => s.checkReentrancy i
  | some .collecting => .ok (s.getExpiredWaiters i)
  | some (.waking pass (waiter::rest)) => .ok (s.wakeUp i pass waiter rest)
  | some (.waking _ []) => .ok (s.finishDispatchAndScheduleNextWakeup i)
  | some .returned => .error .impossible
  | none => .error .impossible

end Clock

def clockStep (s : Clock) : ClockEvent → Except ClockStop Clock
  | .register deadline => .ok (s.register deadline)
  | .setTime now => if s.now≤now then .ok { s with now := now }.enter else .error .impossible
  | .tick now => if s.now≤now then .ok { s with now := now } else .error .impossible
  | .timer => .ok s.enter
  | .proceed activity => s.proceed activity

open List

def Before (a b : Waiter) : Prop := a.deadline < b.deadline ∨ a.deadline=b.deadline ∧ a.id<b.id

instance : DecidableRel Before := fun a b =>
  inferInstanceAs (Decidable (a.deadline<b.deadline ∨ a.deadline=b.deadline ∧ a.id<b.id))

def allWaiters (pending : List Bucket) : List Waiter := pending.flatMap Prod.snd

structure Bucket.Ok (bucket : Bucket) : Prop where
  nonempty : bucket.2≠[]
  deadline : ∀ waiter∈bucket.2,waiter.deadline=bucket.1
  ordered : bucket.2.Pairwise fun a b => a.id<b.id

structure SortedBuckets (pending : List Bucket) : Prop where
  keys : pending.Pairwise fun a b => a.1<b.1
  buckets : ∀ bucket∈pending,Bucket.Ok bucket

variable {pending : List Bucket} {waiter : Waiter} {now : ℤ}

theorem sortedBuckets_cons {bucket : Bucket} : SortedBuckets (bucket::pending) ↔
      (∀ other∈pending,bucket.1<other.1) ∧ Bucket.Ok bucket ∧ SortedBuckets pending := by
  constructor
  · intro h
    obtain ⟨hf,hr⟩:=pairwise_cons.mp h.keys
    exact ⟨hf,h.buckets bucket mem_cons_self,hr,
      fun other ho => h.buckets other (mem_cons_of_mem _ ho)⟩
  · rintro ⟨hf,hok,hs⟩
    refine ⟨pairwise_cons.mpr ⟨hf,hs.keys⟩,?_⟩
    intro other ho
    obtain rfl | ho:=mem_cons.mp ho
    · exact hok
    · exact hs.buckets other ho

section

variable (h : SortedBuckets pending)
include h

theorem deadline_of_mem (hm : waiter∈allWaiters pending) :
    ∃ bucket∈pending,waiter.deadline=bucket.1 := by
  obtain ⟨bucket,hb,hw⟩:=mem_flatMap.mp hm
  exact ⟨bucket,hb,(h.buckets bucket hb).deadline waiter hw⟩

theorem pairwise_before : (allWaiters pending).Pairwise Before := by
  induction pending with
  | nil => exact .nil
  | cons bucket pending ih =>
    obtain ⟨hf,hok,hs⟩:=sortedBuckets_cons.mp h
    rw [allWaiters,flatMap_cons,pairwise_append]
    refine ⟨?_,ih hs,?_⟩
    · refine hok.ordered.imp_of_mem fun {a b} ha hb hlt => ?_
      exact .inr ⟨(hok.deadline a ha).trans (hok.deadline b hb).symm,hlt⟩
    · intro a ha b hb
      obtain ⟨other,ho,hd⟩:=deadline_of_mem hs hb
      left
      rw [hok.deadline a ha,hd]
      exact hf other ho

theorem first_le_deadline {deadline : ℤ} {waiters : List Waiter}
    {rest : List Bucket} (hp : pending=(deadline,waiters)::rest)
    (hm : waiter∈allWaiters pending) : deadline≤waiter.deadline := by
  subst hp
  obtain ⟨bucket,hb,hd⟩:=deadline_of_mem h hm
  rw [hd]
  obtain rfl | hb:=mem_cons.mp hb
  · exact Int.le_refl _
  · exact Int.le_of_lt ((sortedBuckets_cons.mp h).1 bucket hb)

end

theorem key_of_mem_addWaiter {bucket : Bucket} (hm : bucket∈addWaiter waiter pending) :
    bucket.1=waiter.deadline ∨ ∃ old∈pending,bucket.1=old.1 := by
  induction pending with
  | nil =>
    rw [mem_singleton.mp hm]
    exact .inl rfl
  | cons first pending ih =>
    obtain ⟨deadline,waiters⟩:=first
    rw [addWaiter] at hm
    split at hm
    · obtain rfl | hm:=mem_cons.mp hm
      · exact .inl rfl
      · exact .inr ⟨bucket,hm,rfl⟩
    split at hm
    · obtain rfl | hm:=mem_cons.mp hm
      · exact .inr ⟨_,mem_cons_self,rfl⟩
      · exact .inr ⟨bucket,mem_cons_of_mem _ hm,rfl⟩
    · obtain rfl | hm:=mem_cons.mp hm
      · exact .inr ⟨_,mem_cons_self,rfl⟩
      · obtain hn | ⟨old,ho,hk⟩:=ih hm
        · exact .inl hn
        · exact .inr ⟨old,mem_cons_of_mem _ ho,hk⟩

theorem sorted_addWaiter (h : SortedBuckets pending)
    (hn : ∀ old∈allWaiters pending,old.id<waiter.id) :
    SortedBuckets (addWaiter waiter pending) := by
  induction pending with
  | nil =>
    refine ⟨pairwise_singleton _ _,?_⟩
    intro bucket hb
    rw [mem_singleton.mp hb]
    refine ⟨nofun,?_,pairwise_singleton _ _⟩
    intro other ho
    rw [mem_singleton.mp ho]
  | cons first pending ih =>
    obtain ⟨deadline,waiters⟩:=first
    obtain ⟨hf,hok,hs⟩:=sortedBuckets_cons.mp h
    have hr : ∀ old∈allWaiters pending,old.id<waiter.id := by
      intro old hold
      apply hn
      rw [allWaiters,flatMap_cons]
      exact mem_append_right _ hold
    have hb : ∀ old∈waiters,old.id<waiter.id := by
      intro old hold
      apply hn
      rw [allWaiters,flatMap_cons]
      exact mem_append_left _ hold
    rw [addWaiter]
    split
    next hlt =>
      refine sortedBuckets_cons.mpr ⟨?_,?_,h⟩
      · intro other ho
        obtain rfl | ho:=mem_cons.mp ho
        · exact hlt
        · exact Int.lt_trans hlt (hf other ho)
      · refine ⟨nofun,?_,pairwise_singleton _ _⟩
        intro other ho
        rw [mem_singleton.mp ho]
    split
    next heq =>
      refine sortedBuckets_cons.mpr ⟨hf,⟨?_,?_,?_⟩,hs⟩
      · exact append_ne_nil_of_left_ne_nil hok.nonempty _
      · intro other ho
        obtain hold | hl:=mem_append.mp ho
        · exact hok.deadline other hold
        · rw [mem_singleton.mp hl]
          exact heq
      · refine pairwise_append.mpr ⟨hok.ordered,pairwise_singleton _ _,?_⟩
        intro old hold last hl
        rw [mem_singleton.mp hl]
        exact hb old hold
    next hnot hne =>
      refine sortedBuckets_cons.mpr ⟨?_,hok,ih hs hr⟩
      intro other ho
      obtain hk | ⟨old,hold,hk⟩:=key_of_mem_addWaiter ho
      · rw [hk]
        show deadline<waiter.deadline
        omega
      · rw [hk]
        exact hf old hold

theorem allWaiters_addWaiter (waiter : Waiter) (pending : List Bucket) :
    (allWaiters (addWaiter waiter pending)).Perm (waiter::allWaiters pending) := by
  induction pending with
  | nil => exact List.Perm.refl _
  | cons first pending ih =>
    obtain ⟨deadline,waiters⟩:=first
    rw [addWaiter]
    split
    · exact List.Perm.refl _
    split
    · simp only [allWaiters,flatMap_cons,append_assoc]
      exact perm_middle
    · simp only [allWaiters,flatMap_cons] at ih ⊢
      exact (ih.append_left waiters).trans perm_middle

theorem allWaiters_takeExpired (now : ℤ) (pending : List Bucket) :
    allWaiters pending=(takeExpired now pending).1++allWaiters (takeExpired now pending).2 := by
  induction pending with
  | nil => rfl
  | cons first pending ih =>
    obtain ⟨deadline,waiters⟩:=first
    rw [takeExpired]
    split
    · simp only [allWaiters,flatMap_cons,append_assoc] at ih ⊢
      rw [ih]
    · rfl

theorem sorted_takeExpired (h : SortedBuckets pending) :
    SortedBuckets (takeExpired now pending).2 := by
  induction pending with
  | nil => exact h
  | cons first pending ih =>
    obtain ⟨deadline,waiters⟩:=first
    rw [takeExpired]
    split
    · exact ih (sortedBuckets_cons.mp h).2.2
    · exact h

theorem due_of_takeExpired (h : SortedBuckets pending)
    (hm : waiter∈(takeExpired now pending).1) : waiter.deadline≤now := by
  induction pending with
  | nil => cases hm
  | cons first pending ih =>
    obtain ⟨deadline,waiters⟩:=first
    obtain ⟨-,hok,hs⟩:=sortedBuckets_cons.mp h
    rw [takeExpired] at hm
    split at hm
    · obtain hf | hr:=mem_append.mp hm
      · rw [hok.deadline waiter hf]
        assumption
      · exact ih hs hr
    · cases hm

end Fcp.Timing

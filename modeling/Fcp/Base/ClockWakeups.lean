import Fcp.Base.Clock
import Fcp.Lib.ListUpdate

/-!
# Wake-ups are never early, doubled or lost

There is a loop of `DispatchWakeups` just if the level is not zero, and it goes round again for
whoever finds it so. A registered waiter is pending, among the calls of the loop, or woken.
-/

namespace Fcp.Timing

open List Activity

variable {s s' : Clock} {e : ClockEvent} {i : ℕ}

def Finished (s : Clock) (scheduled : Option ℤ) : Prop :=
  s.pendingWaiters=[] ∧ scheduled=s.scheduledWakeup ∨
    ∃ deadline waiters rest,s.pendingWaiters=(deadline,waiters)::rest ∧ s.now<deadline ∧
      scheduled=some deadline

inductive ClockMove (s : Clock) : ClockEvent → Clock → Prop
  | registers (deadline : ℤ) : ClockMove s (.register deadline) (s.register deadline)
  | sets {now : ℤ} (hnow : s.now≤now) : ClockMove s (.setTime now) { s with now := now }.enter
  | ticks {now : ℤ} (hnow : s.now≤now) : ClockMove s (.tick now) { s with now := now }
  | fires : ClockMove s .timer s.enter
  | joins {i : ℕ} (hi : s.activities[i]?=some .entering) (hlevel : 0<s.dispatchLevel) :
      ClockMove s (.proceed i) { s with
        dispatchLevel := s.dispatchLevel+1
        activities := s.activities.set i .returned }
  | starts {i : ℕ} (hi : s.activities[i]?=some .entering) (hlevel : s.dispatchLevel=0) :
      ClockMove s (.proceed i) { s with
        dispatchLevel := 1
        activities := s.activities.set i .collecting }
  | collects {i : ℕ} (hi : s.activities[i]?=some .collecting) :
      ClockMove s (.proceed i) (s.getExpiredWaiters i)
  | wakes {i pass : ℕ} {waiter : Waiter} {rest : List Waiter}
      (hi : s.activities[i]?=some (.waking pass (waiter::rest))) :
      ClockMove s (.proceed i) (s.wakeUp i pass waiter rest)
  | repeats {i pass : ℕ} (hi : s.activities[i]?=some (.waking pass [])) :
      ClockMove s (.proceed i) { s with
        dispatchLevel := 0
        activities := s.activities.set i .entering }
  | finishes {i pass : ℕ} (hi : s.activities[i]?=some (.waking pass [])) {scheduled : Option ℤ}
      (hfinished : Finished s scheduled) :
      ClockMove s (.proceed i) { s with
        dispatchLevel := 0
        lastFinish := some s.now
        activities := s.activities.set i .returned
        scheduledWakeup := scheduled }

theorem move_of_proceed (h : s.proceed i=.ok s') : ClockMove s (.proceed i) s' := by
  unfold Clock.proceed at h
  split at h
  next hi =>
    unfold Clock.checkReentrancy at h
    split at h
    · cases h
    next level hl =>
      obtain ⟨-,rfl⟩:=intAdd_eq_ok.mp hl
      cases h
      by_cases hpos : 0<s.dispatchLevel
      · rw [if_pos (by omega)]
        exact .joins hi hpos
      · have hz : s.dispatchLevel=0 := by omega
        rw [if_neg (by omega),hz]
        exact .starts hi hz
  next hi =>
    cases h
    exact .collects hi
  next hi =>
    cases h
    exact .wakes hi
  next hi =>
    cases h
    unfold Clock.finishDispatchAndScheduleNextWakeup
    split
    · exact .finishes hi (.inl ⟨‹_›,rfl⟩)
    next deadline waiters rest hp =>
      split
      · exact .repeats hi
      split
      · exact .repeats hi
      · refine .finishes hi (.inr ⟨deadline,waiters,rest,hp,?_,rfl⟩)
        omega
  · cases h
  · cases h

theorem move_of_step (h : clockStep s e=.ok s') : ClockMove s e s' := by
  cases e with
  | register deadline =>
    cases h
    exact .registers deadline
  | setTime now =>
    rw [clockStep] at h
    split at h
    · cases h
      exact .sets ‹_›
    · cases h
  | tick now =>
    rw [clockStep] at h
    split at h
    · cases h
      exact .ticks ‹_›
    · cases h
  | timer =>
    cases h
    exact .fires
  | proceed i => exact move_of_proceed h

def Activity.inLoop : Activity → Bool
  | .collecting => true
  | .waking _ _ => true
  | _ => false

def Activity.calls : Activity → List Waiter
  | .waking _ wakeupCalls => wakeupCalls
  | _ => []

def everyWaiter (s : Clock) : List Waiter := allWaiters s.pendingWaiters ++
    (s.activities.flatMap calls++s.wakeups.map Wakeup.waiter)

structure Settled (s : Clock) : Prop where
  notDue : ∀ waiter∈allWaiters s.pendingWaiters,∃ time,s.lastFinish=some time ∧ time<waiter.deadline
  scheduled : ∀ deadline waiters rest,s.pendingWaiters=(deadline,waiters)::rest →
    s.scheduledWakeup=some deadline

structure ClockInvariant (s : Clock) : Prop where
  sorted : SortedBuckets s.pendingWaiters
  loops : s.activities.countP inLoop = if s.dispatchLevel=0 then 0 else 1
  every : ((everyWaiter s).map Waiter.id).Perm (List.range s.registered)
  due : ∀ activity∈s.activities,∀ waiter∈activity.calls,waiter.deadline ≤ s.now
  pass : ∀ pass wakeupCalls,.waking pass wakeupCalls∈s.activities →
    pass=s.passes ∧ wakeupCalls.Pairwise Before ∧
      ∀ wakeup∈s.wakeups,wakeup.pass=pass → ∀ waiter∈wakeupCalls,Before wakeup.waiter waiter
  passes : ∀ wakeup∈s.wakeups,wakeup.pass ≤ s.passes
  notEarly : ∀ wakeup∈s.wakeups,wakeup.waiter.deadline≤wakeup.time
  inOrder : s.wakeups.Pairwise fun a b => a.pass=b.pass → Before a.waiter b.waiter
  settled : s.dispatchLevel=0 → .entering∉s.activities → Settled s

theorem invariant_initial (now : ℤ) : ClockInvariant (Clock.initial now) where
  sorted := ⟨.nil,nofun⟩
  loops := rfl
  every := List.Perm.refl _
  due := nofun
  pass := nofun
  passes := nofun
  notEarly := nofun
  inOrder := .nil
  settled _ _ := ⟨nofun,nofun⟩

variable {act : Activity}

theorem mem_concat_entering (hm : act∈s.activities++[.entering])
    (hne : act≠.entering) : act∈s.activities := by
  obtain ho | hl:=mem_append.mp hm
  · exact ho
  · exact (hne (mem_singleton.mp hl)).elim

section

variable (h : ClockInvariant s)
include h

theorem ClockInvariant.enter : ClockInvariant s.enter where
  sorted := h.sorted
  loops := by
    show (s.activities++[entering]).countP _=_
    rw [countP_append,h.loops]
    rfl
  every := by
    have hc : (s.activities++[entering]).flatMap calls=s.activities.flatMap calls := by
      rw [flatMap_append]
      exact append_nil _
    show ((_++((s.activities++[entering]).flatMap calls++_)).map _).Perm _
    rw [hc]
    exact h.every
  due act hm waiter hw := by
    apply h.due act (mem_concat_entering hm _) waiter hw
    rintro rfl
    cases hw
  pass pass wakeupCalls hm := h.pass pass wakeupCalls (mem_concat_entering hm nofun)
  passes := h.passes
  notEarly := h.notEarly
  inOrder := h.inOrder
  settled _ hn := (hn (mem_append_right _ (mem_singleton_self _))).elim

theorem ClockInvariant.advance {now : ℤ} (hnow : s.now≤now) :
    ClockInvariant { s with now := now } where
  sorted := h.sorted
  loops := h.loops
  every := h.every
  due act hm waiter hw := Int.le_trans (h.due act hm waiter hw) hnow
  pass := h.pass
  passes := h.passes
  notEarly := h.notEarly
  inOrder := h.inOrder
  settled hl hn := ⟨(h.settled hl hn).notDue,(h.settled hl hn).scheduled⟩

theorem ClockInvariant.add (he : .entering∈s.activities) (deadline : ℤ) : ClockInvariant { s with
      pendingWaiters := addWaiter ⟨s.registered,deadline⟩ s.pendingWaiters
      registered := s.registered+1 } where
  sorted := by
    apply sorted_addWaiter h.sorted
    intro old ho
    have hm : old.id∈(everyWaiter s).map Waiter.id := mem_map_of_mem (mem_append_left _ ho)
    exact mem_range.mp (h.every.mem_iff.mp hm)
  loops := h.loops
  every := by
    have ha:=(allWaiters_addWaiter ⟨s.registered,deadline⟩ s.pendingWaiters).append_right
      (s.activities.flatMap calls++s.wakeups.map Wakeup.waiter)
    refine (ha.map Waiter.id).trans ?_
    rw [range_succ]
    exact (h.every.cons s.registered).trans (perm_append_singleton _ _).symm
  due := h.due
  pass := h.pass
  passes := h.passes
  notEarly := h.notEarly
  inOrder := h.inOrder
  settled _ hn := (hn he).elim

theorem level_ne_zero (hi : s.activities[i]?=some act)
    (hl : act.inLoop=true) : s.dispatchLevel≠0 := by
  intro hz
  have hn:=h.loops
  rw [if_pos hz,countP_eq_zero] at hn
  exact hn _ (mem_of_getElem? hi) hl

theorem only_loop (hi : s.activities[i]?=some act) (hloop : act.inLoop=true) {new other : Activity}
    (ho : other∈s.activities.set i new) :
    other=new ∨ other∈s.activities ∧ other.inLoop=false := by
  obtain ⟨before,after,hl,hs⟩:=set_eq_append hi new
  have hc:=h.loops
  rw [hl,countP_append,countP_cons,if_pos hloop] at hc
  have hb : before.countP inLoop=0 := by split at hc <;> omega
  have ha : after.countP inLoop=0 := by split at hc <;> omega
  rw [hs] at ho
  rw [hl]
  obtain hm | hm:=mem_append.mp ho
  · exact .inr ⟨mem_append_left _ hm,Bool.not_eq_true _ ▸ countP_eq_zero.mp hb other hm⟩
  · obtain rfl | hm:=mem_cons.mp hm
    · exact .inl rfl
    · exact .inr ⟨mem_append_right _ (mem_cons_of_mem _ hm),
        Bool.not_eq_true _ ▸ countP_eq_zero.mp ha other hm⟩

theorem ClockInvariant.replace {old : Activity}
    (hi : s.activities[i]?=some old) (ho : old.calls=[]) (new : Activity)
    (hn : ∀ pass wakeupCalls,new≠.waking pass wakeupCalls) (level : ℕ)
    (finish scheduled : Option ℤ)
    (hloops : (s.activities.set i new).countP inLoop = if level=0 then 0 else 1)
    (hset : level=0 → .entering∉s.activities.set i new → Settled { s with
      lastFinish := finish
      scheduledWakeup := scheduled }) :
    ClockInvariant { s with
      dispatchLevel := level
      activities := s.activities.set i new
      lastFinish := finish
      scheduledWakeup := scheduled } where
  sorted := h.sorted
  loops := hloops
  every := by
    have hc : new.calls=[]++old.calls := by
      rw [ho]
      cases new with
      | waking pass wakeupCalls => exact (hn pass wakeupCalls rfl).elim
      | _ => rfl
    have hs:=(flatMap_set_add hi hc).append_right (s.wakeups.map Wakeup.waiter)
    exact ((hs.append_left (allWaiters s.pendingWaiters)).map Waiter.id).trans h.every
  due act hm waiter hw := by
    obtain hm | rfl:=mem_or_eq_of_mem_set hm
    · exact h.due act hm waiter hw
    · cases act with
      | waking pass wakeupCalls => exact (hn pass wakeupCalls rfl).elim
      | _ => cases hw
  pass pass wakeupCalls hm := by
    obtain hm | hlast:=mem_or_eq_of_mem_set hm
    · exact h.pass pass wakeupCalls hm
    · exact (hn pass wakeupCalls hlast.symm).elim
  passes := h.passes
  notEarly := h.notEarly
  inOrder := h.inOrder
  settled hl hnot := ⟨(hset hl hnot).notDue,(hset hl hnot).scheduled⟩

end

theorem mem_set_self (hi : s.activities[i]?=some act) (new : Activity) :
    new∈s.activities.set i new := by
  obtain ⟨before,after,-,hs⟩:=set_eq_append hi new
  rw [hs]
  exact mem_append_right _ mem_cons_self

theorem ClockInvariant.getExpiredWaiters (h : ClockInvariant s)
    (hi : s.activities[i]?=some .collecting) : ClockInvariant (s.getExpiredWaiters i) := by
  have hs:=allWaiters_takeExpired s.now s.pendingWaiters
  have hcount:=countP_set_add hi
    (.waking (s.passes+1) (takeExpired s.now s.pendingWaiters).1) inLoop
  refine ⟨sorted_takeExpired h.sorted,?_,?_,?_,?_,?_,h.notEarly,h.inOrder,?_⟩
  · exact (Nat.add_right_cancel hcount).trans h.loops
  · have hc : (waking (s.passes+1) (takeExpired s.now s.pendingWaiters).1).calls =
        (takeExpired s.now s.pendingWaiters).1++collecting.calls :=
      (append_nil _).symm
    have ha:=flatMap_set_add hi hc
    refine List.Perm.trans (List.Perm.map Waiter.id ?_) h.every
    show (allWaiters (takeExpired s.now s.pendingWaiters).2 ++
      ((s.activities.set i _).flatMap calls++_)).Perm (everyWaiter s)
    rw [everyWaiter,hs,append_assoc]
    refine ((ha.append_right _).append_left _).trans ?_
    rw [append_assoc]
    exact perm_append_comm_assoc _ _ _
  · intro act hm waiter hwaiter
    obtain hm | rfl:=mem_or_eq_of_mem_set hm
    · exact h.due act hm waiter hwaiter
    · exact due_of_takeExpired h.sorted hwaiter
  · intro pass wakeupCalls hm
    obtain hn | ⟨-,hnot⟩:=only_loop h hi rfl hm
    · cases hn
      refine ⟨rfl,?_,?_⟩
      · have hp:=pairwise_before h.sorted
        rw [hs,pairwise_append] at hp
        exact hp.1
      · intro wakeup hw hpass
        have hle:=h.passes wakeup hw
        omega
    · cases hnot
  · intro wakeup hw
    exact Nat.le_succ_of_le (h.passes wakeup hw)
  · exact fun hz => (level_ne_zero h hi rfl hz).elim

theorem ClockInvariant.wakeUp (h : ClockInvariant s) {pass : ℕ} {waiter : Waiter}
    {rest : List Waiter} (hi : s.activities[i]?=some (.waking pass (waiter::rest))) :
    ClockInvariant (s.wakeUp i pass waiter rest) := by
  have hm:=mem_of_getElem? hi
  obtain ⟨hp,hpairwise,hb⟩:=h.pass pass (waiter::rest) hm
  obtain ⟨hf,hr⟩:=pairwise_cons.mp hpairwise
  have hcount:=countP_set_add hi (.waking pass rest) inLoop
  refine ⟨h.sorted,?_,?_,?_,?_,?_,?_,?_,?_⟩
  · exact (Nat.add_right_cancel hcount).trans h.loops
  · have hc : (waking pass (waiter::rest)).calls=[waiter]++(waking pass rest).calls := rfl
    have hd:=flatMap_set_drop hi hc
    refine List.Perm.trans (List.Perm.map Waiter.id (List.Perm.append_left _ ?_)) h.every
    show ((s.activities.set i (.waking pass rest)).flatMap calls ++
      (s.wakeups++[Wakeup.mk waiter s.now pass]).map Wakeup.waiter).Perm _
    rw [map_append,← append_assoc]
    refine perm_append_comm.trans ?_
    show ([waiter]++(_++_)).Perm _
    rw [← append_assoc]
    exact (hd.append_right _).symm
  · intro act ha other ho
    obtain ha | rfl:=mem_or_eq_of_mem_set ha
    · exact h.due act ha other ho
    · exact h.due _ hm other (mem_cons_of_mem _ ho)
  · intro pass' wakeupCalls ha
    obtain hn | ⟨-,hnot⟩:=only_loop h hi rfl ha
    · cases hn
      refine ⟨hp,hr,?_⟩
      intro wakeup hw hs other ho
      obtain hold | hl:=mem_append.mp hw
      · exact hb wakeup hold hs other (mem_cons_of_mem _ ho)
      · rw [mem_singleton.mp hl]
        exact hf other ho
    · cases hnot
  · intro wakeup hw
    obtain hold | hl:=mem_append.mp hw
    · exact h.passes wakeup hold
    · rw [mem_singleton.mp hl]
      exact Nat.le_of_eq hp
  · intro wakeup hw
    obtain hold | hl:=mem_append.mp hw
    · exact h.notEarly wakeup hold
    · rw [mem_singleton.mp hl]
      exact h.due _ hm waiter mem_cons_self
  · refine pairwise_append.mpr ⟨h.inOrder,pairwise_singleton _ _,?_⟩
    intro wakeup hw last hl hs
    rw [mem_singleton.mp hl] at hs ⊢
    exact hb wakeup hw hs waiter mem_cons_self
  · exact fun hz => (level_ne_zero h hi rfl hz).elim

theorem ClockMove.invariant (hm : ClockMove s e s') (h : ClockInvariant s) : ClockInvariant s' := by
  cases hm with
  | registers deadline => exact h.enter.add (mem_append_right _ (mem_singleton_self _)) deadline
  | sets hn => exact (h.advance hn).enter
  | ticks hn => exact h.advance hn
  | fires => exact h.enter
  | @joins i hi hl =>
    refine h.replace hi rfl .returned nofun _ _ _ ?_ (fun hz => by omega)
    have hc:=countP_set_add hi .returned inLoop
    rw [h.loops,if_neg (show s.dispatchLevel≠0 by omega)] at hc
    rw [if_neg (show s.dispatchLevel+1≠0 by omega)]
    exact hc
  | @starts i hi hl =>
    refine h.replace hi rfl .collecting nofun _ _ _ ?_ (fun hz => by cases hz)
    have hc:=countP_set_add hi .collecting inLoop
    rw [h.loops,if_pos hl] at hc
    exact hc
  | collects hi => exact h.getExpiredWaiters hi
  | wakes hi => exact h.wakeUp hi
  | @repeats i pass hi =>
    refine h.replace hi rfl .entering nofun _ _ _ ?_ ?_
    · have hc:=countP_set_add hi .entering inLoop
      rw [h.loops,if_neg (level_ne_zero h hi rfl)] at hc
      exact Nat.add_right_cancel hc
    · exact fun _ hnot => (hnot (mem_set_self hi .entering)).elim
  | @finishes i pass hi scheduled hf =>
    refine h.replace hi rfl .returned nofun _ _ _ ?_ ?_
    · have hc:=countP_set_add hi .returned inLoop
      rw [h.loops,if_neg (level_ne_zero h hi rfl)] at hc
      exact Nat.add_right_cancel hc
    · intro _ _
      obtain ⟨hp,rfl⟩ | ⟨deadline,waiters,rest,hp,hlt,rfl⟩:=hf
      · refine ⟨?_,?_⟩
        · intro waiter hw
          change waiter∈allWaiters s.pendingWaiters at hw
          rw [hp] at hw
          cases hw
        · intro deadline waiters rest hcons
          change s.pendingWaiters=_ at hcons
          rw [hp] at hcons
          cases hcons
      · refine ⟨?_,?_⟩
        · intro waiter hw
          refine ⟨s.now,rfl,Int.lt_of_lt_of_le hlt ?_⟩
          exact first_le_deadline h.sorted hp hw
        · intro deadline' waiters' rest' hcons
          change s.pendingWaiters=_ at hcons
          rw [hp] at hcons
          cases hcons
          rfl

theorem invariant_of_reachable {start : ℤ} (h : Reachable clockStep (.initial start) s) :
    ClockInvariant s :=
  h.invariant (P := ClockInvariant) (invariant_initial start)
    fun _ _ _ hs hstep => (move_of_step hstep).invariant hs

/-- Wake-ups are neither doubled nor early, and none is lost. The last field is about the states in
which no thread is in a call of `DispatchWakeups` or on the way to one. -/
structure WakeupsExact (s : Clock) : Prop where
  notLost : ((everyWaiter s).map Waiter.id).Perm (List.range s.registered)
  once : (s.wakeups.map fun wakeup => wakeup.waiter.id).Nodup
  notEarly : ∀ wakeup∈s.wakeups,wakeup.waiter.deadline≤wakeup.time
  oneLoop : s.activities.countP inLoop≤1
  inOrder : s.wakeups.Pairwise fun a b => a.pass=b.pass → Before a.waiter b.waiter
  quiet : (∀ activity∈s.activities,activity=.returned) →
    (∀ waiter∈allWaiters s.pendingWaiters,∃ time,s.lastFinish=some time ∧ time<waiter.deadline) ∧
    ∀ deadline waiters rest,s.pendingWaiters=(deadline,waiters)::rest →
      s.scheduledWakeup=some deadline ∧
        ∀ waiter∈allWaiters s.pendingWaiters,deadline≤waiter.deadline

theorem wakeups_exact {start : ℤ} (h : Reachable clockStep (.initial start) s) :
    WakeupsExact s := by
  have hi:=invariant_of_reachable h
  refine ⟨hi.every,?_,hi.notEarly,?_,hi.inOrder,?_⟩
  · have hn:=hi.every.nodup_iff.mpr nodup_range
    rw [everyWaiter,map_append,map_append,map_map] at hn
    exact (nodup_append.mp (nodup_append.mp hn).2.1).2.1
  · rw [hi.loops]
    split <;> omega
  · intro hr
    have hl : s.dispatchLevel=0 := by
      by_contra hne
      have hloop:=hi.loops
      rw [if_neg hne] at hloop
      obtain ⟨act,hm,hin⟩:=countP_pos_iff.mp (Nat.lt_of_lt_of_eq Nat.one_pos hloop.symm)
      rw [hr act hm] at hin
      cases hin
    have hs:=hi.settled hl fun hm => by cases hr _ hm
    refine ⟨hs.notDue,?_⟩
    intro deadline waiters rest hp
    refine ⟨hs.scheduled deadline waiters rest hp,?_⟩
    exact fun waiter hw => first_le_deadline hi.sorted hp hw

def secondWhileWaking : List ClockEvent :=
  [.register 5,.proceed 0,.proceed 0,.proceed 0,.setTime 7,.proceed 1,.proceed 1,.proceed 1,
    .register 6,.proceed 2,.proceed 1,.proceed 1,.proceed 1,.proceed 1,.proceed 1]

theorem wakeups_exact_secondWhileWaking : ∃ s,Reachable clockStep (.initial 0) s ∧ WakeupsExact s ∧
      s.wakeups=[⟨⟨0,5⟩,7,2⟩,⟨⟨1,6⟩,7,3⟩] ∧
      ∀ act∈s.activities,act=.returned := by
  obtain ⟨history,s,hrun,hw,hr⟩:=exists_run clockStep (.initial 0) secondWhileWaking
    (P := fun s => s.wakeups=[⟨⟨0,5⟩,7,2⟩,⟨⟨1,6⟩,7,3⟩] ∧
      ∀ act∈s.activities,act=.returned) (by decide +kernel)
  exact ⟨s,hrun.reachable,wakeups_exact hrun.reachable,hw,hr⟩

end Fcp.Timing

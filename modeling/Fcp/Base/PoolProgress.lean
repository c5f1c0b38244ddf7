import Fcp.Base.IdleDetection

/-!
# Progress of a thread pool

Under fair scheduling, and if tasks return, a pool executes every scheduled task, and one that is
destroyed when it is idle ends all its threads.
-/

namespace Fcp.Scheduling

open List

variable {τ : Type} {n : ℕ} {s s' : ThreadPool τ} {e : PoolEvent τ}

theorem PoolMove.taken (hm : PoolMove s e s') :
    s'.taken=s.taken ∨ ∃ i task rest,e=.proceed i ∧ s.todo=task::rest ∧
      s'.taken=s.taken++[task] ∧ s'.threads[i]?=some (.running task) := by
  cases hm with
  | @takes i pos count finished task rest hg hl ht =>
    refine .inr ⟨i,task,rest,rfl,ht,rfl,?_⟩
    show (s.threads.set i (.running task))[i]?=_
    rw [getElem?_set_of_some hg.there,if_pos rfl]
  | _ => exact .inl rfl

theorem PoolMove.scheduled_isPrefix (hm : PoolMove s e s') : s.scheduled <+: s'.scheduled := by
  cases hm with
  | signals _ _ | unheard _ _ => exact prefix_append _ _
  | _ => exact prefix_refl _

variable {i k : ℕ}

theorem PoolMove.takes_of_proceed (hm : PoolMove s (.proceed i) s')
    (ht : s.todo≠[]) : s.taken.length<s'.taken.length := by
  cases hm with
  | takes hg hl ht' =>
    show _<(_++[_]).length
    rw [length_append]
    exact Nat.lt_succ_self _
  | waits hg hl ht' | terminates hg hj ht' => exact (ht ht').elim

theorem PoolMove.todo_of_taken (hm : PoolMove s e s') (htaken : s'.taken=s.taken)
    (ht : s.todo≠[]) : s'.todo≠[] := by
  cases hm with
  | signals _ _ | unheard _ _ => exact append_ne_nil_of_left_ne_nil ht _
  | takes hg hl ht' =>
    have hlen:=congrArg List.length htaken
    simp at hlen
  | _ => exact ht

def FairThreads (b : Behavior poolStep (ThreadPool.initial n : ThreadPool τ)) : Prop :=
  ∀ i,b.WeakFair (fun s => ∃ position,s.threads[i]?=some position ∧ position.isRunnable=true)
    (·=.proceed i)

section Behavior

variable {b : Behavior poolStep (ThreadPool.initial n : ThreadPool τ)}

def Executed (b : Behavior poolStep (ThreadPool.initial n : ThreadPool τ)) (k : ℕ) (task : τ) :
    Prop :=
  ∃ i u v,u<v ∧ b.event u=some (.proceed i) ∧ (b.state u).taken.length=k ∧
    (b.state (u+1)).taken[k]?=some task ∧
    (∀ w,u<w → w≤v → (b.state w).threads[i]?=some (.running task)) ∧
    b.event v=some (.proceed i)

theorem not_waiting_of_runnable {pos : Position τ} (h : pos.isRunnable=true) :
    pos.isWaiting=false := by
  cases pos with
  | waiting => cases h
  | _ => rfl

variable {t : ℕ}

theorem eventually_taken (hn : 0<n) (hf : FairThreads b) (ht : (b.state t).todo≠[]) :
    ∃ u,t≤u ∧ (b.state t).taken.length<(b.state u).taken.length := by
  obtain ⟨i,pos,hi,hr⟩:=exists_runnable (invariant_of_reachable (b.reachable t)) hn ht
  apply (hf i).eventually
    (P := fun s => s.threads[i]?=some pos ∧ s.todo≠[] ∧ s.taken.length=(b.state t).taken.length)
    (Q := fun s => (b.state t).taken.length<s.taken.length) _ _ _ ⟨hi,ht,rfl⟩
  · rintro s s' e-⟨hi,ht,hl⟩ hs ho
    have hm:=move_of_step hs
    obtain htaken | ⟨j,task,rest,-,-,htaken,-⟩:=hm.taken
    · left
      refine ⟨hm.getElem?_eq hi (not_waiting_of_runnable hr) ho,?_,?_⟩
      · exact hm.todo_of_taken htaken ht
      · rw [htaken,hl]
    · right
      rw [htaken,length_append,hl]
      exact Nat.lt_succ_self _
  · rintro s-⟨hi,-,-⟩
    exact ⟨pos,hi,hr⟩
  · rintro s s' e-⟨-,ht,hl⟩ rfl hs
    have htake:=(move_of_step hs).takes_of_proceed ht
    rwa [hl] at htake

theorem scheduled_isPrefix {u : ℕ} (hle : t≤u) :
    (b.state t).scheduled <+: (b.state u).scheduled := by
  apply b.keeps (P := fun s => (b.state t).scheduled <+: s.scheduled) _ hle (prefix_refl _)
  exact fun s s' e _ hs hstep => hs.trans (move_of_step hstep).scheduled_isPrefix

theorem getElem?_of_isPrefix {l l' : List τ} (h : l <+: l') {a : τ} (ha : l[k]?=some a) :
    l'[k]?=some a := by
  obtain ⟨rest,rfl⟩:=h
  rw [getElem?_append_left (List.getElem?_eq_some_iff.mp ha).1,ha]

theorem executed_of_fair (hn : 0<n) (hf : FairThreads b) {task : τ}
    (htask : (b.state t).scheduled[k]?=some task) : Executed b k task := by
  have hinv : ∀ u,PoolInvariant n (b.state u) := fun u => invariant_of_reachable (b.reachable u)
  -- the task is taken at some instant
  obtain ⟨w,-,hw⟩ : ∃ w,t≤w ∧ k+1≤(b.state w).taken.length := by
    apply b.eventually_reaches (fun s => s.taken.length) (k+1)
    intro u hu hlt
    have hl:=(List.getElem?_eq_some_iff.mp (getElem?_of_isPrefix (scheduled_isPrefix hu) htask)).1
    rw [← (hinv u).inOrder,length_append] at hl
    apply eventually_taken hn hf
    intro hempty
    rw [hempty,length_nil] at hl
    omega
  have hs : (b.state 0).taken.length≤k := by
    rw [b.start]
    exact Nat.zero_le k
  obtain ⟨u,-,hbefore,ha⟩:=b.exists_crossing (fun s => s.taken.length) hs (Nat.lt_of_succ_le hw)
  cases he : b.event u with
  | none =>
    rw [b.idle u he] at ha
    omega
  | some e =>
    have hm:=move_of_step (b.next u e he)
    obtain ht | ⟨i,task',rest,rfl,htodo,ht,hrun⟩:=hm.taken
    · rw [ht] at ha
      omega
    have hl : (b.state u).taken.length=k := by
      rw [ht,length_append,length_singleton] at ha
      omega
    have ht' : (b.state u).scheduled[k]?=some task' := by
      rw [← (hinv u).inOrder,htodo,← hl,getElem?_append_right (Nat.le_refl _),Nat.sub_self]
      rfl
    have hsame : task'=task := by
      have hb:=getElem?_of_isPrefix (scheduled_isPrefix (Nat.le_max_right t u)) ht'
      rw [getElem?_of_isPrefix (scheduled_isPrefix (Nat.le_max_left t u)) htask] at hb
      exact (Option.some.inj hb).symm
    subst hsame
    -- from then on the thread runs it
    have hr:=(hf i).happens
      (P := fun s => s.threads[i]?=some (.running task')) (Q := fun _ => False)
      (fun s s' e _ hi hstep ho =>
        .inl ((move_of_step hstep).getElem?_eq hi rfl ho))
      (fun s _ hi => ⟨_,hi,rfl⟩) hrun
    obtain ⟨v,hv,hruns,e,hevent,rfl⟩ | ⟨v,-,hfalse⟩:=hr
    · refine ⟨i,u,v,hv,he,hl,?_,hruns,hevent⟩
      rw [ht,← hl,getElem?_append_right (Nat.le_refl _),Nat.sub_self]
      rfl
    · exact hfalse.elim

theorem PoolMove.joins (hm : PoolMove s e s') (hj : s.threadsShouldJoin=true) :
    s'.threadsShouldJoin=true := by
  cases hm with
  | destroyed hl ht hc => rfl
  | _ => exact hj

theorem PoolMove.terminates_of_proceed (hm : PoolMove s (.proceed i) s')
    (hj : s.threadsShouldJoin=true) : s'.threads[i]?=some .terminated := by
  cases hm with
  | takes hg hl ht | waits hg hl ht =>
    cases hl.symm.trans hj
  | terminates hg hj ht =>
    show (s.threads.set i .terminated)[i]?=_
    rw [getElem?_set_of_some hg.there,if_pos rfl]

theorem PoolMove.stays_terminated (hm : PoolMove s e s')
    (hi : s.threads[i]?=some .terminated) : s'.threads[i]?=some .terminated := by
  apply hm.getElem?_eq hi rfl
  rintro rfl
  have hn : ∀ {pos count finished},¬ GoesOn s i pos count finished := by
    intro pos count finished hg
    have hr:=hg.runnable
    have hthere:=hg.there
    cases hi.symm.trans hthere
    cases hr
  cases hm with
  | takes hg hl ht | waits hg hl ht | terminates hg hj ht => exact hn hg

theorem terminated_of_fair (hf : FairThreads b) (hj : (b.state t).threadsShouldJoin=true) :
    ∃ u,t≤u ∧ ∀ pos∈(b.state u).threads,pos=.terminated := by
  have hinv : ∀ u,PoolInvariant n (b.state u) := fun u => invariant_of_reachable (b.reachable u)
  have he : ∀ i : Fin n,∃ u,t≤u ∧ (b.state u).threads[i.val]?=some .terminated := by
    intro i
    have hlt : i.val<(b.state t).threads.length := by
      rw [(hinv t).size]
      exact i.isLt
    have hthere:=getElem?_eq_getElem hlt
    have hposition:=((hinv t).joining hj).2 _ (getElem_mem hlt)
    cases hr : ((b.state t).threads[i.val]).isRunnable with
    | false =>
      refine ⟨t,Nat.le_refl t,?_⟩
      rw [hthere]
      cases hp : (b.state t).threads[i.val] with
      | terminated => rfl
      | waiting =>
        rw [hp] at hposition
        cases hposition.2
      | _ =>
        rw [hp] at hr
        cases hr
    | true =>
      apply (hf i).eventually (P := fun s => s.threadsShouldJoin=true ∧
          s.threads[i.val]?=some ((b.state t).threads[i.val]))
        (Q := fun s => s.threads[i.val]?=some .terminated) _ _ _ ⟨hj,hthere⟩
      · rintro s s' e-⟨hj,hi⟩ hs ho
        have hm:=move_of_step hs
        exact .inl ⟨hm.joins hj,hm.getElem?_eq hi (not_waiting_of_runnable hr) ho⟩
      · rintro s-⟨-,hi⟩
        exact ⟨_,hi,hr⟩
      · rintro s s' e-⟨hj,-⟩ rfl hs
        exact (move_of_step hs).terminates_of_proceed hj
  obtain ⟨u,hu,ha⟩:=b.eventually_all (P := fun (i : Fin n) s => s.threads[i.val]?=some .terminated)
    (fun i s s' e _ hi hs => (move_of_step hs).stays_terminated hi) he (List.finRange n)
  refine ⟨u,hu,?_⟩
  intro pos hp
  obtain ⟨i,hi⟩:=getElem?_of_mem hp
  have hlt : i<n := (hinv u).size ▸ (List.getElem?_eq_some_iff.mp hi).1
  have ht:=ha ⟨i,hlt⟩ (mem_finRange _)
  rw [hi] at ht
  exact Option.some.inj ht

theorem PoolMove.idle (hm : PoolMove s .waitUntilIdle s') : s.idleCondition=true := by
  cases hm with
  | idles ht hc => exact idleCondition_iff.mpr ⟨ht,hc⟩

structure Exact (s : ThreadPool τ) : Prop where
  active : s.activeCount=s.threads.countP Position.isActive
  inOrder : s.taken++s.todo=s.scheduled
  once : (runningTasks s++s.finished).Perm s.taken
  idle : s.idleCondition=true → s.todo=[] ∧ runningTasks s=[]
  heard : s.todo≠[] → .waiting∈s.threads → .signalled∈s.threads
  checks : ∀ e fault,poolStep s e=.error (.fault fault) → e=.destroy ∧ s.idleCondition=false

theorem PoolInvariant.exact (h : PoolInvariant n s) : Exact s where
  active := h.active
  inOrder := h.inOrder
  once := h.once
  idle hi := by
    obtain ⟨ht,hc⟩:=idleCondition_iff.mp hi
    refine ⟨ht,?_⟩
    rw [runningTasks,flatMap_eq_nil_iff]
    intro pos hp
    have hinactive:=countP_eq_zero.mp (h.active.symm.trans hc) pos hp
    cases pos with
    | running task => exact (hinactive rfl).elim
    | _ => rfl
  heard ht hw := by
    have hh:=h.heard (countP_pos_iff.mpr ⟨_,hw,rfl⟩)
    have hpos:=length_pos_of_ne_nil ht
    obtain ⟨pos,hm,hs⟩:=countP_pos_iff.mp (Nat.lt_of_lt_of_le hpos hh)
    cases pos with
    | signalled => exact hm
    | _ => cases hs
  checks _ _ hf := fault_destroy h hf

/-- In every interleaving of a pool with at least one thread: the count of active threads and the
queue are exact, so that `WaitUntilIdle` returns only when no task is queued or running; with fair
scheduling every task is executed, and every thread ends after the destructor. -/
theorem threadPool_exact (hn : 0<n) (b : Behavior poolStep (ThreadPool.initial n : ThreadPool τ)) :
    (∀ t,Exact (b.state t)) ∧
    (∀ t,b.event t=some .waitUntilIdle → (b.state t).todo=[] ∧ runningTasks (b.state t)=[]) ∧
    (FairThreads b →
      (∀ (t k : ℕ) (task : τ),(b.state t).scheduled[k]?=some task → Executed b k task) ∧
      ∀ t,(b.state t).threadsShouldJoin=true →
        ∃ u,t≤u ∧ ∀ position∈(b.state u).threads,position=.terminated) := by
  have he : ∀ t,Exact (b.state t) := fun t => (invariant_of_reachable (b.reachable t)).exact
  refine ⟨he,?_,?_⟩
  · intro t ht
    exact (he t).idle (move_of_step (b.next t _ ht)).idle
  · intro hf
    exact ⟨fun t k task htask => executed_of_fair hn hf htask,fun t hj => terminated_of_fair hf hj⟩

/-- A task is scheduled while one thread waits and the other one has not got its first lock, which
takes the task; then the pool is destroyed. -/
def onePoolTask : List (PoolEvent ℕ) :=
  [.proceed 0,.schedule 7 (some 0),.proceed 1,.proceed 0,.proceed 1,.waitUntilIdle,.destroy,
    .proceed 0,.proceed 1]

theorem threadPool_exact_onePoolTask :
    ∃ b : Behavior poolStep (ThreadPool.initial 2 : ThreadPool ℕ),FairThreads b ∧
      (∀ t,Exact (b.state t)) ∧ Executed b 0 7 ∧
      ∃ u,7≤u ∧ ∀ position∈(b.state u).threads,position=.terminated := by
  have hrun : onePoolTask.foldlM poolStep (ThreadPool.initial 2) =
      .ok ⟨[],0,true,[.terminated,.terminated],[7],[7],[7]⟩ := by decide
  have hf : FairThreads (Behavior.ofEvents poolStep (.initial 2) onePoolTask _ hrun) := by
    intro i
    apply Behavior.weakFair_ofEvents
    rintro ⟨position,hi,hr⟩
    have hm:=mem_of_getElem? hi
    have ht : position=.terminated := by simpa using hm
    rw [ht] at hr
    cases hr
  obtain ⟨he,-,hp⟩:=threadPool_exact (by decide)
    (Behavior.ofEvents poolStep (.initial 2) onePoolTask _ hrun)
  obtain ⟨hexecuted,ht⟩:=hp hf
  exact ⟨_,hf,he,hexecuted 2 0 7 rfl,ht 7 rfl⟩

end Behavior

end Fcp.Scheduling

import Fcp.Base.ThreadPool
import Fcp.Lib.ListUpdate

/-!
# Idle detection of a thread pool

The count of active threads is exact, so that a pool without queued tasks and active threads runs
no task.
-/

namespace Fcp.Scheduling

open List Position ThreadPool

variable {τ : Type} {n : ℕ} {s s' : ThreadPool τ} {e : PoolEvent τ}

def runningTasks (s : ThreadPool τ) : List τ :=
  s.threads.flatMap fun position => position.task.toList

structure PoolInvariant (n : ℕ) (s : ThreadPool τ) : Prop where
  size : s.threads.length=n
  active : s.activeCount=s.threads.countP isActive
  inOrder : s.taken++s.todo=s.scheduled
  once : (runningTasks s++s.finished).Perm s.taken
  heard : 0<s.threads.countP isWaiting → s.todo.length ≤ s.threads.countP isSignalled
  live : s.threadsShouldJoin=false → .terminated∉s.threads
  joining : s.threadsShouldJoin=true → s.todo=[] ∧
    ∀ position∈s.threads,position.isActive=false ∧ position.isWaiting=false

theorem invariant_initial : PoolInvariant n (initial n : ThreadPool τ) where
  size := length_replicate
  active := by
    show n=(List.replicate n entering).countP _
    rw [countP_replicate]
    rfl
  inOrder := rfl
  once := by
    have hn : runningTasks (initial n : ThreadPool τ)=[] := by
      rw [runningTasks,flatMap_eq_nil_iff]
      intro pos hp
      rw [eq_of_mem_replicate hp]
      rfl
    rw [hn]
    exact List.Perm.refl _
  heard := fun _ => Nat.zero_le _
  live := by
    intro _ hm
    cases eq_of_mem_replicate hm
  joining := nofun

variable {i : ℕ} {pos : Position τ} {count : ℕ} {finished : List τ}

theorem GoesOn.not_waiting (hg : GoesOn s i pos count finished) : pos.isWaiting=false := by
  have hr:=hg.runnable
  cases pos with
  | waiting => cases hr
  | _ => rfl

theorem once_of_goesOn
    (hg : GoesOn s i pos count finished) (h : (runningTasks s++s.finished).Perm s.taken)
    (next : Position τ) :
    ((s.threads.set i next).flatMap (fun pos => pos.task.toList)++finished).Perm
      (s.taken++next.task.toList) := by
  have hs:=flatMap_set_perm hg.there next fun pos => pos.task.toList
  rw [hg.returned,← append_assoc]
  refine perm_append_comm.trans ?_
  rw [← append_assoc]
  refine (hs.append_right s.finished).trans ?_
  rw [append_assoc]
  exact (h.append_left _).trans perm_append_comm

theorem PoolInvariant.replace (h : PoolInvariant n s) {old : Position τ}
    (hi : s.threads[i]?=some old) (new : Position τ) (ht : s'.threads=s.threads.set i new)
    (hc : s'.activeCount+(if old.isActive then 1 else 0) =
      s.activeCount + if new.isActive then 1 else 0) (horder : s'.taken++s'.todo=s'.scheduled)
    (ho : (runningTasks s'++s'.finished).Perm s'.taken)
    (hh : s'.threads.countP isWaiting+(if old.isWaiting then 1 else 0) =
      s.threads.countP isWaiting+(if new.isWaiting then 1 else 0) →
      s'.threads.countP isSignalled+(if old.isSignalled then 1 else 0) =
      s.threads.countP isSignalled+(if new.isSignalled then 1 else 0) →
      0<s'.threads.countP isWaiting →
      s'.todo.length ≤ s'.threads.countP isSignalled)
    (hs : s'.threadsShouldJoin=s.threadsShouldJoin)
    (hl : s.threadsShouldJoin=false → new≠.terminated)
    (hj : s.threadsShouldJoin=true →
      s'.todo=[] ∧ new.isActive=false ∧ new.isWaiting=false) : PoolInvariant n s' where
  size := by rw [ht,length_set,h.size]
  active := by
    have ha:=countP_set_add hi new isActive
    rw [h.active] at hc
    rw [ht]
    omega
  inOrder := horder
  once := ho
  heard := hh (by rw [ht]; exact countP_set_add hi new _)
    (by rw [ht]; exact countP_set_add hi new _)
  live hf hm := by
    rw [hs] at hf
    rw [ht] at hm
    obtain hold | hn:=mem_or_eq_of_mem_set hm
    · exact h.live hf hold
    · exact hl hf hn.symm
  joining htrue := by
    rw [hs] at htrue
    obtain ⟨htodo,hn⟩:=hj htrue
    refine ⟨htodo,?_⟩
    intro pos hm
    rw [ht] at hm
    obtain hold | rfl:=mem_or_eq_of_mem_set hm
    · exact (h.joining htrue).2 pos hold
    · exact hn

theorem runningTasks_woken (hi : s.threads[i]?=some .waiting) {new : Position τ}
    (hn : new.task=none) (h : (runningTasks s++s.finished).Perm s.taken) :
    ((s.threads.set i new).flatMap (fun pos => pos.task.toList)++s.finished).Perm
      s.taken := by
  have hs:=flatMap_set_perm hi new fun pos => pos.task.toList
  rw [hn] at hs
  exact (hs.append_right s.finished).trans h

theorem PoolInvariant.rests (h : PoolInvariant n s) {pos new : Position τ} {count : ℕ}
    {finished : List τ} (hg : GoesOn s i pos count finished) (ht : s.todo=[]) (hn : new.task=none)
    (ha : new.isActive=false) (hl : s.threadsShouldJoin=false → new≠.terminated)
    (hj : s.threadsShouldJoin=true → s.todo=[] ∧ new.isActive=false ∧ new.isWaiting=false) :
    PoolInvariant n { s with
      activeCount := count
      threads := s.threads.set i new
      finished := finished } := by
  refine h.replace hg.there new rfl ?_ h.inOrder ?_ ?_ rfl hl hj
  · rw [ha]
    exact hg.counted.symm
  · have ho:=once_of_goesOn hg h.once new
    rwa [hn,Option.toList_none,append_nil] at ho
  · intro _ _ _
    show s.todo.length≤_
    rw [ht]
    exact Nat.zero_le _

theorem PoolMove.invariant (hm : PoolMove s e s') (h : PoolInvariant n s) : PoolInvariant n s' := by
  have hf : s.threadsShouldJoin=false → s.threadsShouldJoin=true → False := by
    intro hl hj
    cases hl.symm.trans hj
  cases hm with
  | @signals task i hl hi =>
    refine h.replace hi .signalled rfl rfl ?_ (runningTasks_woken hi rfl h.once) ?_ rfl
      (fun _ => nofun) (fun hj => (hf hl hj).elim)
    · show s.taken++(s.todo++[task])=s.scheduled++[task]
      rw [← append_assoc,h.inOrder]
    · show _+1=_+0 → _+0=_+1 → _ → (s.todo++[task]).length≤_
      intro hw hs _
      have hh:=h.heard (by omega)
      rw [length_append,length_singleton]
      omega
  | @unheard task hl hn =>
    refine ⟨h.size,h.active,?_,h.once,?_,h.live,fun hj => (hf hl hj).elim⟩
    · show s.taken++(s.todo++[task])=s.scheduled++[task]
      rw [← append_assoc,h.inOrder]
    · intro hpos
      exact absurd hn (Nat.ne_of_gt hpos)
  | @takes i pos count finished task rest hg hl ht =>
    refine h.replace hg.there (.running task) rfl ?_ ?_ (once_of_goesOn hg h.once _) ?_ rfl
      (fun _ => nofun) (fun hj => (hf hl hj).elim)
    · show count+1+_=s.activeCount+1
      rw [hg.counted]
      omega
    · show s.taken++[task]++rest=s.scheduled
      rw [← h.inOrder,ht,append_assoc]
      rfl
    · rw [hg.not_waiting]
      show _+0=_+0 → _=_+0 → _ → rest.length≤_
      intro hw hs hpos
      have hh:=h.heard (by omega)
      rw [ht,length_cons] at hh
      split at hs <;> omega
  | waits hg hl ht => exact h.rests hg ht rfl rfl (fun _ => nofun) fun hj => (hf hl hj).elim
  | terminates hg hj ht =>
    exact h.rests hg ht rfl rfl (fun hl => (hf hl hj).elim) fun _ => ⟨ht,rfl,rfl⟩
  | @wakes i hi =>
    refine h.replace hi .woken rfl rfl h.inOrder (runningTasks_woken hi rfl h.once) ?_ rfl
      (fun _ => nofun) ?_
    · show _+1=_+0 → _+0=_+0 → _ → s.todo.length≤_
      intro hw hs _
      have hh:=h.heard (by omega)
      omega
    · intro hj
      have hw:=((h.joining hj).2 _ (mem_of_getElem? hi)).2
      cases hw
  | idles ht hc => exact h
  | destroyed hl ht hc =>
    have hinactive : ∀ pos∈s.threads,pos.isActive=false := by
      intro pos hp
      have hz:=countP_eq_zero.mp (h.active.symm.trans hc) pos hp
      exact Bool.not_eq_true _ ▸ hz
    refine ⟨?_,?_,h.inOrder,?_,?_,nofun,fun _ => ⟨ht,?_⟩⟩
    · exact (length_map _).trans h.size
    · show s.activeCount=(s.threads.map wake).countP isActive
      rw [h.active,countP_map]
      exact countP_congr fun pos _ => by cases pos <;> rfl
    · have hsame : (s.threads.map wake).flatMap (fun pos => pos.task.toList)=runningTasks s := by
        rw [flatMap_map]
        congr 1
        funext pos
        cases pos <;> rfl
      show ((s.threads.map wake).flatMap _++_).Perm _
      rw [hsame]
      exact h.once
    · intro _
      show s.todo.length≤_
      rw [ht]
      exact Nat.zero_le _
    · intro pos hp
      obtain ⟨old,hold,rfl⟩:=mem_map.mp hp
      have hnot:=hinactive old hold
      cases old with
      | entering | running _ => cases hnot
      | _ => exact ⟨rfl,rfl⟩

theorem invariant_of_reachable (h : Reachable poolStep (.initial n) s) : PoolInvariant n s :=
  h.invariant (P := PoolInvariant n) invariant_initial
    fun _ _ _ hs hstep => (move_of_step hstep).invariant hs

section Faults

theorem look_eq_ok (h : s.threadsShouldJoin=true → s.todo=[]) (i : ℕ) : ∃ s',s.look i=.ok s' := by
  unfold look
  cases ht : s.todo with
  | nil => cases s.threadsShouldJoin <;> exact ⟨_,rfl⟩
  | cons task rest =>
    cases hj : s.threadsShouldJoin with
    | false => exact ⟨_,rfl⟩
    | true =>
      have he:=h hj
      cases ht.symm.trans he

theorem proceed_ok (h : PoolInvariant n s)
    (hi : s.threads[i]?=some pos) (hr : pos.isRunnable=true) :
    ∃ s',s.proceed i=.ok s' := by
  have he : s.threadsShouldJoin=true → s.todo=[] := fun hj => (h.joining hj).1
  have hc : pos.isActive=true → ∃ count,s.activeCount=count+1 := by
    intro ha
    have hp:=countP_pos_iff.mpr ⟨pos,mem_of_getElem? hi,ha⟩
    exact ⟨s.activeCount-1,by rw [h.active]; omega⟩
  unfold proceed
  rw [hi]
  cases pos with
  | waiting | terminated => cases hr
  | signalled | woken => exact look_eq_ok he i
  | entering =>
    obtain ⟨count,hc⟩:=hc rfl
    obtain ⟨s',hs'⟩:=@look_eq_ok τ { s with activeCount := count } he i
    refine ⟨s',?_⟩
    simp only [decrement_eq_ok.mpr ⟨count,hc,rfl⟩]
    exact hs'
  | running task =>
    obtain ⟨count,hc⟩:=hc rfl
    obtain ⟨s',hs'⟩:=@look_eq_ok τ { s with
      activeCount := count
      finished := s.finished++[task] } he i
    have hd : ({ s with finished := s.finished++[task] } : ThreadPool τ).decrement=.ok { s with
          activeCount := count
          finished := s.finished++[task] } := decrement_eq_ok.mpr ⟨count,hc,rfl⟩
    refine ⟨s',?_⟩
    simp only [hd]
    exact hs'

theorem fault_destroy (h : PoolInvariant n s) {fault : Fault}
    (hf : poolStep s e=.error (.fault fault)) : e=.destroy ∧ s.idleCondition=false := by
  cases e with
  | schedule task wakes =>
    rw [poolStep] at hf
    split at hf
    · cases hf
    unfold schedule signal at hf
    cases wakes with
    | some _ | none =>
      simp only at hf
      split at hf <;> cases hf
  | proceed i =>
    rw [poolStep] at hf
    cases hi : s.threads[i]? with
    | none =>
      rw [proceed,hi] at hf
      cases hf
    | some pos =>
      cases hr : pos.isRunnable with
      | true =>
        obtain ⟨s',hs'⟩:=proceed_ok h hi hr
        cases hs'.symm.trans hf
      | false =>
        rw [proceed,hi] at hf
        cases pos with
        | waiting | terminated => cases hf
        | _ => cases hr
  | wakeUp _ | waitUntilIdle =>
    rw [poolStep] at hf
    split at hf <;> cases hf
  | destroy =>
    rw [poolStep] at hf
    split at hf
    · cases hf
    unfold destroy at hf
    split at hf
    · cases hf
    · exact ⟨rfl,Bool.not_eq_true _ ▸ ‹_›⟩

end Faults

section Progress

theorem exists_runnable (h : PoolInvariant n s) (hn : 0<n) (ht : s.todo≠[]) :
    ∃ (i : ℕ) (pos : Position τ),s.threads[i]?=some pos ∧ pos.isRunnable=true := by
  by_cases hw : 0<s.threads.countP isWaiting
  · have hh:=h.heard hw
    have hpos:=length_pos_of_ne_nil ht
    obtain ⟨pos,hm,hs⟩:=countP_pos_iff.mp (Nat.lt_of_lt_of_le hpos hh)
    obtain ⟨i,hi⟩:=getElem?_of_mem hm
    refine ⟨i,pos,hi,?_⟩
    cases pos with
    | signalled => rfl
    | _ => cases hs
  · have hl : s.threadsShouldJoin=false := by
      by_contra hj
      exact ht (h.joining (Bool.not_eq_false _ ▸ hj)).1
    have hlt : 0<s.threads.length := by
      rw [h.size]
      exact hn
    have hm:=getElem_mem hlt
    refine ⟨0,s.threads[0],getElem?_eq_getElem hlt,?_⟩
    have hnone:=countP_eq_zero.mp (Nat.eq_zero_of_not_pos hw) _ hm
    cases hp : s.threads[0] with
    | waiting =>
      rw [hp] at hnone
      exact (hnone rfl).elim
    | terminated =>
      rw [hp] at hm
      exact (h.live hl hm).elim
    | _ => rfl

theorem PoolMove.getElem?_eq (hm : PoolMove s e s')
    (hi : s.threads[i]?=some pos) (hpos : pos.isWaiting=false)
    (ho : e≠.proceed i) : s'.threads[i]?=some pos := by
  have hs : ∀ {j : ℕ} {old : Position τ} (new : Position τ),s.threads[j]?=some old →
      j≠i → (s.threads.set j new)[i]?=some pos := by
    intro j old new _ hne
    rw [getElem?_set_ne hne,hi]
  have hnot : ∀ {j : ℕ},s.threads[j]?=some .waiting → j≠i := by
    rintro j hj rfl
    cases hj.symm.trans hi
    cases hpos
  have hp : ∀ {j : ℕ},e=.proceed j → j≠i := by
    rintro j rfl rfl
    exact ho rfl
  cases hm with
  | signals hl hj | wakes hj => exact hs _ hj (hnot hj)
  | unheard hl hn | idles ht hc => exact hi
  | takes hg hl ht | waits hg hl ht | terminates hg hjoin ht => exact hs _ hg.there (hp rfl)
  | destroyed hl ht hc =>
    show (s.threads.map wake)[i]?=some pos
    rw [getElem?_map,hi]
    cases pos with
    | waiting => cases hpos
    | _ => rfl

end Progress

end Fcp.Scheduling

import Fcp.Base.Future
import Fcp.Lib.ListUpdate

/-!
# Promises that are gone leave their futures resolved

A state is set by the end of its promise: when a value is set, or when the promise is destroyed. An
assignment to a promise that still holds a state lets go of it without either.
-/

namespace Fcp.Thread

open List Variables Store

variable {V α : Type}

section States

variable {s s' : Store V α} {ref : ℕ} {val : Option α}

def Store.settled (s : Store V α) (ref : ℕ) : Option (Option α) :=
  s.states[ref]?.bind fun state => if state.ready then some state.value else none

structure WellFormed (s : Store V α) : Prop where
  promisesUnique : UniqueRefs s.promises
  futuresUnique : UniqueRefs s.futures
  promised : ∀ ref,Held s.promises ref → s.states[ref]?=some .initial
  awaited : ∀ ref,Held s.futures ref → ∃ state,s.states[ref]?=some state ∧ state.state≠.taken
  kept : ∀ (ref : ℕ) state,s.states[ref]?=some state →
    state=.initial ∨ state.ready=true ∧ state.state≠.notSet

def Dropped (s : Store V α) (ref : ℕ) : Prop := s.states[ref]?=some .initial ∧ ¬ Held s.promises ref

theorem setState_spec (h : s.states[ref]?=some .initial) :
    setState s ref val=.ok { s with states := s.states.set ref ⟨true,.set,val⟩ } := by
  have hstate:=elementAt_eq_ok.mpr h
  rw [setState,hstate]
  rfl

end States

section Step

variable [DecidableEq V]

def setting (s : Store V α) (ref : ℕ) : Statement V α → Option (Option α)
  | .set promise value => if s.promises promise=some (some ref) then some (some value) else none
  | .destroyPromise promise => if s.promises promise=some (some ref) then some none else none
  | _ => none

def droppedBy (s : Store V α) : Statement V α → UniqueValue ℕ
  | .assignPromise dest source => if dest=source then none else (s.promises dest).join
  | _ => none

theorem droppedBy_assignPromise {s : Store V α} {dest src : V} {ref : ℕ} :
    droppedBy s (.assignPromise dest src)=some ref ↔
      dest≠src ∧ s.promises dest=some (some ref) := by
  rw [droppedBy]
  by_cases h : dest=src
  · simp [h]
  · simp [h,Option.join_eq_some_iff]

structure Executed (s : Store V α) (statement : Statement V α) (s' : Store V α) : Prop where
  wellFormed : WellFormed s'
  settled : ∀ ref,s'.settled ref=(setting s ref statement).or (s.settled ref)
  once : ∀ ref val,setting s ref statement=some val → s.settled ref=none
  dropped : ∀ ref,Dropped s' ref ↔ Dropped s ref ∨ droppedBy s statement=some ref

variable {s s' : Store V α} {stmt : Statement V α} {x : V} {ref : ℕ}

theorem executed_promises (hs : WellFormed s) {promises : Variables V} (hu : UniqueRefs promises)
    (hh : ∀ r,Held promises r ↔ Held s.promises r ∧ droppedBy s stmt≠some r)
    (hdrop : ∀ r,droppedBy s stmt=some r → Held s.promises r)
    (hset : ∀ r,setting s r stmt=none) :
    Executed s stmt { s with promises := promises } where
  wellFormed := { hs with
    promisesUnique := hu
    promised := fun r hr => hs.promised r ((hh r).mp hr).1 }
  settled r := by
    rw [hset,Option.none_or]
    rfl
  once r val hv := by
    rw [hset] at hv
    cases hv
  dropped r := by
    unfold Dropped
    show s.states[r]?=some .initial ∧ ¬ Held promises r ↔ _
    rw [hh]
    constructor
    · rintro ⟨hi,hn⟩
      by_cases hd : droppedBy s stmt=some r
      · exact .inr hd
      · exact .inl ⟨hi,fun hr => hn ⟨hr,hd⟩⟩
    · rintro (⟨hi,hn⟩ | hd)
      · exact ⟨hi,fun hr => hn hr.1⟩
      · exact ⟨hs.promised r (hdrop r hd),fun hr => hr.2 hd⟩

theorem executed_futures (hs : WellFormed s) {futures : Variables V}
    (hu : UniqueRefs futures) (hh : ∀ r,Held futures r → Held s.futures r)
    (hd : droppedBy s stmt=none) (hset : ∀ r,setting s r stmt=none) :
    Executed s stmt { s with futures := futures } where
  wellFormed := { hs with
    futuresUnique := hu
    awaited := fun r hr => hs.awaited r (hh r hr) }
  settled r := by
    rw [hset,Option.none_or]
    rfl
  once r val hv := by
    rw [hset] at hv
    cases hv
  dropped r := by
    rw [hd,or_iff_left nofun]
    rfl

theorem executed_set (stmt : Statement V α) (hs : WellFormed s)
    (hx : s.promises x=some (some ref)) {v : Option (UniqueValue ℕ)}
    (hv : ∀ r,v≠some (some r)) {val : Option α}
    (hset : ∀ r,setting s r stmt =
      if s.promises x=some (some r) then some val else none)
    (hd : droppedBy s stmt=none) :
    ∃ s',setState { s with promises := Function.update s.promises x v } ref val=.ok s' ∧
      Executed s stmt s' := by
  have hi:=hs.promised ref ⟨x,hx⟩
  refine ⟨_,setState_spec hi,?_⟩
  obtain ⟨hu,hh⟩:=clear_spec (x := x) hv hs.promisesUnique
  have hstates:=getElem?_set_of_some hi ⟨true,.set,val⟩
  have hrefs : ∀ r,s.promises x=some (some r) ↔ r=ref := by
    intro r
    rw [hx]
    simp [eq_comm]
  refine ⟨⟨hu,hs.futuresUnique,?_,?_,?_⟩,?_,?_,?_⟩
  · intro r hr
    obtain ⟨hr,hne⟩:=(hh r).mp hr
    rw [ne_eq,hrefs] at hne
    show (s.states.set ref _)[r]?=_
    rw [hstates,if_neg hne]
    exact hs.promised r hr
  · intro r hr
    show ∃ state,(s.states.set ref _)[r]?=some state ∧ _
    rw [hstates]
    split
    · exact ⟨_,rfl,nofun⟩
    · exact hs.awaited r hr
  · intro r state hstate
    change (s.states.set ref _)[r]?=some state at hstate
    rw [hstates] at hstate
    split at hstate
    · cases hstate
      exact .inr ⟨rfl,nofun⟩
    · exact hs.kept r state hstate
  · intro r
    unfold settled
    show (s.states.set ref _)[r]?.bind _=_
    rw [hstates,hset]
    by_cases hr : r=ref
    · rw [if_pos hr,if_pos ((hrefs r).mpr hr)]
      rfl
    · rw [if_neg hr,if_neg (mt (hrefs r).mp hr),Option.none_or]
  · intro r val' hval
    rw [hset] at hval
    split at hval
    next hr =>
      rw [hrefs] at hr
      rw [settled,hr,hi]
      rfl
    · cases hval
  · intro r
    unfold Dropped
    show (s.states.set ref _)[r]?=_ ∧ ¬ Held (Function.update s.promises x v) r ↔ _
    rw [hd,or_iff_left nofun,hstates,hh,ne_eq,hrefs]
    by_cases hr : r=ref
    · subst hr
      rw [if_pos rfl]
      constructor
      · rintro ⟨hstate,-⟩
        cases hstate
      · rintro ⟨-,hn⟩
        exact (hn ⟨x,hx⟩).elim
    · rw [if_neg hr,and_iff_left hr]

variable {state : FutureState α}

theorem executed_take (hs : WellFormed s) (hx : s.futures x=some (some ref))
    (hstate : s.states[ref]?=some state) (hready : state.ready=true) :
    ∃ s',takeFuture s x=.ok (state.value,s') ∧ Executed s (.take x) s' := by
  have hset : state.state=.set := by
    obtain ⟨state',hstate',hn⟩:=hs.awaited ref ⟨x,hx⟩
    cases hstate.symm.trans hstate'
    obtain rfl | ⟨-,hne⟩:=hs.kept ref state hstate
    · cases hready
    · cases hc : state.state with
      | notSet => exact (hne hc).elim
      | set => rfl
      | taken => exact (hn hc).elim
  have hrel:=release_eq_ok.mpr ⟨hx,rfl⟩
  have htake : state.take=.ok (state.value,{ state with state := .taken }) := by
    rw [FutureState.take,hset]
  refine ⟨⟨s.states.set ref { state with state := .taken },s.promises,
    Function.update s.futures x (some none)⟩,?_,?_⟩
  · simp only [takeFuture,hrel,ok_bind,elementAt_eq_ok.mpr hstate,ofChecked,hready,if_true,htake]
  obtain ⟨hu,hh⟩:=clear_spec (x := x) (v := some none) nofun hs.futuresUnique
  have hstates:=getElem?_set_of_some hstate { state with state := .taken }
  refine ⟨⟨hs.promisesUnique,hu,?_,?_,?_⟩,?_,nofun,?_⟩
  · intro r hr
    have hi:=hs.promised r hr
    show (s.states.set ref _)[r]?=_
    rw [hstates]
    split
    next heq =>
      rw [heq,hstate] at hi
      cases hi
      cases hready
    · exact hi
  · intro r hr
    obtain ⟨hr,hne⟩:=(hh r).mp hr
    show ∃ state,(s.states.set ref _)[r]?=some state ∧ _
    have ho : r≠ref := by
      rintro rfl
      exact hne hx
    rw [hstates,if_neg ho]
    exact hs.awaited r hr
  · intro r state' hstate'
    change (s.states.set ref _)[r]?=some state' at hstate'
    rw [hstates] at hstate'
    split at hstate'
    · cases hstate'
      exact .inr ⟨hready,nofun⟩
    · exact hs.kept r state' hstate'
  · intro r
    unfold settled
    show (s.states.set ref _)[r]?.bind _=s.states[r]?.bind _
    rw [hstates]
    split
    next heq =>
      rw [heq,hstate]
      rfl
    · rfl
  · intro r
    refine Iff.trans ?_ (or_iff_left nofun).symm
    show (s.states.set ref _)[r]?=_ ∧ _ ↔ s.states[r]?=_ ∧ _
    rw [hstates]
    split
    next heq =>
      rw [heq,hstate]
      constructor
      · rintro ⟨hi,-⟩
        have ht:=congrArg FutureState.state (Option.some.inj hi)
        cases ht
      · rintro ⟨hi,-⟩
        cases hi
        cases hready
    · rfl

theorem executed_make (hs : WellFormed s) {promise future : V}
    (h : makeFuture s promise future=.ok s') :
    Executed s (.makeFuture promise future) s' := by
  obtain ⟨promises,hpromises,h⟩:=bind_eq_ok.mp h
  obtain ⟨futures,hfutures,⟨⟩⟩:=bind_eq_ok.mp h
  obtain ⟨hp,rfl⟩:=construct_eq_ok.mp hpromises
  obtain ⟨hf,rfl⟩:=construct_eq_ok.mp hfutures
  have hn : s.states[s.states.length]?=none := getElem?_eq_none (Nat.le_refl _)
  have hstates : ∀ r,(s.states++[.initial])[r]? =
      if r=s.states.length then some FutureState.initial else s.states[r]? := by
    intro r
    rw [getElem?_append]
    by_cases hlt : r<s.states.length
    · rw [if_pos hlt,if_neg (Nat.ne_of_lt hlt)]
    · rw [if_neg hlt]
      by_cases heq : r=s.states.length
      · rw [heq,Nat.sub_self,if_pos rfl]
        rfl
      · rw [if_neg heq,getElem?_eq_none (by simp; omega),getElem?_eq_none (Nat.le_of_not_lt hlt)]
  have hpfree : ∀ r,some s.states.length=some r → ¬ Held s.promises r := by
    rintro r ⟨⟩ hr
    have hi:=hs.promised _ hr
    cases hn.symm.trans hi
  have hffree : ∀ r,some s.states.length=some r → ¬ Held s.futures r := by
    rintro r ⟨⟩ hr
    obtain ⟨state,hstate,-⟩:=hs.awaited _ hr
    cases hn.symm.trans hstate
  obtain ⟨hpunique,hpheld⟩:=fill_spec (x := promise) hpfree hs.promisesUnique
  obtain ⟨hfun,hfheld⟩:=fill_spec (x := future) hffree hs.futuresUnique
  simp only [hp,hf,ne_eq,reduceCtorEq,not_false_eq_true,and_true,Option.some_inj] at hpheld hfheld
  refine ⟨⟨hpunique,hfun,?_,?_,?_⟩,?_,nofun,?_⟩
  · intro r hr
    show (s.states++[.initial])[r]?=_
    rw [hstates]
    split
    · rfl
    · obtain ho | heq:=(hpheld r).mp hr
      · exact hs.promised r ho
      · exact (‹¬ _› heq.symm).elim
  · intro r hr
    show ∃ state,(s.states++[.initial])[r]?=some state ∧ _
    rw [hstates]
    split
    · exact ⟨_,rfl,nofun⟩
    · obtain ho | heq:=(hfheld r).mp hr
      · exact hs.awaited r ho
      · exact (‹¬ _› heq.symm).elim
  · intro r state hstate
    change (s.states++[.initial])[r]?=some state at hstate
    rw [hstates] at hstate
    split at hstate
    · cases hstate
      exact .inl rfl
    · exact hs.kept r state hstate
  · intro r
    unfold settled
    show (s.states++[.initial])[r]?.bind _=s.states[r]?.bind _
    rw [hstates]
    split
    next heq =>
      rw [heq,hn]
      rfl
    · rfl
  · intro r
    refine Iff.trans ?_ (or_iff_left nofun).symm
    show (s.states++[.initial])[r]?=_ ∧ ¬ Held (Function.update s.promises promise _) r ↔
      s.states[r]?=_ ∧ _
    rw [hstates,hpheld]
    split
    next heq =>
      rw [heq,hn]
      simp
    next hne => rw [or_iff_left (Ne.symm hne)]

section Safety

def NoFault {β : Type} (r : Except Stop β) : Prop := ∀ fault,r≠.error (.fault fault)

theorem NoFault.bind {β γ : Type} {r : Except Stop β} {f : β → Except Stop γ} (hr : NoFault r)
    (hf : ∀ b,r=.ok b → NoFault (f b)) : NoFault (r >>= f) := by
  cases r with
  | ok b => exact hf b rfl
  | error stop => exact fun fault heq => hr fault (by cases heq; rfl)

omit [DecidableEq V] in
theorem noFault_value (vars : Variables V) (x : V) : NoFault (vars.value x) := by
  unfold value
  split <;> exact nofun

theorem noFault_construct (vars : Variables V) (x : V) (ref : UniqueValue ℕ) :
    NoFault (vars.construct x ref) := by
  unfold construct
  split <;> exact nofun

theorem noFault_moveConstruct (vars : Variables V) (dest src : V) :
    NoFault (vars.moveConstruct dest src) :=
  (noFault_value vars src).bind fun _ _ => noFault_construct _ _ _

theorem noFault_moveAssign (vars : Variables V) (dest src : V) :
    NoFault (vars.moveAssign dest src) :=
  (noFault_value vars src).bind fun _ _ => (noFault_value _ dest).bind fun _ _ => nofun

theorem noFault_release (vars : Variables V) (x : V) : NoFault (vars.release x) := by
  refine (noFault_value vars x).bind fun ref _ => ?_
  cases ref <;> exact nofun

theorem noFault_destroy (vars : Variables V) (x : V) : NoFault (vars.destroy x) :=
  (noFault_value vars x).bind fun _ _ => nofun

omit [DecidableEq V] in
theorem noFault_setState {val : Option α} (h : s.states[ref]?=some .initial) :
    NoFault (setState s ref val) := by
  rw [setState_spec h]
  exact nofun

theorem takeFuture_waiting (hx : s.futures x=some (some ref))
    (hstate : s.states[ref]?=some state) (hr : state.ready=false) :
    takeFuture s x=.error .waiting := by
  have hrel:=release_eq_ok.mpr ⟨hx,rfl⟩
  simp only [takeFuture,hrel,ok_bind,elementAt_eq_ok.mpr hstate,ofChecked,hr,
    Bool.false_eq_true,if_false]

theorem noFault_takeFuture (hs : WellFormed s) (x : V) : NoFault (takeFuture s x) := by
  cases hrel : s.futures.release x with
  | error stop =>
    rw [takeFuture]
    exact (noFault_release s.futures x).bind fun _ hok => by rw [hrel] at hok; cases hok
  | ok released =>
    obtain ⟨ref,futures⟩:=released
    obtain ⟨hx,-⟩:=release_eq_ok.mp hrel
    obtain ⟨state,hstate,-⟩:=hs.awaited ref ⟨x,hx⟩
    cases hr : state.ready with
    | true =>
      obtain ⟨s',ht,-⟩:=executed_take hs hx hstate hr
      rw [ht]
      exact nofun
    | false =>
      rw [takeFuture_waiting hx hstate hr]
      exact nofun

end Safety

section

variable (hs : WellFormed s)
include hs

theorem executed_of_setPromise {value : α}
    (h : setPromise s x value=.ok s') : Executed s (.set x value) s' := by
  obtain ⟨⟨ref,promises⟩,hr,h⟩:=bind_eq_ok.mp h
  obtain ⟨hx,rfl⟩:=release_eq_ok.mp hr
  obtain ⟨s'',hset,he⟩:=executed_set (.set x value) hs hx (v := some none) nofun (fun _ => rfl) rfl
  have heq : s'=s'' := Except.ok.inj (h.symm.trans hset)
  exact heq ▸ he

theorem executed_of_destroyPromise (h : destroyPromise s x=.ok s') :
    Executed s (.destroyPromise x) s' := by
  obtain ⟨⟨ref,promises⟩,hd,h⟩:=bind_eq_ok.mp h
  obtain ⟨hx,rfl⟩:=destroy_eq_ok.mp hd
  cases ref with
  | none =>
    cases h
    obtain ⟨hu,hh⟩:=clear_spec (x := x) (v := none) nofun hs.promisesUnique
    apply executed_promises hs hu
    · intro r
      rw [hh,hx]
      exact and_congr_right fun _ => ⟨fun _ => nofun,fun _ => nofun⟩
    · exact nofun
    · intro r
      rw [setting,hx,if_neg nofun]
  | some ref =>
    obtain ⟨s'',hset,he⟩:=executed_set (.destroyPromise x) hs hx
      (v := none) nofun (fun _ => rfl) rfl
    have heq : s'=s'' := Except.ok.inj (h.symm.trans hset)
    exact heq ▸ he

theorem executed_of_takeFuture {val : Option α}
    (h : takeFuture s x=.ok (val,s')) : Executed s (.take x) s' := by
  obtain ⟨⟨ref,futures⟩,hrel,hr⟩:=bind_eq_ok.mp h
  obtain ⟨hx,-⟩:=release_eq_ok.mp hrel
  obtain ⟨state,hstate,-⟩:=hs.awaited ref ⟨x,hx⟩
  have hready : state.ready=true := by
    simp only [elementAt_eq_ok.mpr hstate,ofChecked,ok_bind] at hr
    by_contra hn
    rw [if_neg hn] at hr
    cases hr
  obtain ⟨s'',ht,he⟩:=executed_take hs hx hstate hready
  cases ht.symm.trans h
  exact he

theorem executed_of_execute (h : execute s stmt=.ok s') : Executed s stmt s' := by
  cases stmt with
  | makeFuture promise future => exact executed_make hs h
  | constructPromise dest src =>
    obtain ⟨promises,hm,⟨⟩⟩:=bind_eq_ok.mp h
    obtain ⟨hu,hh⟩:=moveConstruct_spec hm hs.promisesUnique
    apply executed_promises hs hu
    · intro r
      rw [hh]
      exact (and_iff_left nofun).symm
    · exact nofun
    · exact fun _ => rfl
  | assignPromise dest src =>
    obtain ⟨promises,hm,⟨⟩⟩:=bind_eq_ok.mp h
    obtain ⟨hu,hh⟩:=moveAssign_spec hm hs.promisesUnique
    apply executed_promises hs hu
    · intro r
      rw [hh,← droppedBy_assignPromise]
    · intro r hr
      exact ⟨dest,(droppedBy_assignPromise.mp hr).2⟩
    · exact fun _ => rfl
  | constructFuture dest src =>
    obtain ⟨futures,hm,⟨⟩⟩:=bind_eq_ok.mp h
    obtain ⟨hu,hh⟩:=moveConstruct_spec hm hs.futuresUnique
    exact executed_futures hs hu (fun r => (hh r).mp) rfl (fun _ => rfl)
  | assignFuture dest src =>
    obtain ⟨futures,hm,⟨⟩⟩:=bind_eq_ok.mp h
    obtain ⟨hu,hh⟩:=moveAssign_spec hm hs.futuresUnique
    exact executed_futures hs hu (fun r hr => ((hh r).mp hr).1) rfl (fun _ => rfl)
  | set promise value => exact executed_of_setPromise hs h
  | take future =>
    obtain ⟨⟨val,s''⟩,ht,⟨⟩⟩:=bind_eq_ok.mp h
    exact executed_of_takeFuture hs ht
  | destroyPromise promise => exact executed_of_destroyPromise hs h
  | destroyFuture future =>
    obtain ⟨⟨ref,futures⟩,hd,⟨⟩⟩:=bind_eq_ok.mp h
    obtain ⟨-,rfl⟩:=destroy_eq_ok.mp hd
    obtain ⟨hu,hh⟩:=clear_spec (x := future) (v := none) nofun hs.futuresUnique
    exact executed_futures hs hu (fun r hr => ((hh r).mp hr).1) rfl (fun _ => rfl)

theorem noFault_execute (stmt : Statement V α) : NoFault (execute s stmt) := by
  cases stmt with
  | makeFuture promise future =>
    exact (noFault_construct _ _ _).bind fun _ _ => (noFault_construct _ _ _).bind fun _ _ => nofun
  | constructPromise dest src => exact (noFault_moveConstruct _ _ _).bind fun _ _ => nofun
  | assignPromise dest src => exact (noFault_moveAssign _ _ _).bind fun _ _ => nofun
  | constructFuture dest src => exact (noFault_moveConstruct _ _ _).bind fun _ _ => nofun
  | assignFuture dest src => exact (noFault_moveAssign _ _ _).bind fun _ _ => nofun
  | set promise value =>
    refine (noFault_release _ _).bind ?_
    rintro ⟨ref,promises⟩ hr
    obtain ⟨hx,rfl⟩:=release_eq_ok.mp hr
    exact noFault_setState (hs.promised ref ⟨promise,hx⟩)
  | take future => exact (noFault_takeFuture hs future).bind fun _ _ => nofun
  | destroyPromise promise =>
    refine (noFault_destroy _ _).bind ?_
    rintro ⟨ref,promises⟩ hd
    obtain ⟨hx,rfl⟩:=destroy_eq_ok.mp hd
    cases ref with
    | none => exact nofun
    | some ref => exact noFault_setState (hs.promised ref ⟨promise,hx⟩)
  | destroyFuture future => exact (noFault_destroy _ _).bind fun _ _ => nofun

end

end Step

section Runs

variable [DecidableEq V] {s : Store V α} {hist : List (Store V α × Statement V α)}

def settings (history : List (Store V α × Statement V α)) (ref : ℕ) : List (Option α) :=
  history.filterMap fun entry => setting entry.1 ref entry.2

structure Ran (history : List (Store V α × Statement V α)) (s : Store V α) : Prop where
  wellFormed : WellFormed s
  settled : ∀ ref,settings history ref=(s.settled ref).toList
  dropped : (∃ ref,Dropped s ref) ↔ ∃ entry∈history,∃ ref,droppedBy entry.1 entry.2=some ref

theorem ran_of_run (hr : Run execute empty hist s) : Ran hist s := by
  apply hr.invariant (G := fun _ _ => True) (P := Ran) (fun _ _ => trivial)
  · refine ⟨⟨nofun,nofun,nofun,nofun,nofun⟩,fun _ => rfl,?_⟩
    constructor
    · rintro ⟨ref,hi,-⟩
      cases hi
    · rintro ⟨entry,hentry,-⟩
      cases hentry
  · intro hist s s' stmt h _ hstep
    have he:=executed_of_execute h.wellFormed hstep
    refine ⟨he.wellFormed,?_,?_⟩
    · intro ref
      rw [settings,filterMap_append,← settings,h.settled,he.settled]
      cases hset : setting s ref stmt with
      | none => simp [hset]
      | some val => simp [hset,he.once ref val hset]
    · simp only [he.dropped,exists_or,h.dropped,mem_append,mem_singleton,
        or_and_right,exists_eq_left]

structure Resolved (history : List (Store V α × Statement V α)) (s : Store V α) : Prop where
  once : ∀ ref,(settings history ref).length≤1
  value : ∀ ref,∀ val∈settings history ref,∃ state,s.states[ref]?=some state ∧
    state.ready=true ∧ state.value=val
  safe : ∀ statement,NoFault (execute s statement)
  notified : ∀ (ref : ℕ) state,s.states[ref]?=some state → ¬ Held s.promises ref → state.ready=true
  takes : ∀ x ref,s.futures x=some (some ref) → ¬ Held s.promises ref →
    ∃ val s',takeFuture s x=.ok (val,s') ∧ settings history ref=[val]

/-- After a program, all states without a promise are set just if no promise that held a state was
assigned another one. -/
theorem resolved_iff (hrun : Run execute Store.empty hist s) :
    Resolved hist s ↔ ∀ entry∈hist,droppedBy entry.1 entry.2=none := by
  have h:=ran_of_run hrun
  have hnone : (∀ entry∈hist,droppedBy entry.1 entry.2=none) ↔ ¬ ∃ ref,Dropped s ref := by
    simp only [h.dropped,not_exists,not_and,Option.eq_none_iff_forall_ne_some,ne_eq]
  rw [hnone]
  constructor
  · rintro hresolved ⟨ref,hi,hn⟩
    have hr:=hresolved.notified ref _ hi hn
    cases hr
  · intro hd
    have hnotified : ∀ (ref : ℕ) state,s.states[ref]?=some state → ¬ Held s.promises ref →
        state.ready=true := by
      intro ref state hstate hn
      obtain rfl | ⟨hr,-⟩:=h.wellFormed.kept ref state hstate
      · exact (hd ⟨ref,hstate,hn⟩).elim
      · exact hr
    refine ⟨?_,?_,noFault_execute h.wellFormed,hnotified,?_⟩
    · intro ref
      rw [h.settled]
      cases s.settled ref <;> simp
    · intro ref val hv
      rw [h.settled,Option.mem_toList,settled,Option.bind_eq_some_iff] at hv
      obtain ⟨state,hstate,hv⟩:=hv
      split at hv
      · exact ⟨state,hstate,‹_›,Option.some.inj hv⟩
      · cases hv
    · intro x ref hx hn
      obtain ⟨state,hstate,-⟩:=h.wellFormed.awaited ref ⟨x,hx⟩
      have hr:=hnotified ref state hstate hn
      obtain ⟨s',ht,-⟩:=executed_take h.wellFormed hx hstate hr
      refine ⟨_,s',ht,?_⟩
      rw [h.settled,settled,hstate,Option.bind_some,if_pos hr]
      rfl

def movedAndSet : List (Statement Bool ℕ) :=
  [.makeFuture false false,.constructPromise true false,.set true 7,.assignPromise true false,
    .destroyPromise false,.makeFuture false true,.destroyPromise false]

theorem resolved_movedAndSet :
    ∃ hist s,Run execute Store.empty hist s ∧ hist.map Prod.snd=movedAndSet ∧ Resolved hist s := by
  obtain ⟨hist,s,hr,he,ht⟩:=exists_recorded execute empty movedAndSet
    (P := fun hist _ => ∀ entry∈hist,droppedBy entry.1 entry.2=none)
    (by decide +kernel)
  exact ⟨hist,s,hr,he,(resolved_iff hr).mpr ht⟩

def assignedTwice : List (Statement Bool ℕ) :=
  [.makeFuture false false,.makeFuture true true,.assignPromise false true,
    .destroyPromise false,.destroyPromise true]

/-- The first future waits although there is no promise left. -/
theorem assignedTwice_waits :
    ∃ hist s,Run execute Store.empty hist s ∧ hist.map Prod.snd=assignedTwice ∧
      (∀ x,s.promises x=none) ∧ takeFuture s false=.error .waiting ∧
      ¬ Resolved hist s := by
  obtain ⟨hist,s,hrun,he,hg,hf,hstate⟩:=exists_recorded execute empty assignedTwice
    (P := fun _ s => (∀ x,s.promises x=none) ∧ s.futures false=some (some 0) ∧
      s.states[0]?=some FutureState.initial) (by decide +kernel)
  refine ⟨hist,s,hrun,he,hg,takeFuture_waiting hf hstate rfl,?_⟩
  intro hresolved
  have hr:=hresolved.notified 0 _ hstate (by simp [Held,hg])
  cases hr

end Runs

end Fcp.Thread

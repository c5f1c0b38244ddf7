import Fcp.Base.Monitoring
import Fcp.Lib.Run

/-!
# Promises and futures (fcp/base/future.h, fcp/base/unique_value.h)

A program is a sequence of statements on variables, in whatever order its threads execute them. A
variable holds a reference to a shared `FutureState`, or nothing once it has been moved from. A move
takes the reference of its source along, so that no two variables refer to the same state.
-/

namespace Fcp.Thread

abbrev UniqueValue (α : Type) := Option α

namespace UniqueValue

variable {α : Type}

def moveConstruct (other : UniqueValue α) : UniqueValue α × UniqueValue α := (other,none)

def assign (value other : UniqueValue α) : UniqueValue α × UniqueValue α := (other,value)

end UniqueValue

section FutureState

variable {α : Type}

inductive SetState where
  | notSet
  | set
  | taken
  deriving Repr, DecidableEq

structure FutureState (α : Type) where
  ready : Bool
  state : SetState
  value : Option α
  deriving Repr, DecidableEq

namespace FutureState

def initial : FutureState α := ⟨false,.notSet,none⟩

def set (s : FutureState α) (val : Option α) : Checked (FutureState α) := do
  fcpCheck (!s.ready)
  match s.state with
  | .notSet => .ok ⟨true,.set,val⟩
  | .set => .error .check
  | .taken => .error .check

/-- `Take` once `WaitForNotification` has returned. The value is not read again. -/
def take (s : FutureState α) : Checked (Option α × FutureState α) :=
  match s.state with
  | .set => .ok (s.value,{ s with state := .taken })
  | .notSet => .error .check
  | .taken => .error .check

end FutureState

end FutureState

inductive Stop where
  /-- The program is not well formed: a variable is used outside of its life. -/
  | lifetime
  | movedFrom
  /-- `WaitForNotification` does not return. -/
  | waiting
  | fault (fault : Fault)
  deriving Repr, DecidableEq

abbrev Variables (V : Type) := V → Option (UniqueValue ℕ)

namespace Variables

variable {V : Type} [DecidableEq V] (vars : Variables V) (x : V)

def value : Except Stop (UniqueValue ℕ) :=
  match vars x with
  | some ref => .ok ref
  | none => .error .lifetime

def construct (ref : UniqueValue ℕ) : Except Stop (Variables V) :=
  match vars x with
  | some _ => .error .lifetime
  | none => .ok (Function.update vars x (some ref))

def moveConstruct (vars : Variables V) (dest source : V) : Except Stop (Variables V) := do
  let other ← vars.value source
  let (ref,left) := UniqueValue.moveConstruct other
  construct (Function.update vars source (some left)) dest ref

def moveAssign (dest source : V) : Except Stop (Variables V) := do
  let other ← vars.value source
  let (param,left) := UniqueValue.moveConstruct other
  let vars : Variables V := Function.update vars source (some left)
  let (ref,_) := UniqueValue.assign (← vars.value dest) param
  .ok (Function.update vars dest (some ref))

def release : Except Stop (ℕ × Variables V) := do
  let (state,left) := UniqueValue.moveConstruct (← vars.value x)
  match state with
  | none => .error .movedFrom
  | some ref => .ok (ref,Function.update vars x (some left))

def destroy : Except Stop (UniqueValue ℕ × Variables V) := do
  let ref ← vars.value x
  .ok (ref,Function.update vars x none)

end Variables

structure Store (V α : Type) where
  states : List (FutureState α)
  promises : Variables V
  futures : Variables V

inductive Statement (V α : Type) where
  | makeFuture (promise future : V)
  | constructPromise (dest source : V)
  | assignPromise (dest source : V)
  | constructFuture (dest source : V)
  | assignFuture (dest source : V)
  | set (promise : V) (value : α)
  | take (future : V)
  | destroyPromise (promise : V)
  | destroyFuture (future : V)
  deriving Repr, DecidableEq

section Execution

variable {V α : Type} [DecidableEq V]

def ofChecked {β : Type} : Checked β → Except Stop β
  | .ok b => .ok b
  | .error fault => .error (.fault fault)

def Store.empty : Store V α := ⟨[],fun _ => none,fun _ => none⟩

variable (s : Store V α) (promise : V)

def makeFuture (promise future : V) : Except Stop (Store V α) := do
  let promises ← s.promises.construct promise (some s.states.length)
  let futures ← s.futures.construct future (some s.states.length)
  .ok ⟨s.states++[.initial],promises,futures⟩

def setState (ref : ℕ) (val : Option α) : Except Stop (Store V α) := do
  let state ← ofChecked (elementAt s.states ref)
  let state ← ofChecked (state.set val)
  .ok { s with states := s.states.set ref state }

def setPromise (value : α) : Except Stop (Store V α) := do
  let (ref,promises) ← s.promises.release promise
  setState { s with promises := promises } ref (some value)

def takeFuture (future : V) : Except Stop (Option α × Store V α) := do
  let (ref,futures) ← s.futures.release future
  let state ← ofChecked (elementAt s.states ref)
  if state.ready then do
    let (value,state) ← ofChecked state.take
    .ok (value,{ s with
      futures := futures
      states := s.states.set ref state })
  else .error .waiting

def destroyPromise : Except Stop (Store V α) := do
  match ← s.promises.destroy promise with
  | (none,promises) => .ok { s with promises := promises }
  | (some ref,promises) => setState { s with promises := promises } ref none

def execute : Statement V α → Except Stop (Store V α)
  | .makeFuture promise future => makeFuture s promise future
  | .constructPromise dest source => do
    let promises ← s.promises.moveConstruct dest source
    .ok { s with promises := promises }
  | .assignPromise dest source => do
    let promises ← s.promises.moveAssign dest source
    .ok { s with promises := promises }
  | .constructFuture dest source => do
    let futures ← s.futures.moveConstruct dest source
    .ok { s with futures := futures }
  | .assignFuture dest source => do
    let futures ← s.futures.moveAssign dest source
    .ok { s with futures := futures }
  | .set promise value => setPromise s promise value
  | .take future => do
    let (_,s) ← takeFuture s future
    .ok s
  | .destroyPromise promise => destroyPromise s promise
  | .destroyFuture future => do
    let (_,futures) ← s.futures.destroy future
    .ok { s with futures := futures }

end Execution

variable {V : Type}

def Held (vars : Variables V) (ref : ℕ) : Prop := ∃ x,vars x=some (some ref)

def UniqueRefs (vars : Variables V) : Prop :=
  ∀ x y ref,vars x=some (some ref) → vars y=some (some ref) → x=y

namespace Variables

variable {vars vars' : Variables V} {x dest src : V} {ref : UniqueValue ℕ}

theorem value_eq_ok : vars.value x=.ok ref ↔ vars x=some ref := by
  unfold value
  cases vars x <;> simp

variable [DecidableEq V]

theorem construct_eq_ok : vars.construct x ref=.ok vars' ↔ vars x=none ∧
      vars'=Function.update vars x (some ref) := by
  unfold construct
  cases vars x <;> simp [eq_comm]

variable {v : Option (UniqueValue ℕ)}

theorem update_eq_held {y : V} {ref : ℕ} : Function.update vars x v y=some (some ref) ↔
      y=x ∧ v=some (some ref) ∨ y≠x ∧ vars y=some (some ref) := by
  by_cases h : y=x
  · subst h
    simp
  · simp [h]

theorem clear_spec (hv : ∀ ref,v≠some (some ref)) (hu : UniqueRefs vars) :
    UniqueRefs (Function.update vars x v) ∧ ∀ ref,Held (Function.update vars x v) ref ↔
        Held vars ref ∧ vars x≠some (some ref) := by
  constructor
  · intro y z ref hy hz
    rw [update_eq_held] at hy hz
    obtain ⟨-,hy⟩ | ⟨-,hy⟩:=hy
    · exact (hv ref hy).elim
    obtain ⟨-,hz⟩ | ⟨-,hz⟩:=hz
    · exact (hv ref hz).elim
    exact hu y z ref hy hz
  · intro ref
    constructor
    · rintro ⟨y,hy⟩
      rw [update_eq_held] at hy
      obtain ⟨-,hy⟩ | ⟨hne,hy⟩:=hy
      · exact (hv ref hy).elim
      · exact ⟨⟨y,hy⟩,fun hx => hne (hu y x ref hy hx)⟩
    · rintro ⟨⟨y,hy⟩,hx⟩
      have hne : y≠x := fun h => hx (h ▸ hy)
      exact ⟨y,update_eq_held.mpr (.inr ⟨hne,hy⟩)⟩

theorem fill_spec (hf : ∀ r,ref=some r → ¬ Held vars r) (hu : UniqueRefs vars) :
    UniqueRefs (Function.update vars x (some ref)) ∧
      ∀ r,Held (Function.update vars x (some ref)) r ↔
        Held vars r ∧ vars x≠some (some r) ∨ ref=some r := by
  constructor
  · intro y z r hy hz
    rw [update_eq_held,Option.some_inj] at hy hz
    obtain ⟨rfl,hy⟩ | ⟨-,hy⟩:=hy
    · obtain ⟨rfl,-⟩ | ⟨-,hz⟩:=hz
      · rfl
      · exact (hf r hy ⟨z,hz⟩).elim
    · obtain ⟨-,hz⟩ | ⟨-,hz⟩:=hz
      · exact (hf r hz ⟨y,hy⟩).elim
      · exact hu y z r hy hz
  · intro r
    constructor
    · rintro ⟨y,hy⟩
      rw [update_eq_held,Option.some_inj] at hy
      obtain ⟨-,hy⟩ | ⟨hne,hy⟩:=hy
      · exact .inr hy
      · exact .inl ⟨⟨y,hy⟩,fun hx => hne (hu y x r hy hx)⟩
    · rintro (⟨⟨y,hy⟩,hx⟩ | hr)
      · have hne : y≠x := fun h => hx (h ▸ hy)
        exact ⟨y,update_eq_held.mpr (.inr ⟨hne,hy⟩)⟩
      · exact ⟨x,update_eq_held.mpr (.inl ⟨rfl,congrArg some hr⟩)⟩

theorem source_spec {other : UniqueValue ℕ} (ho : vars src=some other) (hu : UniqueRefs vars) :
    UniqueRefs (Function.update vars src (some none)) ∧
      (∀ r,Held (Function.update vars src (some none)) r ↔ Held vars r ∧ other≠some r) ∧
      ∀ r,other=some r → ¬ Held (Function.update vars src (some none)) r := by
  obtain ⟨hu',hh⟩:=clear_spec (x := src) (v := some none) nofun hu
  have hh' : ∀ r,Held (Function.update vars src (some none)) r ↔ Held vars r ∧ other≠some r := by
    intro r
    rw [hh,ho,ne_eq,Option.some_inj]
  refine ⟨hu',hh',?_⟩
  intro r hr hm
  exact ((hh' r).mp hm).2 hr

theorem moveConstruct_spec (h : vars.moveConstruct dest src=.ok vars')
    (hu : UniqueRefs vars) : UniqueRefs vars' ∧ ∀ r,Held vars' r ↔ Held vars r := by
  obtain ⟨other,ho,h⟩:=bind_eq_ok.mp h
  rw [value_eq_ok] at ho
  obtain ⟨hd,rfl⟩:=construct_eq_ok.mp h
  obtain ⟨hu₁,hh₁,hf⟩:=source_spec ho hu
  obtain ⟨hu₂,hh₂⟩:=fill_spec (x := dest) hf hu₁
  refine ⟨hu₂,?_⟩
  intro r
  refine (hh₂ r).trans ?_
  rw [hh₁]
  constructor
  · rintro (⟨⟨hr,-⟩,-⟩ | rfl)
    · exact hr
    · exact ⟨src,ho⟩
  · intro hr
    by_cases heq : other=some r
    · exact .inr heq
    · left
      refine ⟨⟨hr,heq⟩,?_⟩
      rw [hd]
      nofun

theorem moveAssign_spec (h : vars.moveAssign dest src=.ok vars') (hu : UniqueRefs vars) :
    UniqueRefs vars' ∧ ∀ r,Held vars' r ↔ Held vars r ∧ ¬ (dest≠src ∧ vars dest=some (some r)) := by
  obtain ⟨other,ho,h⟩:=bind_eq_ok.mp h
  rw [value_eq_ok] at ho
  obtain ⟨old,hold,h⟩:=bind_eq_ok.mp h
  rw [value_eq_ok] at hold
  cases h
  obtain ⟨hu₁,hh₁,hf⟩:=source_spec ho hu
  obtain ⟨hu₂,hh₂⟩:=fill_spec (x := dest) hf hu₁
  refine ⟨hu₂,?_⟩
  intro r
  refine (hh₂ r).trans ?_
  rw [hh₁]
  have hkeeps : Function.update vars src (some none) dest≠some (some r) ↔
      ¬ (dest≠src ∧ vars dest=some (some r)) := by
    rw [ne_eq,update_eq_held]
    simp
  rw [hkeeps]
  constructor
  · rintro (⟨⟨hr,-⟩,hk⟩ | rfl)
    · exact ⟨hr,hk⟩
    · refine ⟨⟨src,ho⟩,?_⟩
      rintro ⟨hne,hd⟩
      exact hne (hu dest src r hd ho)
  · rintro ⟨hr,hk⟩
    by_cases heq : other=some r
    · exact .inr heq
    · exact .inl ⟨⟨hr,heq⟩,hk⟩

theorem release_eq_ok {ref : ℕ} : vars.release x=.ok (ref,vars') ↔
      vars x=some (some ref) ∧ vars'=Function.update vars x (some none) := by
  unfold release value
  cases hx : vars x with
  | none => simp
  | some v =>
    cases v with
    | none => simp [UniqueValue.moveConstruct]
    | some r => simp [UniqueValue.moveConstruct,eq_comm]

theorem destroy_eq_ok : vars.destroy x=.ok (ref,vars') ↔
      vars x=some ref ∧ vars'=Function.update vars x none := by
  unfold destroy value
  cases hx : vars x with
  | none => simp
  | some v => simp [eq_comm]

end Variables

end Fcp.Thread

import Mathlib.Logic.Relation

/-!
# Runs of a machine

A machine is a step function that may fail, over states and events. An invariant is proved once for
a step and then holds in every state that a run reaches.
-/

namespace Fcp

open List

variable {ε σ α : Type}

/-- The states that some sequence of events leads to. -/
inductive Reachable (step : σ → α → Except ε σ) (init : σ) : σ → Prop
  | init : Reachable step init init
  | step {s s' : σ} {event : α} (h : Reachable step init s) (hs : step s event=.ok s') :
      Reachable step init s'

variable {step : σ → α → Except ε σ} {init s : σ}

theorem Reachable.invariant (h : Reachable step init s) {P : σ → Prop} (h0 : P init)
    (hstep : ∀ s s' e,P s → step s e=.ok s' → P s') : P s := by
  induction h with
  | init => exact h0
  | step _ hs ih => exact hstep _ _ _ ih hs

/-- Runs with their history: the events so far, each with the state it happened in. -/
inductive Run (step : σ → α → Except ε σ) (init : σ) : List (σ × α) → σ → Prop
  | nil : Run step init [] init
  | snoc {history : List (σ × α)} {s s' : σ} {event : α} (h : Run step init history s)
      (hs : step s event=.ok s') : Run step init (history++[(s,event)]) s'

variable {hist : List (σ × α)}

theorem Run.reachable (h : Run step init hist s) : Reachable step init s := by
  induction h with
  | nil => exact .init
  | snoc _ hs ih => exact .step ih hs

/-- A step lemma may use what all events of the run have in common. -/
theorem Run.invariant (h : Run step init hist s) {G : σ → α → Prop}
    (hg : ∀ entry∈hist,G entry.1 entry.2) {P : List (σ × α) → σ → Prop} (h0 : P [] init)
    (hstep : ∀ hist s s' e,P hist s → G s e → step s e=.ok s' →
      P (hist++[(s,e)]) s') : P hist s := by
  induction h with
  | nil => exact h0
  | snoc _ hs ih =>
    apply hstep _ _ _ _ _ _ hs
    · exact ih fun entry he => hg entry (mem_append_left _ he)
    · exact hg _ (mem_append_right _ (mem_singleton_self _))

/-- The history and the last state of the run that executes events. -/
def record (step : σ → α → Except ε σ) (init : σ) (events : List α) : Option (List (σ × α) × σ) :=
  events.foldlM (fun run event =>
    (step run.2 event).toOption.map fun s' => (run.1++[(run.2,event)],s')) ([],init)

/-- A run found by executing events and testing its history and last state. -/
theorem exists_recorded (step : σ → α → Except ε σ) (init : σ) (events : List α)
    {P : List (σ × α) → σ → Prop} [∀ hist s,Decidable (P hist s)]
    (h : (record step init events).map (fun run => decide (P run.1 run.2))=some true) :
    ∃ hist s,Run step init hist s ∧ hist.map Prod.snd=events ∧ P hist s := by
  suffices hg : ∀ (more before : List α) (run last : List (σ × α) × σ),
      Run step init run.1 run.2 → run.1.map Prod.snd=before →
      more.foldlM (fun run event =>
        (step run.2 event).toOption.map fun s' => (run.1++[(run.2,event)],s')) run=some last →
      Run step init last.1 last.2 ∧ last.1.map Prod.snd=before++more by
    obtain ⟨last,hl,ht⟩:=Option.map_eq_some_iff.mp h
    obtain ⟨hr,he⟩:=hg events [] ([],init) last .nil rfl hl
    exact ⟨last.1,last.2,hr,he,of_decide_eq_true ht⟩
  intro more
  induction more with
  | nil =>
    intro before run last hr hb hl
    cases hl
    exact ⟨hr,by rw [hb,append_nil]⟩
  | cons event more ih =>
    intro before run last hr hb hl
    rw [foldlM_cons] at hl
    cases hs : step run.2 event with
    | error e =>
      rw [hs] at hl
      cases hl
    | ok s' =>
      rw [hs] at hl
      obtain ⟨hr',he⟩:=ih (before++[event]) (run.1++[(run.2,event)],s') last
        (.snoc hr hs) (by simp [hb]) hl
      exact ⟨hr',by simpa using he⟩

theorem exists_run (step : σ → α → Except ε σ) (init : σ) (events : List α) {P : σ → Prop}
    [DecidablePred P] (h : (record step init events).map (fun run => decide (P run.2))=some true) :
    ∃ hist s,Run step init hist s ∧ P s := by
  obtain ⟨hist,s,hr,-,hp⟩:=exists_recorded step init events (P := fun _ => P) h
  exact ⟨hist,s,hr,hp⟩

/-- What a step leads to can be decided along with the run before it. -/
instance decidableExistsOk (r : Except ε σ) {P : σ → Prop} [DecidablePred P] :
    Decidable (∃ s,r=.ok s ∧ P s) :=
  match r with
  | .ok s => decidable_of_iff (P s) (by simp)
  | .error _ => isFalse (by simp)

end Fcp

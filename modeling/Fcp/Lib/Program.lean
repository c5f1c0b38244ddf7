import Mathlib.Logic.Basic

/-!
# Programs with a state, failures and faults

A program changes a state and returns a value or a failure, which skips the rest and keeps the
state; a fault ends it without a state.
-/

namespace Fcp

variable {φ ε σ α β : Type}

def Program (φ ε σ α : Type) : Type := σ → Except φ (Except ε α × σ)

namespace Program

instance : Monad (Program φ ε σ) where
  pure a := fun s => .ok (.ok a,s)
  bind x f := fun s =>
    match x s with
    | .error fault => .error fault
    | .ok (.error e,s') => .ok (.error e,s')
    | .ok (.ok a,s') => f a s'

def fail (e : ε) : Program φ ε σ α := fun s => .ok (.error e,s)

def crash (fault : φ) : Program φ ε σ α := fun _ => .error fault

def read (f : σ → α) : Program φ ε σ α := fun s => .ok (.ok (f s),s)

def update (f : σ → σ) : Program φ ε σ Unit := fun s => .ok (.ok (),f s)

def ofExcept (r : Except ε α) : Program φ ε σ α := fun s => .ok (r,s)

def attempt (x : Program φ ε σ α) : Program φ ε σ (Except ε α) := fun s =>
  match x s with
  | .error fault => .error fault
  | .ok (r,s') => .ok (.ok r,s')

theorem ofExcept_ok_bind (a : α) (f : α → Program φ ε σ β) :
    (ofExcept (.ok a) >>= f : Program φ ε σ β)=f a :=
  rfl

section Ensures

variable {F : Prop} {x : Program φ ε σ α} {f : α → Program φ ε σ β} {s : σ}

/-- The postcondition holds of the outcome and of the state after it; `F` says what is known if
there is a fault. -/
def Ensures (F : Prop) (x : Program φ ε σ α) (s : σ) (Q : Except ε α → σ → Prop) : Prop :=
  match x s with
  | .error _ => F
  | .ok (r,s') => Q r s'

theorem Ensures.mono {Q Q' : Except ε α → σ → Prop} (h : Ensures F x s Q)
    (hQ : ∀ r s',Q r s' → Q' r s') : Ensures F x s Q' := by
  unfold Ensures at h ⊢
  cases hx : x s with
  | error fault =>
    rw [hx] at h
    exact h
  | ok result =>
    rw [hx] at h
    exact hQ _ _ h

variable {r : Except ε α} {s' : σ} {a : α} {h : Except ε α → Program φ ε σ β} {e : ε}

theorem Ensures.of_eq {Q : Except ε α → σ → Prop}
    (h : Ensures F x s Q) (hx : x s=.ok (r,s')) : Q r s' := by
  unfold Ensures at h
  rw [hx] at h
  exact h

theorem ensures_of_eq {Q : Except ε α → σ → Prop}
    (hx : x s=.ok (r,s')) (hQ : Q r s') : Ensures F x s Q := by
  unfold Ensures
  rw [hx]
  exact hQ

theorem ensures_false {Q : Except ε α → σ → Prop} :
    Ensures False x s Q ↔ ∃ r s',x s=.ok (r,s') ∧ Q r s' := by
  unfold Ensures
  cases hx : x s with
  | error fault => simp
  | ok result =>
    obtain ⟨r,s'⟩:=result
    simp [and_assoc]

@[simp] theorem ensures_pure {Q : Except ε α → σ → Prop} :
    Ensures F (pure a : Program φ ε σ α) s Q ↔ Q (.ok a) s := Iff.rfl

@[simp] theorem ensures_read {g : σ → α} {Q : Except ε α → σ → Prop} :
    Ensures F (read g : Program φ ε σ α) s Q ↔ Q (.ok (g s)) s := Iff.rfl

theorem bind_apply : (x >>= f) s =
    match x s with
    | .error fault => .error fault
    | .ok (.error e,s') => .ok (.error e,s')
    | .ok (.ok a,s') => f a s' := rfl

theorem bind_assoc {γ : Type} {g : β → Program φ ε σ γ} :
    x >>= f >>= g=x >>= fun a => f a >>= g := by
  funext s
  rw [bind_apply,bind_apply,bind_apply]
  cases x s with
  | error fault => rfl
  | ok result =>
    obtain ⟨r,s'⟩:=result
    cases r with
    | error _ | ok _ => rfl

@[simp] theorem ensures_bind {Q : Except ε β → σ → Prop} :
    Ensures F (x >>= f) s Q ↔ Ensures F x s fun r s' =>
      match r with
      | .error e => Q (.error e) s'
      | .ok a => Ensures F (f a) s' Q := by
  unfold Ensures
  rw [bind_apply]
  cases hx : x s with
  | error fault => rfl
  | ok result =>
    obtain ⟨r,s'⟩:=result
    cases r with
    | error _ | ok _ => rfl

@[simp] theorem ensures_attempt {Q : Except ε (Except ε α) → σ → Prop} :
    Ensures F (attempt x) s Q ↔ Ensures F x s fun r s' => Q (.ok r) s' := by
  unfold Ensures attempt
  cases x s with
  | error _ | ok _ => rfl

end Ensures

section Keeps

variable {γ : Type} {g : σ → γ} {x : Program φ ε σ α} {f : α → Program φ ε σ β}

def Keeps (g : σ → γ) (x : Program φ ε σ α) : Prop := ∀ s,Ensures True x s fun _ s' => g s'=g s

theorem Keeps.ensures_bind {s : σ} {Q : Except ε β → σ → Prop} (hx : Keeps g x)
    (he : ∀ e s',g s'=g s → Q (.error e) s')
    (hok : ∀ a s',g s'=g s → Ensures True (f a) s' Q) : Ensures True (x >>= f) s Q := by
  rw [Program.ensures_bind]
  apply (hx s).mono
  intro r s' hs
  cases r with
  | error e => exact he e s' hs
  | ok a => exact hok a s' hs

theorem Keeps.ensures_attempt_bind {s : σ} {Q : Except ε β → σ → Prop} (hx : Keeps g x)
    (hok : ∀ r s',g s'=g s → Ensures True (h r) s' Q) :
    Ensures True (Program.attempt x >>= h) s Q := by
  rw [Program.ensures_bind,ensures_attempt]
  apply (hx s).mono
  intro r s' hs
  exact hok r s' hs

theorem Keeps.bind (hx : Keeps g x) (hf : ∀ a,Keeps g (f a)) : Keeps g (x >>= f) := by
  intro s
  apply hx.ensures_bind
  · exact fun _ _ hs => hs
  · intro a s' hs
    exact (hf a s').mono fun _ _ h => h.trans hs

theorem Keeps.attempt (hx : Keeps g x) : Keeps g (attempt x) := fun s => ensures_attempt.mpr (hx s)

theorem keeps_pure (a : α) : Keeps g (pure a : Program φ ε σ α) := fun _ => rfl

theorem keeps_fail (e : ε) : Keeps g (fail e : Program φ ε σ α) := fun _ => rfl

theorem keeps_crash (fault : φ) : Keeps g (crash fault : Program φ ε σ α) := fun _ => trivial

theorem keeps_read (h : σ → α) : Keeps g (read h : Program φ ε σ α) := fun _ => rfl

theorem keeps_update {h : σ → σ} (hg : ∀ s,g (h s)=g s) :
    Keeps g (update h : Program φ ε σ Unit) := hg

theorem keeps_ofExcept (r : Except ε α) : Keeps g (ofExcept r : Program φ ε σ α) := fun _ => rfl

end Keeps

section FailsWith

variable {B : ε → Prop} {x : Program φ ε σ α} {f : α → Program φ ε σ β}

def FailsWith (B : ε → Prop) (x : Program φ ε σ α) : Prop :=
  ∀ s,Ensures True x s fun r _ => ∀ e,r=.error e → B e

theorem Ensures.and {F : Prop} {s : σ} {Q Q' : Except ε α → σ → Prop} (h : Ensures F x s Q)
    (h' : Ensures F x s Q') : Ensures F x s fun r s' => Q r s' ∧ Q' r s' := by
  unfold Ensures at h h' ⊢
  cases hx : x s with
  | error fault =>
    rw [hx] at h
    exact h
  | ok result =>
    rw [hx] at h h'
    exact ⟨h,h'⟩

theorem FailsWith.bind (hx : FailsWith B x) (hf : ∀ a,FailsWith B (f a)) :
    FailsWith B (x >>= f) := by
  intro s
  rw [ensures_bind]
  apply (hx s).mono
  intro r s' hr
  cases r with
  | error e =>
    intro e' he'
    cases he'
    exact hr e rfl
  | ok a => exact hf a s'

theorem failsWith_pure (a : α) : FailsWith B (pure a : Program φ ε σ α) := fun _ _ he => nomatch he

theorem failsWith_fail (h : B e) : FailsWith B (fail e : Program φ ε σ α) := by
  intro s e' he'
  cases he'
  exact h

theorem failsWith_crash (fault : φ) : FailsWith B (crash fault : Program φ ε σ α) :=
  fun _ => trivial

theorem failsWith_read (h : σ → α) : FailsWith B (read h : Program φ ε σ α) :=
  fun _ _ he => nomatch he

end FailsWith

section Triple

variable {P P' : σ → Prop} {Q R : α → σ → Prop} {Q' : β → σ → Prop} {E E' : ε → σ → Prop}
  {x : Program φ ε σ α} {f : α → Program φ ε σ β}

/-- From a state with the precondition there is no fault, and there is a postcondition for a value
and one for a failure. -/
def Triple (P : σ → Prop) (x : Program φ ε σ α) (Q : α → σ → Prop) (E : ε → σ → Prop) : Prop :=
  ∀ s,P s → Ensures False x s fun r s' =>
    match r with
    | .ok a => Q a s'
    | .error e => E e s'

theorem Triple.mono (h : Triple P x Q E) (hP : ∀ s,P' s → P s) (hQ : ∀ a s,Q a s → R a s)
    (hE : ∀ e s,E e s → E' e s) : Triple P' x R E' := by
  intro s hs
  apply (h s (hP s hs)).mono
  intro r s' hr
  cases r with
  | error e => exact hE e s' hr
  | ok a => exact hQ a s' hr

theorem Triple.imp (h : Triple P x Q E) (hQ : ∀ a s,Q a s → R a s) (hE : ∀ e s,E e s → E' e s) :
    Triple P x R E' :=
  h.mono (fun _ hs => hs) hQ hE

theorem Triple.right {A : α → Prop} {B : ε → Prop}
    (h : Triple P x (fun a s => A a ∧ Q a s) fun e s => B e ∧ E e s) : Triple P x Q E :=
  h.imp (fun _ _ hs => hs.2) fun _ _ hs => hs.2

theorem Triple.bind (hx : Triple P x Q E) (hf : ∀ a,Triple (Q a) (f a) Q' E) :
    Triple P (x >>= f) Q' E := by
  intro s hs
  rw [ensures_bind]
  apply (hx s hs).mono
  intro r s' hr
  cases r with
  | error e => exact hr
  | ok a => exact hf a s' hr

theorem Triple.attempt_bind (hx : Triple P x Q E)
    (hok : ∀ a,Triple (Q a) (h (.ok a)) Q' E') (he : ∀ e,Triple (E e) (h (.error e)) Q' E') :
    Triple P (Program.attempt x >>= h) Q' E' := by
  intro s hs
  rw [ensures_bind,ensures_attempt]
  apply (hx s hs).mono
  intro r s' hr
  cases r with
  | error e => exact he e s' hr
  | ok a => exact hok a s' hr

theorem triple_pure (h : ∀ s,P s → Q a s) : Triple P (pure a : Program φ ε σ α) Q E := h

theorem triple_fail (h : ∀ s,P s → E e s) : Triple P (fail e : Program φ ε σ α) Q E := h

theorem triple_update {k : σ → σ} {Q : Unit → σ → Prop} (h : ∀ s,P s → Q () (k s)) :
    Triple P (update k : Program φ ε σ Unit) Q E := h

end Triple

section Similar

variable {R : σ → σ → Prop} {x y : Program φ ε σ α} {f g : α → Program φ ε σ β}

/-- The same fault, or the same outcome in related states. -/
def SameOutcome (R : σ → σ → Prop) : Except φ (Except ε α × σ) → Except φ (Except ε α × σ) → Prop
  | .error fault, .error fault' => fault=fault'
  | .ok (r,s), .ok (r',s') => r=r' ∧ R s s'
  | _, _ => False

/-- From related states, two programs do the same. -/
def Similar (R : σ → σ → Prop) (x y : Program φ ε σ α) : Prop :=
  ∀ s t,R s t → SameOutcome R (x s) (y t)

theorem SameOutcome.cases {x y : Except φ (Except ε α × σ)} (h : SameOutcome R x y) :
    (∃ fault,x=.error fault ∧ y=.error fault) ∨ ∃ r s t,x=.ok (r,s) ∧ y=.ok (r,t) ∧ R s t := by
  unfold SameOutcome at h
  split at h
  · exact .inl ⟨_,rfl,by rw [h]⟩
  · obtain ⟨rfl,hst⟩:=h
    exact .inr ⟨_,_,_,rfl,rfl,hst⟩
  · exact h.elim

theorem Similar.bind (hx : Similar R x y) (hf : ∀ a,Similar R (f a) (g a)) :
    Similar R (x >>= f) (y >>= g) := by
  intro s t hst
  rw [bind_apply,bind_apply]
  obtain ⟨fault,hxs,hyt⟩ | ⟨r,s',t',hxs,hyt,h⟩:=(hx s t hst).cases
  · rw [hxs,hyt]
    rfl
  · rw [hxs,hyt]
    cases r with
    | error e => exact ⟨rfl,h⟩
    | ok a => exact hf a s' t' h

theorem Similar.attempt (hx : Similar R x y) : Similar R (attempt x) (attempt y) := by
  intro s t hst
  unfold Program.attempt
  obtain ⟨fault,hxs,hyt⟩ | ⟨r,s',t',hxs,hyt,h⟩:=(hx s t hst).cases
  · rw [hxs,hyt]
    rfl
  · rw [hxs,hyt]
    exact ⟨rfl,h⟩

theorem similar_pure (a : α) : Similar R (pure a : Program φ ε σ α) (pure a) :=
  fun _ _ hst => ⟨rfl,hst⟩

theorem similar_fail (e : ε) : Similar R (fail e : Program φ ε σ α) (fail e) :=
  fun _ _ hst => ⟨rfl,hst⟩

theorem similar_crash (fault : φ) : Similar R (crash fault : Program φ ε σ α) (crash fault) :=
  fun _ _ _ => rfl

theorem similar_ofExcept (r : Except ε α) : Similar R (ofExcept r : Program φ ε σ α) (ofExcept r) :=
  fun _ _ hst => ⟨rfl,hst⟩

theorem similar_read {h : σ → α} (hR : ∀ s t,R s t → h s=h t) :
    Similar R (read h : Program φ ε σ α) (read h) :=
  fun s t hst => ⟨congrArg _ (hR s t hst),hst⟩

theorem similar_update {h h' : σ → σ} (hR : ∀ s t,R s t → R (h s) (h' t)) :
    Similar R (update h : Program φ ε σ Unit) (update h') :=
  fun s t hst => ⟨rfl,hR s t hst⟩

end Similar

end Program

end Fcp

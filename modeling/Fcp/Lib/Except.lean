import Mathlib.Data.List.Forall2

/-!
# Computations that may fail

A composed computation or a traversal returns exactly when each of its parts does.
-/

namespace Fcp

open List

variable {ε α β : Type}

@[simp] theorem ok_bind (a : α) (f : α → Except ε β) : (Except.ok a >>= f)=f a := rfl

@[simp] theorem error_bind (e : ε) (f : α → Except ε β) : (Except.error e >>= f)=.error e := rfl

variable {f : α → Except ε β} {b : β} {x : Except ε α} {p : Prop} {e : ε}

theorem bind_eq_ok : (x >>= f)=.ok b ↔ ∃ a,x=.ok a ∧ f a=.ok b := by
  cases x with
  | error _ | ok _ => simp

theorem pure_eq_ok {a b : α} : (pure a : Except ε α)=.ok b ↔ a=b := ⟨Except.ok.inj,fun h => h ▸ rfl⟩

theorem ite_eq_ok [Decidable p] {a b : α} :
    (if p then .ok a else .error e : Except ε α)=.ok b ↔ p ∧ b=a := by
  by_cases h : p
  · simp [h,eq_comm]
  · simp [h]

theorem guard_eq_ok [Decidable p] {a : α} : (if p then x else .error e)=.ok a ↔ p ∧ x=.ok a := by
  by_cases h : p <;> simp [h]

variable {l : List α} {r : List β}

theorem mapM_eq_ok : l.mapM f=.ok r ↔ List.Forall₂ (fun a b => f a=.ok b) l r := by
  induction l generalizing r with
  | nil =>
    rw [mapM_nil,pure_eq_ok,forall₂_nil_left_iff]
    exact eq_comm
  | cons a l ih =>
    simp only [mapM_cons,bind_eq_ok,pure_eq_ok,forall₂_cons_left_iff]
    constructor
    · rintro ⟨b,hb,bs,hbs,rfl⟩
      exact ⟨b,bs,hb,ih.mp hbs,rfl⟩
    · rintro ⟨b,bs,hb,hbs,rfl⟩
      exact ⟨b,hb,bs,ih.mpr hbs,rfl⟩

theorem mapM_congr {g : α → Except ε β} (h : ∀ a∈l,f a=g a) : l.mapM f=l.mapM g := by
  induction l with
  | nil => rfl
  | cons a l ih =>
    rw [mapM_cons,mapM_cons,h a mem_cons_self,ih fun x hx => h x (mem_cons_of_mem _ hx)]

variable {R : α → β → Prop}

theorem exists_forall₂ (h : ∀ a∈l,∃ b,R a b) : ∃ r,List.Forall₂ R l r := by
  induction l with
  | nil => exact ⟨[],.nil⟩
  | cons a l ih =>
    obtain ⟨b,hb⟩:=h a mem_cons_self
    obtain ⟨r,hr⟩:=ih fun x hx => h x (mem_cons_of_mem _ hx)
    exact ⟨b::r,.cons hb hr⟩

variable {a : α} {i : ℕ}

theorem forall₂_getElem_left (h : List.Forall₂ R l r) (ha : l[i]?=some a) :
    ∃ b,r[i]?=some b ∧ R a b := by
  obtain ⟨hi,rfl⟩:=List.getElem?_eq_some_iff.mp ha
  have hr : i<r.length := h.length_eq ▸ hi
  exact ⟨r[i],getElem?_eq_getElem hr,(forall₂_iff_get.mp h).2 i hi hr⟩

theorem forall₂_getElem_right (h : List.Forall₂ R l r) (hb : r[i]?=some b) :
    ∃ a,l[i]?=some a ∧ R a b := forall₂_getElem_left (R := flip R) (.flip h) hb

theorem forall₂_range {R : ℕ → β → Prop} {n : ℕ} (h : List.Forall₂ R (List.range n) r)
    (hb : r[i]?=some b) : R i b := by
  obtain ⟨j,hj,hR⟩:=forall₂_getElem_right h hb
  obtain ⟨_,rfl⟩:=List.getElem?_eq_some_iff.mp hj
  rwa [getElem_range] at hR

theorem length_of_mapM_eq_ok (h : l.mapM f=.ok r) : r.length=l.length :=
  (mapM_eq_ok.mp h).length_eq.symm

theorem mem_of_mapM_eq_ok (h : l.mapM f=.ok r) (hb : b∈r) : ∃ a∈l,f a=.ok b := by
  obtain ⟨i,hi,rfl⟩:=mem_iff_getElem.mp hb
  have hl : i<l.length := by rwa [← length_of_mapM_eq_ok h]
  exact ⟨l[i],getElem_mem hl,(forall₂_iff_get.mp (mapM_eq_ok.mp h)).2 i hl hi⟩

theorem exists_of_mapM_eq_ok (h : l.mapM f=.ok r) (ha : a∈l) : ∃ b∈r,f a=.ok b := by
  obtain ⟨i,hi,rfl⟩:=mem_iff_getElem.mp ha
  have hr : i<r.length := by rwa [length_of_mapM_eq_ok h]
  exact ⟨r[i],getElem_mem hr,(forall₂_iff_get.mp (mapM_eq_ok.mp h)).2 i hi hr⟩

end Fcp

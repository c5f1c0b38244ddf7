import Mathlib.Data.List.Perm.Basic

/-!
# Lists in which one element changes
-/

namespace Fcp

open List

variable {α β : Type} {l : List α} {i : ℕ} {a : α}

theorem set_eq_append (h : l[i]?=some a) (b : α) :
    ∃ before after,l=before++a::after ∧ l.set i b=before++b::after := by
  induction l generalizing i with
  | nil => cases h
  | cons x l ih =>
    cases i with
    | zero =>
      cases h
      exact ⟨[],l,rfl,rfl⟩
    | succ i =>
      obtain ⟨before,after,hl,hs⟩:=ih h
      refine ⟨x::before,after,congrArg (x::·) hl,?_⟩
      rw [set_cons_succ,hs]
      rfl

theorem countP_set_add (h : l[i]?=some a) (b : α) (p : α → Bool) :
    (l.set i b).countP p+(if p a then 1 else 0)=l.countP p + if p b then 1 else 0 := by
  obtain ⟨before,after,hl,hs⟩:=set_eq_append h b
  rw [hs,hl]
  simp only [countP_append,countP_cons]
  omega

/-- The parts of the old and of the new element change places. -/
theorem flatMap_set_perm (h : l[i]?=some a) (b : α) (f : α → List β) :
    (f a++(l.set i b).flatMap f).Perm (f b++l.flatMap f) := by
  obtain ⟨before,after,hl,hset⟩:=set_eq_append h b
  rw [hset,hl]
  simp only [flatMap_append,flatMap_cons]
  have hf:=perm_append_comm_assoc (f a) (before.flatMap f) (f b++after.flatMap f)
  have hs:=(perm_append_comm_assoc (f a) (f b) (after.flatMap f)).append_left (before.flatMap f)
  have hlast:=perm_append_comm_assoc (before.flatMap f) (f b) (f a++after.flatMap f)
  exact (hf.trans hs).trans hlast

variable {b : α} {f : α → List β}

theorem flatMap_set_add (h : l[i]?=some a) {more : List β}
    (hf : f b=more++f a) : ((l.set i b).flatMap f).Perm (more++l.flatMap f) := by
  obtain ⟨before,after,hl,hs⟩:=set_eq_append h b
  rw [hs,hl]
  simp only [flatMap_append,flatMap_cons,hf,append_assoc]
  exact perm_append_comm_assoc _ _ _

theorem flatMap_set_drop (h : l[i]?=some a) {less : List β}
    (hf : f a=less++f b) : (l.flatMap f).Perm (less++(l.set i b).flatMap f) := by
  obtain ⟨before,after,hl,hs⟩:=set_eq_append h b
  rw [hs,hl]
  simp only [flatMap_append,flatMap_cons,hf,append_assoc]
  exact perm_append_comm_assoc _ _ _

theorem getElem?_set_of_some (h : l[i]?=some a) (b : α) (j : ℕ) :
    (l.set i b)[j]? = if j=i then some b else l[j]? := by
  obtain ⟨hi,-⟩:=List.getElem?_eq_some_iff.mp h
  rw [getElem?_set]
  by_cases hj : j=i
  · simp [hj,hi]
  · simp [hj,Ne.symm hj]

end Fcp

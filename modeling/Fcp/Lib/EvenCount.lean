import Mathlib.Algebra.BigOperators.Ring.Finset
import Mathlib.Data.Nat.Nth
import Mathlib.Data.Nat.Periodic

/-!
# Values taken equally often

A function on a finite type takes each of the values below a bound equally often. Digits put side
by side keep this property, and so does dropping values.
-/

namespace Fcp

open Finset

variable {α β : Type} [Fintype α] [Fintype β]

/-- The values are below `n`, and each number below `n` is the value of `c` arguments. -/
structure EvenlyValued (f : α → ℕ) (n c : ℕ) : Prop where
  lt (x : α) : f x<n
  card_eq (v : ℕ) (hv : v<n) : Fintype.card {x // f x=v}=c

namespace EvenlyValued
variable {f : α → ℕ} {g : β → ℕ} {n m c e : ℕ}

theorem card_where (h : EvenlyValued f n c) (p : ℕ → Prop) [DecidablePred p] :
    Fintype.card {x // p (f x)}=c*#{v∈range n | p v} := by
  have hm : ∀ x∈({x | p (f x)} : Finset α), f x∈({v∈range n | p v} : Finset ℕ) := by
    intro x hx
    rw [mem_filter] at hx ⊢
    exact ⟨mem_range.mpr (h.lt x),hx.2⟩
  have hf : ∀ v∈({v∈range n | p v} : Finset ℕ),#{x∈({x | p (f x)} : Finset α) | f x=v}=c := by
    intro v hv
    rw [mem_filter,mem_range] at hv
    rw [← h.card_eq v hv.1,Fintype.card_subtype,filter_filter]
    congr 1
    apply filter_congr
    intro x _
    exact ⟨And.right,fun heq => ⟨heq ▸ hv.2,heq⟩⟩
  rw [Fintype.card_subtype,card_eq_sum_card_fiberwise hm,sum_congr rfl hf,sum_const,
    smul_eq_mul,Nat.mul_comm]

theorem card_univ_eq (h : EvenlyValued f n c) : Fintype.card α=c*n := by
  have ha:=h.card_where fun _ => True
  simpa using ha

theorem comp_equiv (h : EvenlyValued f n c) (equiv : β ≃ α) : EvenlyValued (f ∘ equiv) n c where
  lt x := h.lt (equiv x)
  card_eq v hv := by
    rw [← h.card_eq v hv]
    exact Fintype.card_congr (equiv.subtypeEquiv fun _ => Iff.rfl)

theorem pair (hf : EvenlyValued f n c) (hg : EvenlyValued g m e) (hm : 0 < m) :
    EvenlyValued (fun x : α × β => m*f x.1+g x.2) (m*n) (c*e) where
  lt x := by
    have hh:=hf.lt x.1
    have hl:=hg.lt x.2
    calc m*f x.1+g x.2 < m*f x.1+m := by omega
      _=m*(f x.1+1) := (Nat.mul_succ _ _).symm
      _ ≤ m*n := Nat.mul_le_mul_left m hh
  card_eq v hv := by
    have hd (x : α × β) : m*f x.1+g x.2=v ↔ f x.1=v/m ∧ g x.2=v%m := by
      have hl:=hg.lt x.2
      constructor
      · intro heq
        rw [← heq,Nat.mul_add_div hm,Nat.div_eq_of_lt hl,Nat.mul_add_mod,Nat.mod_eq_of_lt hl]
        exact ⟨rfl,rfl⟩
      · intro ⟨hh,hr⟩
        rw [hh,hr,Nat.div_add_mod]
    rw [← hf.card_eq (v/m) ((Nat.div_lt_iff_lt_mul hm).mpr (Nat.mul_comm m n ▸ hv)),
      ← hg.card_eq (v%m) (Nat.mod_lt v hm)]
    simp only [hd,Fintype.card_subtype,← card_product,← filter_product]
    rfl

end EvenlyValued

/-- Of the numbers from `t` on, `q` times `m` many, `q` have a given residue. -/
theorem card_residue (m t q r : ℕ) (hr : r < m) : #{v∈range (t+q*m) | t≤v ∧ v%m=r}=q := by
  induction q with
  | zero =>
    rw [Nat.zero_mul,Nat.add_zero,card_eq_zero,filter_eq_empty_iff]
    intro v hv
    rw [mem_range] at hv
    omega
  | succ q ih =>
    have hs : ({v∈range (t+(q+1)*m) | t≤v ∧ v%m=r} : Finset ℕ) =
        {v∈range (t+q*m) | t≤v ∧ v%m=r} ∪
          {v∈Ico (t+q*m) (t+q*m+m) | v%m=r} := by
      ext v
      simp only [mem_union,mem_filter,mem_range,mem_Ico,Nat.succ_mul]
      omega
    have hd : Disjoint ({v∈range (t+q*m) | t≤v ∧ v%m=r} : Finset ℕ)
        ({v∈Ico (t+q*m) (t+q*m+m) | v%m=r} : Finset ℕ) := by
      rw [disjoint_left]
      intro v hl hh
      simp only [mem_filter,mem_range,mem_Ico] at hl hh
      omega
    have hp : #{v∈Ico (t+q*m) (t+q*m+m) | v%m=r}=1 := by
      rw [Nat.filter_Ico_card_eq_of_periodic _ _ _ fun v => by rw [Nat.add_mod_right],
        Nat.count_eq_card_filter_range,card_eq_one]
      refine ⟨r,?_⟩
      ext v
      rw [mem_filter,mem_range,mem_singleton]
      constructor
      · intro ⟨hlt,heq⟩
        rwa [Nat.mod_eq_of_lt hlt] at heq
      · intro heq
        rw [heq]
        exact ⟨hr,Nat.mod_eq_of_lt hr⟩
    rw [hs,card_union_of_disjoint hd,ih,hp]

theorem EvenlyValued.mod {f : α → ℕ} {m q c : ℕ} (h : EvenlyValued f (m*q) c) (hm : 0 < m) :
    EvenlyValued (fun x => f x%m) m (c*q) where
  lt x := Nat.mod_lt _ hm
  card_eq v hv := by
    have hr:=card_residue m 0 q v hv
    simp only [Nat.zero_add,Nat.zero_le,true_and,Nat.mul_comm q m] at hr
    rw [h.card_where fun x => x%m=v,hr]

section Kept
variable {γ : Type} (g : α → Option γ)

/-- The values of the draws, without those that `g` drops. -/
def kept {k : ℕ} (draws : Fin k → α) : List γ := (List.ofFn draws).filterMap g

omit [Fintype α] in
theorem kept_cons {k : ℕ} (x : α) (draws : Fin k → α) : kept g (Fin.cons x draws) =
    match g x with
    | none => kept g draws
    | some r => r::kept g draws := by
  rw [kept,List.ofFn_cons,List.filterMap_cons]
  rfl

variable [DecidableEq γ]

/-- How many sequences of `k` draws have `r` at place `i` of what is kept. -/
def numKept (k i : ℕ) (r : γ) : ℕ := Fintype.card {draws : Fin k → α // (kept g draws)[i]?=some r}

theorem numKept_succ (k i : ℕ) (r : γ) : numKept g (k+1) i r =
    ∑ x : α, Fintype.card {draws : Fin k → α // (kept g (Fin.cons x draws))[i]?=some r} := by
  rw [numKept,← Fintype.card_sigma]
  apply Fintype.card_congr
  exact {
    toFun := fun p => ⟨p.1 0,Fin.tail p.1,by rw [Fin.cons_self_tail]; exact p.2⟩
    invFun := fun p => ⟨Fin.cons p.1 p.2.1,p.2.2⟩
    left_inv := fun p => Subtype.ext (Fin.cons_self_tail p.1)
    right_inv := fun p => by
      obtain ⟨x,draws,h⟩:=p
      rfl }

theorem card_first (k : ℕ) (x : α) (r : γ) :
    Fintype.card {draws : Fin k → α // (kept g (Fin.cons x draws))[0]?=some r} =
      (if g x=none then numKept g k 0 r else 0) +
        (if g x=some r then Fintype.card (Fin k → α) else 0) := by
  simp only [kept_cons,numKept]
  cases hx : g x with
  | none => simp
  | some s => by_cases hs : s=r <;> simp [hs]

theorem card_later (k i : ℕ) (x : α) (r : γ) :
    Fintype.card {draws : Fin k → α // (kept g (Fin.cons x draws))[i+1]?=some r} =
      if g x=none then numKept g k (i+1) r else numKept g k i r := by
  simp only [kept_cons,numKept]
  cases hx : g x with
  | none | some _ => simp

theorem numKept_eq {r r' : γ}
    (h : Fintype.card {x // g x=some r}=Fintype.card {x // g x=some r'}) (k i : ℕ) :
    numKept g k i r=numKept g k i r' := by
  induction k generalizing i with
  | zero => simp [numKept,kept]
  | succ k ih =>
    rw [numKept_succ,numKept_succ]
    cases i with
    | zero =>
      rw [Fintype.card_subtype,Fintype.card_subtype] at h
      simp only [card_first,sum_add_distrib,ih 0]
      simp only [← sum_filter,sum_const,h]
    | succ i => simp only [card_later,ih]

end Kept

theorem getElem?_filterMap_range {γ : Type} (p : ℕ → Prop) [DecidablePred p] (f : ℕ → γ)
    (k i : ℕ) : ((List.range k).filterMap fun t => if p t then some (f t) else none)[i]? =
      if i<Nat.count p k then some (f (Nat.nth p i)) else none := by
  have hl (k : ℕ) : ((List.range k).filterMap fun t => if p t then some (f t) else none).length =
        Nat.count p k := by
    induction k with
    | zero => rfl
    | succ k ih =>
      rw [List.range_succ,List.filterMap_append,List.length_append,ih,Nat.count_succ]
      by_cases hk : p k <;> simp [hk]
  induction k with
  | zero => simp
  | succ k ih =>
    rw [List.range_succ,List.filterMap_append,List.getElem?_append,hl,ih,Nat.count_succ]
    by_cases hlt : i<Nat.count p k
    · rw [if_pos hlt,if_pos hlt,if_pos (by omega)]
    · rw [if_neg hlt]
      by_cases hk : p k
      · rw [if_pos hk]
        by_cases hi : i=Nat.count p k
        · simp [hi,hk,Nat.nth_count]
        · have hp : 0 < i-Nat.count p k := by omega
          rw [if_neg (by omega),List.getElem?_eq_none]
          simp [hk]
          omega
      · simp [hk,hlt]

end Fcp

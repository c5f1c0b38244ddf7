import Mathlib.Algebra.BigOperators.Ring.Finset
import Mathlib.Data.Set.Card

/-!
# Tallies

The number of indices whose value satisfies a test, and how it follows a change of one value.
-/

namespace Fcp

open List

variable {ι σ : Type} [Fintype ι]

def tally (p : σ → Bool) (f : ι → σ) : ℤ := (Finset.univ.filter fun i => p (f i)=true).card

theorem tally_eq_sum (p : σ → Bool) (f : ι → σ) : tally p f=∑ i, (p (f i)).toInt := by
  rw [tally,Finset.card_filter,Nat.cast_sum]
  apply Finset.sum_congr rfl
  intro i _
  cases p (f i) <;> rfl

theorem tally_update [DecidableEq ι] (p : σ → Bool) (f : ι → σ) (i : ι) (x : σ) :
    tally p (Function.update f i x)=tally p f-(p (f i)).toInt+(p x).toInt := by
  have ho : ∑ j∈Finset.univ.erase i, (p (Function.update f i x j)).toInt =
      ∑ j∈Finset.univ.erase i, (p (f j)).toInt := by
    refine Finset.sum_congr rfl fun j hj => ?_
    rw [Function.update_of_ne (Finset.ne_of_mem_erase hj)]
  rw [tally_eq_sum,tally_eq_sum,← Finset.add_sum_erase _ _ (Finset.mem_univ i),
    ← Finset.add_sum_erase Finset.univ (fun j => (p (f j)).toInt) (Finset.mem_univ i),ho,
    Function.update_self]
  omega

variable {p q : σ → Bool} {f : ι → σ}

theorem tally_congr (h : ∀ i,p (f i)=q (f i)) : tally p f=tally q f := by
  simp only [tally,h]

theorem tally_mono (h : ∀ i,p (f i)=true → q (f i)=true) : tally p f≤tally q f := by
  rw [tally,tally,Int.ofNat_le]
  exact Finset.card_le_card fun i hi => by simpa using h i (by simpa using hi)

theorem tally_eq_zero (h : ∀ i,p (f i)=false) : tally p f=0 := by
  simp [tally,h]

variable {S : Set ι} {r : σ → Bool}

theorem tally_le_ncard (h : ∀ i,p (f i)=true → i∈S) : tally p f≤S.ncard := by
  rw [tally,Int.ofNat_le,← Set.ncard_coe_finset]
  refine Set.ncard_le_ncard ?_ S.toFinite
  intro i hi
  exact h i (by simpa using hi)

theorem tally_eq_ncard (h : ∀ i,p (f i)=true ↔ i∈S) : tally p f=S.ncard := by
  rw [tally,← Set.ncard_coe_finset]
  congr 2
  ext i
  simpa using h i

theorem tally_complement (h : ∀ i,(p (f i)).toInt+(q (f i)).toInt+(r (f i)).toInt=1) :
    Fintype.card ι-tally p f-tally q f=tally r f := by
  have hs : tally p f+tally q f+tally r f=Fintype.card ι := by
    rw [tally_eq_sum,tally_eq_sum,tally_eq_sum,← Finset.sum_add_distrib,
      ← Finset.sum_add_distrib,Finset.sum_congr rfl fun i _ => h i]
    simp
  omega

theorem tally_sub (h : ∀ i,(p (f i)).toInt-(q (f i)).toInt=(r (f i)).toInt) :
    tally p f-tally q f=tally r f := by
  rw [tally_eq_sum,tally_eq_sum,tally_eq_sum,← Finset.sum_sub_distrib,
    Finset.sum_congr rfl fun i _ => h i]

variable {α : Type}

theorem count_eq_countP_range [DecidableEq α] (l : List α) (a : α) :
    l.count a=(List.range l.length).countP fun i => l[i]?=some a := by
  induction l with
  | nil => rfl
  | cons x l ih =>
    rw [count_cons,length_cons,range_succ_eq_map,countP_cons,countP_map,ih]
    congr 1
    simp

variable {l : List α} {a : α}

theorem count_eq_length [DecidableEq α] {positions : List ℕ} (hn : positions.Nodup)
    (hm : ∀ i,i∈positions ↔ l[i]?=some a) : l.count a=positions.length := by
  rw [count_eq_countP_range,countP_eq_length_filter]
  refine List.Perm.length_eq ((perm_ext_iff_of_nodup (nodup_range.filter _) hn).mpr fun i => ?_)
  rw [hm,mem_filter,mem_range]
  constructor
  · exact fun h => of_decide_eq_true h.2
  · exact fun h => ⟨(List.getElem?_eq_some_iff.mp h).1,decide_eq_true h⟩

variable {i : ℕ}

theorem perm_of_getElem? (h : l[i]?=some a) : l.Perm (a::l.eraseIdx i) := by
  obtain ⟨hi,rfl⟩:=List.getElem?_eq_some_iff.mp h
  exact (getElem_cons_eraseIdx_perm hi).symm

theorem set_perm_of_getElem? (h : l[i]?=some a) (b : α) : (l.set i b).Perm (b::l.eraseIdx i) := by
  obtain ⟨hi,rfl⟩:=List.getElem?_eq_some_iff.mp h
  exact set_perm_cons_eraseIdx hi b

end Fcp

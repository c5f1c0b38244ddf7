import Mathlib.Data.ZMod.Basic
import Mathlib.Tactic.LinearCombination
import Mathlib.Tactic.Ring

/-!
# Sums kept in a register that is too small

A residue modulo `p` is accumulated in a register that counts modulo `w`. Each overflow before the
reduction moves the result by `w`.
-/

namespace Fcp.Lib

open List

def addWrapping (p w acc term : ℕ) : ℕ := (acc+term)%w%p

def wrappingSum (p w acc : ℕ) (terms : List ℕ) : ℕ := terms.foldl (addWrapping p w) acc

/-- How often the register overflows on the way. -/
def overflows (p w : ℕ) : ℕ → List ℕ → ℕ
  | _, [] => 0
  | acc, term::terms =>
    (acc+term)/w+overflows p w (addWrapping p w acc term) terms

theorem addWrapping_lt {p w acc term : ℕ} (hp : 0<p) : addWrapping p w acc term<p := Nat.mod_lt _ hp

theorem wrappingSum_lt {p w acc : ℕ} (hp : 0<p) (ha : acc<p) (terms : List ℕ) :
    wrappingSum p w acc terms<p := by
  induction terms generalizing acc with
  | nil => exact ha
  | cons term terms ih => exact ih (addWrapping_lt hp)

theorem cast_wrappingSum (p w acc : ℕ) (terms : List ℕ) : (wrappingSum p w acc terms : ZMod p) =
      acc+(terms.map fun t : ℕ => (t : ZMod p)).sum-w*overflows p w acc terms := by
  induction terms generalizing acc with
  | nil => simp [wrappingSum,overflows]
  | cons term terms ih =>
    have hs : ((addWrapping p w acc term : ℕ) : ZMod p)=acc+term-w*((acc+term)/w : ℕ) := by
      have h : (((acc+term)%w : ℕ) : ZMod p)+w*((acc+term)/w : ℕ)=acc+term := by
        exact_mod_cast congrArg (Nat.cast : ℕ → ZMod p) (Nat.mod_add_div (acc+term) w)
      rw [addWrapping,ZMod.natCast_mod]
      linear_combination h
    have ih':=ih (addWrapping p w acc term)
    rw [wrappingSum,foldl_cons,← wrappingSum,ih',hs,overflows,map_cons,sum_cons]
    push_cast
    ring

/-- Right after an overflow the register is too low to overflow again. -/
theorem overflows_le (p w : ℕ) (hp : 0<p) (hw : p≤w) (h3 : 3*p<2*w+3)
    (acc : ℕ) (ha : acc<p) (terms : List ℕ) (ht : ∀ t∈terms,t<p) :
    2*overflows p w acc terms≤terms.length+1 ∧
      (acc+p≤w → 2*overflows p w acc terms≤terms.length) := by
  induction terms generalizing acc with
  | nil => simp [overflows]
  | cons term terms ih =>
    have htp : term<p := ht term (mem_cons_self ..)
    have ih':=ih (addWrapping p w acc term) (addWrapping_lt hp)
      (fun t h => ht t (mem_cons_of_mem _ h))
    rw [overflows,length_cons]
    by_cases hov : acc+term<w
    · rw [Nat.div_eq_of_lt hov]
      omega
    · have hq : (acc+term)/w=1 := by
        rw [Nat.div_eq_iff (by omega)]
        omega
      have hr : addWrapping p w acc term≤acc+term-w := by
        have hm : (acc+term)%w=acc+term-w := by
          rw [Nat.mod_eq_sub_mod (by omega),Nat.mod_eq_of_lt (by omega)]
        rw [addWrapping,hm]
        exact Nat.mod_le _ _
      rw [hq]
      omega

end Fcp.Lib

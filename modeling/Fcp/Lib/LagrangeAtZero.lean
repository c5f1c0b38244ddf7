import Mathlib.LinearAlgebra.Lagrange

/-!
# Interpolation at zero

The value at zero of a polynomial of degree below `t` from its values at `t` distinct points, with
the weights as products of quotients.
-/

namespace Fcp.Lib
open Finset Polynomial

variable {K : Type*} [Field K] (x : ℕ → K) (cs : List K)

/-- Weight of the point `x i` among `x 0, …, x (t - 1)`. -/
noncomputable def weightAtZero (t i : ℕ) : K := ∏ j∈range t, if i=j then 1 else x j*(x j-x i)⁻¹

/-- Horner evaluation from the highest coefficient down. -/
def horner (x : K) : List K → K
  | [] => 0
  | c::cs => c+x*horner x cs

/-- The polynomial with the given coefficients, constant term first. -/
noncomputable def ofCoefficients : List K → K[X]
  | [] => 0
  | c::cs => C c+X*ofCoefficients cs

theorem eval_ofCoefficients (x : K) (cs : List K) : (ofCoefficients cs).eval x=horner x cs := by
  induction cs with
  | nil => simp [ofCoefficients,horner]
  | cons c cs ih => simp [ofCoefficients,horner,ih]

theorem degree_ofCoefficients_lt : (ofCoefficients cs).degree<cs.length := by
  induction cs with
  | nil => simp [ofCoefficients]
  | cons c cs ih =>
    rw [ofCoefficients,List.length_cons]
    refine lt_of_le_of_lt (degree_add_le _ _) (max_lt ?_ ?_)
    · refine lt_of_le_of_lt degree_C_le ?_
      exact_mod_cast Nat.succ_pos _
    · rw [degree_mul,degree_X,add_comm]
      push_cast
      exact (WithBot.add_lt_add_iff_right (by simp)).mpr ih

theorem eval_basis_zero (t i : ℕ) (hi : i∈range t) :
    (Lagrange.basis (range t) x i).eval 0=weightAtZero x t i := by
  rw [Lagrange.basis,eval_prod,weightAtZero,← mul_prod_erase _ _ hi,if_pos rfl,one_mul]
  refine prod_congr rfl fun j hj => ?_
  have hij : i≠j := (ne_of_mem_erase hj).symm
  rw [if_neg hij,Lagrange.basisDivisor,eval_mul,eval_C,eval_sub,eval_X,eval_C,zero_sub,
    ← neg_sub (x j) (x i),inv_neg]
  ring

theorem sum_horner_mul_weightAtZero (hx : Set.InjOn x (range cs.length)) :
    ∑ i∈range cs.length, horner (x i) cs*weightAtZero x cs.length i=horner 0 cs := by
  have hd : (ofCoefficients cs).degree<#(range cs.length) := by
    rw [card_range]
    exact degree_ofCoefficients_lt cs
  have h:=Lagrange.eq_interpolate_of_eval_eq (fun i => (ofCoefficients cs).eval (x i)) hx hd
    (fun _ _ => rfl)
  calc ∑ i∈range cs.length, horner (x i) cs*weightAtZero x cs.length i
      = ∑ i∈range cs.length,
          (ofCoefficients cs).eval (x i)*(Lagrange.basis (range cs.length) x i).eval 0 := by
        refine sum_congr rfl fun i hi => ?_
        rw [eval_ofCoefficients,eval_basis_zero x _ i hi]
    _=(ofCoefficients cs).eval 0 := by
        conv_rhs => rw [h]
        simp [Lagrange.interpolate_apply,eval_finsetSum]
    _=horner 0 cs := eval_ofCoefficients 0 cs

end Fcp.Lib

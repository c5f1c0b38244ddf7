import Mathlib.Probability.Moments.SubGaussian
import Mathlib.Probability.Distributions.Bernoulli

/-!
# Samples without replacement

A sample of size `k` is drawn from `m` marked and `u` other elements; `below` counts the samples
with fewer than a given number of marked elements.
-/

namespace Fcp.Hypergeometric

open Finset

def below (m u k x : ℕ) : ℕ := ∑ p∈antidiagonal k, if p.1<x then m.choose p.1*u.choose p.2 else 0

theorem below_zero (m u k : ℕ) : below m u k 0=0 := by simp [below]

theorem below_succ (m u k x : ℕ) :
    below m u k (x+1)=below m u k x + if x≤k then m.choose x*u.choose (k-x) else 0 := by
  have ht : ∀ p : ℕ × ℕ,(if p.1<x+1 then m.choose p.1*u.choose p.2 else 0) =
      (if p.1<x then m.choose p.1*u.choose p.2 else 0) +
        if p.1=x then m.choose p.1*u.choose p.2 else 0 := by
    intro p
    obtain hlt | heq | hgt:=Nat.lt_trichotomy p.1 x
    · simp [hlt,Nat.lt_succ_of_lt hlt,hlt.ne]
    · simp [heq]
    · simp [hgt.ne',Nat.not_lt_of_gt hgt,show ¬ p.1<x+1 by omega]
  simp only [below,ht,sum_add_distrib]
  congr 1
  rw [Nat.sum_antidiagonal_eq_sum_range_succ_mk]
  simp

variable {k x : ℕ}

theorem below_of_lt (m u : ℕ) (hx : k<x) : below m u k x=(m+u).choose k := by
  rw [below,Nat.add_choose_eq]
  apply sum_congr rfl
  intro p hp
  have hs:=mem_antidiagonal.mp hp
  rw [if_pos (by omega)]

theorem below_mono (m u k : ℕ) : Monotone (below m u k) := by
  apply monotone_nat_of_le_succ
  intro x
  rw [below_succ]
  exact Nat.le_add_right _ _

theorem below_add_below (m u : ℕ) (hx : x≤k+1) :
    below m u k x+below u m k (k+1-x)=(m+u).choose k := by
  rw [Nat.add_choose_eq,below,below,← Nat.sum_antidiagonal_swap (n := k)
    (f := fun p => if p.1<k+1-x then u.choose p.1*m.choose p.2 else 0),
    ← sum_add_distrib]
  apply sum_congr rfl
  intro p hp
  have hs:=mem_antidiagonal.mp hp
  by_cases hlt : p.1<x
  · rw [if_pos hlt,Prod.fst_swap,if_neg (by omega),Nat.add_zero]
  · rw [if_neg hlt,Prod.fst_swap,if_pos (by omega),Nat.zero_add,Prod.snd_swap,Nat.mul_comm]

theorem below_succ_marked (m u k x : ℕ) :
    below (m+1) u (k+1) (x+1)=below m u (k+1) (x+1)+below m u k x := by
  simp only [below,Nat.sum_antidiagonal_succ,Nat.choose_succ_succ,Nat.choose_zero_right,
    Nat.succ_lt_succ_iff,add_assoc,← sum_add_distrib]
  congr 1
  apply sum_congr rfl
  intro p _
  by_cases hp : p.1<x
  · simp [hp]
    ring
  · simp [hp]

theorem below_succ_other (m u k x : ℕ) : below m (u+1) (k+1) x=below m u (k+1) x+below m u k x := by
  simp only [below,Nat.sum_antidiagonal_succ',Nat.choose_succ_succ,Nat.choose_zero_right,
    add_assoc,← sum_add_distrib]
  congr 1
  apply sum_congr rfl
  intro p _
  by_cases hp : p.1<x
  · simp [hp]
    ring
  · simp [hp]

theorem below_succ_le (m u k x : ℕ) : below (m+1) u k x ≤ below m (u+1) k x := by
  cases k with
  | zero => simp [below]
  | succ k =>
    cases x with
    | zero => simp [below_zero]
    | succ x =>
      rw [below_succ_marked,below_succ_other]
      exact Nat.add_le_add_left (below_mono m u k (Nat.le_succ x)) _

theorem below_add_le (m u k x d : ℕ) : below (m+d) u k x ≤ below m (u+d) k x := by
  induction d generalizing u with
  | zero => exact Nat.le_refl _
  | succ d ih =>
    calc below (m+d+1) u k x ≤ below (m+d) (u+1) k x := below_succ_le ..
      _ ≤ below m (u+1+d) k x := ih (u+1)
      _=below m (u+(d+1)) k x := by rw [Nat.add_assoc,Nat.add_comm 1 d]

/-! ### Moments

The binomial moments of the number of marked elements are at most those of draws with
replacement, and so is then every generating function with an argument above one. -/

theorem sum_antidiagonal_shift (f : ℕ × ℕ → ℕ) (k r : ℕ) (hf : ∀ p,p.1<r → f p=0) :
    ∑ p∈antidiagonal (k+r), f p=∑ p∈antidiagonal k, f (p.1+r,p.2) := by
  induction r generalizing f with
  | zero => rfl
  | succ r ih =>
    rw [← Nat.add_assoc,Nat.sum_antidiagonal_succ,hf _ (Nat.succ_pos r),Nat.zero_add]
    exact ih (fun p => f (p.1+1,p.2)) fun p hp => hf _ (Nat.succ_lt_succ hp)

theorem sum_choose_mul_choose_mul_choose (m u : ℕ) {r : ℕ} (hr : r≤k) :
    ∑ p∈antidiagonal k, m.choose p.1*u.choose p.2*p.1.choose r =
      m.choose r*(m-r+u).choose (k-r) := by
  obtain ⟨k,rfl⟩:=Nat.exists_eq_add_of_le' hr
  rw [sum_antidiagonal_shift _ k r fun p hp => by rw [Nat.choose_eq_zero_of_lt hp,Nat.mul_zero],
    Nat.add_sub_cancel,Nat.add_choose_eq,mul_sum]
  apply sum_congr rfl
  intro p _
  have hc : m.choose (p.1+r)*(p.1+r).choose r=m.choose r*(m-r).choose p.1 := by
    rw [Nat.choose_mul (Nat.le_add_left r p.1),Nat.add_sub_cancel]
  calc m.choose (p.1+r)*u.choose p.2*(p.1+r).choose r
      = m.choose (p.1+r)*(p.1+r).choose r*u.choose p.2 := by ring
    _=m.choose r*((m-r).choose p.1*u.choose p.2) := by rw [hc]; ring

theorem choose_mul_pow_le {m n : ℕ} (hmn : m≤n) (r : ℕ) : m.choose r*n^r≤n.choose r*m^r := by
  induction r with
  | zero => simp
  | succ r ih =>
    have hs : (m-r)*n≤(n-r)*m := by
      rw [Nat.sub_mul,Nat.sub_mul,Nat.mul_comm n m]
      exact Nat.sub_le_sub_left (Nat.mul_le_mul_left r hmn) _
    apply Nat.le_of_mul_le_mul_right _ (Nat.succ_pos r)
    calc m.choose (r+1)*n^(r+1)*(r+1)
        = m.choose (r+1)*(r+1)*n^(r+1) := by ring
      _=m.choose r*n^r*((m-r)*n) := by rw [Nat.choose_succ_right_eq]; ring
      _≤n.choose r*m^r*((n-r)*m) := Nat.mul_le_mul ih hs
      _=n.choose (r+1)*(r+1)*m^(r+1) := by rw [Nat.choose_succ_right_eq]; ring
      _=n.choose (r+1)*m^(r+1)*(r+1) := by ring

theorem moment_le (m u : ℕ) {r : ℕ} (hr : r≤k) : m.choose r*(m-r+u).choose (k-r)*(m+u)^r ≤
      (m+u).choose k*k.choose r*m^r := by
  by_cases hm : r ≤ m
  · have hs : m-r+u=m+u-r := by omega
    calc m.choose r*(m-r+u).choose (k-r)*(m+u)^r
        = m.choose r*(m+u)^r*(m+u-r).choose (k-r) := by rw [hs]; ring
      _≤(m+u).choose r*m^r*(m+u-r).choose (k-r) :=
          Nat.mul_le_mul_right _ (choose_mul_pow_le (Nat.le_add_right m u) r)
      _=(m+u).choose k*k.choose r*m^r := by rw [Nat.choose_mul hr]; ring
  · rw [Nat.choose_eq_zero_of_lt (Nat.lt_of_not_le hm),Nat.zero_mul,Nat.zero_mul]
    exact Nat.zero_le _

theorem one_add_pow_eq {i : ℕ} (hi : i≤k) (z : ℝ) :
    (1+z)^i=∑ r∈range (k+1), (i.choose r : ℝ)*z^r := by
  rw [add_comm,add_pow,sum_subset (range_subset_range.mpr (Nat.succ_le_succ hi))]
  · apply sum_congr rfl
    intro r _
    rw [one_pow]
    ring
  · intro r _ hr
    rw [Nat.choose_eq_zero_of_lt (by simpa using hr)]
    simp

theorem sum_mul_pow_le (m u k : ℕ) (hn : 0 < m+u) {z : ℝ} (hz : 0≤z) :
    ∑ p∈antidiagonal k, ((m.choose p.1*u.choose p.2 : ℕ) : ℝ)*(1+z)^p.1 ≤
      (m+u).choose k*(1+m/(m+u)*z)^k := by
  have hpos : (0 : ℝ) < m+u := by exact_mod_cast hn
  have hm : ∀ r∈range (k+1),
      (∑ p∈antidiagonal k, ((m.choose p.1*u.choose p.2 : ℕ) : ℝ)*p.1.choose r) ≤
        (m+u).choose k*(k.choose r*(m/(m+u))^r) := by
    intro r hr
    have hrk : r≤k := Nat.lt_succ_iff.mp (mem_range.mp hr)
    have hle : ((m.choose r*(m-r+u).choose (k-r)*(m+u)^r : ℕ) : ℝ) ≤
        ((m+u).choose k*k.choose r*m^r : ℕ) := by exact_mod_cast moment_le m u hrk
    rw [← sum_choose_mul_choose_mul_choose m u hrk] at hle
    push_cast at hle ⊢
    rw [div_pow,← mul_div_assoc,← mul_div_assoc,le_div_iff₀ (pow_pos hpos r)]
    linarith
  calc ∑ p∈antidiagonal k, ((m.choose p.1*u.choose p.2 : ℕ) : ℝ)*(1+z)^p.1
      = ∑ r∈range (k+1), (∑ p∈antidiagonal k,
          ((m.choose p.1*u.choose p.2 : ℕ) : ℝ)*p.1.choose r)*z^r := by
        simp only [sum_mul]
        rw [sum_comm]
        apply sum_congr rfl
        intro p hp
        have hk:=mem_antidiagonal.mp hp
        rw [one_add_pow_eq (show p.1≤k by omega),mul_sum]
        apply sum_congr rfl
        intro r _
        ring
    _≤∑ r∈range (k+1), (m+u).choose k*(k.choose r*(m/(m+u))^r)*z^r :=
        sum_le_sum fun r hr => mul_le_mul_of_nonneg_right (hm r hr) (pow_nonneg hz r)
    _=(m+u).choose k*(1+m/(m+u)*z)^k := by
        rw [add_comm (1 : ℝ),add_pow,mul_sum]
        apply sum_congr rfl
        intro r _
        rw [one_pow,mul_pow]
        ring

open ProbabilityTheory in
/-- Hoeffding's lemma for a variable that is one with probability `q` and zero otherwise. -/
theorem one_sub_add_mul_exp_le {q : ℝ} (hq : q∈Set.Icc (0 : ℝ) 1) (t : ℝ) :
    1-q+q*Real.exp t≤Real.exp (q*t+t^2/8) := by
  let μ := bernoulliMeasure (1 : ℝ) 0 ⟨q,hq⟩
  have hm : ∫ x, x ∂μ=q := by simp [μ,integral_bernoulliMeasure]
  have hr : ∀ᵐ x ∂μ, x∈Set.Icc (0 : ℝ) 1 := by
    rw [MeasureTheory.ae_iff]
    exact bernoulliMeasure_apply_of_notMem_of_notMem _ measurableSet_Icc.compl (by simp) (by simp)
  have hmgf:=(hasSubgaussianMGF_of_mem_Icc aemeasurable_id hr).mgf_le t
  simp only [id_eq,hm,mgf,μ,integral_bernoulliMeasure,smul_eq_mul] at hmgf
  calc 1-q+q*Real.exp t
      = Real.exp (q*t) * (q*Real.exp (t*(1-q))+(1-q)*Real.exp (t*(0-q))) := by
        rw [show t*(1-q)=t + -(q*t) by ring,show t*(0-q) = -(q*t) by ring,Real.exp_add,Real.exp_neg]
        field_simp
        ring
    _≤Real.exp (q*t)*Real.exp ((‖(1 : ℝ)-0‖₊/2)^2*t^2/2) :=
        mul_le_mul_of_nonneg_left (by exact_mod_cast hmgf) (Real.exp_pos _).le
    _=Real.exp (q*t+t^2/8) := by
        rw [← Real.exp_add]
        congr 1
        simp
        ring

/-- Markov's inequality for the elements that are not marked. -/
theorem below_mul_pow_le (m u k x : ℕ) {t : ℝ} (ht : 0≤t) :
    (below m u k (x+1) : ℝ)*Real.exp (t*(k-x)) ≤
      ∑ p∈antidiagonal k, ((u.choose p.1*m.choose p.2 : ℕ) : ℝ)*Real.exp t^p.1 := by
  rw [below,← Nat.sum_antidiagonal_swap,Nat.cast_sum,sum_mul]
  apply sum_le_sum
  intro p hp
  have hk:=mem_antidiagonal.mp hp
  by_cases hlt : p.2<x+1
  · rw [Prod.fst_swap,Prod.snd_swap,if_pos hlt,Nat.mul_comm]
    apply mul_le_mul_of_nonneg_left _ (Nat.cast_nonneg _)
    rw [← Real.exp_nat_mul,Real.exp_le_exp]
    have hr : (p.1 : ℝ)+p.2=k := by exact_mod_cast hk
    have hle : (p.2 : ℝ)≤x := by exact_mod_cast Nat.lt_succ_iff.mp hlt
    nlinarith
  · rw [Prod.fst_swap,if_neg hlt,Nat.cast_zero,zero_mul]
    positivity

/-- Hoeffding's bound, for a number of marked elements that is below its mean. -/
theorem below_le_exp {m u : ℕ} (hn : 0 < m+u) {ε : ℝ} (hε : 0≤ε) (hx : (x : ℝ)≤k*(m/(m+u)-ε)) :
    (below m u k (x+1) : ℝ)≤(m+u).choose k*Real.exp (-2*ε ^ 2*k) := by
  have hpos : (0 : ℝ) < m+u := by exact_mod_cast hn
  have ht : 0≤4*ε := by linarith
  set q : ℝ := u/(m+u) with hq
  have hc : (m : ℝ)/(m+u)=1-q := by
    rw [hq]
    field_simp
    ring
  have hq01 : q∈Set.Icc (0 : ℝ) 1 :=
    ⟨by positivity,by linarith [div_nonneg (Nat.cast_nonneg m : (0 : ℝ) ≤ m) hpos.le]⟩
  have hs:=sum_mul_pow_le u m k (by omega) (sub_nonneg.mpr (Real.one_le_exp ht))
  rw [add_sub_cancel,Nat.add_comm u m,add_comm (u : ℝ) m,← hq] at hs
  have hb : 1+q*(Real.exp (4*ε)-1)≤Real.exp (q*(4*ε)+(4*ε)^2/8) := by
    linarith [one_sub_add_mul_exp_le hq01 (4*ε)]
  have hnonneg : 0≤1+q*(Real.exp (4*ε)-1) := by
    linarith [mul_nonneg hq01.1 (sub_nonneg.mpr (Real.one_le_exp ht))]
  have hp : (below m u k (x+1) : ℝ)*Real.exp (4*ε*(k-x)) ≤
      (m+u).choose k*Real.exp (k*(q*(4*ε)+(4*ε)^2/8)) := by
    refine (below_mul_pow_le m u k x ht).trans (hs.trans ?_)
    rw [Real.exp_nat_mul]
    exact mul_le_mul_of_nonneg_left (pow_le_pow_left₀ hnonneg hb k) (Nat.cast_nonneg _)
  -- what is left of the exponents
  have he : k*(q*(4*ε)+(4*ε)^2/8)≤4*ε*(k-x) + -2*ε ^ 2*k := by
    rw [hc] at hx
    nlinarith
  apply le_of_mul_le_mul_right _ (Real.exp_pos (4*ε*(k-x)))
  calc (below m u k (x+1) : ℝ)*Real.exp (4*ε*(k-x))
      ≤ (m+u).choose k*Real.exp (k*(q*(4*ε)+(4*ε)^2/8)) := hp
    _≤(m+u).choose k*Real.exp (4*ε*(k-x) + -2*ε ^ 2*k) :=
        mul_le_mul_of_nonneg_left (Real.exp_le_exp.mpr he) (Nat.cast_nonneg _)
    _=(m+u).choose k*Real.exp (-2*ε ^ 2*k)*Real.exp (4*ε*(k-x)) := by
        rw [Real.exp_add]
        ring

end Fcp.Hypergeometric

import Fcp.Lib.LagrangeAtZero
import Fcp.SecAgg.Shared.ShamirSecretSharing
import Mathlib.Data.List.GetD
import Mathlib.FieldTheory.Finite.Basic
import Mathlib.NumberTheory.LucasPrimality
import Mathlib.Tactic.NormNum.Prime

/-!
# The field behind the shares

`kPrime` is prime, and the cached inverses and Lagrange coefficients are those of `ZMod kPrime`,
whatever the object computed before.
-/

namespace Fcp.SecAgg.ShamirSecretSharing

open List
open Fcp.Lib

theorem kPrime_lt : kPrime<2^32 := by decide

theorem kPrime_pos : 0<kPrime := by decide

theorem multiplyMod_lt (a b : ℕ) : multiplyMod a b kPrime<kPrime := by
  have h:=Nat.mod_lt (u64 (a*b)) kPrime_pos
  rw [multiplyMod,u32_of_lt (lt_trans h kPrime_lt)]
  exact h

variable {a b y n xi xj : ℕ}

theorem cast_multiplyMod (ha : a<2^32) (hb : b<2^32) :
    ((multiplyMod a b kPrime : ℕ) : ZMod kPrime)=a*b := by
  rw [multiplyMod_eq ha hb kPrime_lt.le kPrime_pos,ZMod.natCast_mod,Nat.cast_mul]

theorem modPowAux_lt (fuel x y : ℕ) : modPowAux fuel x y<2^32 := by
  cases fuel with
  | zero =>
    rw [modPowAux]
    decide
  | succ fuel =>
    have hlt:=fun a b => lt_trans (multiplyMod_lt a b) kPrime_lt
    rw [modPowAux]
    split
    · decide
    · split <;> exact hlt _ _

theorem cast_modPowAux (fuel x y : ℕ) (hx : x<2^32) (hy : y<2^fuel) :
    ((modPowAux fuel x y : ℕ) : ZMod kPrime)=(x : ZMod kPrime)^y := by
  induction fuel generalizing y with
  | zero =>
    have h0 : y=0 := by omega
    simp [modPowAux,h0]
  | succ fuel ih =>
    rw [modPowAux]
    split
    next h0 => simp [h0]
    · have hp : modPowAux fuel x (y/2)%kPrime<2^32 := lt_trans (Nat.mod_lt _ kPrime_pos) kPrime_lt
      have hq:=lt_trans (multiplyMod_lt (modPowAux fuel x (y/2)%kPrime)
        (modPowAux fuel x (y/2)%kPrime)) kPrime_lt
      have hih:=ih (y/2) (by rw [pow_succ] at hy; omega)
      have hsq : ((multiplyMod (modPowAux fuel x (y/2)%kPrime)
          (modPowAux fuel x (y/2)%kPrime) kPrime : ℕ) : ZMod kPrime) =
          (x : ZMod kPrime)^(2*(y/2)) := by
        rw [cast_multiplyMod hp hp,ZMod.natCast_mod,hih,two_mul,pow_add]
      split
      next he =>
        rw [Nat.and_one_is_mod] at he
        rw [hsq]
        congr 1
        omega
      next ho =>
        rw [Nat.and_one_is_mod] at ho
        rw [cast_multiplyMod hx hq,hsq,← pow_succ']
        congr 1
        omega

theorem cast_modPow {x : ℕ} (hx : x<2^32) (hy : y<2^32) :
    ((modPow x y : ℕ) : ZMod kPrime)=(x : ZMod kPrime)^y :=
  cast_modPowAux 32 x y hx hy

theorem two_pow_ne_one (hy : y<2^32) (h : modPow 2 y%kPrime≠1) : (2 : ZMod kPrime)^y≠1 := by
  intro he
  have hc:=cast_modPow (x := 2) (by decide) hy
  rw [Nat.cast_ofNat,he,← Nat.cast_one,ZMod.natCast_eq_natCast_iff'] at hc
  exact h (hc.trans (by decide))

theorem kPrime_prime : Nat.Prime kPrime := by
  refine lucas_primality kPrime 2 ?_ ?_
  · have hc:=cast_modPow (x := 2) (y := kPrime-1) (by decide) (by decide)
    rw [Nat.cast_ofNat] at hc
    rw [← hc,show modPow 2 (kPrime-1)=1 by decide +kernel,Nat.cast_one]
  · intro q hq hd
    have hf : kPrime-1=2*(3*(149*2402107)) := by decide
    have hcase : q ∣ 2 ∨ q ∣ 3 ∨ q ∣ 149 ∨ q ∣ 2402107 := by
      rw [hf] at hd
      rcases (Nat.Prime.dvd_mul hq).mp hd with h | h
      · exact .inl h
      rcases (Nat.Prime.dvd_mul hq).mp h with h | h
      · exact .inr (.inl h)
      rcases (Nat.Prime.dvd_mul hq).mp h with h | h
      · exact .inr (.inr (.inl h))
      · exact .inr (.inr (.inr h))
    have hne : ∀ r,Nat.Prime r → q ∣ r → q=r := fun r hr h =>
      (Nat.prime_dvd_prime_iff_eq hq hr).mp h
    rcases hcase with h | h | h | h
    · rw [hne 2 (by norm_num) h]
      exact two_pow_ne_one (by decide) (by decide +kernel)
    · rw [hne 3 (by norm_num) h]
      exact two_pow_ne_one (by decide) (by decide +kernel)
    · rw [hne 149 (by norm_num) h]
      exact two_pow_ne_one (by decide) (by decide +kernel)
    · rw [hne 2402107 (by norm_num) h]
      exact two_pow_ne_one (by decide) (by decide +kernel)

instance : Fact (Nat.Prime kPrime) := ⟨kPrime_prime⟩

def inverseOf (n : ℕ) : ℕ := modPow n (kPrime-2)

def factorOf (acc xi xj : ℕ) : ℕ :=
  if xj>xi then multiplyMod (multiplyMod acc xj kPrime) (inverseOf (xj-xi)) kPrime
  else multiplyMod (multiplyMod (multiplyMod acc xj kPrime) (kPrime-1) kPrime)
    (inverseOf (xi-xj)) kPrime

variable (xValues : List ℕ) (invs : List ℕ) (count : ℕ)

def rowOf (i acc : ℕ) (js : List ℕ) : ℕ := js.foldl (fun acc j =>
    if i=j then acc else factorOf acc (xValues.getD i 0) (xValues.getD j 0)) acc

theorem rowOf_append (xs : List ℕ) (i acc : ℕ) (js : List ℕ) (j : ℕ) : rowOf xs i acc (js++[j]) =
      if i=j then rowOf xs i acc js
      else factorOf (rowOf xs i acc js) (xs.getD i 0) (xs.getD j 0) := by
  rw [rowOf,foldl_append,foldl_cons,foldl_nil,← rowOf]

def coefficientsOf : List ℕ :=
  (List.range xValues.length).map fun i => rowOf xValues i 1 (List.range xValues.length)

/-- What the caches hold, whatever was computed before. -/
structure Valid (o : ShamirSecretSharing) : Prop where
  inverses : ∀ k<o.inverses.length,o.inverses.getD k 0=inverseOf (k+1)
  coefficients : o.lastLcInput≠[] → o.lastLcOutput=coefficientsOf o.lastLcInput

theorem valid_create : Valid create :=
  ⟨fun k hk => absurd hk (by simp [create]),fun h => absurd rfl h⟩

theorem length_extendInverses : (extendInverses invs count).length=invs.length+count := by
  induction count generalizing invs with
  | zero => rfl
  | succ count ih =>
    rw [extendInverses,ih,length_append,length_singleton]
    omega

theorem extendInverses_getD (h : ∀ k < invs.length,invs.getD k 0=inverseOf (k+1)) :
    ∀ k < invs.length+count,(extendInverses invs count).getD k 0=inverseOf (k+1) := by
  induction count generalizing invs with
  | zero => exact h
  | succ count ih =>
    intro k hk
    rw [extendInverses]
    refine ih _ ?_ k (by rw [length_append,length_singleton]; omega)
    intro k hk
    rw [length_append,length_singleton] at hk
    by_cases hlt : k < invs.length
    · rw [getD_append _ _ _ _ hlt,h k hlt]
    · have hk' : k=invs.length := by omega
      subst hk'
      rw [getD_append_right _ _ _ _ le_rfl,Nat.sub_self]
      rfl

variable {o : ShamirSecretSharing}

theorem modInverse_eq (ho : o.Valid) (h0 : 0<n) (hn : n<kPrime) :
    ∃ invs,o.modInverse n=.ok (⟨invs,o.lastLcInput,o.lastLcOutput⟩,inverseOf n) ∧
      Valid ⟨invs,o.lastLcInput,o.lastLcOutput⟩ := by
  have hg:=extendInverses_getD o.inverses (n-o.inverses.length) ho.inverses
  refine ⟨extendInverses o.inverses (n-o.inverses.length),?_,?_,ho.coefficients⟩
  · have hl:=hg (n-1) (by omega)
    rw [Nat.sub_add_cancel h0] at hl
    simp only [modInverse,h0,hn,and_self,decide_true,fcpCheck_true,hl]
    rfl
  · intro k hk
    rw [length_extendInverses] at hk
    exact hg k hk

/-- The x values of `Reconstruct`: positive `int` values without repetition. -/
structure Nodes (xValues : List ℕ) : Prop where
  pos : ∀ x∈xValues,0<x
  lt : ∀ x∈xValues,x<2^31
  nodup : xValues.Nodup

variable {xs : List ℕ} {i : ℕ}

theorem Nodes.getD_mem (hi : i<xs.length) : xs.getD i 0∈xs := by
  rw [getD_eq_getElem _ _ hi]
  exact getElem_mem hi

theorem Nodes.getD_ne (hx : Nodes xs) {j : ℕ} (hi : i<xs.length)
    (hj : j<xs.length) (hij : i≠j) : xs.getD i 0≠xs.getD j 0 := by
  rw [getD_eq_getElem _ _ hi,getD_eq_getElem _ _ hj]
  intro h
  exact hij ((hx.nodup.getElem_inj_iff).mp h)

theorem lagrangeStep_eq (ho : o.Valid) (acc : ℕ) (hi : xi<2^31) (hj : xj<2^31) (hne : xi≠xj) :
    ∃ invs,o.lagrangeStep acc xi xj=.ok (⟨invs,o.lastLcInput,o.lastLcOutput⟩,factorOf acc xi xj) ∧
      Valid ⟨invs,o.lastLcInput,o.lastLcOutput⟩ := by
  have hp : 2^31<kPrime := by decide
  rw [lagrangeStep,factorOf]
  split
  · obtain ⟨invs,h,hv⟩:=modInverse_eq ho (n := xj-xi) (by omega) (by omega)
    refine ⟨invs,?_,hv⟩
    rw [h]
    rfl
  · obtain ⟨invs,h,hv⟩:=modInverse_eq ho (n := xi-xj) (by omega) (by omega)
    refine ⟨invs,?_,hv⟩
    rw [h]
    rfl

theorem lagrangeRow_eq (hx : Nodes xs) (hi : i<xs.length) (js : List ℕ)
    (hjs : ∀ j∈js,j<xs.length) (ho : o.Valid) (acc : ℕ) :
    ∃ invs,lagrangeRow xs i o acc js=.ok (⟨invs,o.lastLcInput,o.lastLcOutput⟩,rowOf xs i acc js) ∧
      Valid ⟨invs,o.lastLcInput,o.lastLcOutput⟩ := by
  induction js generalizing o acc with
  | nil => exact ⟨o.inverses,rfl,ho⟩
  | cons j js ih =>
    have hr:=fun k hk => hjs k (mem_cons_of_mem _ hk)
    rw [lagrangeRow,rowOf,foldl_cons,← rowOf]
    split
    · exact ih hr ho acc
    next hij =>
      have hj:=hjs j (mem_cons_self ..)
      obtain ⟨inv,h,hv⟩:=lagrangeStep_eq ho acc (hx.lt _ (Nodes.getD_mem hi))
        (hx.lt _ (Nodes.getD_mem hj)) (hx.getD_ne hi hj hij)
      obtain ⟨inv',h',hv'⟩:=ih hr hv (factorOf acc (xs.getD i 0) (xs.getD j 0))
      refine ⟨inv',?_,hv'⟩
      rw [h]
      exact h'

theorem lagrangeRows_eq (hx : Nodes xs) (is : List ℕ) (his : ∀ i∈is,i<xs.length)
    (ho : o.Valid) (out : List ℕ) :
    ∃ invs,lagrangeRows xs o out is=.ok (⟨invs,o.lastLcInput,o.lastLcOutput⟩,
          out++is.map fun i => rowOf xs i 1 (List.range xs.length)) ∧
      Valid ⟨invs,o.lastLcInput,o.lastLcOutput⟩ := by
  induction is generalizing o out with
  | nil => exact ⟨o.inverses,by rw [map_nil,append_nil]; rfl,ho⟩
  | cons i is ih =>
    obtain ⟨inv,h,hv⟩:=lagrangeRow_eq hx (his i (mem_cons_self ..))
      (List.range xs.length) (fun j hj => mem_range.mp hj) ho 1
    obtain ⟨inv',h',hv'⟩:=ih (fun k hk => his k (mem_cons_of_mem _ hk)) hv
      (out++[rowOf xs i 1 (List.range xs.length)])
    refine ⟨inv',?_,hv'⟩
    rw [lagrangeRows,h,map_cons,append_cons]
    exact h'

theorem lagrangeCoefficients_eq (hx : Nodes xs) (hl : 1<xs.length) (ho : o.Valid) :
    ∃ o',o.lagrangeCoefficients xs=.ok (o',coefficientsOf xs) ∧ o'.Valid := by
  have ha : (xs.all fun x => decide (x>0))=true := by simpa [all_eq_true] using hx.pos
  have hne : xs≠[] := by
    rintro rfl
    simp at hl
  rw [lagrangeCoefficients,ha]
  simp only [decide_eq_true hl,fcpCheck_true]
  by_cases hc : xs=o.lastLcInput
  · refine ⟨o,?_,ho⟩
    rw [if_pos hc,ho.coefficients (hc ▸ hne),← hc]
    rfl
  · obtain ⟨inv,h,hv⟩:=lagrangeRows_eq hx (List.range xs.length) (fun i hi => mem_range.mp hi) ho []
    refine ⟨⟨inv,xs,coefficientsOf xs⟩,?_,hv.inverses,fun _ => rfl⟩
    rw [if_neg hc,h]
    rfl

theorem cast_inverseOf (h0 : 0<n) (hn : n<kPrime) :
    ((inverseOf n : ℕ) : ZMod kPrime)=(n : ZMod kPrime)⁻¹ := by
  have hne : (n : ZMod kPrime)≠0 := by
    rw [Ne,ZMod.natCast_eq_zero_iff]
    exact fun h => absurd (Nat.le_of_dvd h0 h) (by omega)
  rw [inverseOf,cast_modPow (lt_trans hn kPrime_lt) (by decide)]
  refine eq_inv_of_mul_eq_one_left ?_
  rw [← pow_succ,show kPrime-2+1=kPrime-1 by decide]
  exact ZMod.pow_card_sub_one_eq_one hne

theorem inverseOf_lt (n : ℕ) : inverseOf n<2^32 := by
  rw [inverseOf,modPow]
  exact modPowAux_lt 32 n (kPrime-2)

theorem factorOf_lt (acc xi xj : ℕ) : factorOf acc xi xj<kPrime := by
  rw [factorOf]
  split <;> exact multiplyMod_lt _ _

theorem cast_factorOf {acc : ℕ} (ha : acc<kPrime) (hi : xi<2^31) (hj : xj<2^31) (hne : xi≠xj) :
    ((factorOf acc xi xj : ℕ) : ZMod kPrime) =
      acc*((xj : ZMod kPrime)*((xj : ZMod kPrime)-xi)⁻¹) := by
  have hp : 2^31<kPrime := by decide
  have hlt:=fun a b => lt_trans (multiplyMod_lt a b) kPrime_lt
  have hxj : xj<2^32 := by omega
  rw [factorOf]
  split
  next h =>
    rw [cast_multiplyMod (hlt _ _) (inverseOf_lt _),cast_multiplyMod (lt_trans ha kPrime_lt) hxj,
      cast_inverseOf (by omega) (by omega),Nat.cast_sub (by omega),mul_assoc]
  next h =>
    have hm1 : ((kPrime-1 : ℕ) : ZMod kPrime) = -1 := by
      rw [Nat.cast_sub (by decide),ZMod.natCast_self,Nat.cast_one,zero_sub]
    rw [cast_multiplyMod (hlt _ _) (inverseOf_lt _),cast_multiplyMod (hlt _ _) (by decide),
      cast_multiplyMod (lt_trans ha kPrime_lt) hxj,cast_inverseOf (by omega) (by omega),hm1,
      Nat.cast_sub (by omega),← neg_sub (xj : ZMod kPrime) xi,inv_neg]
    ring

theorem cast_rowOf (hx : Nodes xs) (hi : i<xs.length) (t : ℕ) (ht : t≤xs.length) :
    rowOf xs i 1 (List.range t)<kPrime ∧ ((rowOf xs i 1 (List.range t) : ℕ) : ZMod kPrime) =
        weightAtZero (fun j => (xs.getD j 0 : ZMod kPrime)) t i := by
  induction t with
  | zero =>
    rw [rowOf,range_zero,foldl_nil,weightAtZero,Finset.prod_range_zero,Nat.cast_one]
    exact ⟨by decide,rfl⟩
  | succ t ih =>
    obtain ⟨hlt,hc⟩:=ih (by omega)
    rw [range_succ,rowOf_append,weightAtZero,Finset.prod_range_succ,← weightAtZero]
    split
    · exact ⟨hlt,by rw [hc,mul_one]⟩
    next hit =>
      refine ⟨factorOf_lt _ _ _,?_⟩
      rw [cast_factorOf hlt (hx.lt _ (Nodes.getD_mem hi)) (hx.lt _ (Nodes.getD_mem (by omega)))
        (hx.getD_ne hi (by omega) hit),hc]

end Fcp.SecAgg.ShamirSecretSharing

import Fcp.Base.Monitoring
import Fcp.Lib.Hypergeometric

/-!
# The hypergeometric distribution (server/distribution_utilities.cc)

Probabilities are exact rationals, where the source computes with `double` and ends the loop of
`CDFImpl` also at terms too small to change the sum.
-/

namespace Fcp.SecAgg

open Hypergeometric (below)

structure HypergeometricDistribution where
  total : ℕ
  marked : ℕ
  sampled : ℕ
  marked_le : marked≤total
  sampled_le : sampled≤total

namespace HypergeometricDistribution

def create (total marked sampled : ℤ) : StatusOr HypergeometricDistribution :=
  if total<0 then
    .error ⟨.failedPrecondition,
      "The population should be at least zero. Value provided = "++toString total⟩
  else if marked<0 then
    .error ⟨.failedPrecondition,
      "The marked population should have size at least zero. Value provided = "++toString marked⟩
  else if sampled<0 then
    .error ⟨.failedPrecondition,
      "The sample size should be at least zero. Value provided = "++toString sampled⟩
  else if hmarked : marked>total then
    .error ⟨.failedPrecondition,"The marked population "++toString marked ++
      " should not exceed the total population "++toString total⟩
  else if hsampled : sampled>total then
    .error ⟨.failedPrecondition,"The sample size "++toString sampled ++
      " should not exceed the total population "++toString total⟩
  else .ok ⟨total.toNat,marked.toNat,sampled.toNat,by omega,by omega⟩

variable (d : HypergeometricDistribution)

def pmfImpl (x : ℤ) (counted : ℕ) : ℚ :=
  if x<0 ∨ x>d.sampled ∨ x>counted then 0
  else if d.total+x<counted+d.sampled then 0
  else
    (d.sampled.factorial*counted.factorial*(d.total-counted).factorial *
        (d.total-d.sampled).factorial) /
      (x.toNat.factorial*(d.sampled-x.toNat).factorial*(counted-x.toNat).factorial *
        d.total.factorial*(d.total+x.toNat-d.sampled-counted).factorial)

def pmf (x : ℤ) : ℚ := d.pmfImpl x d.marked

def cdfLoop (counted : ℕ) : ℕ → ℤ → ℚ → ℚ → ℚ
  | 0, _, _, result => result
  | fuel+1, x, currentPmf, result =>
    if currentPmf>0 then
      cdfLoop counted fuel (x-1)
        (currentPmf*x*(d.total-counted-d.sampled+x)/(counted-x+1) /
          (d.sampled-x+1)) (result+currentPmf)
    else result

def cdfImpl (x : ℤ) (counted : ℕ) : ℚ := d.cdfLoop counted (x+1).toNat x (d.pmfImpl x counted) 0

def cdf (x : ℤ) : ℚ :=
  let mean : ℚ := d.marked*d.sampled/d.total
  if x>mean then 1-d.cdfImpl (d.sampled-x-1) (d.total-d.marked)
  else d.cdfImpl x d.marked

def quantileLoop (quantile : ℚ) (counted : ℕ) : ℕ → ℤ → ℚ → ℚ → ℤ
  | 0, result, _, _ => result
  | fuel+1, result, currentCdf, currentPmf =>
    if currentCdf<quantile ∧ result<d.sampled then
      let currentPmf :=
        if currentPmf>0 then
          currentPmf/(result+1)/(d.total-counted-d.sampled+result+1) *
            (counted-result)*(d.sampled-result)
        else d.pmfImpl (result+1) counted
      quantileLoop quantile counted fuel (result+1) (currentCdf+currentPmf) currentPmf
    else result

variable (quantile : ℚ)

noncomputable def fancyBound (counted : ℕ) : ℝ :=
  d.sampled*(counted/d.total-√(-Real.log quantile/(2*d.sampled)))

noncomputable def quantileStart (counted : ℕ) : ℤ :=
  let basicBound : ℝ := counted+d.sampled-d.total-1
  let result : ℝ := -1
  let result := if basicBound>result then basicBound else result
  let result := if d.fancyBound quantile counted>result then d.fancyBound quantile counted
    else result
  ⌊result⌋

noncomputable def findQuantileImpl (counted : ℕ) : ℤ :=
  let result := d.quantileStart quantile counted
  d.quantileLoop quantile counted (d.sampled-result).toNat result (d.cdfImpl result counted)
    (d.pmfImpl result counted)-1

noncomputable def findQuantile (complement : Bool) : ℤ :=
  let flip := decide (quantile>1/2)
  let quantile := if flip then 1-quantile else quantile
  if complement != flip then
    d.sampled-d.findQuantileImpl quantile (d.total-d.marked)-1
  else d.findQuantileImpl quantile d.marked

def cumulative (x : ℤ) (counted : ℕ) : ℚ :=
  below counted (d.total-counted) d.sampled (x+1).toNat/d.total.choose d.sampled

variable {d} {counted : ℕ}

theorem choose_pos : (0 : ℚ)<d.total.choose d.sampled := by
  exact_mod_cast Nat.choose_pos d.sampled_le

theorem pmfImpl_eq (hcount : counted≤d.total) (x : ℕ) : d.pmfImpl x counted =
      ((if x≤d.sampled then counted.choose x*(d.total-counted).choose (d.sampled-x) else 0 :
        ℕ) : ℚ)/d.total.choose d.sampled := by
  have hs:=d.sampled_le
  unfold pmfImpl
  by_cases hx : x≤d.sampled
  · by_cases hc : x≤counted
    · by_cases hl : d.sampled-x≤d.total-counted
      · rw [if_neg (by omega),if_neg (by omega),if_pos hx,Int.toNat_natCast,Nat.cast_mul,
          Nat.cast_choose ℚ hc,Nat.cast_choose ℚ hl,Nat.cast_choose ℚ hs]
        have hr : d.total-counted-(d.sampled-x)=d.total+x-d.sampled-counted := by omega
        rw [hr]
        have hf : ∀ n : ℕ,(n.factorial : ℚ)≠0 := fun n => by
          exact_mod_cast n.factorial_ne_zero
        field_simp [hf]
      · rw [if_neg (by omega),if_pos (by omega),if_pos hx,
          Nat.choose_eq_zero_of_lt (Nat.lt_of_not_le hl),Nat.mul_zero,Nat.cast_zero,zero_div]
    · rw [if_pos (by omega),if_pos hx,Nat.choose_eq_zero_of_lt (Nat.lt_of_not_le hc),
        Nat.zero_mul,Nat.cast_zero,zero_div]
  · rw [if_pos (by omega),if_neg hx,Nat.cast_zero,zero_div]

variable {x : ℤ}

theorem pmfImpl_nonneg (hcount : counted≤d.total) (x : ℕ) : 0≤d.pmfImpl x counted := by
  rw [pmfImpl_eq hcount]
  positivity

/-- Below the support, and only there, a number of marked elements that fits is impossible. -/
theorem pmfImpl_pos_iff (hcount : counted≤d.total) {x : ℕ} (hs : x≤d.sampled)
    (hx : x≤counted) : 0<d.pmfImpl x counted ↔ counted+d.sampled≤d.total+x := by
  rw [pmfImpl_eq hcount,if_pos hs,div_pos_iff_of_pos_right choose_pos,Nat.cast_pos,
    Nat.pos_iff_ne_zero,Nat.mul_ne_zero_iff,Nat.choose_ne_zero_iff,Nat.choose_ne_zero_iff]
  omega

theorem pmfImpl_succ_mul (hcount : counted≤d.total) {x : ℕ} (hx : x<d.sampled) :
    d.pmfImpl (x+1 : ℕ) counted*((x+1)*(d.total-counted-d.sampled+x+1)) =
      d.pmfImpl x counted*((counted-x)*(d.sampled-x)) := by
  rw [pmfImpl_eq hcount,pmfImpl_eq hcount,if_pos (Nat.succ_le_of_lt hx),if_pos hx.le,
    div_mul_eq_mul_div,div_mul_eq_mul_div]
  congr 1
  have hm : (counted.choose (x+1) : ℚ)*(x+1)=counted.choose x*(counted-x) := by
    have hn:=Nat.choose_succ_right_eq counted x
    by_cases hle : x≤counted
    · rw [← Nat.cast_sub hle]
      exact_mod_cast hn
    · rw [Nat.choose_eq_zero_of_lt (by omega),Nat.choose_eq_zero_of_lt (by omega)]
      simp
  have ho : ((d.total-counted).choose (d.sampled-x) : ℚ)*(d.sampled-x) =
      (d.total-counted).choose (d.sampled-(x+1)) * (d.total-counted-d.sampled+x+1) := by
    have hn:=Nat.choose_succ_right_eq (d.total-counted) (d.sampled-(x+1))
    rw [show d.sampled-(x+1)+1=d.sampled-x by omega] at hn
    by_cases hle : d.sampled-(x+1)≤d.total-counted
    · have hc : ((d.total-counted-(d.sampled-(x+1)) : ℕ) : ℚ)=d.total-counted-d.sampled+x+1 := by
        push_cast [hle,hcount,Nat.succ_le_of_lt hx]
        ring
      rw [← hc,← Nat.cast_sub hx.le]
      exact_mod_cast hn
    · rw [Nat.choose_eq_zero_of_lt (by omega),Nat.choose_eq_zero_of_lt (by omega)]
      simp
  push_cast
  calc (counted.choose (x+1) : ℚ)*(d.total-counted).choose (d.sampled-(x+1)) *
        ((x+1)*(d.total-counted-d.sampled+x+1))
      = counted.choose (x+1)*(x+1)*((d.total-counted).choose (d.sampled-(x+1)) *
          (d.total-counted-d.sampled+x+1)) := by ring
    _=counted.choose x*(d.total-counted).choose (d.sampled-x) *
          ((counted-x)*(d.sampled-x)) := by
        rw [hm,← ho]
        ring

theorem cumulative_of_neg (hx : x<0) : d.cumulative x counted=0 := by
  rw [cumulative,show (x+1).toNat=0 by omega,Hypergeometric.below_zero,Nat.cast_zero,zero_div]

theorem cumulative_natCast (hcount : counted≤d.total) (x : ℕ) :
    d.cumulative x counted=d.cumulative (x-1) counted+d.pmfImpl x counted := by
  rw [cumulative,cumulative,pmfImpl_eq hcount,show ((x : ℤ)+1).toNat=x+1 by omega,
    show ((x : ℤ)-1+1).toNat=x by omega,Hypergeometric.below_succ,Nat.cast_add,add_div]

theorem cumulative_sampled (hcount : counted≤d.total) : d.cumulative d.sampled counted=1 := by
  rw [cumulative,Hypergeometric.below_of_lt _ _ (by omega),Nat.add_sub_cancel' hcount]
  exact div_self choose_pos.ne'

theorem pmfImpl_of_lt (hx : d.total+x<counted+d.sampled) : d.pmfImpl x counted=0 := by
  rw [pmfImpl,if_pos hx,ite_self]

section

variable (hcount : counted≤d.total)
include hcount

theorem cumulative_eq_zero (hx : d.total+x<counted+d.sampled) : d.cumulative x counted=0 := by
  obtain hneg | hn:=Int.lt_or_le x 0
  · exact cumulative_of_neg hneg
  · obtain ⟨x,rfl⟩:=Int.eq_ofNat_of_zero_le hn
    induction x with
    | zero => rw [cumulative_natCast hcount,cumulative_of_neg (by omega),pmfImpl_of_lt hx,add_zero]
    | succ x ih =>
      rw [cumulative_natCast hcount,pmfImpl_of_lt hx,add_zero,Nat.cast_succ,Int.add_sub_cancel]
      exact ih (by omega) (by omega)

theorem cdfLoop_eq {x : ℕ} (hsampled : x≤d.sampled) (hx : x≤counted) (result : ℚ) :
    d.cdfLoop counted (x+1) x (d.pmfImpl x counted) result=result+d.cumulative x counted := by
  induction x generalizing result with
  | zero =>
    have hf : d.cumulative (0 : ℕ) counted=d.pmfImpl (0 : ℕ) counted := by
      rw [cumulative_natCast hcount,cumulative_of_neg (by omega),zero_add]
    rw [hf,cdfLoop]
    split
    · rfl
    next hz => rw [le_antisymm (not_lt.mp hz) (pmfImpl_nonneg hcount 0),add_zero]
  | succ x ih =>
    rw [cdfLoop]
    split
    next hpos =>
      have hp : d.pmfImpl (x+1 : ℕ) counted*((x+1 : ℕ) : ℤ) *
          (d.total-counted-d.sampled+((x+1 : ℕ) : ℤ))/(counted-((x+1 : ℕ) : ℤ)+1) /
          (d.sampled-((x+1 : ℕ) : ℤ)+1)=d.pmfImpl x counted := by
        have hstep:=pmfImpl_succ_mul hcount (Nat.lt_of_succ_le hsampled)
        have hc : (0 : ℚ)<counted-x := by
          have : (x : ℚ)+1≤counted := by exact_mod_cast hx
          linarith
        have hs : (0 : ℚ)<d.sampled-x := by
          have : (x : ℚ)+1≤d.sampled := by exact_mod_cast hsampled
          linarith
        push_cast
        rw [div_div,div_eq_iff (by nlinarith)]
        push_cast at hstep
        linarith
      rw [hp,show ((x+1 : ℕ) : ℤ)-1=x by omega,
        ih (Nat.le_of_succ_le hsampled) (Nat.le_of_succ_le hx),cumulative_natCast hcount (x+1),
        show ((x+1 : ℕ) : ℤ)-1=x by omega]
      ring
    next hz =>
      have hl:=mt (pmfImpl_pos_iff hcount hsampled hx).mpr hz
      rw [cumulative_eq_zero hcount (by omega),add_zero]

theorem cdfImpl_eq (hs : x≤d.sampled) (hx : x≤counted) :
    d.cdfImpl x counted=d.cumulative x counted := by
  unfold cdfImpl
  obtain hneg | hn:=Int.lt_or_le x 0
  · rw [show (x+1).toNat=0 by omega,cumulative_of_neg hneg]
    rfl
  · obtain ⟨x,rfl⟩:=Int.eq_ofNat_of_zero_le hn
    rw [show ((x : ℤ)+1).toNat=x+1 by omega,cdfLoop_eq hcount (by omega) (by omega),zero_add]

/-- The complement of a cumulative probability, for the elements that are not marked. -/
theorem cumulative_compl (hl : -1≤x) (hx : x≤d.sampled) :
    1-d.cumulative (d.sampled-x-1) (d.total-counted)=d.cumulative x counted := by
  have hs:=Hypergeometric.below_add_below counted (d.total-counted)
    (show (x+1).toNat≤d.sampled+1 by omega)
  rw [Nat.add_sub_cancel' hcount] at hs
  rw [cumulative,cumulative,Nat.sub_sub_self hcount,
    show ((d.sampled : ℤ)-x-1+1).toNat=d.sampled+1-(x+1).toNat by omega,← hs]
  have hpos:=choose_pos (d := d)
  rw [← hs] at hpos
  field_simp
  push_cast
  ring

end

theorem cdf_eq (hpos : 0<d.total) (hl : -1≤x) (hx : x≤d.sampled) :
    d.cdf x=d.cumulative x d.marked := by
  have hmarked:=d.marked_le
  have hsampled:=d.sampled_le
  have ht : (0 : ℚ)<d.total := by exact_mod_cast hpos
  have hmean : ∀ y : ℤ,(y : ℚ)≤d.marked*d.sampled/d.total → y≤d.sampled ∧ y≤d.marked := by
    intro y hy
    rw [le_div_iff₀ ht] at hy
    have hy' : y*d.total≤d.marked*d.sampled := by exact_mod_cast hy
    constructor
    · by_contra hlt
      nlinarith
    · by_contra hlt
      nlinarith
  unfold cdf
  dsimp only
  split
  next ha =>
    rw [cdfImpl_eq (Nat.sub_le _ _) (by omega),cumulative_compl hmarked hl hx]
    have hx' : (d.marked*d.sampled : ℤ)<x*d.total := by
      rw [gt_iff_lt,div_lt_iff₀ ht] at ha
      exact_mod_cast ha
    push_cast [hmarked]
    nlinarith
  next hb =>
    obtain ⟨hs,hm⟩:=hmean x (not_lt.mp hb)
    exact cdfImpl_eq hmarked hs hm

variable {result t : ℤ}

theorem nextPmf_eq (hcount : counted≤d.total) (hr : result<d.sampled) :
    (if d.pmfImpl result counted>0 then
      d.pmfImpl result counted/(result+1) /
        (d.total-counted-d.sampled+result+1)*(counted-result)*(d.sampled-result)
    else d.pmfImpl (result+1) counted)=d.pmfImpl (result+1) counted := by
  split
  next hpos =>
    have hn : 0≤result := by
      by_contra hneg
      rw [pmfImpl,if_pos (.inl (not_le.mp hneg))] at hpos
      exact lt_irrefl _ hpos
    have hsupport : counted+d.sampled≤d.total+result := by
      by_contra hl
      rw [pmfImpl_of_lt (not_le.mp hl)] at hpos
      exact lt_irrefl _ hpos
    obtain ⟨x,rfl⟩:=Int.eq_ofNat_of_zero_le hn
    have hs:=pmfImpl_succ_mul hcount (show x<d.sampled by omega)
    have hx : (0 : ℚ)<x+1 := by positivity
    have hrest : (0 : ℚ)<d.total-counted-d.sampled+x+1 := by
      have : (counted+d.sampled : ℚ)≤d.total+x := by exact_mod_cast hsupport
      linarith
    rw [Int.cast_natCast,div_div,div_mul_eq_mul_div,div_mul_eq_mul_div,
      div_eq_iff (mul_pos hx hrest).ne']
    push_cast at hs
    linarith
  · rfl

variable {q : ℚ}

theorem quantileLoop_spec (hcount : counted≤d.total) {fuel : ℕ}
    (hlow : -1≤result) (hr : result≤d.sampled)
    (hf : (d.sampled-result).toNat≤fuel) {last : ℤ}
    (hl : last=d.quantileLoop q counted fuel result (d.cumulative result counted)
      (d.pmfImpl result counted)) :
    result≤last ∧ last≤d.sampled ∧ (last<d.sampled → q≤d.cumulative last counted) ∧
      (result<last → d.cumulative (last-1) counted<q) := by
  induction fuel generalizing result with
  | zero =>
    have heq : last=result := hl
    rw [heq]
    exact ⟨le_refl _,hr,fun h => absurd h (by omega),fun h => absurd h (lt_irrefl _)⟩
  | succ fuel ih =>
    rw [quantileLoop] at hl
    split at hl
    next hgo =>
      have hn : d.cumulative (result+1) counted =
          d.cumulative result counted+d.pmfImpl (result+1) counted := by
        obtain ⟨x,hx⟩:=Int.eq_ofNat_of_zero_le (show 0≤result+1 by omega)
        rw [hx,cumulative_natCast hcount,← hx,Int.add_sub_cancel]
      dsimp only at hl
      rw [nextPmf_eq hcount hgo.2,← hn] at hl
      obtain ⟨hle,hsampled,hs,hb⟩:=ih (by omega) (by omega) (by omega) hl
      refine ⟨by omega,hsampled,hs,fun _ => ?_⟩
      obtain heq | hlt:=Int.le_iff_eq_or_lt.mp hle
      · rw [← heq,Int.add_sub_cancel]
        exact hgo.1
      · exact hb hlt
    next hs =>
      subst hl
      refine ⟨le_refl _,hr,fun h => ?_,fun h => absurd h (lt_irrefl _)⟩
      by_contra hlt
      exact hs ⟨not_le.mp hlt,h⟩

theorem quantileStart_eq (q : ℚ) : d.quantileStart q counted =
    max (max (-1) (counted+d.sampled-d.total-1 : ℤ)) ⌊d.fancyBound q counted⌋ := by
  have hm : ∀ a b : ℝ,(if b>a then b else a)=max a b := fun a b => (max_def_lt a b).symm
  simp only [quantileStart,hm]
  rw [Int.floor_mono.map_max,Int.floor_mono.map_max]
  congr 2
  · exact_mod_cast Int.floor_intCast (-1)
  · exact_mod_cast Int.floor_intCast (counted+d.sampled-d.total-1 : ℤ)

section

variable (hcount : counted≤d.total)
include hcount

section

variable (hpos : 0<d.total)
include hpos

theorem fancyBound_le (q : ℚ) :
    d.fancyBound q counted≤d.sampled ∧ d.fancyBound q counted≤counted := by
  have ht : (0 : ℝ)<d.total := by exact_mod_cast hpos
  have hr:=Real.sqrt_nonneg (-Real.log q/(2*d.sampled))
  have hc : (counted : ℝ)≤d.total := by exact_mod_cast hcount
  have hs : (d.sampled : ℝ)≤d.total := by exact_mod_cast d.sampled_le
  have hs0 : (0 : ℝ)≤d.sampled := Nat.cast_nonneg _
  have hc0 : (0 : ℝ)≤counted := Nat.cast_nonneg _
  have hm : d.fancyBound q counted≤d.sampled*(counted/d.total) := by
    unfold fancyBound
    nlinarith
  refine ⟨hm.trans ?_,hm.trans ?_⟩
  · rw [← mul_div_assoc,div_le_iff₀ ht]
    nlinarith
  · rw [← mul_div_assoc,div_le_iff₀ ht]
    nlinarith

theorem cumulative_fancyBound_le (hs : 0<d.sampled) (hq : 0<q) (hq1 : q≤1) :
    d.cumulative ⌊d.fancyBound q counted⌋ counted≤q := by
  obtain hneg | hn:=Int.lt_or_le ⌊d.fancyBound q counted⌋ 0
  · rw [cumulative_of_neg hneg]
    exact hq.le
  · obtain ⟨x,hx⟩:=Int.eq_ofNat_of_zero_le hn
    rw [hx,cumulative,show ((x : ℤ)+1).toNat=x+1 by omega,div_le_iff₀ choose_pos]
    have hqR : (0 : ℝ)<q := by exact_mod_cast hq
    have hsR : (0 : ℝ)<d.sampled := by exact_mod_cast hs
    have hl : Real.log q≤0 := Real.log_nonpos hqR.le (by exact_mod_cast hq1)
    set ε := √(-Real.log q/(2*d.sampled)) with hε
    have he : Real.exp (-2*ε ^ 2*d.sampled)=q := by
      have hsquare : ε ^ 2 = -Real.log q/(2*d.sampled) :=
        Real.sq_sqrt (div_nonneg (by linarith) (by linarith))
      rw [hsquare,← Real.exp_log hqR]
      congr 1
      rw [Real.exp_log hqR]
      field_simp
    have hsplit : (counted : ℝ)+(d.total-counted : ℕ)=d.total := by
      rw [← Nat.cast_add,Nat.add_sub_cancel' hcount]
    have hb : (x : ℝ)≤d.sampled*(counted/(counted+(d.total-counted : ℕ))-ε) := by
      rw [hsplit]
      calc (x : ℝ)=(⌊d.fancyBound q counted⌋ : ℝ) := by rw [hx]; simp
        _≤d.fancyBound q counted := Int.floor_le _
    have ht:=Hypergeometric.below_le_exp (u := d.total-counted) (by omega) (Real.sqrt_nonneg _) hb
    rw [he,Nat.add_sub_cancel' hcount] at ht
    rw [mul_comm]
    exact_mod_cast ht

theorem quantileStart_spec (hsampled : 0<d.sampled) (hq : 0<q) (hq1 : q≤1) :
    -1≤d.quantileStart q counted ∧ d.quantileStart q counted≤d.sampled ∧
      d.quantileStart q counted≤counted ∧
      d.cumulative (d.quantileStart q counted) counted≤q := by
  have hs:=d.sampled_le
  obtain ⟨hf,hf'⟩:=fancyBound_le hcount hpos q
  have hfloor : ⌊d.fancyBound q counted⌋≤d.sampled := Int.floor_le_iff.mpr (by push_cast; linarith)
  have hfloor' : ⌊d.fancyBound q counted⌋≤counted := Int.floor_le_iff.mpr (by push_cast; linarith)
  rw [quantileStart_eq]
  refine ⟨by omega,by omega,by omega,?_⟩
  obtain hm | hm:=max_choice (max (-1) (counted+d.sampled-d.total-1 : ℤ))
    ⌊d.fancyBound q counted⌋
  · rw [hm]
    obtain hm' | hm' := max_choice (-1) (counted+d.sampled-d.total-1 : ℤ)
    · rw [hm',cumulative_of_neg (by omega)]
      exact hq.le
    · rw [hm',cumulative_eq_zero hcount (by omega)]
      exact hq.le
  · rw [hm]
    exact cumulative_fancyBound_le hcount hpos hsampled hq hq1

theorem findQuantileImpl_spec (hs : 0<d.sampled) (hq : 0<q) (hq1 : q≤1) {r : ℤ}
    (hr : r=d.findQuantileImpl q counted) :
    -1≤r ∧ r<d.sampled ∧ d.cumulative r counted<q ∧ q≤d.cumulative (r+1) counted := by
  obtain ⟨hlow,hh,hc,hstart⟩:=quantileStart_spec hcount hpos hs hq hq1
  unfold findQuantileImpl at hr
  dsimp only at hr
  set first := d.quantileStart q counted
  rw [cdfImpl_eq hcount hh hc] at hr
  obtain ⟨hle,hl,hstop,hb⟩:=quantileLoop_spec hcount hlow hh (le_refl _)
    (show r+1=_ by rw [hr,Int.sub_add_cancel])
  have he : q≤d.cumulative (r+1) counted := by
    obtain heq | hlt:=Int.le_iff_eq_or_lt.mp hl
    · rw [heq,cumulative_sampled hcount]
      exact hq1
    · exact hstop hlt
  have hn : 0≤r+1 := by
    by_contra hneg
    rw [cumulative_of_neg (not_le.mp hneg)] at he
    exact absurd hq (not_lt.mpr he)
  refine ⟨by omega,by omega,?_,he⟩
  obtain heq | hlt:=Int.le_iff_eq_or_lt.mp hle
  · -- the bound is met exactly, so that the start itself is in the support
    obtain ⟨x,hx⟩:=Int.eq_ofNat_of_zero_le hn
    have hsupport : counted+d.sampled≤d.total+x := by
      by_contra hlow
      rw [hx,cumulative_eq_zero hcount (by omega)] at he
      exact absurd hq (not_lt.mpr he)
    have hp:=(pmfImpl_pos_iff hcount (show x≤d.sampled by omega) (by omega)).mpr hsupport
    rw [heq,hx,cumulative_natCast hcount,← hx,Int.add_sub_cancel] at hstart
    rw [← hx] at hp
    linarith
  · have hlt:=hb hlt
    rwa [Int.add_sub_cancel] at hlt

end

end

theorem findQuantile_spec (hpos : 0<d.total) (hs : 0<d.sampled) (hq : 0<q)
    (hh : q≤1/2) (ht : t=d.findQuantile q false) :
    -1≤t ∧ t<d.sampled ∧ d.cumulative t d.marked<q ∧ q≤d.cumulative (t+1) d.marked := by
  rw [findQuantile,decide_eq_false (not_lt.mpr hh)] at ht
  exact findQuantileImpl_spec d.marked_le hpos hs hq (by linarith) ht

theorem findQuantile_complement_spec (hpos : 0<d.total) (hs : 0<d.sampled)
    (hq : 0<q) (hh : q≤1/2) (ht : t=d.findQuantile q true) :
    0≤t ∧ t≤d.sampled ∧ 1-d.cumulative t d.marked<q ∧ q≤1-d.cumulative (t-1) d.marked := by
  rw [findQuantile,decide_eq_false (not_lt.mpr hh)] at ht
  replace ht : t=d.sampled-d.findQuantileImpl q (d.total-d.marked)-1 := ht
  obtain ⟨hlow,hhigh,hl,he⟩ :=
    findQuantileImpl_spec (Nat.sub_le d.total d.marked) hpos hs hq (by linarith) rfl
  set r := d.findQuantileImpl q (d.total-d.marked)
  have ht0:=cumulative_compl d.marked_le (show -1≤t by omega) (by omega)
  have ht1:=cumulative_compl d.marked_le (show -1≤t-1 by omega) (by omega)
  rw [show (d.sampled : ℤ)-t-1=r by omega] at ht0
  rw [show (d.sampled : ℤ)-(t-1)-1=r+1 by omega] at ht1
  exact ⟨by omega,by omega,by linarith,by linarith⟩

end HypergeometricDistribution
end Fcp.SecAgg

import Fcp.SecAgg.Server.GraphParameterFinder

/-!
# How likely the protocol fails with the parameters that are found

The threshold that is found is in the range that the quantiles leave, up to the last adjustment: the
minimum of two may be above the range.
-/

namespace Fcp.SecAgg

open Hypergeometric (below)

open Hypergeometric

def fewerThan (n marked k t : ℕ) : ℚ := below marked (n-marked) k t/n.choose k

theorem fewerThan_mono (n marked k : ℕ) : Monotone (fewerThan n marked k) := by
  intro t t' ht
  have hle:=below_mono marked (n-marked) k ht
  exact div_le_div_of_nonneg_right (by exact_mod_cast hle) (Nat.cast_nonneg _)

variable {marked fuel : ℕ} {t : ℤ}

theorem fewerThan_anti {n marked' : ℕ} (h : marked ≤ marked') (hn : marked'≤n) (k t : ℕ) :
    fewerThan n marked' k t≤fewerThan n marked k t := by
  obtain ⟨d,rfl⟩:=Nat.exists_eq_add_of_le h
  have hle:=below_add_le marked (n-(marked+d)) k t d
  rw [show n-(marked+d)+d=n-marked by omega] at hle
  exact div_le_div_of_nonneg_right (by exact_mod_cast hle) (Nat.cast_nonneg _)

theorem cumulative_eq (d : HypergeometricDistribution) {x : ℤ} {t : ℕ} (ht : t=x+1) :
    d.cumulative x d.marked=fewerThan d.total d.marked d.sampled t := by
  rw [HypergeometricDistribution.cumulative,show (x+1).toNat=t by omega]
  rfl

namespace HararyGraphParameterFinder

variable {f : HararyGraphParameterFinder}

theorem numberOfClients_pos : 0<f.numberOfClients := by
  have h:=f.admitted.clients.1
  omega

theorem numberOfClients_cast_pos : (0 : ℚ)<f.numberOfClients := by
  exact_mod_cast f.numberOfClients_pos

theorem numberOfClients_le : f.numberOfClients≤1000000 := by
  have h:=f.admitted.clients.2
  unfold kMaxNumberOfClients at h
  omega

theorem rates_le : f.adversarialRate≤9/10 ∧ f.dropoutRate≤9/10 := by
  have hadversaries:=f.admitted.adversarial.1
  have hd:=f.admitted.dropout.1
  obtain hc | hc | hc:=f.admitted.supported
  · have h:=f.admitted.feasible (.inl hc)
    exact ⟨by linarith,by linarith⟩
  · have h:=f.admitted.feasibleSemiMalicious hc
    exact ⟨by linarith,by linarith⟩
  · have h:=f.admitted.feasible (.inr hc)
    exact ⟨by linarith,by linarith⟩

theorem floor_rate_bounds {rate : ℚ} (hr : 0≤rate) (hle : rate≤9/10) :
    0≤⌊(rate+kSmall)*f.numberOfClients⌋ ∧
      10*⌊(rate+kSmall)*f.numberOfClients⌋≤9*f.numberOfClients := by
  have hn:=f.numberOfClients_cast_pos
  have hn' : (f.numberOfClients : ℚ)≤1000000 := by exact_mod_cast f.numberOfClients_le
  have hs : (0 : ℚ)<kSmall := by norm_num [kSmall]
  constructor
  · exact Int.floor_nonneg.mpr (by positivity)
  · have hf:=Int.floor_le ((rate+kSmall)*f.numberOfClients)
    have hp : (rate+kSmall)*f.numberOfClients≤9/10*f.numberOfClients+1/10^8 := by
      have : kSmall*f.numberOfClients≤1/10^8 := by
        unfold kSmall
        linarith
      nlinarith
    have hreal : (10*⌊(rate+kSmall)*f.numberOfClients⌋ : ℚ)<9*f.numberOfClients+1 := by linarith
    have hi : 10*⌊(rate+kSmall)*f.numberOfClients⌋<9*f.numberOfClients+1 := by exact_mod_cast hreal
    omega

def dropouts (f : HararyGraphParameterFinder) : ℕ := f.maxDropoutClients.toNat

def adversaries (f : HararyGraphParameterFinder) : ℕ := f.maxAdversarialClients.toNat

theorem maxDropoutClients_eq : f.maxDropoutClients=f.dropouts := by
  have h:=(f.floor_rate_bounds f.admitted.dropout.1 f.rates_le.2).1
  exact (Int.toNat_of_nonneg h).symm

theorem maxAdversarialClients_eq : f.maxAdversarialClients=f.adversaries := by
  have h:=(f.floor_rate_bounds f.admitted.adversarial.1 f.rates_le.1).1
  exact (Int.toNat_of_nonneg h).symm

theorem dropouts_le : 10*f.dropouts≤9*f.numberOfClients := by
  have h:=(f.floor_rate_bounds f.admitted.dropout.1 f.rates_le.2).2
  have heq:=f.maxDropoutClients_eq
  unfold maxDropoutClients at heq
  omega

theorem adversaries_le : f.adversaries≤f.numberOfClients := by
  have h:=(f.floor_rate_bounds f.admitted.adversarial.1 f.rates_le.1).2
  have heq:=f.maxAdversarialClients_eq
  unfold maxAdversarialClients at heq
  omega

theorem dropouts_lt : f.dropouts<f.numberOfClients := by
  have h:=f.dropouts_le
  have hp:=f.numberOfClients_pos
  omega

theorem survivors_eq :
    ⌈(1-f.dropoutRate-kSmall)*f.numberOfClients⌉=(f.numberOfClients-f.dropouts : ℕ) := by
  have hs : (1-f.dropoutRate-kSmall)*f.numberOfClients =
      ((f.numberOfClients : ℤ) : ℚ) + -((f.dropoutRate+kSmall)*f.numberOfClients) := by
    push_cast
    ring
  have hd : ⌊(f.dropoutRate+kSmall)*f.numberOfClients⌋=f.dropouts := f.maxDropoutClients_eq
  rw [hs,Int.ceil_intCast_add,Int.ceil_neg,hd]
  have h:=f.dropouts_lt
  omega

theorem quantile_bounds (f : HararyGraphParameterFinder) (b : ℕ) (hb : 1≤b) :
    (0 : ℚ)<1/2^b/f.numberOfClients ∧ (1/2^b/f.numberOfClients : ℚ)≤1/2 := by
  have hn : (1 : ℚ)≤f.numberOfClients := by exact_mod_cast f.numberOfClients_pos
  refine ⟨by positivity,?_⟩
  have hp : (2 : ℚ)≤2^b := by
    calc (2 : ℚ)=2^1 := (pow_one 2).symm
      _≤2^b := pow_le_pow_right₀ (by norm_num) hb
  rw [div_div,div_le_div_iff₀ (by positivity) (by norm_num)]
  nlinarith

theorem create_eq {k : ℕ} (hm : marked≤f.numberOfClients) (hk : k≤f.numberOfClients) :
    HypergeometricDistribution.create f.numberOfClients marked k =
      .ok ⟨f.numberOfClients,marked,k,hm,hk⟩ := by
  unfold HypergeometricDistribution.create
  rw [if_neg (by omega),if_neg (by omega),if_neg (by omega),dif_neg (by omega),dif_neg (by omega)]
  rfl

def adjusted (f : HararyGraphParameterFinder) (k t1 : ℕ) : ℤ :=
  if f.adversaryClass=.semiMaliciousServer then ⌈((t1+k-5/4)/2 : ℚ)⌉ else t1

structure IsRange (f : HararyGraphParameterFinder) (k t1 t2 : ℕ) : Prop where
  t1_le : t1≤k
  t2_le : t2≤k
  security : 1-fewerThan f.numberOfClients f.adversaries k (t1+1)<1/2^41/f.numberOfClients
  correctness : fewerThan f.numberOfClients (f.numberOfClients-f.dropouts) k t2 <
    1/2^20/f.numberOfClients
  t2_max : 1/2^20/f.numberOfClients ≤
    fewerThan f.numberOfClients (f.numberOfClients-f.dropouts) k (t2+1)
  t1_min : 1/2^41/f.numberOfClients≤1-fewerThan f.numberOfClients f.adversaries k t1

variable {k : ℕ}

theorem thresholdRange_eq (hk : 0<k) (hkn : k≤f.numberOfClients) :
    ∃ t1 t2 : ℕ,f.thresholdRange k=.ok (f.adjusted k t1,t2) ∧ f.IsRange k t1 t2 := by
  have hn:=f.numberOfClients_pos
  let adversarial : HypergeometricDistribution := ⟨_,_,_,f.adversaries_le,hkn⟩
  let surviving : HypergeometricDistribution := ⟨_,_,_,Nat.sub_le f.numberOfClients f.dropouts,hkn⟩
  obtain ⟨h1,h1',hs,hmin⟩:=adversarial.findQuantile_complement_spec hn hk
    (f.quantile_bounds 41 (by norm_num)).1 (f.quantile_bounds 41 (by norm_num)).2 rfl
  obtain ⟨h2,h2',hc,hm⟩:=surviving.findQuantile_spec hn hk
    (f.quantile_bounds 20 (by norm_num)).1 (f.quantile_bounds 20 (by norm_num)).2 rfl
  obtain ⟨t1,ht1⟩:=Int.eq_ofNat_of_zero_le h1
  obtain ⟨t2,ht2⟩:=Int.eq_ofNat_of_zero_le
    (show 0 ≤ surviving.findQuantile (1/2^20/f.numberOfClients) false+1 by omega)
  have hcdf : surviving.cdf (surviving.findQuantile (1/2^20/f.numberOfClients) false) <
      1/2^20/f.numberOfClients := by
    rw [HypergeometricDistribution.cdf_eq hn h2 h2'.le]
    exact hc
  refine ⟨t1,t2,?_,?_⟩
  · unfold thresholdRange
    dsimp only
    rw [f.maxAdversarialClients_eq,f.survivors_eq,create_eq f.adversaries_le hkn,
      create_eq (Nat.sub_le _ _) hkn]
    show Except.ok _=_
    rw [if_pos hcdf,ht2]
    congr 2
    unfold adjusted
    rw [ht1]
    rfl
  · rw [cumulative_eq adversarial (t := t1+1) (by omega)] at hs
    rw [cumulative_eq adversarial (t := t1) (by omega)] at hmin
    rw [cumulative_eq surviving (t := t2) (by omega)] at hc
    rw [cumulative_eq surviving (t := t2+1) (by omega)] at hm
    have hk1 : adversarial.sampled=k := rfl
    have hk2 : surviving.sampled=k := rfl
    exact ⟨by omega,by omega,hs,hc,hm,hmin⟩

variable {t1 : ℕ}

theorem le_adjusted (ht1 : t1≤k) : (t1 : ℤ)≤f.adjusted k t1 := by
  unfold adjusted
  split
  · have hle : (t1 : ℚ)≤k := by exact_mod_cast ht1
    apply Int.le_ceil_iff.mpr
    push_cast
    linarith
  · exact le_refl _

theorem one_le_adjusted (hk : 2≤k) (hc : f.adversaryClass=.semiMaliciousServer) :
    1≤f.adjusted k t1 := by
  rw [adjusted,if_pos hc]
  have hk' : (2 : ℚ)≤k := by exact_mod_cast hk
  have ht : (0 : ℚ)≤t1 := Nat.cast_nonneg _
  apply Int.le_ceil_iff.mpr
  push_cast
  linarith

theorem fewerThan_one (n marked k : ℕ) : fewerThan n marked k 1=(n-marked).choose k/n.choose k := by
  rw [fewerThan,below_succ,below_zero]
  simp

theorem fewerThan_two (n marked : ℕ) (hk : 1≤k) : fewerThan n marked k 2 =
      ((n-marked).choose k+marked*(n-marked).choose (k-1))/n.choose k := by
  rw [fewerThan,below_succ,below_succ,below_zero]
  simp [hk]

variable {t2 : ℕ}

theorem IsRange.t1_eq_zero_iff (h : f.IsRange k t1 t2) (hk : 2≤k) (hkn : k≤f.numberOfClients) :
    t1=0 ↔ f.adversaries=0 := by
  have hn:=f.numberOfClients_cast_pos
  have hc : (0 : ℚ)<f.numberOfClients.choose k := by exact_mod_cast Nat.choose_pos hkn
  constructor
  · intro ht1
    by_contra hsome
    -- one adversarial client is a neighbor with probability `k / n`
    have ho:=fewerThan_anti (Nat.one_le_iff_ne_zero.mpr hsome) f.adversaries_le k 1
    have hs:=h.security
    rw [ht1] at hs
    obtain ⟨n,hn'⟩:=Nat.exists_eq_succ_of_ne_zero f.numberOfClients_pos.ne'
    rw [fewerThan_one _ 1,hn',Nat.succ_sub_one] at ho
    have hr : (n.choose k : ℚ)/(n+1).choose k=(n+1-k)/(n+1) := by
      rw [hn'] at hc hkn
      rw [div_eq_div_iff hc.ne' (by positivity)]
      have hnat:=Nat.choose_mul_succ_eq n k
      have hcast : ((n+1-k : ℕ) : ℚ)=n+1-k := by push_cast [hkn]; ring
      rw [mul_comm ((n : ℚ)+1-k),← hcast]
      exact_mod_cast hnat
    rw [Nat.succ_eq_add_one,hr] at ho
    rw [hn'] at hs
    have hk' : (2 : ℚ)≤k := by exact_mod_cast hk
    have hp : (0 : ℚ)<n+1 := by positivity
    have hf : 1-(n+1-k)/(n+1 : ℚ)=k/(n+1) := by
      field_simp
      ring
    have hl : (k : ℚ)/(n+1)<1/2^41/(n+1) := by
      push_cast at hs
      linarith
    rw [div_lt_div_iff_of_pos_right hp] at hl
    norm_num at hl
    linarith
  · intro hz
    by_contra hne
    have hmin:=h.t1_min
    have hm:=fewerThan_mono f.numberOfClients f.adversaries k (Nat.one_le_iff_ne_zero.mpr hne)
    rw [fewerThan_one,hz,Nat.sub_zero,div_self hc.ne'] at hm
    rw [hz] at hmin
    have hp:=(f.quantile_bounds 41 (by norm_num)).1
    linarith

section

variable (hadversaries : f.adversaries=0)
include hadversaries

theorem probOfDisconnectedRandomHarary_eq (hk : k≤f.dropouts) :
    f.probOfDisconnectedRandomHarary k=f.numberOfClients*(f.numberOfClients-k-1)/2 *
      (f.dropouts.choose k/f.numberOfClients.choose k) := by
  have hlt:=f.dropouts_lt
  unfold probOfDisconnectedRandomHarary
  dsimp only
  rw [f.maxAdversarialClients_eq,f.maxDropoutClients_eq,hadversaries,if_neg (by omega),
    show ((0 : ℕ)+(f.dropouts : ℕ) : ℤ).toNat=f.dropouts by omega,
    Nat.cast_choose ℚ hk,Nat.cast_choose ℚ (hk.trans hlt.le)]
  have hf : ∀ n : ℕ,(n.factorial : ℚ)≠0 := fun n => by exact_mod_cast n.factorial_ne_zero
  field_simp [hf]

theorem probOfDisconnectedRandomHarary_zero
    (hk : f.dropouts<k) : f.probOfDisconnectedRandomHarary k=0 := by
  unfold probOfDisconnectedRandomHarary
  dsimp only
  rw [f.maxAdversarialClients_eq,f.maxDropoutClients_eq,hadversaries,if_pos (by omega)]

theorem fewerThan_two_lt (hk : 2≤k) (hkd : k≤f.dropouts)
    (hkn : k<f.numberOfClients-1) (hconnected : f.probOfDisconnectedRandomHarary k<1/2^41) :
    fewerThan f.numberOfClients (f.numberOfClients-f.dropouts) k 2<1/2^20/f.numberOfClients := by
  rw [f.probOfDisconnectedRandomHarary_eq hadversaries hkd] at hconnected
  have hlt:=f.dropouts_lt
  have hn:=f.numberOfClients_cast_pos
  have hm:=f.dropouts_le
  have hmax:=f.numberOfClients_le
  generalize f.numberOfClients=n at *
  generalize f.dropouts=d at *
  have hc : (0 : ℚ)<n.choose k := by exact_mod_cast Nat.choose_pos (by omega)
  have hw : 1+(n-d)*k≤2^20*(n-k-1) := by
    obtain hsmall | hl:=Nat.lt_or_ge (n-k-1) 7
    · have hle : (n-d)*k≤7*63 := Nat.mul_le_mul (by omega) (by omega)
      omega
    · have hle : (n-d)*k≤(n-k)*900000 := Nat.mul_le_mul (by omega) (by omega)
      omega
  have hs : d.choose (k-1)≤d.choose k*k := by
    have hnat:=Nat.choose_succ_right_eq d (k-1)
    rw [Nat.sub_add_cancel (by omega : 1≤k)] at hnat
    rw [hnat]
    exact Nat.le_mul_of_pos_right _ (by omega)
  have hfew : (d.choose k+(n-d) * d.choose (k-1) : ℕ)≤d.choose k*(2^20*(n-k-1)) := by
    calc d.choose k+(n-d)*d.choose (k-1)
        ≤ d.choose k+(n-d)*(d.choose k*k) := Nat.add_le_add_left (Nat.mul_le_mul_left _ hs) _
      _=d.choose k*(1+(n-d)*k) := by ring
      _≤_ := Nat.mul_le_mul_left _ hw
  have hf : (d.choose k+(n-d : ℕ) * d.choose (k-1) : ℚ)≤d.choose k*(2^20*(n-k-1)) := by
    have hcast : ((n-k-1 : ℕ) : ℚ)=n-k-1 := by
      rw [Nat.cast_sub (by omega),Nat.cast_sub (by omega),Nat.cast_one]
    rw [← hcast]
    exact_mod_cast hfew
  rw [fewerThan_two _ _ (by omega),Nat.sub_sub_self hlt.le,lt_div_iff₀ hn]
  calc ((d.choose k : ℚ)+(n-d : ℕ) * d.choose (k-1))/n.choose k*n
      ≤ d.choose k*(2^20*(n-k-1))/n.choose k*n :=
        mul_le_mul_of_nonneg_right (div_le_div_of_nonneg_right hf hc.le) hn.le
    _=2^21*(n*(n-k-1)/2*(d.choose k/n.choose k)) := by field_simp
    _<2^21*(1/2^41) := by linarith
    _=1/2^20 := by norm_num

theorem le_probOfDisconnectedRandomHarary (hkd : k<f.dropouts)
    (hf : f.numberOfClients.choose (f.dropouts+1) ≤
      2^20*f.numberOfClients*(f.numberOfClients-f.dropouts)) :
    1/2^41≤f.probOfDisconnectedRandomHarary k := by
  rw [f.probOfDisconnectedRandomHarary_eq hadversaries hkd.le]
  have hlt:=f.dropouts_lt
  have hm:=f.numberOfClients_le
  have hn:=f.numberOfClients_cast_pos
  generalize f.numberOfClients=n at *
  generalize f.dropouts=d at *
  have hc : (0 : ℚ)<n.choose k := by exact_mod_cast Nat.choose_pos (by omega)
  have htop : n.choose d≤2^20*n*(d+1) := by
    apply Nat.le_of_mul_le_mul_right _ (show 0<n-d by omega)
    rw [← Nat.choose_succ_right_eq]
    calc n.choose (d+1)*(d+1)
        ≤ 2^20*n*(n-d)*(d+1) := Nat.mul_le_mul_right _ hf
      _=2^20*n*(d+1)*(n-d) := by
          ring
  have hr : n.choose k≤2^20*n*(d+1)*d.choose k := by
    calc n.choose k
        ≤ n.choose k*(n-k).choose (d-k) := Nat.le_mul_of_pos_right _ (Nat.choose_pos (by omega))
      _=n.choose d*d.choose k :=
          (Nat.choose_mul hkd.le).symm
      _≤_ := Nat.mul_le_mul_right _ htop
  have hg : d+1≤2^20*(n-k-1) := by omega
  have ht : n.choose k≤2^40*(n*(n-k-1)*d.choose k) := by
    calc n.choose k
        ≤ 2^20*n*(d+1)*d.choose k := hr
      _≤2^20*n*(2^20*(n-k-1)) * d.choose k := Nat.mul_le_mul_right _ (Nat.mul_le_mul_left _ hg)
      _=_ := by ring
  have hcast : ((n-k-1 : ℕ) : ℚ)=n-k-1 := by
    rw [Nat.cast_sub (by omega),Nat.cast_sub (by omega),Nat.cast_one]
  have htotal : (n.choose k : ℚ)≤2^40*(n*(n-k-1)*d.choose k) := by
    rw [← hcast]
    exact_mod_cast ht
  rw [← mul_div_assoc,le_div_iff₀ hc]
  linarith

end

theorem degreeLoop_eq_ok {p : HararyGraphParameters} (h : f.degreeLoop fuel k=.ok (.ok p)) :
    p.numberOfNodes=f.numberOfClients ∧ p.degree<f.numberOfClients-1 ∧
      f.checkNumberOfNeighbors p.degree=.ok (some p.threshold) ∧
      ∃ j,p.degree=k+2*j := by
  induction fuel generalizing k with
  | zero => cases h
  | succ fuel ih =>
    rw [degreeLoop] at h
    split at h
    next hlt =>
      obtain ⟨found,hf,h⟩:=bind_eq_ok.mp h
      cases found with
      | some t =>
        cases h
        exact ⟨rfl,hlt,hf,0,rfl⟩
      | none =>
        obtain ⟨hn,hd,hc,j,hj⟩:=ih h
        exact ⟨hn,hd,hc,j+1,by omega⟩
    · cases h

theorem degreeLoop_of_first {j : ℕ} (hfuel : j<fuel)
    (hn : ∀ i<j,f.checkNumberOfNeighbors (k+2*i)=.ok none)
    (hlt : k+2*j<f.numberOfClients-1)
    (hs : f.checkNumberOfNeighbors (k+2*j)=.ok (some t)) :
    f.degreeLoop fuel k=.ok (.ok ⟨f.numberOfClients,k+2*j,t⟩) := by
  induction j generalizing fuel k with
  | zero =>
    obtain ⟨fuel,rfl⟩:=Nat.exists_eq_succ_of_ne_zero (by omega : fuel≠0)
    rw [Nat.mul_zero,Nat.add_zero] at hlt hs
    rw [degreeLoop,if_pos hlt,hs]
    rfl
  | succ j ih =>
    obtain ⟨fuel,rfl⟩:=Nat.exists_eq_succ_of_ne_zero (by omega : fuel≠0)
    have hf:=hn 0 (Nat.succ_pos j)
    rw [Nat.mul_zero,Nat.add_zero] at hf
    have hshift : ∀ i,k+2*(i+1)=k+2+2*i := fun i => by omega
    rw [degreeLoop,if_pos (by omega),hf]
    rw [hshift] at hlt hs ⊢
    exact ih (by omega) (fun i hi => hshift i ▸ hn (i+1) (by omega)) hlt hs

theorem checkNumberOfNeighbors_eq_some (hk : 0<k) (hkn : k≤f.numberOfClients)
    (h : f.checkNumberOfNeighbors k=.ok (some t)) :
    ∃ t1 t2 : ℕ,f.thresholdRange k=.ok (f.adjusted k t1,t2) ∧ f.IsRange k t1 t2 ∧
      f.probOfDisconnectedRandomHarary k<1/2^41 ∧ f.adjusted k t1<t2 ∧
      t=max (f.adjusted k t1+1) 2 := by
  obtain ⟨t1,t2,hr,hs⟩:=f.thresholdRange_eq hk hkn
  unfold checkNumberOfNeighbors at h
  split at h
  · cases h
  next hc =>
    rw [hr] at h
    replace h := Except.ok.inj h
    split at h
    · cases h
    next hlt =>
      cases h
      exact ⟨t1,t2,hr,hs,not_le.mp hc,not_le.mp hlt,rfl⟩

/-- The threshold that would be raised above its range: without adversarial clients, an odd
number of dropouts for which even the smallest degree above it leaves two survivors too seldom. -/
structure RaisedTooFar (f : HararyGraphParameterFinder) : Prop where
  adversaryClass : f.adversaryClass≠.semiMaliciousServer
  adversaries : (f.adversarialRate+kSmall)*f.numberOfClients<1
  odd : Odd f.dropouts
  degree : f.dropouts+2<f.numberOfClients
  few : f.numberOfClients.choose (f.dropouts+1) ≤
    2^20*f.numberOfClients*(f.numberOfClients-f.dropouts)

theorem adversaries_eq_zero_iff :
    f.adversaries=0 ↔ (f.adversarialRate+kSmall)*f.numberOfClients<1 := by
  have heq:=f.maxAdversarialClients_eq
  unfold maxAdversarialClients at heq
  constructor
  · intro h
    rw [h] at heq
    have hlt:=Int.lt_floor_add_one ((f.adversarialRate+kSmall)*f.numberOfClients)
    rw [heq] at hlt
    simpa using hlt
  · intro h
    have hf : ⌊(f.adversarialRate+kSmall)*f.numberOfClients⌋<1 :=
      Int.floor_lt.mpr (by exact_mod_cast h)
    omega

structure MeetsBounds (f : HararyGraphParameterFinder) (p : HararyGraphParameters) : Prop where
  survivors : fewerThan f.numberOfClients ⌈(1-f.dropoutRate)*f.numberOfClients⌉.toNat p.degree
    p.threshold.toNat≤1/2^20/f.numberOfClients
  adversaries : 1-fewerThan f.numberOfClients ⌊f.adversarialRate*f.numberOfClients⌋.toNat
    p.degree p.threshold.toNat≤1/2^41/f.numberOfClients
  range : ∃ t1 t2,f.thresholdRange p.degree=.ok (t1,t2) ∧ t1<p.threshold ∧ p.threshold≤t2
  threshold : 2≤p.threshold ∧ p.threshold≤p.degree

theorem IsRange.meetsBounds (h : f.IsRange k t1 t2)
    (hr : f.thresholdRange k=.ok (f.adjusted k t1,t2)) (hl : f.adjusted k t1<t)
    (ht : 2≤t) (hh : t≤t2) : f.MeetsBounds ⟨f.numberOfClients,k,t⟩ := by
  have hn:=f.numberOfClients_cast_pos
  have hsmall : (0 : ℚ)<kSmall := by norm_num [kSmall]
  have ha:=f.le_adjusted h.t1_le
  have hd:=f.admitted.dropout
  refine ⟨?_,?_,⟨_,_,hr,hl,hh⟩,ht,?_⟩
  · have hs : f.numberOfClients-f.dropouts≤⌈(1-f.dropoutRate)*f.numberOfClients⌉.toNat := by
      have hle : ⌈(1-f.dropoutRate-kSmall)*f.numberOfClients⌉ ≤
          ⌈(1-f.dropoutRate)*f.numberOfClients⌉ := Int.ceil_le_ceil (by nlinarith)
      rw [f.survivors_eq] at hle
      omega
    have hall : ⌈(1-f.dropoutRate)*f.numberOfClients⌉.toNat≤f.numberOfClients := by
      have hle : ⌈(1-f.dropoutRate)*f.numberOfClients⌉≤f.numberOfClients :=
        Int.ceil_le.mpr (by push_cast; nlinarith)
      omega
    calc fewerThan f.numberOfClients ⌈(1-f.dropoutRate)*f.numberOfClients⌉.toNat k t.toNat
        ≤ fewerThan f.numberOfClients (f.numberOfClients-f.dropouts) k t.toNat :=
          fewerThan_anti hs hall k _
      _≤fewerThan f.numberOfClients (f.numberOfClients-f.dropouts) k t2 :=
          fewerThan_mono _ _ _ (by omega)
      _≤1/2^20/f.numberOfClients := h.correctness.le
  · have hf : ⌊f.adversarialRate*f.numberOfClients⌋.toNat≤f.adversaries := by
      have hle : ⌊f.adversarialRate*f.numberOfClients⌋≤f.maxAdversarialClients :=
        Int.floor_le_floor (by nlinarith)
      rw [f.maxAdversarialClients_eq] at hle
      omega
    have hanti:=fewerThan_anti hf f.adversaries_le k t.toNat
    have hm:=fewerThan_mono f.numberOfClients f.adversaries k (show t1+1≤t.toNat by omega)
    have hsecurity:=h.security
    show 1-fewerThan f.numberOfClients ⌊f.adversarialRate*f.numberOfClients⌋.toNat k t.toNat≤_
    linarith
  · have hle:=h.t2_le
    show t≤(k : ℤ)
    omega

theorem raisedTooFar_of_range (h : f.IsRange k t1 t2) (hk : 2≤k) (he : Even k)
    (hkn : k<f.numberOfClients-1) (hconnected : f.probOfDisconnectedRandomHarary k<1/2^41)
    (hl : f.adjusted k t1=0) (ht2 : t2=1) : f.RaisedTooFar := by
  have hn:=f.numberOfClients_cast_pos
  have hc : f.adversaryClass≠.semiMaliciousServer := by
    intro hc
    have ho : 1≤f.adjusted k t1 := f.one_le_adjusted hk hc
    omega
  have ht1 : t1=0 := by
    have hle:=f.le_adjusted h.t1_le
    omega
  have hadversaries:=(h.t1_eq_zero_iff hk (by omega)).mp ht1
  have hm:=h.t2_max
  rw [ht2] at hm
  have hkd : f.dropouts<k := by
    by_contra hle
    exact absurd (f.fewerThan_two_lt hadversaries hk (not_lt.mp hle) hkn hconnected) (not_lt.mpr hm)
  have hlt:=f.dropouts_lt
  rw [show 1+1=2 from rfl,fewerThan_two _ _ (by omega),Nat.sub_sub_self hlt.le,
    Nat.choose_eq_zero_of_lt hkd] at hm
  have hchoose : (0 : ℚ)<f.numberOfClients.choose k := by exact_mod_cast Nat.choose_pos (by omega)
  have hkeq : k=f.dropouts+1 := by
    by_contra hne
    rw [Nat.choose_eq_zero_of_lt (by omega)] at hm
    have hp:=(f.quantile_bounds 20 (by norm_num)).1
    simp only [Nat.cast_zero,mul_zero,add_zero,zero_div] at hm
    linarith
  subst hkeq
  refine ⟨hc,f.adversaries_eq_zero_iff.mp hadversaries,?_,by omega,?_⟩
  · rw [← Nat.not_even_iff_odd]
    intro hev
    exact absurd he (Nat.not_even_iff_odd.mpr hev.add_one)
  · rw [Nat.add_sub_cancel,Nat.choose_self,Nat.cast_zero,zero_add,Nat.cast_one,mul_one,
      div_div,div_le_div_iff₀ (by positivity) hchoose,one_mul] at hm
    have hnat : f.numberOfClients.choose (f.dropouts+1) ≤
        (f.numberOfClients-f.dropouts)*(2^20*f.numberOfClients) := by exact_mod_cast hm
    linarith

theorem RaisedTooFar.compute_eq (h : f.RaisedTooFar) :
    f.computeDegreeAndThreshold=.ok (.ok ⟨f.numberOfClients,f.dropouts+1,2⟩) ∧
      f.thresholdRange (f.dropouts+1)=.ok (0,1) := by
  have hn:=f.numberOfClients_cast_pos
  have hlt:=f.dropouts_lt
  have hd:=h.degree
  have hadversaries:=f.adversaries_eq_zero_iff.mpr h.adversaries
  obtain ⟨j,hj⟩:=h.odd
  obtain ⟨t1,t2,hr,hs⟩:=f.thresholdRange_eq (Nat.succ_pos f.dropouts) (by omega)
  have hk : f.dropouts+1=2+2*j := by omega
  have hc : (0 : ℚ)<f.numberOfClients.choose (f.dropouts+1) := by
    exact_mod_cast Nat.choose_pos (by omega)
  have ho : fewerThan f.numberOfClients (f.numberOfClients-f.dropouts) (f.dropouts+1) 1=0 := by
    rw [fewerThan_one,Nat.sub_sub_self hlt.le,Nat.choose_succ_self,Nat.cast_zero,zero_div]
  have ht : 1/2^20/f.numberOfClients ≤
      fewerThan f.numberOfClients (f.numberOfClients-f.dropouts) (f.dropouts+1) 2 := by
    rw [fewerThan_two _ _ (by omega),Nat.sub_sub_self hlt.le,Nat.choose_succ_self,
      Nat.add_sub_cancel,Nat.choose_self,Nat.cast_zero,zero_add,Nat.cast_one,mul_one,div_div,
      div_le_div_iff₀ (by positivity) hc,one_mul]
    have hf:=h.few
    have hnat : f.numberOfClients.choose (f.dropouts+1) ≤
        (f.numberOfClients-f.dropouts)*(2^20*f.numberOfClients) := by linarith
    exact_mod_cast hnat
  have ht1 : t1=0 := (hs.t1_eq_zero_iff (by omega) (by omega)).mpr hadversaries
  have ht2 : t2=1 := by
    have hl : t2≠0 := by
      intro hz
      have hm:=hs.t2_max
      rw [hz,ho] at hm
      exact absurd (f.quantile_bounds 20 (by norm_num)).1 (not_lt.mpr hm)
    have hh : t2<2 := by
      by_contra hge
      have hmono:=fewerThan_mono f.numberOfClients (f.numberOfClients-f.dropouts)
        (f.dropouts+1) (not_lt.mp hge)
      have hcorrectness:=hs.correctness
      linarith
    omega
  rw [ht1,ht2,adjusted,if_neg h.adversaryClass] at hr
  refine ⟨?_,hr⟩
  unfold computeDegreeAndThreshold
  rw [hk]
  apply degreeLoop_of_first (by omega)
  · intro i hi
    exact if_pos (f.le_probOfDisconnectedRandomHarary hadversaries (by omega) h.few)
  · omega
  · rw [← hk,checkNumberOfNeighbors,if_neg,hr]
    · rfl
    · rw [f.probOfDisconnectedRandomHarary_zero hadversaries (Nat.lt_succ_self _)]
      norm_num

/-- The parameters that are found meet the bounds exactly if the threshold is not raised too
far. -/
theorem found_meetsBounds_iff (f : HararyGraphParameterFinder) :
    (∀ p,f.computeDegreeAndThreshold=.ok (.ok p) → f.MeetsBounds p) ↔ ¬f.RaisedTooFar := by
  constructor
  · intro h hraised
    obtain ⟨hcompute,hr⟩:=hraised.compute_eq
    obtain ⟨t1,t2,hr',-,hh⟩:=(h _ hcompute).range
    cases hr.symm.trans hr'
    have htwo : (2 : ℤ)≤1 := hh
    omega
  · intro hraised p hp
    obtain ⟨hn,hlt,hc,j,hj⟩:=degreeLoop_eq_ok hp
    obtain ⟨n,k,t⟩:=p
    dsimp only at hn hlt hc hj
    subst hn
    obtain ⟨t1,t2,hr,hs,hconnected,ht,rfl⟩ :=
      checkNumberOfNeighbors_eq_some (by omega) (by omega) hc
    have hle:=f.le_adjusted hs.t1_le
    apply hs.meetsBounds hr (by omega) (by omega)
    by_contra hh
    exact hraised (raisedTooFar_of_range hs (by omega) ⟨j+1,by omega⟩ hlt hconnected
      (by omega) (by omega))

/-- Ten clients of which one may drop out: of a client's two neighbors the threshold is two, and
one of five clients has a neighbor that has dropped out. -/
theorem tenClients_fail : ∃ f,create 10 0 (1/10) .none=.ok (.ok f) ∧
      f.computeDegreeAndThreshold=.ok (.ok ⟨10,2,2⟩) ∧
      ⌈(1-f.dropoutRate)*f.numberOfClients⌉.toNat=9 ∧
      fewerThan 10 9 2 2=1/5 ∧ ¬fewerThan 10 9 2 2≤1/2^20/10 := by
  let f : HararyGraphParameterFinder := ⟨10,0,1/10,.none,{
    clients := by decide
    adversarial := by norm_num
    dropout := by norm_num
    supported := .inr (.inr rfl)
    noAdversary := fun _ => rfl
    feasible := fun _ => by norm_num
    feasibleSemiMalicious := fun hc => by cases hc }⟩
  have hd : f.dropouts=1 := by
    have hf : ⌊(1/10+kSmall)*(10 : ℕ)⌋=1 := by
      rw [Int.floor_eq_iff]
      norm_num [kSmall]
    exact congrArg Int.toNat hf
  have hr : f.RaisedTooFar := by
    refine ⟨fun hc => (by cases hc),?_,?_,?_,?_⟩
    · show (0+kSmall)*(10 : ℕ)<1
      norm_num [kSmall]
    · rw [hd]
      exact odd_one
    · rw [hd]
      show 1+2<10
      decide
    · rw [hd]
      show Nat.choose 10 (1+1)≤2^20*10*(10-1)
      decide
  have hp : fewerThan 10 9 2 2=1/5 := by
    rw [fewerThan_two _ _ (by decide)]
    norm_num [Nat.choose]
  refine ⟨f,f.create_eq_ok,?_,?_,hp,?_⟩
  · rw [hr.compute_eq.1,hd]
  · have hceil : ⌈(1-1/10 : ℚ)*(10 : ℕ)⌉=9 := by norm_num
    exact congrArg Int.toNat hceil
  · rw [hp]
    norm_num

end HararyGraphParameterFinder
end Fcp.SecAgg

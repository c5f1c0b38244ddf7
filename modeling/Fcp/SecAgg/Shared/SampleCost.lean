import Fcp.SecAgg.Shared.MaskSamples
import Mathlib.Tactic.Positivity

/-!
# What a sample costs (shared/map_of_masks.cc)

`compute_best_sample_bits` returns the least number of bits that holds the modulus, which is the
cheapest one for moduli close enough to the next power of two.
-/

namespace Fcp.SecAgg

open SecAggVector (getBitWidth)

def expectedBytes (modulus sampleBits : ℕ) : ℚ :=
  ((sampleBits+7)/8 : ℕ)*2^sampleBits/((2^sampleBits/modulus : ℕ)*modulus)

def Cheapest (modulus sampleBits : ℕ) : Prop :=
  ∀ other,getBitWidth modulus≤other → other ≤ min 63 (getBitWidth modulus+16) →
    expectedBytes modulus sampleBits≤expectedBytes modulus other

/-- Drawing `extra` more bits in samples of `bytes` bytes costs no less. -/
def NoGain (modulus bytes extra : ℕ) : Prop :=
  (getBitWidth modulus+7)/8*(2^(getBitWidth modulus+extra)/modulus)≤bytes*2^extra

instance (modulus bytes extra : ℕ) : Decidable (NoGain modulus bytes extra) := Nat.decLe _ _

variable {m : ℕ}

theorem NoGain.mono {bs bytes' extra : ℕ} (h : NoGain m bs extra)
    (hle : bs≤bytes') : NoGain m bytes' extra :=
  h.trans (Nat.mul_le_mul_right _ hle)

theorem NoGain.of_more {bs extra more : ℕ} (h : NoGain m bs more)
    (hle : extra ≤ more) : NoGain m bs extra := by
  obtain ⟨rest,rfl⟩:=Nat.exists_eq_add_of_le hle
  have hr : 2^(getBitWidth m+extra)/m*2^rest≤2^(getBitWidth m+(extra+rest))/m := by
    rw [← Nat.add_assoc,Nat.pow_add _ _ rest,Nat.mul_comm,Nat.mul_comm _ (2^rest)]
    exact Nat.mul_div_le_mul_div_assoc _ _ _
  apply Nat.le_of_mul_le_mul_right _ (Nat.two_pow_pos rest)
  calc (getBitWidth m+7)/8*(2^(getBitWidth m+extra)/m)*2^rest
      = (getBitWidth m+7)/8 * (2^(getBitWidth m+extra)/m*2^rest) := Nat.mul_assoc _ _ _
    _≤(getBitWidth m+7)/8 * (2^(getBitWidth m+(extra+rest))/m) := Nat.mul_le_mul_left _ hr
    _ ≤ bs*2^(extra+rest) := h
    _=bs*2^extra*2^rest := by rw [Nat.pow_add,Nat.mul_assoc]

theorem expectedBytes_getBitWidth_le_iff (hm : 1 < m ∧ m≤SecAggVector.kMaxModulus) (extra : ℕ) :
    expectedBytes m (getBitWidth m)≤expectedBytes m (getBitWidth m+extra) ↔
      NoGain m ((getBitWidth m+extra+7)/8) extra := by
  obtain ⟨-,-,hle⟩:=SecAggVector.getBitWidth_bounds hm
  have hlt:=SecAggVector.two_pow_getBitWidth_lt hm.1
  have ho : 2^getBitWidth m/m=1 := by
    rw [Nat.div_eq_iff (by omega)]
    omega
  have hr : 0<2^(getBitWidth m+extra)/m := by
    apply Nat.div_pos _ (by omega)
    exact hle.trans (Nat.pow_le_pow_right (by decide) (by omega))
  rw [expectedBytes,expectedBytes,ho,NoGain]
  generalize (getBitWidth m+7)/8=bs
  generalize (getBitWidth m+extra+7)/8=bytes'
  generalize 2^(getBitWidth m+extra)/m=reps at hr
  have hr' : (0 : ℚ)<reps := by exact_mod_cast hr
  have hmod : (0 : ℚ) < m := by exact_mod_cast (by omega : 0 < m)
  have hs : (0 : ℚ)<2^getBitWidth m*m := by positivity
  have hl : (bs : ℚ)*2^getBitWidth m*(reps*m)=(bs*reps : ℕ)*(2^getBitWidth m*m) := by
    push_cast
    ring
  have hright : (bytes' : ℚ)*2^(getBitWidth m+extra)*(((1 : ℕ) : ℚ)*m) =
      (bytes'*2^extra : ℕ)*(2^getBitWidth m*m) := by
    push_cast
    rw [pow_add]
    ring
  rw [div_le_div_iff₀ (by simpa using hmod) (mul_pos hr' hmod),hl,hright,
    mul_le_mul_iff_left₀ hs,Nat.cast_le]

/-- Three numbers of extra bits decide: as many as fit the bytes drawn anyway, one more byte and
all of them, the last two cut off at what is considered. -/
theorem computeBestSampleBits_cheapest_iff (hm : 1 < m ∧ m≤SecAggVector.kMaxModulus) :
    (∃ sampleBits,computeBestSampleBits m=.ok sampleBits ∧ Cheapest m sampleBits) ↔
      let bytes := (getBitWidth m+7)/8
      let most := min 16 (63-getBitWidth m)
      NoGain m bytes (min (8*bytes-getBitWidth m) most) ∧
        NoGain m (bytes+1) (min (8*bytes-getBitWidth m+8) most) ∧
        NoGain m (bytes+2) most := by
  obtain ⟨-,hw,-⟩:=SecAggVector.getBitWidth_bounds hm
  have hb : (∃ sampleBits,computeBestSampleBits m=.ok sampleBits ∧
      Cheapest m sampleBits) ↔ Cheapest m (getBitWidth m) := by
    rw [computeBestSampleBits_eq hm]
    simp
  have he : Cheapest m (getBitWidth m) ↔ ∀ extra ≤ min 16 (63-getBitWidth m),
        NoGain m ((getBitWidth m+extra+7)/8) extra := by
    constructor
    · intro h extra hle
      rw [← expectedBytes_getBitWidth_le_iff hm]
      exact h _ (by omega) (by omega)
    · intro h other hge hle
      obtain ⟨extra,rfl⟩:=Nat.exists_eq_add_of_le hge
      rw [expectedBytes_getBitWidth_le_iff hm]
      exact h extra (by omega)
  rw [hb,he]
  generalize getBitWidth m=width at *
  dsimp only
  constructor
  · intro h
    refine ⟨?_,?_,?_⟩ <;> exact (h _ (by omega)).mono (by omega)
  · intro ⟨hs,ho,ht⟩ extra hle
    by_cases hf : extra ≤ min (8*((width+7)/8)-width) (min 16 (63-width))
    · exact (hs.of_more hf).mono (by omega)
    · by_cases hbyte : extra ≤ min (8*((width+7)/8)-width+8) (min 16 (63-width))
      · exact (ho.of_more hbyte).mono (by omega)
      · exact (ht.of_more hle).mono (by omega)

theorem computeBestSampleBits_cheapest_iff_251 :
    ∃ sampleBits,computeBestSampleBits 251=.ok sampleBits ∧ Cheapest 251 sampleBits :=
  (computeBestSampleBits_cheapest_iff (by decide)).mpr (by decide)

/-- Two bits are drawn for the modulus 3, one byte for a sample of which a quarter is rejected;
eight bits in the same byte would reject one output of 256. -/
theorem twoBits_not_cheapest :
    computeBestSampleBits 3=.ok 2 ∧ getBitWidth 3≤8 ∧ 8 ≤ min 63 (getBitWidth 3+16) ∧
      expectedBytes 3 8<expectedBytes 3 2 := by
  decide +kernel

end Fcp.SecAgg

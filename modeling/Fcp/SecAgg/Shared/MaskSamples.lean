import Fcp.Lib.Residues
import Fcp.SecAgg.Shared.VectorCodec
import Fcp.SecAgg.Shared.MapOfMasks
import Mathlib.Data.Nat.Nth

/-!
# What one key contributes to a mask

The key stream is cut into outputs, of which rejection sampling keeps those that are not below a
threshold. The samples of a key are these outputs modulo the modulus of the vector.
-/

namespace Fcp.SecAgg

open SecAggVector (getBitWidth)
open List PrngBuffer SecAggVector

def kStreamBytes : ℕ := kCacheSize*(kMaxBlocks/(kCacheSize/kBlockSize)+1)

namespace PrngBuffer

def output (b : PrngBuffer) (t : ℕ) : ℕ :=
  b.appendBytes (t*b.bytesPerOutput+1) ((b.stream (t*b.bytesPerOutput)).toNat &&& b.msbMask)
    (b.bytesPerOutput-1)

def numOutputs (b : PrngBuffer) : ℕ := kStreamBytes/b.bytesPerOutput

variable {b : PrngBuffer}

theorem nextMask_eq {t : ℕ} (ht : t<b.numOutputs) :
    b.nextMask (t*b.bytesPerOutput)=.ok (b.output t) := by
  have hp : 0<b.bytesPerOutput := by
    apply Nat.pos_of_ne_zero
    intro h0
    rw [numOutputs,h0,Nat.div_zero] at ht
    exact Nat.not_lt_zero t ht
  have hlt : t*b.bytesPerOutput<kStreamBytes :=
    lt_of_lt_of_le (Nat.mul_lt_mul_of_pos_right ht hp) (Nat.div_mul_le_self _ _)
  unfold nextMask
  split
  next hf =>
    have hb : t*b.bytesPerOutput/kBlockSize≤kMaxBlocks := by
      obtain ⟨-,hf⟩:=hf
      generalize t*b.bytesPerOutput=position at *
      simp only [kStreamBytes,kCacheSize,kMaxBlocks,kBlockSize] at *
      omega
    rw [fcpCheck,decide_eq_true hb]
    rfl
  · rfl

theorem appendBytes_lt {n k pos out : ℕ} (ho : out<2^k)
    (hbit : k+8*n≤64) : b.appendBytes pos out n<2^(k+8*n) := by
  induction n generalizing k pos out with
  | zero => exact ho
  | succ n ih =>
    have hs : out <<< 8<2^(8+k) := shiftLeft_lt ho 8
    have hb : (b.stream pos).toNat<2^(8+k) := lt_two_pow_of_le (b.stream pos).toNat_lt (by omega)
    have hk : u64 (out <<< 8)<2^(8+k) := lt_of_le_of_lt (Nat.mod_le _ _) hs
    have hsum : k+8*(n+1)=8+k+8*n := by omega
    rw [appendBytes,hsum]
    exact ih (Nat.or_lt_two_pow hk hb) (by omega)

theorem output_lt {bitsInMsb : ℕ} (hm : b.msbMask=2^bitsInMsb-1)
    (hb : bitsInMsb+8*(b.bytesPerOutput-1)≤64) (t : ℕ) :
    b.output t<2^(bitsInMsb+8*(b.bytesPerOutput-1)) := by
  refine appendBytes_lt ?_ hb
  rw [hm,Nat.and_two_pow_sub_one_eq_mod]
  exact Nat.mod_lt _ (Nat.two_pow_pos _)

def Keeps (b : PrngBuffer) (rejectionThreshold t : ℕ) : Prop := rejectionThreshold ≤ b.output t

instance (rejectionThreshold : ℕ) : DecidablePred (b.Keeps rejectionThreshold) :=
  fun _ => Nat.decLe _ _

noncomputable def sampleAt (b : PrngBuffer) (modulus rejectionThreshold i : ℕ) : ℕ :=
  b.output (Nat.nth (b.Keeps rejectionThreshold) i)%modulus

end PrngBuffer

section Loops
variable (op : ℕ → ℕ → ℕ → ℕ) (modulus : ℕ) (b : PrngBuffer)

theorem maskElements_eq (t : ℕ) (buffer : List ℕ) (ht : t+buffer.length≤b.numOutputs) :
    maskElements op modulus b (t*b.bytesPerOutput) buffer =
      .ok (buffer.mapIdx fun i v => op v (b.output (t+i)) modulus) := by
  induction buffer generalizing t with
  | nil => rfl
  | cons v rest ih =>
    rw [length_cons] at ht
    have hn:=ih (t+1) (by omega)
    rw [Nat.succ_mul] at hn
    rw [maskElements,nextMask_eq (by omega),ok_bind,hn,ok_bind,mapIdx_cons]
    simp only [Nat.add_zero,Nat.add_assoc,Nat.add_comm 1]
    rfl

theorem maskElementsRejecting_eq (threshold fuel t : ℕ) (buffer : List ℕ)
    (hb : ∀ v∈buffer,v < modulus) (hop : ∀ v < modulus,op v (0%modulus) modulus=v)
    (hf : b.numOutputs≤t+fuel)
    (hs : Nat.count (b.Keeps threshold) t+buffer.length ≤
      Nat.count (b.Keeps threshold) b.numOutputs) :
    maskElementsRejecting op modulus threshold b fuel (t*b.bytesPerOutput) buffer =
      .ok (buffer.mapIdx fun i v =>
        op v (b.sampleAt modulus threshold (Nat.count (b.Keeps threshold) t+i)) modulus) := by
  induction fuel generalizing t buffer with
  | zero =>
    cases buffer with
    | nil => rfl
    | cons v rest =>
      have hm : Nat.count (b.Keeps threshold) b.numOutputs≤Nat.count (b.Keeps threshold) t :=
        Nat.count_monotone _ (by omega)
      rw [length_cons] at hs
      omega
  | succ fuel ih =>
    cases buffer with
    | nil => rfl
    | cons v rest =>
      have ht : t<b.numOutputs := by
        by_contra hge
        have hm : Nat.count (b.Keeps threshold) b.numOutputs ≤
            Nat.count (b.Keeps threshold) t := Nat.count_monotone _ (by omega)
        rw [length_cons] at hs
        omega
      rw [maskElementsRejecting,nextMask_eq ht,ok_bind]
      split
      next hr =>
        -- the element stays as it is and the loop goes on with the next output
        have hk : ¬ b.Keeps threshold t := Nat.not_le.mpr hr
        have hc : Nat.count (b.Keeps threshold) (t+1)=Nat.count (b.Keeps threshold) t := by
          rw [Nat.count_succ,if_neg hk,Nat.add_zero]
        rw [hop v (hb v mem_cons_self),← Nat.succ_mul,ih _ _ hb (by omega) (by rwa [hc]),hc]
      next hkeep =>
        have hk : b.Keeps threshold t := Nat.not_lt.mp hkeep
        have hc : Nat.count (b.Keeps threshold) (t+1)=Nat.count (b.Keeps threshold) t+1 := by
          rw [Nat.count_succ,if_pos hk]
        have hsamples : b.sampleAt modulus threshold (Nat.count (b.Keeps threshold) t) =
            b.output t%modulus := by
          rw [sampleAt,Nat.nth_count hk]
        rw [length_cons] at hs
        rw [← Nat.succ_mul,ih _ _ (fun w hw => hb w (mem_cons_of_mem _ hw)) (by omega)
          (by rw [hc]; omega),ok_bind,mapIdx_cons,hc]
        simp only [Nat.add_zero,hsamples,Nat.add_assoc,Nat.add_comm 1]
        rfl

end Loops

def sampleBitsOf (modulus : ℕ) : ℕ :=
  if isPowerOfTwo modulus then bitWidth (modulus-1)
  else
    match computeBestSampleBits modulus with
    | .ok sampleBits => sampleBits
    | .error _ => 0

def rejectionThreshold (modulus : ℕ) : ℕ := (2^sampleBitsOf modulus-modulus)%modulus

def PrngBuffer.ofKey (c : Crypto) (sessionId : Bytes) (spec : InputVectorSpecification)
    (prngKey : AesKey) : PrngBuffer :=
  let sampleBits := sampleBitsOf spec.modulus
  ⟨c.prngStream (digestKey c (prngInput sessionId spec) sampleBits prngKey),
    u8 (2^(sampleBits-(divideRoundUp sampleBits 8-1)*8)-1),divideRoundUp sampleBits 8⟩

noncomputable def sample (c : Crypto) (sessionId : Bytes) (spec : InputVectorSpecification)
    (prngKey : AesKey) (i : ℕ) : ℕ :=
  (ofKey c sessionId spec prngKey).sampleAt spec.modulus
    (rejectionThreshold spec.modulus) i

def HasSamples (c : Crypto) (sessionId : Bytes) (spec : InputVectorSpecification)
    (prngKey : AesKey) : Prop :=
  spec.length≤Nat.count ((ofKey c sessionId spec prngKey).Keeps
    (rejectionThreshold spec.modulus)) (ofKey c sessionId spec prngKey).numOutputs

variable {bits m s : ℕ} {sign : ℤ}

theorem divideRoundUp_eight (hb : bits≤64) : divideRoundUp bits 8=(bits+7)/8 := by
  unfold divideRoundUp u32
  omega

/-- The second product is never the smaller one, although the second number of bits may be the
cheaper one. -/
theorem chooseBetterSampleBits_eq {modulus bits₁ bits₂ : ℕ} (hle : bits₁≤bits₂)
    (hb : bits₂≤16) (hmod : modulus≤2^bits₁) :
    chooseBetterSampleBits modulus bits₁ bits₂=.ok bits₁ := by
  have hm : bits₂≤kMaxSampleBits := by
    unfold kMaxSampleBits
    omega
  have he : bits₂-bits₁≤kMaxSampleBitsExpansion := by
    unfold kMaxSampleBitsExpansion
    omega
  have hpow : 2^bits₁≤2^bits₂ := Nat.pow_le_pow_right (by decide) hle
  have hpow' : 2^bits₂≤2^16 := Nat.pow_le_pow_right (by decide) hb
  have hr : 2^bits₁/modulus≤2^bits₂/modulus := Nat.div_le_div_right hpow
  have hr' : 2^bits₂/modulus≤2^16 := (Nat.div_le_self _ _).trans hpow'
  have hc : (bits₁+7)/8*(2^bits₁/modulus)≤(bits₂+7)/8*(2^bits₂/modulus) :=
    Nat.mul_le_mul (Nat.div_le_div_right (by omega)) hr
  have hc' : (bits₂+7)/8*(2^bits₂/modulus)≤2*2^16 := Nat.mul_le_mul (by omega) hr'
  have ho : 2^(bits₂-bits₁)≤2^16 := Nat.pow_le_pow_right (by decide) (by omega)
  have hp:=Nat.mul_le_mul hc' ho
  have hs:=Nat.le_mul_of_pos_right ((bits₂+7)/8*(2^bits₂/modulus)) (Nat.two_pow_pos (bits₂-bits₁))
  unfold chooseBetterSampleBits
  simp only [decide_eq_true hle,decide_eq_true hm,decide_eq_true he,
    decide_eq_true hmod,fcpCheck_true,ok_bind]
  split
  · rfl
  · rw [divideRoundUp_eight (by omega),divideRoundUp_eight (by omega),
      u64_of_lt (show _<2^64 by omega),
      u64_of_lt (show (bits₂+7)/8*(2^bits₂/modulus)<2^64 by omega),
      u64_of_lt (show _<2^64 by omega),if_neg (by omega)]
    rfl

theorem foldlM_chooseBetterSampleBits {modulus start best count : ℕ} (hb : best<start)
    (he : start+count≤17) (hm : modulus≤2^best) :
    (List.range' start count).foldlM (chooseBetterSampleBits modulus) best=.ok best := by
  induction count generalizing start with
  | zero => rfl
  | succ count ih =>
    rw [range'_succ,foldlM_cons,chooseBetterSampleBits_eq (Nat.le_of_lt hb) (by omega) hm,ok_bind]
    exact ih (by omega) (by omega)

/-- The upper limit of the loop is 16 bits, not 16 bits more than the lower one, and the loop
keeps the lower one. -/
theorem computeBestSampleBits_eq {modulus : ℕ} (hm : 1 < modulus ∧ modulus≤kMaxModulus) :
    computeBestSampleBits modulus=.ok (getBitWidth modulus) := by
  obtain ⟨-,-,hle⟩:=getBitWidth_bounds hm
  have hmin : min kMaxSampleBitsExpansion (getBitWidth modulus+kMaxSampleBitsExpansion)=16 := by
    simp only [kMaxSampleBitsExpansion]
    omega
  show (List.range' (getBitWidth modulus+1)
    (min kMaxSampleBitsExpansion (getBitWidth modulus+kMaxSampleBitsExpansion) -
      getBitWidth modulus)).foldlM (chooseBetterSampleBits modulus) (getBitWidth modulus)=_
  rw [hmin]
  by_cases hs : getBitWidth modulus≤16
  · exact foldlM_chooseBetterSampleBits (Nat.lt_succ_self _) (by omega) hle
  · have hn : 16-getBitWidth modulus=0 := by omega
    rw [hn]
    rfl

theorem sampleBitsOf_eq {modulus : ℕ} (hm : 1 < modulus ∧ modulus≤kMaxModulus) :
    sampleBitsOf modulus=getBitWidth modulus := by
  rw [sampleBitsOf,computeBestSampleBits_eq hm]
  exact ite_self _

theorem sampleBits_eq {modulus : ℕ} (hm : 1 < modulus ∧ modulus≤kMaxModulus) :
    (if isPowerOfTwo modulus then pure (bitWidth (modulus-1))
      else computeBestSampleBits modulus)=(.ok (sampleBitsOf modulus) : Checked ℕ) ∧
    0<sampleBitsOf modulus ∧ sampleBitsOf modulus≤62 ∧ modulus≤2^sampleBitsOf modulus := by
  rw [sampleBitsOf_eq hm,computeBestSampleBits_eq hm]
  exact ⟨ite_self _,getBitWidth_bounds hm⟩

theorem bytesPerOutput_bounds (hp : 0<bits) (hle : bits≤62) :
    0<divideRoundUp bits 8 ∧ divideRoundUp bits 8≤8 ∧
      bits=bits-(divideRoundUp bits 8-1)*8+8*(divideRoundUp bits 8-1) ∧
      bits-(divideRoundUp bits 8-1)*8≤8 := by
  unfold divideRoundUp u32
  omega

theorem cacheSize_mod {n : ℕ} (hp : 0<n) (hle : n≤8) : kCacheSize%n=0 := by
  interval_cases n <;> rfl

section Key
variable (c : Crypto) (sid : Bytes) (spec : InputVectorSpecification) (prngKey : AesKey)

theorem create_ofKey : create (ofKey c sid spec prngKey).stream (ofKey c sid spec prngKey).msbMask
      (ofKey c sid spec prngKey).bytesPerOutput=.ok (ofKey c sid spec prngKey) := by
  obtain ⟨-,hp,hle,-⟩:=sampleBits_eq spec.modulus_valid
  obtain ⟨hp',hle',-⟩ := bytesPerOutput_bounds hp hle
  have hm : kCacheSize%(ofKey c sid spec prngKey).bytesPerOutput=0 := cacheSize_mod hp' hle'
  unfold create
  rw [decide_eq_true hm,fcpCheck_true]
  rfl

theorem applyKey_ofKey (fuel : ℕ) (op : ℕ → ℕ → ℕ → ℕ) (buffer : List ℕ) :
    applyKey c fuel sid spec (sampleBitsOf spec.modulus) op buffer prngKey =
      if isPowerOfTwo spec.modulus then
        maskElements op spec.modulus (ofKey c sid spec prngKey) 0 buffer
      else
        maskElementsRejecting op spec.modulus (rejectionThreshold spec.modulus)
          (ofKey c sid spec prngKey) fuel 0 buffer := by
  have hc:=create_ofKey c sid spec prngKey
  dsimp only [ofKey] at hc
  unfold applyKey
  dsimp only
  rw [hc,ok_bind]
  rfl

theorem numOutputs_ofKey : 2^31≤(ofKey c sid spec prngKey).numOutputs ∧
      (ofKey c sid spec prngKey).numOutputs≤kStreamBytes := by
  obtain ⟨-,hp,hle,-⟩:=sampleBits_eq spec.modulus_valid
  obtain ⟨hp',hle',-⟩ := bytesPerOutput_bounds hp hle
  refine ⟨?_,Nat.div_le_self _ _⟩
  have hd : kStreamBytes/8≤(ofKey c sid spec prngKey).numOutputs := Nat.div_le_div_left hle' hp'
  exact le_trans (by decide) hd

theorem output_ofKey_lt (t : ℕ) :
    (ofKey c sid spec prngKey).output t<2^sampleBitsOf spec.modulus := by
  obtain ⟨-,hp,hle,-⟩:=sampleBits_eq spec.modulus_valid
  obtain ⟨-,-,hb,hmsb⟩ := bytesPerOutput_bounds hp hle
  have hm : (ofKey c sid spec prngKey).msbMask =
      2^(sampleBitsOf spec.modulus-(divideRoundUp (sampleBitsOf spec.modulus) 8-1)*8) -
        1 := by
    have hpow:=Nat.pow_le_pow_right (show 0<2 by decide) hmsb
    exact Nat.mod_eq_of_lt (by omega)
  have hb' : sampleBitsOf spec.modulus-(divideRoundUp (sampleBitsOf spec.modulus) 8-1)*8 +
      8*((ofKey c sid spec prngKey).bytesPerOutput-1)=sampleBitsOf spec.modulus := hb.symm
  have hlt:=output_lt hm (by rw [hb']; omega) t
  rwa [hb'] at hlt

variable {spec}

section

variable (hpow : isPowerOfTwo spec.modulus=true)
include hpow

theorem rejectionThreshold_of_isPowerOfTwo :
    2^sampleBitsOf spec.modulus=spec.modulus ∧ rejectionThreshold spec.modulus=0 := by
  have hb : 2^sampleBitsOf spec.modulus=spec.modulus := by
    rw [sampleBitsOf,if_pos hpow]
    exact of_decide_eq_true hpow
  refine ⟨hb,?_⟩
  rw [rejectionThreshold,hb,Nat.sub_self,Nat.zero_mod]

theorem sample_of_isPowerOfTwo (i : ℕ) :
    sample c sid spec prngKey i=(ofKey c sid spec prngKey).output i := by
  obtain ⟨hb,ht⟩:=rejectionThreshold_of_isPowerOfTwo hpow
  have hk (t : ℕ) : (ofKey c sid spec prngKey).Keeps 0 t := Nat.zero_le _
  have hlt:=output_ofKey_lt c sid spec prngKey i
  rw [sample,sampleAt,ht,Nat.nth_of_forall fun t _ => hk t]
  exact Nat.mod_eq_of_lt (hb ▸ hlt)

theorem hasSamples_of_isPowerOfTwo : HasSamples c sid spec prngKey := by
  have hk (t : ℕ) : (ofKey c sid spec prngKey).Keeps 0 t := Nat.zero_le _
  have hm:=(numOutputs_ofKey c sid spec prngKey).1
  rw [HasSamples,(rejectionThreshold_of_isPowerOfTwo hpow).2,Nat.count_of_forall fun t _ => hk t]
  exact le_trans (Nat.le_of_lt spec.length_valid) hm

end

end Key

def Moves (op : ℕ → ℕ → ℕ → ℕ) (sign : ℤ) : Prop :=
  ∀ m : ℕ,1 < m ∧ m≤kMaxModulus → ∀ (x : ℤ),∀ s < m,op (x%m).toNat s m=((x+sign*s)%m).toNat

theorem toNat_emod_natCast (hs : s < m) : ((s : ℤ)%m).toNat=s := by
  rw [Int.emod_eq_of_lt (by omega) (by omega),Int.toNat_natCast]

theorem moves_of_add {op : ℕ → ℕ → ℕ → ℕ}
    (h : ∀ r s m,r < m → s < m → m≤2^62 → op r s m=(r+s)%m) : Moves op 1 := by
  intro m hm x s hs
  have ha:=toNat_emod_add (show 0 < m by omega) x s
  rw [toNat_emod_natCast hs] at ha
  rw [h _ _ _ (toNat_emod_lt (by omega) x) hs hm.2,ha,one_mul]

theorem moves_addMod : Moves addMod 1 := moves_of_add fun _ _ _ hr hs hm => addMod_eq (by omega)

theorem moves_addModOpt : Moves addModOpt 1 :=
  moves_of_add fun _ _ _ hr hs hm => addModOpt_eq hr hs (by omega)

theorem eq_of_add_eq {r : ℕ} {x : ℤ} (hr : r < m) (h : (r+s)%m=(x%m).toNat) :
    r=((x + -1*s)%m).toNat := by
  have hm : (m : ℤ)≠0 := by omega
  have hmod : ((r+s : ℕ) : ℤ) ≡ x [ZMOD m] := by
    rw [Int.ModEq,← Int.natCast_emod,h,Int.toNat_of_nonneg (Int.emod_nonneg x hm)]
  have hs : (r : ℤ)%m=(x + -1*s)%m := by
    have hs:=hmod.sub_right (s : ℤ)
    rwa [Int.natCast_add,add_sub_cancel_right,Int.sub_eq_add_neg,← neg_one_mul] at hs
  rw [← hs,toNat_emod_natCast hr]

theorem moves_subtractMod : Moves subtractMod (-1) := by
  intro m hm x s hs
  have hmax : m≤2^62 := hm.2
  have hx:=toNat_emod_lt (show 0 < m by omega) x
  have hw : subtractMod (x%m).toNat s m=((x%m).toNat+m-s)%m := by
    generalize (x%m).toNat=a at *
    unfold subtractMod u64
    have hsum : a+(2^64-s)+m=a+m-s+2^64 := by omega
    rw [hsum,Nat.add_mod_right,Nat.mod_eq_of_lt (show a+m-s<2^64 by omega)]
  rw [hw]
  refine eq_of_add_eq (Nat.mod_lt _ (by omega)) ?_
  rw [Nat.mod_add_mod,Nat.sub_add_cancel (by omega),Nat.add_mod_right,Nat.mod_eq_of_lt hx]

theorem moves_subtractModOpt : Moves subtractModOpt (-1) := by
  intro m hm x s hs
  have hx:=toNat_emod_lt (show 0 < m by omega) x
  obtain ⟨ha,hlt⟩:=subtractModOpt_add hx hs
  exact eq_of_add_eq hlt ha

variable {fuel : ℕ}

theorem applyKey_eq {op : ℕ → ℕ → ℕ → ℕ} (hop : Moves op sign) {c : Crypto}
    (hf : kStreamBytes≤fuel) {sid : Bytes} {spec : InputVectorSpecification}
    {prngKey : AesKey} (hs : HasSamples c sid spec prngKey) (f : ℕ → ℤ) :
    applyKey c fuel sid spec (sampleBitsOf spec.modulus) op
      (residues spec.modulus spec.length f) prngKey =
        .ok (residues spec.modulus spec.length fun i =>
          f i+sign*sample c sid spec prngKey i) := by
  have hmap : (residues spec.modulus spec.length f).mapIdx
      (fun i v => op v (sample c sid spec prngKey i) spec.modulus) =
        residues spec.modulus spec.length fun i =>
          f i+sign*sample c sid spec prngKey i := by
    refine ext_getElem (by simp) fun i _ _ => ?_
    rw [getElem_mapIdx]
    simp only [residues,getElem_map,getElem_range]
    exact hop _ spec.modulus_valid (f i) _ (Nat.mod_lt _ (Nat.lt_of_succ_lt spec.modulus_valid.1))
  have hr : ∀ v∈residues spec.modulus spec.length f,v<spec.modulus :=
    fun v hv => lt_of_mem_residues (Nat.lt_of_succ_lt spec.modulus_valid.1) hv
  obtain ⟨hm,hfew⟩:=numOutputs_ofKey c sid spec prngKey
  rw [applyKey_ofKey,← hmap]
  split
  next hpow =>
    have hrun:=maskElements_eq op spec.modulus (ofKey c sid spec prngKey) 0
      (residues spec.modulus spec.length f)
      (by rw [length_residues]; have := spec.length_valid; omega)
    rw [Nat.zero_mul] at hrun
    simp only [Nat.zero_add,← sample_of_isPowerOfTwo c sid prngKey hpow] at hrun
    exact hrun
  · have hz (v : ℕ) (hv : v<spec.modulus) : op v (0%spec.modulus) spec.modulus=v := by
      have hmove:=hop _ spec.modulus_valid v 0 (Nat.lt_of_succ_lt spec.modulus_valid.1)
      rwa [Nat.cast_zero,mul_zero,add_zero,toNat_emod_natCast hv,← Nat.zero_mod spec.modulus]
        at hmove
    have hrun:=maskElementsRejecting_eq op spec.modulus
      (ofKey c sid spec prngKey) (rejectionThreshold spec.modulus) fuel 0
      (residues spec.modulus spec.length f) hr hz (by omega)
      (by rw [Nat.count_zero,Nat.zero_add,length_residues]; exact hs)
    rw [Nat.zero_mul,Nat.count_zero] at hrun
    simp only [Nat.zero_add] at hrun
    exact hrun

noncomputable def maskSum (c : Crypto) (sessionId : Bytes) (prngKeysToAdd prngKeysToSubtract :
    List AesKey) (spec : InputVectorSpecification) (i : ℕ) : ℤ :=
  (prngKeysToAdd.map fun key => (sample c sessionId spec key i : ℤ)).sum -
    (prngKeysToSubtract.map fun key => (sample c sessionId spec key i : ℤ)).sum

theorem foldlM_applyKey {op : ℕ → ℕ → ℕ → ℕ} (hop : Moves op sign) {c : Crypto}
    (hf : kStreamBytes≤fuel) {sid : Bytes} {spec : InputVectorSpecification}
    {keys : List AesKey} (hs : ∀ key∈keys,HasSamples c sid spec key) (f : ℕ → ℤ) :
    keys.foldlM (applyKey c fuel sid spec (sampleBitsOf spec.modulus) op)
      (residues spec.modulus spec.length f)=.ok (residues spec.modulus spec.length fun i =>
          f i+sign*(keys.map fun key => (sample c sid spec key i : ℤ)).sum) := by
  induction keys generalizing f with
  | nil => simp [pure,Except.pure]
  | cons key keys ih =>
    rw [foldlM_cons,applyKey_eq hop hf (hs key mem_cons_self),ok_bind,
      ih fun k hk => hs k (mem_cons_of_mem _ hk)]
    simp only [map_cons,sum_cons,mul_add,add_assoc]

theorem maskVector_eq {addImpl subtractImpl : ℕ → ℕ → ℕ → ℕ} (ha : Moves addImpl 1)
    (hsub : Moves subtractImpl (-1)) {c : Crypto} (hf : kStreamBytes≤fuel)
    {sid : Bytes} {spec : InputVectorSpecification}
    {prngKeysToAdd prngKeysToSubtract : List AesKey}
    (hs : ∀ key∈prngKeysToAdd++prngKeysToSubtract,HasSamples c sid spec key) :
    maskVector c fuel addImpl subtractImpl prngKeysToAdd prngKeysToSubtract sid spec =
      .ok (residues spec.modulus spec.length
        (maskSum c sid prngKeysToAdd prngKeysToSubtract spec)) := by
  have hk : (do
      let buffer ← prngKeysToAdd.foldlM
        (applyKey c fuel sid spec (sampleBitsOf spec.modulus) addImpl)
        (List.replicate spec.length 0)
      prngKeysToSubtract.foldlM
        (applyKey c fuel sid spec (sampleBitsOf spec.modulus) subtractImpl) buffer) =
      (.ok (residues spec.modulus spec.length
        (maskSum c sid prngKeysToAdd prngKeysToSubtract spec)) : Checked (List ℕ)) := by
    rw [← residues_zero (m := spec.modulus),
      foldlM_applyKey ha hf fun key hkey => hs key (mem_append_left _ hkey),
      ok_bind,
      foldlM_applyKey hsub hf fun key hkey => hs key (mem_append_right _ hkey)]
    simp only [zero_add,one_mul,neg_one_mul,← sub_eq_add_neg]
    rfl
  have hb:=(sampleBits_eq spec.modulus_valid).1
  unfold maskVector
  dsimp only
  split at hb
  next hpow =>
    rw [if_pos hpow,hb]
    exact hk
  next hpow =>
    rw [if_neg hpow,hb]
    exact hk

end Fcp.SecAgg

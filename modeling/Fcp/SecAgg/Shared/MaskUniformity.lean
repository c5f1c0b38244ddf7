import Fcp.Lib.EvenCount
import Fcp.SecAgg.Shared.MaskSamples
import Mathlib.Logic.Equiv.Fin.Basic

/-!
# Masks from random bytes (shared/map_of_masks.cc)

`NextMask` takes every value below the sample modulus equally often, and the rejection threshold
leaves a multiple of the modulus of them.
-/

namespace Fcp.SecAgg

open SecAggVector (getBitWidth)
open List PrngBuffer

instance fintypeUInt8 : Fintype UInt8 :=
  Fintype.ofEquiv (Fin 256) ⟨UInt8.ofFin,UInt8.toFin,fun _ => rfl,fun _ => rfl⟩

theorem evenlyValued_toNat : EvenlyValued UInt8.toNat 256 1 where
  lt x := x.toNat_lt
  card_eq v hv := by
    rw [Fintype.card_eq_one_iff]
    refine ⟨⟨UInt8.ofNat v,by simpa using hv⟩,fun x => Subtype.ext ?_⟩
    have hvalue : UInt8.ofNat x.1.toNat=UInt8.ofNat v := by rw [x.2]
    rwa [UInt8.ofNat_toNat] at hvalue

def streamOf {n : ℕ} (bytes : Fin n → UInt8) (position : ℕ) : UInt8 :=
  if h : position<n then bytes ⟨position,h⟩ else 0

namespace PrngBuffer

theorem appendBytes_eq_foldl (b : PrngBuffer) (pos out n : ℕ) : b.appendBytes pos out n =
      ((List.range n).map fun i => b.stream (pos+i)).foldl
        (fun out byte => u64 (out <<< 8) ||| byte.toNat) out := by
  induction n generalizing pos out with
  | zero => rfl
  | succ n ih =>
    rw [appendBytes,ih,range_succ_eq_map,map_cons,foldl_cons,map_map]
    congr 1
    apply map_congr_left
    intro i _
    show b.stream (pos+1+i)=b.stream (pos+(i+1))
    rw [Nat.add_assoc,Nat.add_comm 1 i]

theorem output_congr {b : PrngBuffer} {stream : ℕ → UInt8} {t : ℕ} (hp : 0<b.bytesPerOutput)
    (h : ∀ i<b.bytesPerOutput,stream (t*b.bytesPerOutput+i)=b.stream (t*b.bytesPerOutput+i)) :
    ({ b with stream := stream } : PrngBuffer).output t=b.output t := by
  have hf:=h 0 hp
  rw [Nat.add_zero] at hf
  rw [output,output,appendBytes_eq_foldl,appendBytes_eq_foldl]
  simp only [hf]
  congr 1
  apply map_congr_left
  intro i hi
  rw [mem_range] at hi
  rw [Nat.add_assoc]
  exact h (1+i) (by omega)

def readBlock (msbMask : ℕ) {n : ℕ} (block : Fin n → UInt8) : ℕ :=
  output ⟨streamOf block,msbMask,n⟩ 0

theorem output_eq_readBlock {b : PrngBuffer} {t : ℕ} (block : Fin b.bytesPerOutput → UInt8)
    (hp : 0<b.bytesPerOutput)
    (hb : ∀ i : Fin b.bytesPerOutput,b.stream (t*b.bytesPerOutput+i)=block i) :
    b.output t=readBlock b.msbMask block := by
  have hr (i : ℕ) (hi : i<b.bytesPerOutput) : b.stream (t*b.bytesPerOutput+i)=streamOf block i := by
    rw [streamOf,dif_pos hi]
    exact hb ⟨i,hi⟩
  have hf:=hr 0 hp
  rw [Nat.add_zero] at hf
  rw [readBlock,output,output,appendBytes_eq_foldl,appendBytes_eq_foldl]
  simp only [Nat.zero_mul,Nat.zero_add,hf]
  congr 1
  apply map_congr_left
  intro i hi
  rw [mem_range] at hi
  rw [Nat.add_assoc]
  exact hr (1+i) (by omega)

variable {bits n r : ℕ}

theorem readBlock_snoc (hb : bits+8*(n+1)≤64) (block : Fin (n+1) → UInt8) (last : UInt8) :
    readBlock (2^bits-1) (Fin.snoc block last : Fin (n+2) → UInt8) =
      256*readBlock (2^bits-1) block+last.toNat := by
  have hinit (i : ℕ) (hi : i<n+1) :
      streamOf (Fin.snoc block last : Fin (n+2) → UInt8) i=streamOf block i := by
    rw [streamOf,dif_pos (by omega),streamOf,dif_pos hi]
    exact Fin.snoc_castSucc (α := fun _ => UInt8) last block ⟨i,hi⟩
  have hl : streamOf (Fin.snoc block last : Fin (n+2) → UInt8) (1+n)=last := by
    rw [streamOf,dif_pos (by omega)]
    have hindex : (⟨1+n,by omega⟩ : Fin (n+2))=Fin.last (n+1) := Fin.ext (Nat.add_comm 1 n)
    rw [hindex]
    exact Fin.snoc_last (α := fun _ => UInt8) last block
  have hlt : readBlock (2^bits-1) block<2^(bits+8*n) :=
    output_lt rfl (by simp only [Nat.add_sub_cancel]; omega) 0
  have hs : readBlock (2^bits-1) block <<< 8<2^64 := by
    rw [Nat.shiftLeft_eq]
    calc readBlock (2^bits-1) block*2^8<2^(bits+8*n)*2^8 :=
          Nat.mul_lt_mul_of_pos_right hlt (by decide)
      _=2^(bits+8*(n+1)) := by rw [← Nat.pow_add,Nat.mul_succ,Nat.add_assoc]
      _≤2^64 := Nat.pow_le_pow_right (by decide) hb
  have hstart : readBlock (2^bits-1) (Fin.snoc block last : Fin (n+2) → UInt8) =
      u64 (readBlock (2^bits-1) block <<< 8) ||| last.toNat := by
    rw [readBlock,readBlock,output,output,appendBytes_eq_foldl,appendBytes_eq_foldl]
    simp only [Nat.zero_mul,Nat.zero_add,Nat.add_sub_cancel,hinit 0 (Nat.succ_pos n)]
    rw [range_succ,map_append,foldl_append]
    have hmap : (List.range n).map
        (fun i => streamOf (Fin.snoc block last : Fin (n+2) → UInt8) (1+i)) =
          (List.range n).map fun i => streamOf block (1+i) := by
      apply map_congr_left
      intro i hi
      rw [mem_range] at hi
      exact hinit (1+i) (by omega)
    rw [hmap,map_singleton,foldl_cons,foldl_nil,hl]
  rw [hstart,u64_of_lt hs,← Nat.shiftLeft_add_eq_or_of_lt last.toNat_lt,Nat.shiftLeft_eq,
    Nat.mul_comm]

theorem evenlyValued_readBlock (hmsb : bits≤8) (hn : 0<n) (hbit : bits+8*(n-1)≤64) :
    EvenlyValued (fun block : Fin n → UInt8 => readBlock (2^bits-1) block)
      (2^(bits+8*(n-1))) (2^(8-bits)) := by
  obtain ⟨n,rfl⟩ : ∃ n',n=n'+1 := ⟨n-1,by omega⟩
  rw [Nat.add_sub_cancel] at hbit ⊢
  clear hn
  induction n with
  | zero =>
    have hs : 256=2^bits*2^(8-bits) := by rw [← Nat.pow_add,Nat.add_sub_cancel' hmsb]
    have hb:=evenlyValued_toNat
    rw [hs] at hb
    have hr:=(hb.mod (Nat.two_pow_pos bits)).comp_equiv (Equiv.funUnique (Fin 1) UInt8)
    rw [Nat.one_mul] at hr
    have hv : (fun block : Fin 1 → UInt8 => readBlock (2^bits-1) block) =
        (fun x : UInt8 => x.toNat%2^bits) ∘ Equiv.funUnique (Fin 1) UInt8 := by
      funext block
      show (block 0).toNat &&& (2^bits-1)=(block 0).toNat%2^bits
      exact Nat.and_two_pow_sub_one_eq_mod _ _
    rw [hv]
    exact hr
  | succ n ih =>
    have hp:=(ih (by omega)).pair evenlyValued_toNat (by decide)
    have hr:=hp.comp_equiv
      ((Fin.snocEquiv fun _ : Fin (n+2) => UInt8).symm.trans (Equiv.prodComm _ _))
    have hv : (fun block : Fin (n+2) → UInt8 => readBlock (2^bits-1) block) =
        (fun x : (Fin (n+1) → UInt8) × UInt8 =>
          256*readBlock (2^bits-1) x.1+x.2.toNat) ∘
            ((Fin.snocEquiv fun _ : Fin (n+2) => UInt8).symm.trans (Equiv.prodComm _ _)) := by
      funext block
      have hsnoc:=readBlock_snoc (by omega) (Fin.init block) (block (Fin.last (n+1)))
      rw [Fin.snoc_init_self] at hsnoc
      exact hsnoc
    have hc : 2^(bits+8*(n+1))=256*2^(bits+8*n) := by
      rw [Nat.mul_succ,← Nat.add_assoc,Nat.pow_add _ _ 8,Nat.mul_comm]
    rw [hv,hc]
    rw [Nat.mul_one] at hr
    exact hr

end PrngBuffer

def outputBytes (modulus : ℕ) : ℕ := divideRoundUp (sampleBitsOf modulus) 8

def PrngBuffer.ofStream (modulus : ℕ) (stream : ℕ → UInt8) : PrngBuffer :=
  ⟨stream,u8 (2^(sampleBitsOf modulus-(outputBytes modulus-1)*8)-1),outputBytes modulus⟩

theorem ofKey_eq_ofStream (c : Crypto) (sid : Bytes) (spec : InputVectorSpecification)
    (prngKey : AesKey) : ofKey c sid spec prngKey=ofStream spec.modulus (c.prngStream
        (digestKey c (prngInput sid spec) (sampleBitsOf spec.modulus) prngKey)) :=
  rfl

abbrev Block (modulus : ℕ) : Type := Fin (outputBytes modulus) → UInt8

def blockMask {modulus : ℕ} (block : Block modulus) : ℕ :=
  (ofStream modulus (streamOf block)).output 0

theorem nextMask_block {m : ℕ} (block : Block m) :
    (ofStream m (streamOf block)).nextMask 0=.ok (blockMask block) := by
  rw [blockMask,output,Nat.zero_mul]
  rfl

/-- What the loop takes from a block, unless it rejects the mask. -/
def blockSample {modulus : ℕ} (block : Block modulus) : Option ℕ :=
  match (ofStream modulus (streamOf block)).nextMask 0 with
  | .ok mask => if mask<rejectionThreshold modulus then none else some (mask%modulus)
  | .error _ => none

theorem blockSample_eq {m : ℕ} (block : Block m) : blockSample block =
    if rejectionThreshold m ≤ blockMask block then some (blockMask block%m) else none := by
  rw [blockSample,nextMask_block]
  simp only [← Nat.not_le,ite_not]

section Modulus
variable {m : ℕ} (hm : 1 < m ∧ m≤SecAggVector.kMaxModulus)
include hm

theorem evenlyValued_blockMask : EvenlyValued (blockMask : Block m → ℕ) (2^sampleBitsOf m)
      (2^(8*outputBytes m-sampleBitsOf m)) := by
  obtain ⟨-,hp,hle,-⟩:=sampleBits_eq hm
  obtain ⟨hb,-,hbit,hmsb⟩ := bytesPerOutput_bounds hp hle
  have heven:=evenlyValued_readBlock hmsb hb (by omega)
  rw [← hbit] at heven
  have hmask : u8 (2^(sampleBitsOf m-(outputBytes m-1)*8)-1) =
      2^(sampleBitsOf m-(outputBytes m-1)*8)-1 := by
    have hpow:=Nat.pow_le_pow_right (show 0<2 by decide) hmsb
    exact Nat.mod_eq_of_lt (by unfold outputBytes; omega)
  have he : 8-(sampleBitsOf m-(divideRoundUp (sampleBitsOf m) 8-1)*8) =
      8*outputBytes m-sampleBitsOf m := by
    unfold outputBytes
    omega
  have hv : (blockMask : Block m → ℕ) = fun block =>
      readBlock (2^(sampleBitsOf m-(outputBytes m-1)*8)-1)
        block := by
    funext block
    rw [← hmask]
    rfl
  rw [he] at heven
  rw [hv]
  exact heven

/-- The sample modulus without the outputs that are rejected is a multiple of the modulus. -/
theorem threshold_add : rejectionThreshold m+1*m=2^sampleBitsOf m ∧ rejectionThreshold m < m := by
  obtain ⟨-,-,-,hle⟩:=sampleBits_eq hm
  have hlt:=SecAggVector.two_pow_getBitWidth_lt hm.1
  rw [← sampleBitsOf_eq hm] at hlt
  rw [rejectionThreshold,Nat.mod_eq_of_lt (by omega)]
  omega

theorem card_keptResidue (hr : r < m) : Fintype.card {block : Block m //
      rejectionThreshold m ≤ blockMask block ∧ blockMask block%m=r} =
        2^(8*outputBytes m-sampleBitsOf m) := by
  have hw:=(evenlyValued_blockMask hm).card_where fun v =>
    rejectionThreshold m≤v ∧ v%m=r
  rwa [← (threshold_add hm).1,card_residue m _ 1 r hr,Nat.mul_one] at hw

theorem card_blockSample (hr : r < m) : Fintype.card {block : Block m // blockSample block=some r} =
      2^(8*outputBytes m-sampleBitsOf m) := by
  rw [← card_keptResidue hm hr]
  apply Fintype.card_congr
  apply Equiv.subtypeEquivRight
  intro block
  rw [blockSample_eq]
  split
  next hk => simp [hk]
  next hreject => simp [hreject]

end Modulus

def blocks (modulus k : ℕ) : (Fin (k*outputBytes modulus) → UInt8) ≃ (Fin k → Block modulus) :=
  (Equiv.arrowCongr finProdFinEquiv.symm (Equiv.refl UInt8)).trans (Equiv.curry _ _ _)

section Vector
variable {m k : ℕ} (hm : 1 < m ∧ m≤SecAggVector.kMaxModulus)
  (bs : Fin (k*outputBytes m) → UInt8)
include hm

theorem output_ofStream (t : Fin k) : (ofStream m (streamOf bs)).output t =
    blockMask (blocks m k bs t) := by
  obtain ⟨-,hp,hle,-⟩:=sampleBits_eq hm
  obtain ⟨hb,-⟩ := bytesPerOutput_bounds hp hle
  refine output_eq_readBlock (b := ofStream m (streamOf bs)) (blocks m k bs t) hb fun i => ?_
  change Fin (outputBytes m) at i
  have hi : (finProdFinEquiv (t,i)).val=t*outputBytes m+i := by
    rw [finProdFinEquiv_apply_val,Nat.add_comm,Nat.mul_comm]
  show streamOf bs (t*outputBytes m+i)=bs (finProdFinEquiv (t,i))
  rw [← hi,streamOf,dif_pos (finProdFinEquiv (t,i)).isLt]

theorem kept_blockSample : kept blockSample (blocks m k bs)=(List.range k).filterMap fun t =>
      if (ofStream m (streamOf bs)).Keeps (rejectionThreshold m) t then
        some ((ofStream m (streamOf bs)).output t%m)
      else none := by
  rw [kept,ofFn_eq_map,filterMap_map,← map_coe_finRange_eq_range,filterMap_map]
  apply filterMap_congr
  intro t _
  rw [Function.comp_apply,Function.comp_apply,blockSample_eq,← output_ofStream hm bs t]
  rfl

def Draws (modulus : ℕ) {k : ℕ} (bytes : Fin (k*outputBytes modulus) → UInt8) (i r : ℕ) : Prop :=
  i<Nat.count ((ofStream modulus (streamOf bytes)).Keeps
      (rejectionThreshold modulus)) k ∧
    (ofStream modulus (streamOf bytes)).sampleAt modulus (rejectionThreshold modulus) i=r

theorem draws_iff (i r : ℕ) : Draws m bs i r ↔ (kept blockSample (blocks m k bs))[i]?=some r := by
  rw [kept_blockSample hm,getElem?_filterMap_range,Draws]
  split
  next hlt =>
    simp only [hlt,true_and,Option.some.injEq]
    rfl
  next hge => simp [hge]

/-- Draws depend on the bytes of the blocks only. -/
theorem draws_stream {stream : ℕ → UInt8} (hb : ∀ t : Fin (k*outputBytes m),stream t=bs t)
    {i r : ℕ} (h : Draws m bs i r) :
    i<Nat.count ((ofStream m stream).Keeps (rejectionThreshold m)) k ∧
      (ofStream m stream).sampleAt m (rejectionThreshold m) i=r := by
  obtain ⟨-,hp,hle,-⟩:=sampleBits_eq hm
  obtain ⟨hbytes,-⟩ := bytesPerOutput_bounds hp hle
  have ho (t : ℕ) (ht : t<k) : (ofStream m stream).output t =
      (ofStream m (streamOf bs)).output t := by
    refine output_congr (b := ofStream m (streamOf bs)) hbytes fun i hi => ?_
    change i<outputBytes m at hi
    have hlt:=calc t*outputBytes m+i<(t+1)*outputBytes m := by rw [Nat.succ_mul]; omega
        _≤k*outputBytes m := Nat.mul_le_mul_right _ ht
    show stream (t*outputBytes m+i)=streamOf bs (t*outputBytes m+i)
    rw [streamOf,dif_pos hlt]
    exact hb ⟨_,hlt⟩
  have hi:=(draws_iff hm bs i r).mp h
  rw [kept_blockSample hm] at hi
  have heq : ((List.range k).filterMap fun t =>
      if (ofStream m stream).Keeps (rejectionThreshold m) t then
        some ((ofStream m stream).output t%m)
      else none) = (List.range k).filterMap fun t =>
        if (ofStream m (streamOf bs)).Keeps (rejectionThreshold m) t then
          some ((ofStream m (streamOf bs)).output t%m)
        else none := by
    apply filterMap_congr
    intro t ht
    simp only [PrngBuffer.Keeps,ho t (mem_range.mp ht)]
  rw [← heq,getElem?_filterMap_range] at hi
  split at hi
  next hlt => exact ⟨hlt,Option.some.inj hi⟩
  · cases hi

end Vector

noncomputable instance (modulus i r : ℕ) {k : ℕ} :
    DecidablePred fun bytes : Fin (k*outputBytes modulus) → UInt8 => Draws modulus bytes i r :=
  fun _ => Classical.dec _

structure UniformMasks (modulus : ℕ) : Prop where
  powerOfTwo : isPowerOfTwo modulus=true → ∀ r < modulus,Fintype.card {block : Block modulus //
      (ofStream modulus (streamOf block)).nextMask 0=.ok r} =
        2^(8*outputBytes modulus-sampleBitsOf modulus)
  /-- No check fails and the sample bits hold the modulus. -/
  sampleBits : isPowerOfTwo modulus=false → ∃ sampleBits,
    computeBestSampleBits modulus=.ok sampleBits ∧ modulus≤2^sampleBits ∧ sampleBits≤63 ∧
      sampleBitsOf modulus=sampleBits
  residues : isPowerOfTwo modulus=false → ∀ r < modulus,
    Fintype.card {block : Block modulus // blockSample block=some r} =
      2^(8*outputBytes modulus-sampleBitsOf modulus)
  accepted : isPowerOfTwo modulus=false → Fintype.card (Block modulus) ≤
      2*Fintype.card {block : Block modulus // (blockSample block).isSome}
  /-- Whatever the number of blocks, each mask is drawn for an element by equally many byte
  strings. -/
  elements : ∀ k i,∀ r < modulus,∀ r' < modulus,
    Fintype.card {bytes : Fin (k*outputBytes modulus) → UInt8 // Draws modulus bytes i r} =
      Fintype.card {bytes : Fin (k*outputBytes modulus) → UInt8 // Draws modulus bytes i r'}
  /-- The masks that the bytes of the generator draw are those of a vector. -/
  applied : ∀ (c : Crypto) (fuel : ℕ) (sessionId : Bytes) (spec : InputVectorSpecification)
    (prngKey : AesKey) (k : ℕ) (bytes : Fin (k*outputBytes modulus) → UInt8) (masks : List ℕ),
    spec.modulus=modulus → kStreamBytes≤fuel → k*outputBytes modulus≤kStreamBytes →
    (∀ t : Fin (k*outputBytes modulus),c.prngStream
      (digestKey c (prngInput sessionId spec) (sampleBitsOf modulus) prngKey) t=bytes t) →
    masks.length=spec.length → (∀ i r,masks[i]?=some r → Draws modulus bytes i r) →
    applyKey c fuel sessionId spec (sampleBitsOf modulus) addMod (List.replicate spec.length 0)
      prngKey=.ok masks

theorem masks_uniform (m : ℕ) (hm : 1 < m ∧ m≤SecAggVector.kMaxModulus) : UniformMasks m where
  powerOfTwo hp r hr := by
    simp only [nextMask_block,Except.ok.injEq]
    apply (evenlyValued_blockMask hm).card_eq
    have hbits : 2^sampleBitsOf m=m := by
      rw [sampleBitsOf,if_pos hp]
      exact of_decide_eq_true hp
    rwa [hbits]
  sampleBits _ := by
    obtain ⟨-,hwidth,hle⟩:=SecAggVector.getBitWidth_bounds hm
    exact ⟨_,computeBestSampleBits_eq hm,hle,by omega,sampleBitsOf_eq hm⟩
  residues _ r hr := card_blockSample hm hr
  accepted _ := by
    have hsome : Fintype.card {block : Block m // (blockSample block).isSome} =
        Fintype.card {block : Block m // rejectionThreshold m ≤ blockMask block} := by
      apply Fintype.card_congr
      apply Equiv.subtypeEquivRight
      intro block
      rw [blockSample_eq]
      split
      next hk => simp [hk]
      next hk => simp [hk]
    rw [hsome]
    have hw:=(evenlyValued_blockMask hm).card_where fun v => rejectionThreshold m≤v
    obtain ⟨hsum,hlt⟩:=threshold_add hm
    have hc : (Finset.filter (fun v => rejectionThreshold m≤v)
        (Finset.range (2^sampleBitsOf m))).card=m := by
      have hfilter : Finset.filter (fun v => rejectionThreshold m≤v)
          (Finset.range (2^sampleBitsOf m)) =
            Finset.Ico (rejectionThreshold m) (2^sampleBitsOf m) := by
        ext v
        rw [Finset.mem_filter,Finset.mem_range,Finset.mem_Ico,and_comm]
      rw [hfilter,Nat.card_Ico]
      omega
    rw [hw,hc,(evenlyValued_blockMask hm).card_univ_eq,Nat.mul_left_comm]
    exact Nat.mul_le_mul_left _ (by omega)
  elements k i r hr r' hr' := by
    have hdraws (r : ℕ) : Fintype.card {bs : Fin (k*outputBytes m) → UInt8 // Draws m bs i r} =
          numKept (blockSample : Block m → Option ℕ) k i r :=
      Fintype.card_congr ((blocks m k).subtypeEquiv fun bs => draws_iff hm bs i r)
    rw [hdraws,hdraws]
    apply numKept_eq
    rw [card_blockSample hm hr,card_blockSample hm hr']
  applied c fuel sid spec prngKey k bs masks hs hf hk hb hl hd := by
    subst hs
    have hdraws (i r : ℕ) (hi : masks[i]?=some r) := draws_stream hm bs hb (hd i r hi)
    have hn : k≤(ofKey c sid spec prngKey).numOutputs := by
      obtain ⟨-,hpos,hle,-⟩:=sampleBits_eq hm
      obtain ⟨hbytes,-⟩ := bytesPerOutput_bounds hpos hle
      exact (Nat.le_div_iff_mul_le hbytes).mpr hk
    have hsame : HasSamples c sid spec prngKey := by
      refine le_trans ?_ (Nat.count_monotone _ hn)
      rw [← hl]
      by_contra hlt
      obtain ⟨h,-⟩:=hdraws _ _ (getElem?_eq_getElem (Nat.lt_of_not_le hlt))
      exact Nat.lt_irrefl _ h
    have ha:=applyKey_eq moves_addMod hf hsame fun _ => 0
    rw [residues_zero] at ha
    rw [ha]
    congr 1
    refine ext_getElem (by rw [length_residues,hl]) fun i hi hi' => ?_
    have hr:=(hdraws i masks[i] (getElem?_eq_getElem hi')).2
    simp only [residues,getElem_map,getElem_range]
    rw [← hr,zero_add,one_mul]
    exact toNat_emod_natCast (Nat.mod_lt _ (by omega))

theorem masks_uniform_three : UniformMasks 3 := masks_uniform 3 (by decide)

end Fcp.SecAgg

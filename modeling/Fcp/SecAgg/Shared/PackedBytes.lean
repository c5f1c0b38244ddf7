import Fcp.SecAgg.Shared.VectorCodec

/-!
# Vectors from packed bytes

Any string of the right length is taken as a packed vector. A field beyond the modulus is returned
as it is by one decoder; the other one subtracts the modulus once.
-/

namespace Fcp.SecAgg.SecAggVector

open List

variable (packedBytes : Bytes) (modulus numElements : ℕ) (branchlessCodec : Bool)

def decodeBytes : Checked (List ℕ) := do
  let v ← ofPackedBytes packedBytes modulus numElements branchlessCodec
  v.getAsUint64Vector

section DecodeBytes

variable {bs : Bytes} {m n : ℕ} (hm : 1 < m ∧ m≤kMaxModulus)
  (hs : bs.length=packedSize n m)

include hm hs

theorem decodeBytes_true : decodeBytes bs m n true=.ok ((Decoder.create bs m).readValues n) := by
  rw [decodeBytes,ofPackedBytes,dif_pos hm,dif_pos hs]
  rfl

theorem decodeBytes_false : decodeBytes bs m n false =
      (List.range n).mapM (unpackUint64FromByteStringAt (getBitWidth m) bs) := by
  rw [decodeBytes,ofPackedBytes,dif_pos hm,dif_pos hs]
  rfl

omit hm in
theorem fit_of_size (hi : n*getBitWidth m<2^31) : n*getBitWidth m≤8*bs.length := by
  have hp : packedSize n m=(n*getBitWidth m+7)/8 := packedSize_eq (by omega)
  omega

theorem decodeBytes_false_eq (hi : n*getBitWidth m<2^31) : decodeBytes bs m n false =
      .ok ((List.range n).map (fieldAt (getBitWidth m) bs)) := by
  rw [decodeBytes_false hm hs]
  exact mapM_unpack hm hi (fit_of_size hs hi)

theorem decodeBytes_true_eq (hint : n*getBitWidth m<2^31)
    (hf : ∀ i<n,fieldAt (getBitWidth m) bs i < m) :
    decodeBytes bs m n true=.ok ((List.range n).map (fieldAt (getBitWidth m) bs)) := by
  obtain ⟨hbw,hw,-⟩:=getBitWidth_bounds hm
  have hr : (Decoder.create bs m).Reads (0*getBitWidth m) := by
    rw [Nat.zero_mul]
    exact Decoder.reads_create _ _
  have hfit:=fit_of_size hs hint
  rw [decodeBytes_true hm hs,range_eq_range',
    hr.readValues hbw hw (by rw [Nat.zero_add]; exact hfit)]
  · rfl
  · intro i hi _
    exact hf i (by omega)

end DecodeBytes

theorem bits_lt_of_unpack {bs : Bytes} {bw n : ℕ} {vs : List ℕ}
    (h : (List.range n).mapM (unpackUint64FromByteStringAt bw bs)=.ok vs) :
    n*bw<2^31 := by
  cases n with
  | zero =>
    rw [Nat.zero_mul]
    decide
  | succ n =>
    obtain ⟨value,-,hv⟩:=exists_of_mapM_eq_ok h (mem_range.mpr (Nat.lt_succ_self n))
    unfold unpackUint64FromByteStringAt at hv
    obtain ⟨left,-,hv⟩:=bind_eq_ok.mp hv
    obtain ⟨right,hr,-⟩:=bind_eq_ok.mp hv
    unfold toInt at hr
    split at hr
    · assumption
    · cases hr

def DecodersAgree : Prop := ∃ values,decodeBytes packedBytes modulus numElements true=.ok values ∧
    decodeBytes packedBytes modulus numElements false=.ok values ∧ ∀ x∈values,x < modulus

/-- The decoders agree on the packed bytes of a vector just if its bits can be counted by an `int`
and every field of it is below the modulus. -/
theorem decodersAgree_iff {bs : Bytes} {m n : ℕ} {branchlessCodec : Bool}
    {v : SecAggVector} (h : ofPackedBytes bs m n branchlessCodec=.ok v) :
    DecodersAgree bs m n ↔ n*getBitWidth m<2^31 ∧ ∀ i<n,fieldAt (getBitWidth m) bs i < m := by
  unfold ofPackedBytes at h
  split at h
  next hm =>
    split at h
    next hs =>
      constructor
      · rintro ⟨values,-,hb,hr⟩
        have hint : n*getBitWidth m<2^31 := by
          apply bits_lt_of_unpack
          rw [← decodeBytes_false hm hs]
          exact hb
        refine ⟨hint,fun i hi => ?_⟩
        rw [decodeBytes_false_eq hm hs hint] at hb
        cases hb
        exact hr _ (mem_map_of_mem (mem_range.mpr hi))
      · rintro ⟨hint,hf⟩
        refine ⟨_,decodeBytes_true_eq hm hs hint hf,decodeBytes_false_eq hm hs hint,?_⟩
        intro x hx
        obtain ⟨i,hi,rfl⟩:=mem_map.mp hx
        exact hf i (mem_range.mp hi)
    · cases h
  · cases h

theorem decodersAgree_padding : DecodersAgree [0xf9] 3 2 := by
  have hc : ofPackedBytes [0xf9] 3 2 true=.ok ⟨[0xf9],3,2,true,by decide,by decide⟩ := by decide
  exact (decodersAgree_iff hc).mpr (by decide)

/-- The field 3 is not reduced by one decoder, and reduced to 0 by the other. -/
theorem field_beyond_modulus : (∃ v,ofPackedBytes [3] 3 1 true=.ok v) ∧
      decodeBytes [3] 3 1 true=.ok [0] ∧
      decodeBytes [3] 3 1 false=.ok [3] ∧ ¬ DecodersAgree [3] 3 1 := by
  have ht : decodeBytes [3] 3 1 true=.ok [0] := by decide
  have hf : decodeBytes [3] 3 1 false=.ok [3] := by decide
  refine ⟨⟨⟨[3],3,1,true,by decide,by decide⟩,by decide⟩,ht,hf,?_⟩
  rintro ⟨values,hb,hbytewise,-⟩
  rw [ht] at hb
  rw [hf,← hb] at hbytewise
  cases hbytewise

end Fcp.SecAgg.SecAggVector

import Fcp.SecAgg.Server.ProtocolImpl
import Fcp.SecAgg.Shared.VectorCodec

/-!
# Sizes of packed vectors

Both constructors and the coder cast the number of bits to `uint32_t`, while the check of a response
multiplies in `int`.
-/

namespace Fcp.SecAgg

open SecAggVector (getBitWidth packedSize)

open SecAggVector ProtocolImpl

def exactSize (spec : InputVectorSpecification) : ℕ := (spec.length*getBitWidth spec.modulus+7)/8

structure ExactSizes (spec : InputVectorSpecification) : Prop where
  ofSpan (span : List ℕ) (hlength : span.length=spec.length)
    (hspan : ∀ element∈span,element<spec.modulus) :
    ∃ v,ofSpan span spec.modulus=.ok v ∧ v.packedBytes.length=exactSize spec
  ofPackedBytes (bytes : Bytes) : (∃ v,ofPackedBytes bytes spec.modulus spec.length false=.ok v) ↔
      bytes.length=exactSize spec
  coder : (SecAggVector.Coder.create spec.modulus (getBitWidth spec.modulus)
    spec.length).numBytesNeeded=exactSize spec
  response (vectors : NameMap Bytes) (encoded : Bytes)
    (hencoded : vectors.lookup spec.name=some encoded) :
    (∃ v,checkMaskedVector vectors spec=.ok (.ok v)) ↔ encoded.length=exactSize spec
  positions (index : ℕ) (hindex : index<spec.length) :
    toInt (index*getBitWidth spec.modulus)=.ok (index*getBitWidth spec.modulus) ∧
      toInt ((index+1)*getBitWidth spec.modulus)=.ok ((index+1)*getBitWidth spec.modulus)

theorem toInt_eq_ok_iff (x : ℕ) : toInt x=.ok x ↔ x<2^31 := by
  unfold toInt
  split
  next hlt => exact ⟨fun _ => hlt,fun _ => rfl⟩
  next hge => exact ⟨nofun,fun hlt => absurd hlt hge⟩

theorem ofPackedBytes_eq_ok_iff {m : ℕ} (hm : 1 < m ∧ m≤kMaxModulus) (bs : Bytes) (n : ℕ) :
    (∃ v,ofPackedBytes bs m n false=.ok v) ↔ bs.length=packedSize n m := by
  unfold ofPackedBytes
  rw [dif_pos hm]
  split
  next hs => exact ⟨fun _ => hs,fun _ => ⟨_,rfl⟩⟩
  next hs =>
    refine iff_of_false ?_ hs
    rintro ⟨v,hv⟩
    cases hv

variable {spec : InputVectorSpecification} {vecs : NameMap Bytes} {encoded : Bytes}

theorem bits_lt_of_checkMaskedVector
    (he : vecs.lookup spec.name=some encoded) {result : StatusOr SecAggVector}
    (h : checkMaskedVector vecs spec=.ok result) :
    spec.length*getBitWidth spec.modulus<2^31 := by
  rw [checkMaskedVector,he] at h
  dsimp only at h
  rw [bind_eq_ok] at h
  obtain ⟨numBits,hb,-⟩:=h
  unfold toInt at hb
  split at hb
  · assumption
  · cases hb

theorem checkMaskedVector_eq_ok_iff (hi : spec.length*getBitWidth spec.modulus<2^31)
    (he : vecs.lookup spec.name=some encoded) :
    (∃ v,checkMaskedVector vecs spec=.ok (.ok v)) ↔ encoded.length=exactSize spec := by
  have hs : divideRoundUp (spec.length*getBitWidth spec.modulus) 8=exactSize spec := by
    unfold divideRoundUp u32 exactSize
    omega
  have hp : packedSize spec.length spec.modulus=exactSize spec := packedSize_eq (by omega)
  have ha:=ofPackedBytes_eq_ok_iff spec.modulus_valid encoded spec.length
  rw [hp] at ha
  rw [checkMaskedVector,he]
  dsimp only
  rw [(toInt_eq_ok_iff _).mpr hi,ok_bind,hs]
  split
  next hw => exact ⟨nofun,fun heq => absurd heq hw⟩
  next hr =>
    rw [not_not] at hr
    obtain ⟨v,hv⟩:=ha.mpr hr
    rw [hv]
    exact ⟨fun _ => hr,fun _ => ⟨v,rfl⟩⟩

theorem exactSizes_of_lt (hint : spec.length*getBitWidth spec.modulus<2^31) : ExactSizes spec where
  ofSpan span hl hs := by
    have hs' : (span.length-1)*getBitWidth spec.modulus<2^31 := by
      rw [hl]
      exact lt_of_le_of_lt (Nat.mul_le_mul_right _ (Nat.sub_le _ _)) hint
    obtain ⟨v,hv,hm,he,-⟩:=ofSpan_eq spec.modulus_valid hs hs'
    refine ⟨v,hv,?_⟩
    rw [v.size_valid,hm,he,hl]
    exact packedSize_eq (by omega)
  ofPackedBytes bytes := by
    rw [ofPackedBytes_eq_ok_iff spec.modulus_valid,packedSize_eq (by omega)]
    rfl
  coder := packedSize_eq (by omega)
  response _ _ hencoded := checkMaskedVector_eq_ok_iff hint hencoded
  positions i hi := by
    have hlast : (i+1)*getBitWidth spec.modulus ≤
        spec.length*getBitWidth spec.modulus := Nat.mul_le_mul_right _ hi
    have hf : i*getBitWidth spec.modulus≤(i+1)*getBitWidth spec.modulus :=
      Nat.mul_le_mul_right _ (Nat.le_succ i)
    rw [toInt_eq_ok_iff,toInt_eq_ok_iff]
    omega

theorem exactSizes_iff (spec : InputVectorSpecification) :
    ExactSizes spec ↔ spec.length*getBitWidth spec.modulus<2^31 := by
  constructor
  · intro hexact
    let encoded : Bytes := List.replicate (exactSize spec) 0
    let vecs : NameMap Bytes := AList.singleton spec.name encoded
    have he : vecs.lookup spec.name=some encoded := AList.lookup_insert ∅
    obtain ⟨v,hv⟩:=(hexact.response vecs encoded he).mpr List.length_replicate
    exact bits_lt_of_checkMaskedVector he hv
  · exact exactSizes_of_lt

/-- Elements of four bits that need half a gigabyte: no byte is allocated for them, and the check
of a response overflows. -/
theorem fourBits_overflow :
    packedSize (2^30) 16=0 ∧ (SecAggVector.Coder.create 16 4 (2^30)).numBytesNeeded=0 ∧
      exactSize ⟨"v",2^30,16,by decide,by decide⟩=2^29 ∧
      checkMaskedVector (AList.singleton "v" [])
        ⟨"v",2^30,16,by decide,by decide⟩=.error .signedOverflow :=
  ⟨by decide,by decide,by decide,rfl⟩

end Fcp.SecAgg

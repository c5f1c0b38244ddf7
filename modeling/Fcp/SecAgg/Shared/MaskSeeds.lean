import Fcp.SecAgg.Shared.MaskSamples

/-!
# Seeds of the masks (shared/map_of_masks.cc)

`DigestKey` hashes the key without its size, between two fields of fixed size. Keys of different
sizes are fed as the same bytes where the session id overlaps itself, shifted by the difference.
-/

namespace Fcp.SecAgg

open SecAggVector (getBitWidth)
open List

def seedInput (sessionId : Bytes) (prngKey : AesKey) (spec : InputVectorSpecification) : Bytes :=
  digestKeyInput (prngInput sessionId spec) (sampleBitsOf spec.modulus) prngKey

theorem stream_ofKey (c : Crypto) (sid : Bytes) (spec : InputVectorSpecification)
    (prngKey : AesKey) : (PrngBuffer.ofKey c sid spec prngKey).stream =
      c.prngStream (c.sha256 (seedInput sid prngKey spec)) :=
  rfl

def AdmittedSize (size : ℕ) : Prop := (0<size ∧ size≤17) ∨ size=32

instance (size : ℕ) : Decidable (AdmittedSize size) := inferInstanceAs (Decidable (_ ∨ _))

def afterKey (sessionId name : Bytes) (width length : ℕ) : Bytes :=
  kPrngSeedConstant::(intToByteString (40+name.length)++(sessionId ++
    (intToByteString width++(intToByteString length++name))))

theorem seedInput_eq {sid : Bytes} (hs : sid.length=32) (prngKey : AesKey)
    (spec : InputVectorSpecification) : seedInput sid prngKey spec =
      intToByteString (getBitWidth spec.modulus)++(prngKey ++
        afterKey sid (nameBytes spec.name) (getBitWidth spec.modulus) spec.length) := by
  have hl : (prngInput sid spec).length=40+(nameBytes spec.name).length := by
    simp [prngInput,hs]
    omega
  rw [seedInput,digestKeyInput,sampleBitsOf_eq spec.modulus_valid,hl,prngInput,afterKey]
  simp [getBitWidth]

theorem nameBytes_injective {name₁ name₂ : String} (h : nameBytes name₁=nameBytes name₂) :
    name₁=name₂ := by
  apply String.toByteArray_inj.mp
  apply ByteArray.ext
  exact Array.toList_inj.mp h

section AfterKey
variable {sid name : Bytes} {width length : ℕ}

theorem length_afterKey (hs : sid.length=32) :
    (afterKey sid name width length).length=45+name.length := by
  simp [afterKey,hs]
  omega

theorem afterKey_constant : (afterKey sid name width length)[0]?=some 2 := rfl

theorem afterKey_size :
    (afterKey sid name width length)[4]?=some (UInt8.ofNat (40+name.length)) := rfl

theorem afterKey_session {i : ℕ} (hge : 5 ≤ i) (hlt : i<5+sid.length) :
    (afterKey sid name width length)[i]?=sid[i-5]? := by
  obtain ⟨j,rfl⟩:=Nat.exists_eq_add_of_le hge
  rw [Nat.add_sub_cancel_left,Nat.add_comm 5 j]
  show (sid++(intToByteString width++(intToByteString length++name)))[j]?=_
  exact getElem?_append_left (by omega)

theorem afterKey_width (hs : sid.length=32) {i : ℕ} (hlt : i<4) :
    (afterKey sid name width length)[37+i]?=(intToByteString width)[i]? := by
  have hi : 37+i=32+i+5 := by omega
  rw [hi]
  show (sid++(intToByteString width++(intToByteString length++name)))[32+i]?=_
  rw [getElem?_append_right (by omega),hs,Nat.add_sub_cancel_left]
  exact getElem?_append_left hlt

end AfterKey

theorem afterKey_injective {sid name₁ name₂ : Bytes} {width₁ width₂ length₁ length₂ : ℕ}
    (hl₁ : length₁<2^31) (hl₂ : length₂<2^31)
    (h : afterKey sid name₁ width₁ length₁=afterKey sid name₂ width₂ length₂) :
    name₁=name₂ ∧ length₁=length₂ := by
  rw [afterKey,afterKey,List.cons.injEq] at h
  have hs:=(append_inj h.2 rfl).2
  have hwidth:=(append_inj hs rfl).2
  have hl:=(append_inj hwidth rfl).2
  obtain ⟨hb,hn⟩:=append_inj hl rfl
  have hw:=u32_eq_of_intToByteString_eq hb
  rw [u32_of_lt (by omega),u32_of_lt (by omega)] at hw
  exact ⟨hn,hw⟩

structure Shifted (sessionId name₁ name₂ : Bytes) (width length₁ length₂ d : ℕ) : Prop where
  session : sessionId.length=32
  width_pos : 0<width
  width_le : width≤62
  drop_eq : (afterKey sessionId name₁ width length₁).drop d=afterKey sessionId name₂ width length₂

namespace Shifted
variable {sid name₁ name₂ : Bytes} {width length₁ length₂ d : ℕ}

theorem getElem?_eq (h : Shifted sid name₁ name₂ width length₁ length₂ d) (i : ℕ) :
    (afterKey sid name₁ width length₁)[d+i]?=(afterKey sid name₂ width length₂)[i]? := by
  rw [← h.drop_eq,getElem?_drop]

variable {i : ℕ}

section

variable (h : Shifted sid name₁ name₂ width length₁ length₂ d)
include h

theorem session_step (hge : 5 ≤ i) (hlt : i<37) : (afterKey sid name₁ width length₁)[d+i]? =
      (afterKey sid name₁ width length₁)[i]? := by
  have hs:=h.session
  rw [h.getElem?_eq,afterKey_session hge (by omega),afterKey_session hge (by omega)]

theorem width_ne_zero : (intToByteString width)[3]?≠some 0 := by
  have hp:=h.width_pos
  have hle:=h.width_le
  show some (UInt8.ofNat width)≠some 0
  simp only [ne_eq,Option.some.injEq,← UInt8.toNat_inj,UInt8.toNat_ofNat',UInt8.reduceToNat]
  omega

theorem width_high (hi : i<3) : (intToByteString width)[i]?=some 0 := by
  have hle:=h.width_le
  have hz (k : ℕ) (hk : 256≤k) : UInt8.ofNat (width/k)=0 := by
    rw [Nat.div_eq_of_lt (by omega)]
    rfl
  rw [intToByteString,hz _ (by decide),hz _ (by decide),hz _ (by decide)]
  obtain rfl | rfl | rfl : i=0 ∨ i=1 ∨ i=2 := by omega
  · rfl
  · rfl
  · rfl

theorem not_small (hp : 0<d) : 3<d := by
  by_contra hs
  have hm:=h.getElem?_eq (37+(3-d))
  have hi : d+(37+(3-d))=37+3 := by omega
  rw [hi,afterKey_width h.session (by decide),afterKey_width h.session (by omega),
    h.width_high (show 3-d<3 by omega)] at hm
  exact h.width_ne_zero hm

theorem not_constant (steps : ℕ) (hge : 5≤d) (hi : i<3) : d*(steps+1)≠37+i := by
  intro hr
  have hm (k : ℕ) (hk : k ≤ steps) : (afterKey sid name₁ width length₁)[d*(k+1)]?=some 2 := by
    induction k with
    | zero =>
      have hf:=h.getElem?_eq 0
      rw [afterKey_constant] at hf
      rw [Nat.zero_add,Nat.mul_one]
      exact hf
    | succ k ih =>
      have hlow : d≤d*(k+1) := Nat.le_mul_of_pos_right d (Nat.succ_pos k)
      have hh : d*(k+1)+d≤d*(steps+1) := by
        rw [← Nat.mul_succ]
        exact Nat.mul_le_mul_left d (by omega)
      rw [Nat.mul_succ,Nat.add_comm,h.session_step (by omega) (by omega)]
      exact ih (by omega)
  have hl:=hm steps (Nat.le_refl _)
  rw [hr,afterKey_width h.session (by omega),h.width_high hi] at hl
  revert hl
  decide

end

theorem not_four (h : Shifted sid name₁ name₂ width length₁ length₂ 4) : False := by
  have hc:=h.getElem?_eq 0
  rw [afterKey_constant,Nat.add_zero,afterKey_size] at hc
  have hm (k : ℕ) (hk : k≤8) : (afterKey sid name₁ width length₁)[4*k+8]? =
        some (UInt8.ofNat (40+name₂.length)) := by
    induction k with
    | zero => rw [← afterKey_size,← h.getElem?_eq 4]
    | succ k ih =>
      have hi : 4*(k+1)+8=4+(4*k+8) := by omega
      rw [hi,h.session_step (by omega) (by omega)]
      exact ih (by omega)
  have hl:=hm 8 (Nat.le_refl _)
  rw [show 4*8+8=37+3 from rfl,afterKey_width h.session (by decide)] at hl
  have hlen:=congrArg List.length h.drop_eq
  rw [length_drop,length_afterKey h.session,length_afterKey h.session] at hlen
  have hw:=Option.some.inj hl
  have hp:=h.width_pos
  have hle:=h.width_le
  simp only [Option.some.injEq,← UInt8.toNat_inj,UInt8.toNat_ofNat',UInt8.reduceToNat] at hc hw
  omega

theorem not_mem (h : Shifted sid name₁ name₂ width length₁ length₂ d) : d∉[1,2,3,4,13,19] := by
  intro hm
  simp only [mem_cons,not_mem_nil,or_false] at hm
  rcases hm with rfl | rfl | rfl | rfl | rfl | rfl
  · exact absurd (h.not_small (by decide)) (by decide)
  · exact absurd (h.not_small (by decide)) (by decide)
  · exact absurd (h.not_small (by decide)) (by decide)
  · exact h.not_four
  · exact h.not_constant 2 (by decide) (show 2<3 by decide) rfl
  · exact h.not_constant 1 (by decide) (show 1<3 by decide) rfl

end Shifted

/-- Keys of these sizes never seed two different masks alike. -/
def SeedsApart (size₁ size₂ : ℕ) : Prop :=
  ∀ (sessionId : Bytes) (key₁ key₂ : AesKey) (spec₁ spec₂ : InputVectorSpecification),
    sessionId.length=32 → key₁.length=size₁ → key₂.length=size₂ →
    (key₁≠key₂ ∨ spec₁.name≠spec₂.name ∨ spec₁.length≠spec₂.length ∨
      getBitWidth spec₁.modulus≠getBitWidth spec₂.modulus) →
    seedInput sessionId key₁ spec₁≠seedInput sessionId key₂ spec₂

theorem SeedsApart.symm {size₁ size₂ : ℕ} (h : SeedsApart size₁ size₂) :
    SeedsApart size₂ size₁ := by
  intro sid key₁ key₂ spec₁ spec₂ hs hs₁ hs₂ hd heq
  apply h sid key₂ key₁ spec₂ spec₁ hs hs₂ hs₁ _ heq.symm
  simpa only [ne_comm] using hd

theorem width_of_seedInput_eq {sid : Bytes} (hs : sid.length=32)
    {key₁ key₂ : AesKey} {spec₁ spec₂ : InputVectorSpecification}
    (h : seedInput sid key₁ spec₁=seedInput sid key₂ spec₂) :
    getBitWidth spec₁.modulus=getBitWidth spec₂.modulus ∧
      key₁++afterKey sid (nameBytes spec₁.name) (getBitWidth spec₁.modulus) spec₁.length =
        key₂++afterKey sid (nameBytes spec₂.name) (getBitWidth spec₂.modulus)
          spec₂.length := by
  obtain ⟨-,hw₁,-⟩:=SecAggVector.getBitWidth_bounds spec₁.modulus_valid
  obtain ⟨-,hw₂,-⟩:=SecAggVector.getBitWidth_bounds spec₂.modulus_valid
  rw [seedInput_eq hs,seedInput_eq hs] at h
  obtain ⟨hb,hr⟩:=append_inj h rfl
  have hw:=u32_eq_of_intToByteString_eq hb
  rw [u32_of_lt (by omega),u32_of_lt (by omega)] at hw
  exact ⟨hw,hr⟩

theorem seedsApart_same (size : ℕ) : SeedsApart size size := by
  intro sid key₁ key₂ spec₁ spec₂ hs hs₁ hs₂ hd heq
  obtain ⟨hw,hr⟩:=width_of_seedInput_eq hs heq
  obtain ⟨hk,ha⟩:=append_inj hr (hs₁.trans hs₂.symm)
  obtain ⟨hn,hl⟩:=afterKey_injective spec₁.length_valid spec₂.length_valid ha
  rcases hd with hne | hne | hne | hne
  · exact hne hk
  · exact hne (nameBytes_injective hn)
  · exact hne hl
  · exact hne hw

theorem seedsApart_of_mem (size d : ℕ) (hd : d∈[1,2,3,4,13,19]) : SeedsApart size (size+d) := by
  intro sid key₁ key₂ spec₁ spec₂ hs hs₁ hs₂ _ heq
  obtain ⟨hw,hr⟩:=width_of_seedInput_eq hs heq
  obtain ⟨hp,hle,-⟩:=SecAggVector.getBitWidth_bounds spec₂.modulus_valid
  rw [hw] at hr
  have hshifted : Shifted sid (nameBytes spec₁.name) (nameBytes spec₂.name)
      (getBitWidth spec₂.modulus) spec₁.length spec₂.length d := by
    refine ⟨hs,hp,hle,?_⟩
    have hdrop:=congrArg (List.drop (size+d)) hr
    rwa [drop_append,drop_eq_nil_of_le (show key₁.length ≤ size+d by omega),hs₁,
      Nat.add_sub_cancel_left,drop_left' hs₂] at hdrop
  exact hshifted.not_mem hd

def overlapByte (d size width i : ℕ) : UInt8 :=
  if i%d<5 then (kPrngSeedConstant::intToByteString size).getD (i%d) 0
  else if 40%d=i%d then UInt8.ofNat width
  else 0

def overlap (d size width : ℕ) : Bytes := kPrngSeedConstant::(intToByteString (size+d) ++
    ((List.range' 5 (32+d)).map (overlapByte d size width) ++
      (intToByteString width++intToByteString 1)))

def bigEndian (bytes : Bytes) : ℕ := bytes.foldl (fun value b => 2^8*value+b.toNat) 0

def overlapSession (d size width : ℕ) : Bytes := ((overlap d size width).drop 5).take 32

def overlapLength (d size width : ℕ) : ℕ := bigEndian (((overlap d size width).drop 41).take 4)

def overlapName (d size width : ℕ) : Bytes := (overlap d size width).drop 45

def overlapSize (d : ℕ) : ℕ :=
  if d=5 ∨ d=7 then 2^24 else if d=11 then 2^8 else if d=17 then 2^16 else 40

def overlapWidth (d : ℕ) : ℕ :=
  if d=5 ∨ d=8 ∨ d=10 ∨ d=20 then 2
  else if d=6 ∨ d=9 ∨ d=12 ∨ d=18 then 40
  else 1

@[mk_iff] structure Overlaps (d size width : ℕ) : Prop where
  first : overlap d size width =
    kPrngSeedConstant::(intToByteString (size+d)++(overlapSession d size width ++
      (intToByteString width++(intToByteString (overlapLength d size width) ++
        overlapName d size width))))
  second : (overlap d size width).drop d =
    kPrngSeedConstant::(intToByteString size++(overlapSession d size width ++
      (intToByteString width++intToByteString 1)))
  length_lt : overlapLength d size width<2^31
  name_ascii : ∀ b∈overlapName d size width,b<128
  size_le : 40 ≤ size
  width_eq : getBitWidth (2^width)=width ∧ 1<2^width ∧ 2^width≤2^62

-- Bytes are finite in number: without the first line all of them are tried, not those of the name.
instance instDecidableOverlaps (d size width : ℕ) : Decidable (Overlaps d size width) :=
  have : Decidable (∀ b∈overlapName d size width,b<128) := List.decidableBAll _ _
  decidable_of_iff _ (overlaps_iff d size width).symm

theorem overlaps (d : ℕ) (hge : 5≤d) (hle : d≤31) (hd : d≠13 ∧ d≠19) :
    Overlaps d (overlapSize d) (overlapWidth d) := by
  revert d
  decide +kernel

def asciiName (bytes : Bytes) : String := String.ofList (bytes.map fun b => Char.ofNat b.toNat)

theorem utf8EncodeChar_of_lt {b : UInt8} (h : b<128) :
    String.utf8EncodeChar (Char.ofNat b.toNat)=[b] := by
  have hb : b.toNat<128 := UInt8.lt_iff_toNat_lt.mp h
  have hv : b.toNat.isValidChar := Or.inl (by omega)
  have hc : (Char.ofNat b.toNat).val.toNat=b.toNat := by
    rw [Char.ofNat,dif_pos hv]
    rfl
  simp only [String.utf8EncodeChar,hc]
  rw [if_pos (by omega),UInt8.ofNat_toNat]

theorem nameBytes_asciiName {bs : Bytes} (h : ∀ b∈bs,b<128) : nameBytes (asciiName bs)=bs := by
  show (List.utf8Encode _).data.toList=_
  rw [List.utf8Encode,data_toByteArray,flatMap_map]
  show bs.flatMap _=bs
  induction bs with
  | nil => rfl
  | cons b bs ih =>
    rw [forall_mem_cons] at h
    rw [flatMap_cons,utf8EncodeChar_of_lt h.1,ih h.2]
    rfl

theorem length_overlap (d size width : ℕ) : (overlap d size width).length=45+d := by
  simp [overlap]
  omega

section Collision
variable {d size width : ℕ}

section

variable (h : Overlaps d size width)
include h

theorem Overlaps.afterKey_first {rest : Bytes} (hr : rest.length=size-40) :
    afterKey (overlapSession d size width) (overlapName d size width++rest) width
      (overlapLength d size width)=overlap d size width++rest := by
  have hl : 40+(overlapName d size width++rest).length=size+d := by
    have hs:=h.size_le
    rw [overlapName,length_append,length_drop,length_overlap]
    omega
  rw [afterKey,hl,h.first]
  simp

theorem Overlaps.afterKey_second {rest : Bytes} (hr : rest.length=size-40) :
    afterKey (overlapSession d size width) rest width 1=(overlap d size width).drop d++rest := by
  have hl : 40+rest.length=size := by
    have hs:=h.size_le
    omega
  rw [afterKey,hl,h.second]
  simp

theorem Overlaps.not_seedsApart (hd : 0<d) (keySize : ℕ) : ¬ SeedsApart keySize (keySize+d) := by
  intro hapart
  obtain ⟨hw,hv⟩:=h.width_eq
  let rest : Bytes := List.replicate (size-40) 97
  have hr : rest.length=size-40 := length_replicate
  have ha : ∀ b∈rest,b<128 := by
    intro b hb
    rw [eq_of_mem_replicate hb]
    decide
  have ha' : ∀ b∈overlapName d size width++rest,b<128 := by
    intro b hb
    rcases mem_append.mp hb with hb | hb
    · exact h.name_ascii b hb
    · exact ha b hb
  have hs : (overlapSession d size width).length=32 := by
    rw [overlapSession,length_take,length_drop,length_overlap]
    omega
  have hl : ((overlap d size width).take d).length=d := by
    rw [length_take,length_overlap]
    omega
  apply hapart (overlapSession d size width) (List.replicate keySize 0)
    (List.replicate keySize 0++(overlap d size width).take d)
    ⟨asciiName (overlapName d size width++rest),overlapLength d size width,2^width,h.length_lt,hv⟩
    ⟨asciiName rest,1,2^width,by decide,hv⟩ hs length_replicate
    (by rw [length_append,length_replicate,hl])
  · left
    intro heq
    have hlen:=congrArg List.length heq
    rw [length_append,length_replicate,hl] at hlen
    omega
  · rw [seedInput_eq hs,seedInput_eq hs,nameBytes_asciiName ha',
      nameBytes_asciiName ha,hw,h.afterKey_first hr,h.afterKey_second hr,
      append_assoc,← append_assoc (List.take _ _),take_append_drop]

end

end Collision

theorem seedsApart_add_iff (size : ℕ) {d : ℕ} (hd : d≤31) :
    SeedsApart size (size+d) ↔ d∈[0,1,2,3,4,13,19] := by
  constructor
  · intro ha
    by_contra hm
    simp only [mem_cons,not_mem_nil,or_false,not_or] at hm
    have ho:=overlaps d (by omega) hd (by omega)
    exact ho.not_seedsApart (by omega) size ha
  · intro hm
    rcases mem_cons.mp hm with rfl | hm
    · exact seedsApart_same size
    · exact seedsApart_of_mem size d hm

theorem seedsApart_iff (size₁ size₂ : ℕ) (h₁ : AdmittedSize size₁) (h₂ : AdmittedSize size₂) :
    SeedsApart size₁ size₂ ↔ max size₁ size₂-min size₁ size₂∈[0,1,2,3,4,13,19] := by
  unfold AdmittedSize at h₁ h₂
  rcases Nat.le_total size₁ size₂ with hle | hle
  · obtain ⟨d,rfl⟩:=Nat.exists_eq_add_of_le hle
    rw [seedsApart_add_iff size₁ (by omega),Nat.max_eq_right hle,Nat.min_eq_left hle,
      Nat.add_sub_cancel_left]
  · obtain ⟨d,rfl⟩:=Nat.exists_eq_add_of_le hle
    have hs : SeedsApart (size₂+d) size₂ ↔ SeedsApart size₂ (size₂+d) :=
      ⟨SeedsApart.symm,SeedsApart.symm⟩
    rw [hs,seedsApart_add_iff size₂ (by omega),Nat.max_eq_left hle,Nat.min_eq_right hle,
      Nat.add_sub_cancel_left]

theorem seedsApart_iff_kSize : SeedsApart AesKey.kSize AesKey.kSize :=
  (seedsApart_iff 32 32 (by decide) (by decide)).mpr (by decide)

theorem oneByte_nineBytes_collide : seedInput
        [0,0,0,2,0,0,0,40,0,0,0,2,0,0,0,40,0,0,0,2,0,0,0,40,0,0,0,2,0,0,0,40]
        [7] ⟨asciiName [0,0,0,2,0,0,0,1],40,4,by decide,by decide⟩ =
      seedInput
        [0,0,0,2,0,0,0,40,0,0,0,2,0,0,0,40,0,0,0,2,0,0,0,40,0,0,0,2,0,0,0,40]
        [7,2,0,0,0,48,0,0,0] ⟨asciiName [],1,4,by decide,by decide⟩ ∧
      AesKey.create [7]=.ok [7] ∧
      AesKey.create [7,2,0,0,0,48,0,0,0]=.ok [7,2,0,0,0,48,0,0,0] := by
  decide +kernel

end Fcp.SecAgg

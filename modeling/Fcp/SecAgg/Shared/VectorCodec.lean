import Fcp.SecAgg.Shared.SecAggVector
import Mathlib.Data.Nat.Digits.Lemmas

/-!
# One format for two codecs

A vector is packed into the number whose digits to the base `2^bit_width` are its elements, written
as little-endian bytes.
-/

namespace Fcp.SecAgg.SecAggVector

open List Decoder

variable {x w : ℕ}

theorem shiftLeft_lt (hx : x<2^w) (pos : ℕ) : x <<< pos<2^(pos+w) := by
  rw [Nat.shiftLeft_eq,Nat.mul_comm,Nat.pow_add]
  exact Nat.mul_lt_mul_of_pos_left hx (Nat.two_pow_pos _)

theorem written_lt {used value pos : ℕ} (hu : used<2^pos)
    (hval : value<2^w) : used ||| value <<< pos<2^(pos+w) := by
  exact Nat.or_lt_two_pow (lt_two_pow_of_le hu (by omega)) (shiftLeft_lt hval pos)

theorem shiftLeft_split (x k pos : ℕ) : (x%2^k) <<< pos ||| (x >>> k) <<< (pos+k)=x <<< pos := by
  refine Nat.eq_of_testBit_eq fun q => ?_
  simp only [Nat.testBit_or,Nat.testBit_shiftLeft,Nat.testBit_mod_two_pow,Nat.testBit_shiftRight]
  by_cases hp : pos≤q
  · by_cases hk : q-pos<k
    · have hn : ¬ pos+k≤q := by omega
      simp [hp,hk,hn]
    · have hle : pos+k≤q := by omega
      have hs : k+(q-(pos+k))=q-pos := by omega
      simp [hp,hk,hle,hs]
  · have hn : ¬ pos+k≤q := by omega
    simp [hp,hn]

theorem and_mask (x k : ℕ) : x &&& (2^k-1)=x%2^k := Nat.and_two_pow_sub_one_eq_mod x k

theorem updateByte_or (bs : Bytes) (i : ℕ) (hi : i<bs.length) (hx : x<2^8) :
    ∃ r,updateByte bs i (fun b => b ||| UInt8.ofNat x)=.ok r ∧ r.length=bs.length ∧
      littleEndian r=littleEndian bs ||| x <<< (8*i) := by
  refine ⟨_,if_pos hi,length_modify ..,Nat.eq_of_testBit_eq fun q => ?_⟩
  rw [testBit_littleEndian_modify hi,Nat.testBit_or,Nat.testBit_shiftLeft]
  split
  next hq =>
    have hle : 8*i≤q := by omega
    have hs : q-8*i=q%8 := by omega
    rw [UInt8.toNat_or,UInt8.toNat_ofNat',Nat.mod_eq_of_lt hx,Nat.testBit_or,
      testBit_littleEndian,hq,getD_eq_getElem _ _ hi,hs]
    simp [hle]
  next hq =>
    by_cases hle : 8*i≤q
    · rw [testBit_of_lt hx (by omega)]
      simp
    · simp [hle]

theorem updateByte_set (bs : Bytes) (i : ℕ) (hi : i<bs.length) (hx : x<2^8)
    (hf : littleEndian bs<2^(8*i)) :
    ∃ r,updateByte bs i (fun _ => UInt8.ofNat x)=.ok r ∧ r.length=bs.length ∧
      littleEndian r=littleEndian bs ||| x <<< (8*i) := by
  refine ⟨_,if_pos hi,length_modify ..,Nat.eq_of_testBit_eq fun q => ?_⟩
  rw [testBit_littleEndian_modify hi,Nat.testBit_or,Nat.testBit_shiftLeft]
  by_cases hle : 8*i≤q
  · have ho:=testBit_of_lt hf hle
    split
    · have hs : q-8*i=q%8 := by omega
      rw [UInt8.toNat_ofNat',Nat.mod_eq_of_lt hx,ho,hs]
      simp [hle]
    · rw [testBit_of_lt hx (by omega)]
      simp
  · rw [if_neg (by omega)]
    simp [hle]

theorem packAligned_eq (bs : Bytes) (cur : ℕ) {element n : ℕ} (hfit : 8*cur+n≤8*bs.length)
    (hf : littleEndian bs<2^(8*cur)) (he : element<2^n) :
    ∃ r,packAligned bs cur element n=.ok r ∧ r.length=bs.length ∧
      littleEndian r=littleEndian bs ||| element <<< (8*cur) := by
  induction n using Nat.strongRecOn generalizing bs cur element with
  | ind n ih =>
    unfold packAligned
    split
    next m =>
      have hlow : element &&& 255=element%2^8 := and_mask element 8
      have hlt : element%2^8<2^8 := Nat.mod_lt _ (by decide)
      obtain ⟨bytes',hset,hl,hval⟩:=updateByte_set bs cur (by omega) hlt hf
      have hh : element >>> 8<2^m := by
        rw [Nat.shiftRight_eq_div_pow]
        exact Nat.div_lt_of_lt_mul (by rwa [← Nat.pow_add,Nat.add_comm])
      obtain ⟨r,hr,hl',hval'⟩:=ih m (by omega) bytes' (cur+1) (by omega)
        (by rw [hval]; exact written_lt hf hlt) hh
      refine ⟨r,by rw [hlow,hset,ok_bind,hr],by rw [hl',hl],?_⟩
      rw [hval',hval,Nat.or_assoc,Nat.mul_succ,shiftLeft_split]
    next hs =>
      have hn : n<8 := by
        by_contra hge
        exact hs (n-8) (by omega)
      split
      · exact updateByte_or bs cur (by omega) (lt_two_pow_of_le he (by omega))
      · have hz : element=0 := by
          have hn0 : n=0 := by omega
          rw [hn0] at he
          omega
        exact ⟨bs,rfl,rfl,by rw [hz,Nat.zero_shiftLeft,Nat.or_zero]⟩

variable {k : ℕ}

theorem shiftRight_lt (hx : x<2^w) : x >>> k<2^(w-k) := by
  rw [Nat.shiftRight_eq_div_pow]
  apply Nat.div_lt_of_lt_mul
  rw [← Nat.pow_add]
  exact lt_two_pow_of_le hx (by omega)

theorem mod_min (hx : x<2^w) : x%2^min k w=x%2^k := by
  obtain hle | hle:=Nat.le_total k w
  · rw [Nat.min_eq_left hle]
  · rw [Nat.min_eq_right hle,Nat.mod_eq_of_lt hx,Nat.mod_eq_of_lt (lt_two_pow_of_le hx hle)]

theorem packUint64IntoByteStringAt_eq {bw element : ℕ} (bs : Bytes) (i : ℕ) (hbw : 0<bw)
    (hint : i*bw<2^31) (hfit : i*bw+bw≤8*bs.length)
    (hf : littleEndian bs<2^(i*bw)) (he : element<2^bw) :
    ∃ r,packUint64IntoByteStringAt bw bs i element=.ok r ∧ r.length=bs.length ∧
      littleEndian r=littleEndian bs ||| element <<< (i*bw) := by
  have hp : toInt (i*bw)=.ok (i*bw) := if_pos hint
  unfold packUint64IntoByteStringAt
  rw [hp,ok_bind]
  generalize i*bw=pos at *
  dsimp only
  split
  next hstart =>
    have hs : 8*(pos/8)+pos%8=pos := by omega
    have hb : pos%8+(8-pos%8)=8 := by omega
    have hnext : pos+(8-pos%8)=8*(pos/8+1) := by omega
    generalize 8-pos%8=free at *
    have hlow : element%2^free<2^free := Nat.mod_lt _ (Nat.two_pow_pos _)
    have hval : (element%2^free) <<< (pos%8)<2^8 := by
      have hlt:=shiftLeft_lt hlow (pos%8)
      rwa [hb] at hlt
    obtain ⟨bytes',hup,hl,hn⟩:=updateByte_or bs (pos/8) (by omega) hval
    rw [← Nat.shiftLeft_add,Nat.add_comm,hs] at hn
    have hf' : littleEndian bytes'<2^(8*(pos/8+1)) := by
      rw [hn,← hnext]
      exact written_lt hf hlow
    have hh : element >>> free<2^(bw-free) := shiftRight_lt he
    obtain ⟨r,hr,hl',hn'⟩:=packAligned_eq bytes' (pos/8+1) (by omega) hf' hh
    refine ⟨r,?_,hl'.trans hl,?_⟩
    · rw [and_mask,mod_min he,hup,ok_bind,hr]
    · rw [hn',hn,← hnext,Nat.or_assoc,shiftLeft_split]
  next hstart =>
    have ha : 8*(pos/8)=pos := by omega
    obtain ⟨r,hr,hl,hn⟩:=packAligned_eq bs (pos/8) (by omega) (by rw [ha]; exact hf) he
    exact ⟨r,hr,hl,by rw [hn,ha]⟩

variable {bw : ℕ} {values : List ℕ}

theorem ofDigits_lt (hbw : 0<bw) (h : ∀ v∈values,v<2^bw) :
    Nat.ofDigits (2^bw) values<2^(values.length*bw) := by
  rw [Nat.mul_comm,Nat.pow_mul]
  exact Nat.ofDigits_lt_base_pow_length (Nat.one_lt_two_pow hbw.ne') h

theorem ofDigits_snoc (hbw : 0<bw) (h : ∀ v∈values,v<2^bw) (v : ℕ) :
    Nat.ofDigits (2^bw) (values++[v]) =
      Nat.ofDigits (2^bw) values ||| v <<< (values.length*bw) := by
  rw [Nat.ofDigits_append,Nat.ofDigits_singleton,Nat.or_comm,
    ← Nat.shiftLeft_add_eq_or_of_lt (ofDigits_lt hbw h),Nat.shiftLeft_eq,← Nat.pow_mul,
    Nat.mul_comm bw,Nat.mul_comm v,Nat.add_comm]

theorem ofDigits_digit (h : ∀ v∈values,v<2^bw) (hk : k<values.length) :
    Nat.ofDigits (2^bw) values >>> (k*bw)%2^bw=values[k] := by
  induction values generalizing k with
  | nil => exact absurd hk (Nat.not_lt_zero _)
  | cons v values ih =>
    have hv : v<2^bw := h v mem_cons_self
    rw [Nat.ofDigits_cons]
    cases k with
    | zero =>
      rw [Nat.zero_mul,Nat.shiftRight_zero,Nat.add_mul_mod_self_left,Nat.mod_eq_of_lt hv,
        getElem_cons_zero]
    | succ k =>
      have hk' : k<values.length := Nat.lt_of_succ_lt_succ hk
      rw [Nat.succ_mul,Nat.add_comm (k*bw),Nat.shiftRight_add,Nat.shiftRight_eq_div_pow _ bw,
        Nat.add_mul_div_left _ _ (Nat.two_pow_pos _),Nat.div_eq_of_lt hv,Nat.zero_add,
        ih (fun w hw => h w (mem_cons_of_mem _ hw)) hk',getElem_cons_succ]

theorem packFrom_eq (hbw : 0<bw) (packed rest : List ℕ) (bs : Bytes)
    (hp : ∀ v∈packed,v<2^bw) (hrest : ∀ v∈rest,v<2^bw)
    (hint : (packed.length+rest.length-1)*bw<2^31)
    (hf : (packed.length+rest.length)*bw≤8*bs.length)
    (hn : littleEndian bs=Nat.ofDigits (2^bw) packed) :
    ∃ r,packFrom bw bs packed.length rest=.ok r ∧ r.length=bs.length ∧
      littleEndian r=Nat.ofDigits (2^bw) (packed++rest) := by
  induction rest generalizing packed bs with
  | nil => exact ⟨bs,rfl,rfl,by rw [hn,append_nil]⟩
  | cons v rest ih =>
    have hv : v<2^bw := hrest v mem_cons_self
    have hlast : packed.length*bw+bw≤(packed.length+(v::rest).length)*bw := by
      rw [← Nat.succ_mul]
      exact Nat.mul_le_mul_right _ (by simp)
    have hi : packed.length*bw≤(packed.length+(v::rest).length-1)*bw :=
      Nat.mul_le_mul_right _ (by simp)
    obtain ⟨bytes',hpack,hl,hn'⟩:=packUint64IntoByteStringAt_eq bs packed.length
      hbw (by omega) (by omega) (by rw [hn]; exact ofDigits_lt hbw hp) hv
    rw [hn,← ofDigits_snoc hbw hp] at hn'
    have hc : (packed++[v]).length+rest.length=packed.length+(v::rest).length := by
      simp only [length_append,length_cons,length_nil]
      omega
    have hp' : ∀ w∈packed++[v],w<2^bw := by simpa [or_imp,forall_and] using ⟨hp,hv⟩
    obtain ⟨r,hr,hl',hr'⟩:=ih _ _ hp' (fun w hw => hrest w (mem_cons_of_mem _ hw))
      (by rwa [hc]) (by rwa [hc,hl]) hn'
    refine ⟨r,?_,hl'.trans hl,by rw [hr',append_assoc,singleton_append]⟩
    rw [packFrom,hpack,ok_bind]
    rwa [length_append] at hr

def fieldAt (bw : ℕ) (bytes : Bytes) (index : ℕ) : ℕ := littleEndian bytes >>> (index*bw)%2^bw

theorem mod_split (x m k : ℕ) : (x >>> m%2^k) <<< m ||| x%2^m=x%2^(m+k) := by
  refine Nat.eq_of_testBit_eq fun q => ?_
  simp only [Nat.testBit_or,Nat.testBit_shiftLeft,Nat.testBit_mod_two_pow,Nat.testBit_shiftRight]
  by_cases hm : q < m
  · have hl : ¬ m≤q := by omega
    have ha : q < m+k := by omega
    simp [hm,hl,ha]
  · have hge : m≤q := by omega
    have hs : m+(q-m)=q := by omega
    have hi : q-m<k ↔ q < m+k := by omega
    simp [hm,hge,hs,hi]

theorem mod_shiftRight (x n k : ℕ) : (x%2^(k+n)) >>> k=x >>> k%2^n := by
  rw [Nat.shiftRight_eq_div_pow,Nat.shiftRight_eq_div_pow,Nat.pow_add,Nat.mod_mul_right_div_self]

variable {bs : Bytes}

theorem byteAt_eq {i : ℕ} (hi : i<bs.length) : byteAt bs i=.ok (littleEndian bs >>> (8*i)%2^8) := by
  unfold byteAt
  rw [getElem?_eq_getElem hi]
  refine congrArg Except.ok (Nat.eq_of_testBit_eq fun q => ?_)
  rw [Nat.testBit_mod_two_pow,Nat.testBit_shiftRight,testBit_littleEndian]
  by_cases hq : q<8
  · have hd : (8*i+q)/8=i := by omega
    have hmod : (8*i+q)%8=q := by omega
    simp [hq,hd,hmod,hi]
  · rw [testBit_of_lt bs[i].toNat_lt (by omega)]
    simp [hq]

theorem byteBefore_eq {i : ℕ} (hp : 0 < i) (hi : i≤bs.length) :
    byteBefore bs i=.ok (littleEndian bs >>> (8*(i-1))%2^8) := by
  cases i with
  | zero => exact absurd hp (Nat.lt_irrefl 0)
  | succ i => exact byteAt_eq hi

theorem unpackAligned_eq {byteEnd unpacked n : ℕ} (hn : n≤8*byteEnd)
    (he : byteEnd≤bs.length) (hu : unpacked<2^k) (hf : n+k≤64) :
    unpackAligned bs byteEnd unpacked n =
      .ok (unpacked <<< n ||| littleEndian bs >>> (8*byteEnd-n)%2^n) := by
  induction n using Nat.strongRecOn generalizing byteEnd unpacked k with
  | ind n ih =>
    have hk (m : ℕ) (hm : m≤n) : u64 (unpacked <<< m)=unpacked <<< m := by
      exact Nat.mod_eq_of_lt (lt_two_pow_of_le (shiftLeft_lt hu m) (by omega))
    unfold unpackAligned
    split
    next m =>
      have hb:=byteBefore_eq (by omega) he
      have hsplit : unpacked <<< (m+8)=unpacked <<< 8 <<< m := by
        rw [Nat.add_comm,Nat.shiftLeft_add]
      have hl : 8*(byteEnd-1)=8*byteEnd-(m+8)+m := by omega
      have hu' : unpacked <<< 8 ||| littleEndian bs >>> (8*(byteEnd-1))%2^8<2^(8+k) := by
        rw [Nat.or_comm]
        exact written_lt (Nat.mod_lt _ (by decide)) hu
      rw [hb,ok_bind,hk 8 (by omega),ih m (by omega) (by omega) (by omega) hu' (by omega),hsplit,
        Nat.shiftLeft_or_distrib,Nat.or_assoc,← mod_split _ m 8,← Nat.shiftRight_add,← hl]
      have hsub : 8*(byteEnd-1)-m=8*byteEnd-(m+8) := by omega
      rw [hsub]
    next hs =>
      have hn8 : n<8 := by
        by_contra hge
        exact hs (n-8) (by omega)
      split
      · have hb:=byteBefore_eq (by omega) he
        have hp : 8-n+n=8 := by omega
        have hr:=mod_shiftRight (littleEndian bs >>> (8*(byteEnd-1))) n (8-n)
        rw [hp,← Nat.shiftRight_add] at hr
        have hsum : 8*(byteEnd-1)+(8-n)=8*byteEnd-n := by omega
        rw [hb,ok_bind,hr,hsum,hk n (Nat.le_refl n)]
        rfl
      · have hz : n=0 := by omega
        rw [hz,Nat.pow_zero,Nat.mod_one,Nat.shiftLeft_zero,Nat.or_zero]
        rfl

theorem unpackUint64FromByteStringAt_eq {i : ℕ} (hbw : 0<bw) (hwidth : bw≤64)
    (hint : (i+1)*bw<2^31) (hf : (i+1)*bw≤8*bs.length) :
    unpackUint64FromByteStringAt bw bs i=.ok (fieldAt bw bs i) := by
  unfold fieldAt
  rw [Nat.succ_mul] at hint hf
  have hleft : toInt (i*bw)=.ok (i*bw) := if_pos (by omega)
  have hr : toInt ((i+1)*bw)=.ok (i*bw+bw) := by
    rw [Nat.succ_mul]
    exact if_pos hint
  unfold unpackUint64FromByteStringAt
  rw [hleft,ok_bind,hr,ok_bind]
  generalize i*bw=pos at *
  dsimp only
  split
  next hs =>
    -- the field lies inside one byte
    have hskip : 8*(pos/8)+pos%8=pos := by omega
    have hinside : pos%8+bw≤8 := by omega
    rw [byteAt_eq (by omega),ok_bind]
    refine congrArg Except.ok (Nat.eq_of_testBit_eq fun q => ?_)
    simp only [Nat.testBit_shiftRight,Nat.testBit_and,Nat.testBit_mod_two_pow,
      Nat.testBit_shiftLeft,Nat.testBit_two_pow_sub_one]
    have hi : 8*(pos/8)+(pos%8+q)=pos+q := by omega
    have hge : pos%8≤pos%8+q := by omega
    rw [hi,Nat.add_sub_cancel_left]
    by_cases hq : q<bw
    · have hb : pos%8+q<8 := by omega
      simp [hq,hb]
    · simp [hq]
  next hd =>
    split
    next hc =>
      have hl : (pos+bw-1)/8=(pos+bw)/8 := by omega
      have hp : bw-(pos+bw)%8+(pos+bw)%8=bw := by omega
      have hw : 8*((pos+bw)/8)=pos+(bw-(pos+bw)%8) := by omega
      have hlow : (pos+bw)%8≤8 := by omega
      rw [hl] at hd ⊢
      rw [byteAt_eq (by omega),ok_bind,and_mask,Nat.mod_mod_of_dvd _ (pow_dvd_pow 2 hlow),
        unpackAligned_eq (by omega) (by omega) (Nat.mod_lt _ (Nat.two_pow_pos _)) (by omega),
        hw,Nat.add_sub_cancel,Nat.shiftRight_add,mod_split,hp]
    · have he : 8*((pos+bw-1)/8+1)-bw=pos := by omega
      rw [unpackAligned_eq (by omega) (by omega) (Nat.two_pow_pos 0) (by omega),
        Nat.zero_shiftLeft,Nat.zero_or,he]

theorem writeBlock_eq {cursor : ℕ} (hr : cursor+8≤bs.length)
    (hb : littleEndian (bs.take cursor)=x%2^(8*cursor)) :
    ∃ r,Coder.writeBlock bs cursor (u64 (x >>> (8*cursor)))=.ok r ∧ r.length=bs.length ∧
      ∀ n≤cursor+8,littleEndian (r.take n)=x%2^(8*n) := by
  have hl : (bs.take cursor).length=cursor := length_take_of_le (by omega)
  have hh : (bs.take cursor++toLittleEndian 8 (u64 (x >>> (8*cursor)))).length=cursor+8 := by
    rw [length_append,hl,length_toLittleEndian]
  refine ⟨_,if_pos hr,?_,fun n hn => ?_⟩
  · rw [length_append,hh,length_drop]
    omega
  · have hnumber : littleEndian (bs.take cursor ++
        toLittleEndian 8 (u64 (x >>> (8*cursor))))=x%2^(8*(cursor+8)) := by
      rw [littleEndian_append,hl,hb,littleEndian_toLittleEndian,u64,Nat.mod_mod,
        Nat.shiftRight_eq_div_pow,← Nat.mod_mul,← Nat.pow_add,Nat.mul_add]
    rw [take_append_of_le_length (by omega),littleEndian_take,hnumber]
    exact Nat.mod_mod_of_dvd _ (pow_dvd_pow 2 (by omega))

namespace Coder

structure Holds (c : Coder) (written position : ℕ) : Prop where
  cursor : 8*c.writeCursor+c.startingBitPosition=position
  start_lt : c.startingBitPosition<8
  written_lt : written<2^position
  bytes : littleEndian (c.packedBytes.take c.writeCursor)=written%2^(8*c.writeCursor)
  target : c.targetCursorValue=written >>> (8*c.writeCursor)
  size : c.packedBytes.length=c.numBytesNeeded+8

variable {c : Coder} {written pos : ℕ}

section

variable (h : c.Holds written pos)
include h

theorem Holds.target_lt : c.targetCursorValue<2^c.startingBitPosition := by
  have hlt : written >>> (8*c.writeCursor)<2^(pos-8*c.writeCursor) := shiftRight_lt h.written_lt
  rwa [← h.target,← h.cursor,Nat.add_sub_cancel_left] at hlt

theorem Holds.above (value : ℕ) : (written ||| value <<< pos) >>> (8*c.writeCursor) =
      c.targetCursorValue ||| value <<< c.startingBitPosition := by
  rw [Nat.shiftRight_or_distrib,← h.target,← h.cursor,Nat.add_comm,Nat.shiftLeft_add,
    Nat.shiftLeft_shiftRight]

theorem Holds.block (value : ℕ) :
    c.targetCursorValue &&& (2^c.startingBitPosition-1) ||| u64 (value <<< c.startingBitPosition) =
      u64 ((written ||| value <<< pos) >>> (8*c.writeCursor)) := by
  have hs:=h.start_lt
  have hk : c.targetCursorValue<2^64 := lt_two_pow_of_le h.target_lt (by omega)
  rw [and_mask,Nat.mod_eq_of_lt h.target_lt,h.above,u64,u64,Nat.or_mod_two_pow,Nat.mod_eq_of_lt hk]

/-- What stays to be written; a block that was filled leaves only the rest of the value. -/
theorem Holds.rest {value : ℕ} (hw : c.bitWidth≤62) (hval : value<2^c.bitWidth) :
    (if (c.startingBitPosition+c.bitWidth)/8=8 then
      if (c.startingBitPosition+c.bitWidth)%8≠0 then
        value >>> ((64-c.startingBitPosition) &&& 63) else 0
      else u64 ((written ||| value <<< pos) >>> (8*c.writeCursor)) >>>
        (((c.startingBitPosition+c.bitWidth)/8*8) &&& 63)) =
      (written ||| value <<< pos) >>> (8*(c.writeCursor+(c.startingBitPosition+c.bitWidth)/8)) := by
  have hstart:=h.start_lt
  have ht:=h.target_lt
  have hmask (x : ℕ) : x &&& 63=x%64 := and_mask x 6
  rw [Nat.mul_add,Nat.shiftRight_add,h.above,hmask,hmask]
  generalize c.startingBitPosition=start at *
  split
  next hfull =>
    have hl : c.targetCursorValue >>> 64=0 := by
      rw [Nat.shiftRight_eq_div_pow]
      exact Nat.div_eq_of_lt (lt_two_pow_of_le ht (by omega))
    have hs : 64=start+(64-start) := by omega
    have hh : (value <<< start) >>> 64=value >>> (64-start) := by
      rw [hs,Nat.shiftRight_add,Nat.shiftLeft_shiftRight,← hs]
    rw [hfull,Nat.shiftRight_or_distrib,hl,Nat.zero_or,hh]
    split
    · rw [Nat.mod_eq_of_lt (by omega)]
    · rw [Nat.shiftRight_eq_div_pow,Nat.div_eq_of_lt (lt_two_pow_of_le hval (by omega))]
  · have hf : c.targetCursorValue ||| value <<< start<2^64 :=
      lt_two_pow_of_le (SecAggVector.written_lt ht hval) (by omega)
    rw [u64,Nat.mod_eq_of_lt hf,Nat.mod_eq_of_lt (by omega),Nat.mul_comm 8]

theorem Holds.writeValue {value : ℕ} (hbw : 0<c.bitWidth) (hw : c.bitWidth≤62)
    (hval : value<2^c.bitWidth) (hr : pos+c.bitWidth≤8*c.numBytesNeeded) :
    ∃ c',c.writeValue value=.ok c' ∧ c'.Holds (written ||| value <<< pos) (pos+c.bitWidth) ∧
      c'.bitWidth=c.bitWidth ∧ c'.numBytesNeeded=c.numBytesNeeded ∧
      c'.modulus=c.modulus ∧ c'.numElements=c.numElements := by
  have hcursor:=h.cursor
  have hs:=h.start_lt
  have hb : littleEndian (c.packedBytes.take c.writeCursor) =
      (written ||| value <<< pos)%2^(8*c.writeCursor) := by
    have hc : value <<< pos%2^(8*c.writeCursor)=0 := by
      rw [← hcursor,Nat.add_comm,Nat.shiftLeft_add,Nat.shiftLeft_eq _ (8*c.writeCursor)]
      exact Nat.mul_mod_left _ _
    rw [Nat.or_mod_two_pow,hc,Nat.or_zero,h.bytes]
  obtain ⟨bs,hwrite,hl,ht⟩:=writeBlock_eq (by rw [h.size]; omega) hb
  unfold Coder.writeValue
  dsimp only
  rw [h.block,hwrite,ok_bind]
  refine ⟨_,rfl,⟨?_,?_,?_,?_,h.rest hw hval,hl.trans h.size⟩,rfl,rfl,rfl,rfl⟩
  · dsimp only
    omega
  · exact Nat.mod_lt _ (by decide)
  · exact SecAggVector.written_lt h.written_lt hval
  · exact ht _ (by dsimp only; omega)

end

theorem foldlM_writeValue (c : Coder) (packed rest : List ℕ) (hbw : 0<c.bitWidth)
    (hwidth : c.bitWidth≤62)
    (h : c.Holds (Nat.ofDigits (2^c.bitWidth) packed) (packed.length*c.bitWidth))
    (hp : ∀ v∈packed,v<2^c.bitWidth) (hr : ∀ v∈rest,v<2^c.bitWidth)
    (hroom : (packed.length+rest.length)*c.bitWidth≤8*c.numBytesNeeded) :
    ∃ c',rest.foldlM Coder.writeValue c=.ok c' ∧
      c'.Holds (Nat.ofDigits (2^c.bitWidth) (packed++rest))
        ((packed++rest).length*c.bitWidth) ∧
      c'.numBytesNeeded=c.numBytesNeeded ∧ c'.modulus=c.modulus ∧
      c'.numElements=c.numElements := by
  induction rest generalizing packed c with
  | nil => exact ⟨c,rfl,by rwa [append_nil],rfl,rfl,rfl⟩
  | cons v rest ih =>
    have hv : v<2^c.bitWidth := hr v mem_cons_self
    have hl : packed.length*c.bitWidth+c.bitWidth ≤
        (packed.length+(v::rest).length)*c.bitWidth := by
      rw [← Nat.succ_mul]
      exact Nat.mul_le_mul_right _ (by simp)
    obtain ⟨c₁,hwrite,h₁,hbw₁,hneeded₁,hmod₁,hn₁⟩:=h.writeValue hbw hwidth hv (by omega)
    have hc : (packed++[v]).length+rest.length=packed.length+(v::rest).length := by
      simp only [length_append,length_cons,length_nil]
      omega
    have hp' : ∀ w∈packed++[v],w<2^c₁.bitWidth := by
      rw [hbw₁]
      simpa [or_imp,forall_and] using ⟨hp,hv⟩
    rw [← ofDigits_snoc hbw hp,← Nat.succ_mul,← hbw₁] at h₁
    obtain ⟨c',hf,h',hneeded,hmod,hn⟩:=ih c₁ (packed++[v]) (by rwa [hbw₁])
      (by rwa [hbw₁]) (by rwa [length_append]) hp'
      (fun w hw => by rw [hbw₁]; exact hr w (mem_cons_of_mem _ hw))
      (by rwa [hc,hbw₁,hneeded₁])
    refine ⟨c',?_,?_,hneeded.trans hneeded₁,hmod.trans hmod₁,hn.trans hn₁⟩
    · rw [foldlM_cons,hwrite]
      exact hf
    · rwa [hbw₁,append_assoc,singleton_append] at h'

theorem Holds.createVector (h : c.Holds written pos) (hneeded : c.numBytesNeeded=(pos+7)/8)
    (hs : c.numBytesNeeded=packedSize c.numElements c.modulus)
    (hmod : 1<c.modulus ∧ c.modulus≤kMaxModulus) :
    ∃ v,c.createVector=.ok v ∧ v.modulus=c.modulus ∧ v.numElements=c.numElements ∧
      v.packedBytes=toLittleEndian c.numBytesNeeded written := by
  have hc:=h.cursor
  have hstart:=h.start_lt
  have htarget : c.targetCursorValue=u64 (written >>> (8*c.writeCursor)) := by
    have hlt : c.targetCursorValue<2^64 := lt_two_pow_of_le h.target_lt (by omega)
    rw [← h.target,u64,Nat.mod_eq_of_lt hlt]
  obtain ⟨bs,hw,hl,ht⟩:=writeBlock_eq (by rw [h.size]; omega) h.bytes
  have hcut : (bs.take c.numBytesNeeded).length=c.numBytesNeeded :=
    length_take_of_le (by rw [hl,h.size]; omega)
  have hn : littleEndian (bs.take c.numBytesNeeded)=written := by
    rw [ht _ (by omega)]
    exact Nat.mod_eq_of_lt (lt_two_pow_of_le h.written_lt (by omega))
  unfold Coder.createVector
  rw [htarget,hw,ok_bind,ofPackedBytes,dif_pos hmod,dif_pos (hcut.trans hs)]
  exact ⟨_,rfl,rfl,rfl,eq_toLittleEndian hcut hn⟩

end Coder

namespace Decoder

theorem testBit_overwriteLow (value : ℕ) (bs : Bytes) (q : ℕ) : (overwriteLow value bs).testBit q =
      if q<8*bs.length then (littleEndian bs).testBit q else value.testBit q := by
  unfold overwriteLow
  rw [Nat.testBit_or,Nat.testBit_shiftLeft]
  split
  next hq =>
    have hn : ¬ 8*bs.length≤q := by omega
    simp [hn]
  next hq =>
    have hle : 8*bs.length≤q := by omega
    have hs : 8*bs.length+(q-8*bs.length)=q := by omega
    rw [testBit_of_lt (littleEndian_lt bs) hle,Nat.testBit_shiftRight,hs]
    simp [hle]

def Agrees (bytes : Bytes) (x position : ℕ) : Prop := ∀ i<64,position+i<8*bytes.length →
    x.testBit i=(littleEndian bytes).testBit (position+i)

structure Reads (d : Decoder) (position : ℕ) : Prop where
  cursor : position+d.readCursorBit=8*d.readCursor
  cursorBit_lt : d.readCursorBit<64
  scratch : Agrees d.packedBytes d.scratch position
  scratch_lt : d.scratch<2^64
  block : Agrees d.packedBytes d.cursorReadValue (8*d.readCursor)
  block_lt : d.cursorReadValue<2^64

variable {d : Decoder} {pos : ℕ}

theorem agrees_overwriteLow (bs : Bytes) (value cursor : ℕ) :
    Agrees bs (overwriteLow value ((bs.drop cursor).take 8)) (8*cursor) := by
  intro i hi hin
  have hl : i<8*((bs.drop cursor).take 8).length := by
    rw [length_take,length_drop]
    omega
  have hi' : i<8*8 := hi
  rw [testBit_overwriteLow,if_pos hl,littleEndian_take,Nat.testBit_mod_two_pow,
    testBit_littleEndian_drop,decide_eq_true hi',Bool.true_and]

theorem overwriteLow_lt {value : ℕ} (hval : value<2^64) (bs : Bytes) :
    overwriteLow value (bs.take 8)<2^64 := by
  refine Nat.lt_pow_two_of_testBit _ fun q hq => ?_
  have hl:=length_take_le 8 bs
  rw [testBit_overwriteLow,if_neg (by omega)]
  exact testBit_of_lt hval hq

/-- `ReadData` completes a scratch that is right below the cursor bit and has no wrong bit. -/
theorem reads_readData (hc : pos+d.readCursorBit=8*d.readCursor)
    (hbit : d.readCursorBit<64) (hscratch_lt : d.scratch<2^64)
    (hblock_lt : d.cursorReadValue<2^64)
    (hr : ∀ i<64,pos+i<8*d.packedBytes.length → d.scratch.testBit i=true →
      (littleEndian d.packedBytes).testBit (pos+i)=true)
    (hf : ∀ i<d.readCursorBit,pos+i<8*d.packedBytes.length →
      (littleEndian d.packedBytes).testBit (pos+i)=true → d.scratch.testBit i=true) :
    d.readData.Reads pos := by
  have hb:=agrees_overwriteLow d.packedBytes d.cursorReadValue d.readCursor
  refine ⟨hc,hbit,?_,?_,hb,overwriteLow_lt hblock_lt _⟩
  · intro i hi (hin : pos+i<8*d.packedBytes.length)
    show (d.scratch ||| u64 (overwriteLow d.cursorReadValue
      ((d.packedBytes.drop d.readCursor).take 8) <<< d.readCursorBit)).testBit i =
        (littleEndian d.packedBytes).testBit (pos+i)
    rw [u64,Nat.testBit_or,Nat.testBit_mod_two_pow,Nat.testBit_shiftLeft]
    by_cases hl : i<d.readCursorBit
    · have hn : ¬ d.readCursorBit ≤ i := by omega
      have heq:=Bool.eq_iff_iff.mpr ⟨hr i hi hin,hf i hl hin⟩
      simp [hn,heq]
    · have hle : d.readCursorBit ≤ i := by omega
      have hp : 8*d.readCursor+(i-d.readCursorBit)=pos+i := by omega
      rw [hb (i-d.readCursorBit) (by omega) (by omega),hp]
      have hor:=hr i hi hin
      cases hs : (littleEndian d.packedBytes).testBit (pos+i) with
      | false =>
        rw [hs] at hor
        simpa using hor
      | true => simp [hi,hle]
  · exact Nat.or_lt_two_pow hscratch_lt (Nat.mod_lt _ (by decide))

theorem reads_create (bs : Bytes) (m : ℕ) : (create bs m).Reads 0 := by
  refine reads_readData rfl (Nat.zero_lt_succ 63) (Nat.two_pow_pos 64) (Nat.two_pow_pos 64) ?_ ?_
  · intro i _ _ hs
    rw [show (0 : ℕ).testBit i=false from Nat.zero_testBit i] at hs
    cases hs
  · intro i hi
    exact absurd hi (Nat.not_lt_zero i)

/-- The cursor moves by whole bytes, not past the bits that `scratch_` has. -/
theorem nextCursorBit_eq {unwritten : ℕ} (hu : unwritten<64) (hbw : 0<bw) (hw : bw≤62) :
    ∃ next bs : ℕ,nextCursorBit unwritten bw=next ∧ next<64 ∧
      next+bw≤64+unwritten ∧ next+bw=unwritten+8*bs := by
  have hs : ∃ next : ℤ,nextCursorBit unwritten bw=next ∧ 0≤next ∧ next<64 ∧
      next+bw≤64+unwritten ∧ (next+bw-unwritten)%8=0 ∧ unwritten≤next+bw := by
    refine ⟨_,rfl,?_⟩
    unfold nextCursorBit
    dsimp only
    split <;> omega
  obtain ⟨next,heq,hn,hlt,hle,hmod,hge⟩:=hs
  refine ⟨next.toNat,((next+bw-unwritten)/8).toNat,?_,?_,?_,?_⟩
  · rw [heq,Int.toNat_of_nonneg hn]
  all_goals omega

/-- The part of the last block that `scratch_` could not hold, moved to its place. -/
theorem testBit_shifted (block unwritten bw : ℕ) {i : ℕ} (hi : i<64) :
    (u64 ((block >>> (bw-unwritten)) <<< (unwritten-bw))).testBit i =
      (decide (unwritten ≤ i+bw) && block.testBit (i+bw-unwritten)) := by
  rw [u64,Nat.testBit_mod_two_pow,Nat.testBit_shiftLeft,Nat.testBit_shiftRight]
  by_cases hle : unwritten ≤ i+bw
  · have hle' : unwritten-bw ≤ i := by omega
    have hp : bw-unwritten+(i-(unwritten-bw))=i+bw-unwritten := by omega
    simp [hi,hle,hle',hp]
  · have hn : ¬ unwritten-bw ≤ i := by omega
    simp [hle,hn]

theorem lt_of_testBit {i : ℕ} (hx : x<2^64) (h : x.testBit i=true) : i<64 := by
  by_contra hge
  rw [testBit_of_lt hx (by omega)] at h
  cases h

theorem Reads.readValue (h : d.Reads pos) (hbw : 0<d.bitWidth) (hw : d.bitWidth≤62) :
    d.readValue.2.Reads (pos+d.bitWidth) := by
  have hc:=h.cursor
  have hbit:=h.cursorBit_lt
  obtain ⟨next,bs,hn,hlt,hle,hmove⟩:=nextCursorBit_eq hbit hbw hw
  have ha : (((next : ℤ)-(d.readCursorBit-d.bitWidth))/8).toNat=bs := by omega
  unfold Decoder.readValue
  dsimp only
  rw [hn,ha,Int.toNat_natCast]
  apply reads_readData
  · dsimp only
    omega
  · exact hlt
  · exact Nat.or_lt_two_pow (lt_of_le_of_lt (Nat.shiftRight_le _ _) h.scratch_lt)
      (Nat.mod_lt _ (by decide))
  · exact Nat.mod_lt _ (by decide)
  · intro i hi (hin : pos+d.bitWidth+i<8*d.packedBytes.length) hset
    rw [Nat.testBit_or,Nat.testBit_shiftRight,testBit_shifted _ _ _ hi,Bool.or_eq_true,
      Bool.and_eq_true,decide_eq_true_iff] at hset
    obtain hs | ⟨hge,hb⟩:=hset
    · rw [h.scratch _ (lt_of_testBit h.scratch_lt hs) (by omega),← Nat.add_assoc] at hs
      exact hs
    · have hp : 8*d.readCursor+(i+d.bitWidth-d.readCursorBit)=pos+d.bitWidth+i := by omega
      rw [h.block _ (lt_of_testBit h.block_lt hb) (by omega),hp] at hb
      exact hb
  · intro i hi (hin : pos+d.bitWidth+i<8*d.packedBytes.length) hstream
    have hi' : i<next := hi
    rw [Nat.testBit_or,Nat.testBit_shiftRight,testBit_shifted _ _ _ (by omega),Bool.or_eq_true,
      Bool.and_eq_true,decide_eq_true_iff]
    -- what has left the scratch is in the block
    by_cases hh : d.bitWidth+i<64
    · left
      rw [h.scratch _ hh (by omega),← Nat.add_assoc]
      exact hstream
    · right
      have hp : 8*d.readCursor+(i+d.bitWidth-d.readCursorBit)=pos+d.bitWidth+i := by omega
      refine ⟨by omega,?_⟩
      rw [h.block _ (by omega) (by omega),hp]
      exact hstream

theorem Reads.value (h : d.Reads pos) (hw : d.bitWidth≤62)
    (hin : pos+d.bitWidth≤8*d.packedBytes.length)
    (hval : littleEndian d.packedBytes >>> pos%2^d.bitWidth<d.modulus) :
    d.readValue.1=littleEndian d.packedBytes >>> pos%2^d.bitWidth := by
  have hr : d.scratch &&& (2^d.bitWidth-1)=littleEndian d.packedBytes >>> pos%2^d.bitWidth := by
    rw [and_mask]
    refine Nat.eq_of_testBit_eq fun q => ?_
    rw [Nat.testBit_mod_two_pow,Nat.testBit_mod_two_pow,Nat.testBit_shiftRight]
    by_cases hq : q<d.bitWidth
    · rw [h.scratch q (by omega) (by omega)]
    · simp [hq]
  unfold Decoder.readValue
  dsimp only
  rw [hr,if_pos hval]

theorem Reads.readValues {n : ℕ} (hbw : 0<d.bitWidth) (hw : d.bitWidth≤62)
    (h : d.Reads (k*d.bitWidth)) (hfit : (k+n)*d.bitWidth≤8*d.packedBytes.length)
    (hf : ∀ i<k+n,k ≤ i → fieldAt d.bitWidth d.packedBytes i<d.modulus) :
    readValues n d=(List.range' k n).map (fieldAt d.bitWidth d.packedBytes) := by
  induction n generalizing d k with
  | zero => rfl
  | succ n ih =>
    have hl : k*d.bitWidth+d.bitWidth≤(k+(n+1))*d.bitWidth := by
      rw [← Nat.succ_mul]
      exact Nat.mul_le_mul_right _ (by omega)
    have hn : d.readValue.2.Reads ((k+1)*d.readValue.2.bitWidth) := by
      rw [Nat.succ_mul]
      exact h.readValue hbw hw
    have hval:=h.value hw (by omega) (hf k (by omega) (Nat.le_refl k))
    have hc : k+1+n=k+(n+1) := by omega
    have hr:=ih (d := d.readValue.2) hbw hw hn (by rw [hc]; exact hfit)
      fun i hi hk => hf i (by omega) (by omega)
    rw [readValues,hval,hr,range'_succ]
    rfl

end Decoder

theorem length_decode (v : SecAggVector) : v.decode.length=v.numElements := by
  have hl (n : ℕ) (d : Decoder) : (d.readValues n).length=n := by
    induction n generalizing d with
    | zero => rfl
    | succ n ih => rw [readValues,length_cons,ih]
  exact hl _ _

variable {m : ℕ}

theorem getBitWidth_bounds (hm : 1 < m ∧ m≤kMaxModulus) :
    0<getBitWidth m ∧ getBitWidth m≤62 ∧ m≤2^getBitWidth m := by
  have hp : m-1≠0 := by omega
  have heq : getBitWidth m=(m-1).log2+1 := if_neg hp
  have hl : (m-1).log2<62 := by
    rw [Nat.log2_lt hp]
    have := hm.2
    unfold kMaxModulus at this
    omega
  have hlt : m-1<2^((m-1).log2+1) := Nat.lt_log2_self
  rw [heq]
  omega

theorem two_pow_getBitWidth_lt (hm : 1 < m) : 2^getBitWidth m<2*m := by
  have hp : m-1≠0 := by omega
  have heq : getBitWidth m=(m-1).log2+1 := if_neg hp
  have hle:=Nat.log2_self_le hp
  rw [heq,pow_succ]
  omega

theorem lt_of_mem_decode (v : SecAggVector) (hx : x∈v.decode) : x<v.modulus := by
  have hr (n : ℕ) (d : Decoder) (hd : 2^d.bitWidth≤2*d.modulus)
      (hx : x∈d.readValues n) : x<d.modulus := by
    induction n generalizing d with
    | zero => cases hx
    | succ n ih =>
      rw [readValues,mem_cons] at hx
      obtain rfl | hx:=hx
      · have hlt : d.scratch &&& (2^d.bitWidth-1)<2^d.bitWidth := by
          rw [Nat.and_two_pow_sub_one_eq_mod]
          exact Nat.mod_lt _ (Nat.two_pow_pos _)
        dsimp only [readValue]
        split <;> omega
      · exact ih d.readValue.2 hd hx
  exact hr _ _ (two_pow_getBitWidth_lt v.modulus_valid.1).le hx

variable {n : ℕ}

theorem packedSize_eq (hint : n*getBitWidth m+7<2^32) : packedSize n m=(n*getBitWidth m+7)/8 := by
  have hc : u32 (n*getBitWidth m)=n*getBitWidth m := Nat.mod_eq_of_lt (by omega)
  unfold packedSize divideRoundUp
  rw [hc,u32]
  omega

section

variable (hm : 1 < m ∧ m≤kMaxModulus)
include hm

theorem bits_lt (hint : (n-1)*getBitWidth m<2^31) : n*getBitWidth m+7<2^32 := by
  have hw:=(getBitWidth_bounds hm).2.1
  cases n with
  | zero => omega
  | succ n =>
    rw [Nat.add_sub_cancel] at hint
    rw [Nat.succ_mul]
    omega

theorem littleEndian_packed (hval : ∀ v∈values,v<2^getBitWidth m)
    (hint : (values.length-1)*getBitWidth m<2^31) :
    littleEndian (toLittleEndian (packedSize values.length m)
      (Nat.ofDigits (2^getBitWidth m) values))=Nat.ofDigits (2^getBitWidth m) values := by
  have hs:=packedSize_eq (bits_lt hm hint)
  rw [littleEndian_toLittleEndian]
  exact Nat.mod_eq_of_lt (lt_two_pow_of_le (ofDigits_lt (getBitWidth_bounds hm).1 hval) (by omega))

theorem fit_packed (hint : (n-1)*getBitWidth m<2^31) :
    n*getBitWidth m≤8*(toLittleEndian (packedSize n m) x).length := by
  have hs:=packedSize_eq (bits_lt hm hint)
  rw [length_toLittleEndian]
  omega

theorem mapM_unpack (hint : n*getBitWidth m<2^31) (hf : n*getBitWidth m≤8*bs.length) :
    (List.range n).mapM (unpackUint64FromByteStringAt (getBitWidth m) bs) =
      .ok ((List.range n).map (fieldAt (getBitWidth m) bs)) := by
  obtain ⟨hbw,hw,-⟩:=getBitWidth_bounds hm
  rw [mapM_eq_ok,forall₂_map_right_iff,forall₂_same]
  intro k hk
  have hl : (k+1)*getBitWidth m≤n*getBitWidth m := Nat.mul_le_mul_right _ (mem_range.mp hk)
  exact unpackUint64FromByteStringAt_eq hbw (by omega) (by omega) (by omega)

section

variable (hval : ∀ v∈values,v<2^getBitWidth m)
include hval

section

variable (hint : (values.length-1)*getBitWidth m<2^31)
include hint

theorem packFrom_replicate :
    packFrom (getBitWidth m) (List.replicate (packedSize values.length m) 0) 0 values =
      .ok (toLittleEndian (packedSize values.length m)
        (Nat.ofDigits (2^getBitWidth m) values)) := by
  have hs:=packedSize_eq (bits_lt hm hint)
  obtain ⟨bs,hp,hl,hn⟩:=packFrom_eq (getBitWidth_bounds hm).1 [] values
    (List.replicate (packedSize values.length m) 0) (fun _ hv => absurd hv not_mem_nil)
    hval (by rwa [length_nil,Nat.zero_add])
    (by rw [length_nil,Nat.zero_add,length_replicate]; omega)
    (littleEndian_replicate _)
  rw [length_replicate] at hl
  rw [nil_append] at hn
  rw [← eq_toLittleEndian hl hn]
  exact hp

theorem coder_eq : ∃ c v,values.foldlM Coder.writeValue
        (Coder.create m (getBitWidth m) values.length)=.ok c ∧
      c.createVector=.ok v ∧ v.modulus=m ∧ v.numElements=values.length ∧
      v.packedBytes=toLittleEndian (packedSize values.length m)
        (Nat.ofDigits (2^getBitWidth m) values) := by
  have hs:=packedSize_eq (bits_lt hm hint)
  obtain ⟨hbw,hw,-⟩:=getBitWidth_bounds hm
  have hi : (Coder.create m (getBitWidth m) values.length).Holds
      (Nat.ofDigits (2^getBitWidth m) []) (([] : List ℕ).length*getBitWidth m) := by
    rw [length_nil,Nat.zero_mul]
    exact ⟨rfl,Nat.zero_lt_succ 7,Nat.one_pos,rfl,rfl,length_replicate⟩
  have hn : (Coder.create m (getBitWidth m) values.length).numBytesNeeded =
      packedSize values.length m := rfl
  obtain ⟨c,hf,hc,hcneeded,hcmod,hcnum⟩:=Coder.foldlM_writeValue
    (Coder.create m (getBitWidth m) values.length) [] values hbw hw hi
    (fun _ hv => absurd hv not_mem_nil) hval
    (by rw [length_nil,Nat.zero_add,hn]; dsimp only [Coder.create]; omega)
  rw [hn] at hcneeded
  obtain ⟨v,hv,hvmod,hvnum,hb⟩:=hc.createVector (by rw [hcneeded,hs]; rfl)
    (by rw [hcneeded,hcmod,hcnum]; rfl) (by rw [hcmod]; exact hm)
  rw [hcneeded] at hb
  exact ⟨c,v,hf,hv,hvmod.trans hcmod,hvnum.trans hcnum,hb⟩

theorem packBranchless_eq :
    packUint64IntoByteStringBranchless values m=.ok (toLittleEndian (packedSize values.length m)
        (Nat.ofDigits (2^getBitWidth m) values)) := by
  obtain ⟨c,v,hf,hc,-,-,hb⟩:=coder_eq hm hval hint
  unfold packUint64IntoByteStringBranchless
  rw [hf,ok_bind,hc,ok_bind,hb]
  rfl

end

end

end

theorem map_fieldAt (hval : ∀ v∈values,v<2^bw) (hn : littleEndian bs=Nat.ofDigits (2^bw) values) :
    (List.range values.length).map (fieldAt bw bs)=values := by
  apply ext_getElem
  · rw [length_map,length_range]
  · intro k _ hk
    rw [getElem_map,getElem_range,fieldAt,hn,ofDigits_digit hval hk]

theorem decode_packed (hm : 1 < m ∧ m≤kMaxModulus)
    (hval : ∀ v∈values,v < m) (hint : (values.length-1)*getBitWidth m<2^31) :
    (create (toLittleEndian (packedSize values.length m)
      (Nat.ofDigits (2^getBitWidth m) values)) m).readValues values.length=values := by
  obtain ⟨hbw,hw,hle⟩:=getBitWidth_bounds hm
  have hd : ∀ v∈values,v<2^getBitWidth m := fun v hv => lt_of_lt_of_le (hval v hv) hle
  have hn:=littleEndian_packed hm hd hint
  have hf:=map_fieldAt hd hn
  have hr : (create (toLittleEndian (packedSize values.length m)
      (Nat.ofDigits (2^getBitWidth m) values)) m).Reads
        (0*getBitWidth m) := by
    rw [Nat.zero_mul]
    exact reads_create _ _
  rw [hr.readValues hbw hw (by rw [Nat.zero_add]; exact fit_packed hm hint),← range_eq_range']
  · exact hf
  · intro i hi _
    rw [Nat.zero_add] at hi
    apply hval
    have hmem:=mem_map_of_mem (f := fieldAt (getBitWidth m) (toLittleEndian
      (packedSize values.length m) (Nat.ofDigits (2^getBitWidth m) values)))
      (mem_range.mpr hi)
    rw [hf] at hmem
    exact hmem

/-- Both packers write the elements of a vector as the digits of one little-endian number, and
both unpackers return the elements. -/
theorem codecs_agree (m : ℕ) (values : List ℕ) (hmod : 2 ≤ m ∧ m≤2^62)
    (hval : ∀ v∈values,v < m) (hint : values.length*getBitWidth m<2^31) :
    ∃ bs,packFrom (getBitWidth m) (List.replicate (packedSize values.length m) 0) 0 values=.ok bs ∧
      packUint64IntoByteStringBranchless values m=.ok bs ∧
      bs=toLittleEndian ((values.length*getBitWidth m+7)/8)
        (Nat.ofDigits (2^getBitWidth m) values) ∧
      (List.range values.length).mapM
        (unpackUint64FromByteStringAt (getBitWidth m) bs)=.ok values ∧
      (Decoder.create bs m).readValues values.length=values := by
  have hm:=hmod
  obtain ⟨hbw,hw,hle⟩:=getBitWidth_bounds hm
  have hd : ∀ v∈values,v<2^getBitWidth m := fun v hv => lt_of_lt_of_le (hval v hv) hle
  have hint' : (values.length-1)*getBitWidth m<2^31 :=
    lt_of_le_of_lt (Nat.mul_le_mul_right _ (Nat.sub_le _ _)) hint
  refine ⟨_,packFrom_replicate hm hd hint',packBranchless_eq hm hd hint',?_,?_,
    decode_packed hm hval hint'⟩
  · rw [packedSize_eq (by omega)]
  · rw [mapM_unpack hm hint (fit_packed hm hint'),map_fieldAt hd (littleEndian_packed hm hd hint')]

theorem codecs_agree_hundred : ∃ bs,packFrom 7 [0,0,0] 0 [99,0,5]=.ok bs ∧
      packUint64IntoByteStringBranchless [99,0,5] 100=.ok bs ∧
      bs=[99,64,1] ∧
      (List.range 3).mapM (unpackUint64FromByteStringAt 7 bs)=.ok [99,0,5] ∧
      (Decoder.create bs 100).readValues 3=[99,0,5] :=
  codecs_agree 100 [99,0,5] (by decide) (by decide) (by decide)

theorem ofSpan_eq (hm : 1 < m ∧ m≤kMaxModulus) (hval : ∀ v∈values,v < m)
    (hint : (values.length-1)*getBitWidth m<2^31) :
    ∃ v,ofSpan values m=.ok v ∧ v.modulus=m ∧ v.numElements=values.length ∧ v.decode=values := by
  have hd : ∀ v∈values,v<2^getBitWidth m :=
    fun v hv => lt_of_lt_of_le (hval v hv) (getBitWidth_bounds hm).2.2
  have ha:=all_eq_true.mpr fun v hv => decide_eq_true (hval v hv)
  have hp:=packFrom_replicate hm hd hint
  unfold ofSpan
  rw [dif_pos hm,if_pos ha]
  split
  next bs hb =>
    cases hp.symm.trans hb
    exact ⟨_,rfl,rfl,rfl,decode_packed hm hval hint⟩
  next fault hf =>
    cases hp.symm.trans hf

theorem index_lt_of_packFrom {i : ℕ} {r : Bytes}
    (h : packFrom bw bs i values=.ok r) (hne : values≠[]) :
    (i+values.length-1)*bw<2^31 := by
  induction values generalizing bs i with
  | nil => exact absurd rfl hne
  | cons v values ih =>
    rw [packFrom,bind_eq_ok] at h
    obtain ⟨bytes',hp,hr⟩:=h
    cases values with
    | nil =>
      unfold packUint64IntoByteStringAt at hp
      rw [bind_eq_ok] at hp
      obtain ⟨pos,hpos,-⟩:=hp
      unfold toInt at hpos
      split at hpos
      · assumption
      · cases hpos
    | cons w values =>
      have hl:=ih hr (cons_ne_nil w values)
      have hc : i+(v::w::values).length-1=i+1+(w::values).length-1 := by
        simp only [length_cons]
        omega
      rwa [hc]

theorem bits_lt_of_ofSpan {v : SecAggVector} (h : ofSpan values m=.ok v) :
    (values.length-1)*getBitWidth m<2^31 := by
  by_cases hne : values=[]
  · rw [hne,length_nil,Nat.zero_sub,Nat.zero_mul]
    decide
  · unfold ofSpan at h
    split at h
    · split at h
      · split at h
        next hp =>
          have hl:=index_lt_of_packFrom hp hne
          rwa [Nat.zero_add] at hl
        · cases h
      · cases h
    · cases h

end Fcp.SecAgg.SecAggVector

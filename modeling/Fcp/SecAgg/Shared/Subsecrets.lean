import Fcp.Lib.LittleEndian
import Fcp.SecAgg.Shared.ShamirSecretSharing

/-!
# Cutting a secret into subsecrets and back

Bit `r` of subsecret `k`, counted from the back, is bit `31 k + r` of the secret read as a
big-endian number.
-/

namespace Fcp.SecAgg.ShamirSecretSharing

open List

variable (s : Bytes) (k : ℕ)

def secretValue : ℕ := littleEndian s.reverse

theorem testBit_mask (k i : ℕ) : (0xFF >>> k).testBit i=decide (k+i<8) := by
  rw [Nat.testBit_shiftRight]
  exact Nat.testBit_two_pow_sub_one 8 (k+i)

theorem rebuildLoop_length (parts : List ℕ) (done n : ℕ) : (rebuildLoop parts done n).length=n := by
  induction n generalizing parts done with
  | zero => cases parts <;> rfl
  | succ n ih =>
    cases parts with
    | nil => rw [rebuildLoop,length_replicate]
    | cons v rest =>
      rw [rebuildLoop]
      split <;> rw [length_cons,ih]

theorem testBit_crossByte (next : ℕ) {v done q : ℕ} (hl : 23≤done)
    (hh : done<31) (hq : q<8) (hv : 31≤done+q → v.testBit (done+q)=false) :
    (UInt8.ofNat (u8 (u8 (next &&& (0xFF >>> (31-done))) <<< (8-(done+8)%31)) |||
      u8 (v >>> done))).toNat.testBit q =
        if done+q<31 then v.testBit (done+q)
        else next.testBit (done+q-31) := by
  have hs : 8-(done+8)%31=31-done := by omega
  rw [hs,UInt8.toNat_ofNat',Nat.testBit_mod_two_pow,Nat.testBit_or,u8,u8,u8,
    Nat.testBit_mod_two_pow,Nat.testBit_mod_two_pow,Nat.testBit_shiftLeft,
    Nat.testBit_mod_two_pow,Nat.testBit_and,testBit_mask,Nat.testBit_shiftRight]
  by_cases hin : done+q<31
  · rw [if_pos hin]
    have hge : ¬ q≥31-done := by omega
    simp [hq,hge]
  · rw [if_neg hin,hv (by omega)]
    have hge : q≥31-done := by omega
    have hi : q-(31-done)=done+q-31 := by omega
    have hm : 31-done+(done+q-31)<8 := by omega
    have hlt : done+q-31<8 := by omega
    simp only [hi,hq,hge,hm,hlt,decide_true,Bool.true_and,Bool.and_true,
      Bool.or_false,Bool.and_false]

/-- A rebuilt bit comes from its own subsecret unless the one below uses its bit 31. -/
theorem testBit_rebuildLoop (parts : List ℕ) (done n q : ℕ) (hb : done<31) (hq : q<8*n)
    (hbelow : (done+q)/31≠0 → parts.getD ((done+q)/31-1) 0<2^31) :
    (littleEndian (rebuildLoop parts done n)).testBit q =
      (parts.getD ((done+q)/31) 0).testBit ((done+q)%31) := by
  induction n generalizing parts done q with
  | zero => omega
  | succ n ih =>
    cases parts with
    | nil => simp [rebuildLoop,littleEndian_replicate]
    | cons v rest =>
      rw [rebuildLoop,kBitsPerSubsecret]
      split
      next hr =>
        rw [testBit_littleEndian_cons]
        split
        next hq8 =>
          have hdiv : (done+q)/31=0 := by omega
          have hm : (done+q)%31=done+q := by omega
          have hmask:=testBit_mask 0 q
          rw [Nat.shiftRight_zero] at hmask
          rw [UInt8.toNat_ofNat',Nat.testBit_mod_two_pow,Nat.testBit_and,
            Nat.testBit_shiftRight,hmask,hdiv,hm]
          simp [hq8]
        next hq8 =>
          have hpos : done+8+(q-8)=done+q := by omega
          have h:=ih (v::rest) (done+8) (q-8) (by omega) (by omega) (by rw [hpos]; exact hbelow)
          rw [h,hpos]
      next hf =>
        rw [testBit_littleEndian_cons]
        split
        next hq8 =>
          have hv : 31≤done+q → v.testBit (done+q)=false := by
            intro hge
            have ho : (done+q)/31=1 := by omega
            have hlt : v<2^31 := by
              have := hbelow (by omega)
              rwa [ho] at this
            exact testBit_of_lt hlt hge
          cases rest with
          | nil =>
            have hbyte:=testBit_crossByte 0 (by omega) hb hq8 hv
            rw [Nat.zero_and] at hbyte
            refine hbyte.trans ?_
            split
            next hin =>
              rw [Nat.div_eq_of_lt hin,Nat.mod_eq_of_lt hin]
              rfl
            · have ho : (done+q)/31=1 := by omega
              rw [ho]
              simp
          | cons next rest =>
            refine (testBit_crossByte next (by omega) hb hq8 hv).trans ?_
            split
            next hin =>
              rw [Nat.div_eq_of_lt hin,Nat.mod_eq_of_lt hin]
              rfl
            · have ho : (done+q)/31=1 := by omega
              have hm : (done+q)%31=done+q-31 := by omega
              rw [ho,hm]
              rfl
        next hq8 =>
          have hdiv : (done+q)/31=((done+8)%31+(q-8))/31+1 := by omega
          have hm : (done+q)%31=((done+8)%31+(q-8))%31 := by omega
          have h:=ih rest ((done+8)%31) (q-8) (by omega) (by omega) (by
            intro hne
            have hb':=hbelow (by omega)
            rw [hdiv,Nat.add_sub_cancel] at hb'
            obtain ⟨k,hk⟩:=Nat.exists_eq_succ_of_ne_zero hne
            rw [hk] at hb' ⊢
            simpa using hb')
          rw [h,hdiv,hm,getD_cons_succ]

def numSubsecrets : ℕ := (8*s.length+30)/31

variable {parts : List ℕ}

theorem orPart_eq {cur x : ℕ} (h : cur<parts.length) (hx : x<2^32) :
    orPart parts cur x=.ok (parts.modify cur fun p => p ||| x) := by
  rw [orPart,if_pos h,u32_of_lt hx]

theorem testBit_modify_or (parts : List ℕ) (cur x k r : ℕ) (h : cur<parts.length) :
    ((parts.modify cur fun p => p ||| x).getD k 0).testBit r =
      ((parts.getD k 0).testBit r || (decide (k=cur) && x.testBit r)) := by
  simp only [getD_eq_getElem?_getD,getElem?_modify]
  by_cases hk : cur=k
  · subst hk
    rw [getElem?_eq_getElem h]
    simp
  · have hk' : ¬ k=cur := fun e => hk e.symm
    cases parts[k]? <;> simp [hk,hk']

structure Divided (value j : ℕ) (parts : List ℕ) : Prop where
  bits : ∀ k r,(parts.getD k 0).testBit r=(decide (r<31 ∧ 31*k+r<8*j) && value.testBit (31*k+r))

structure DividePosition (j n : ℕ) (st : DivideState) : Prop where
  size : st.parts.length=(8*n+30)/31
  inside : j<n → st.current=8*j/31 ∧ st.bitsDone=8*j%31
  finished : j=n → 0<n → st.current+1=st.parts.length

theorem Divided.or {value j : ℕ} {byte : ℕ} (h : Divided value j parts)
    (hbyte : ∀ i,byte.testBit i=(decide (i<8) && value.testBit (8*j+i))) (cur x : ℕ)
    (hc : cur<parts.length)
    (hx : ∀ r,x.testBit r=(decide (r<31 ∧ 8*j≤31*cur+r) && byte.testBit (31*cur+r-8*j))) :
    ∀ k r,(((parts.modify cur fun p => p ||| x).getD k 0).testBit r) =
      (decide (r<31 ∧ (31*k+r<8*j ∨ (k=cur ∧ 31*k+r<8*(j+1)))) && value.testBit (31*k+r)) := by
  intro k r
  rw [testBit_modify_or _ _ _ _ _ hc,h.bits,hx,hbyte]
  by_cases hk : k=cur
  · subst hk
    by_cases hl : 31*k+r<8*j
    · have hge : ¬ 8*j≤31*k+r := by omega
      simp [hl,hge]
    · have hge : 8*j≤31*k+r := by omega
      have hi : 8*j+(31*k+r-8*j)=31*k+r := by omega
      have hlt : 31*k+r-8*j<8 ↔ 31*k+r<8*(j+1) := by omega
      rw [hi]
      simp only [hl,hge,hlt,and_false,decide_false,Bool.false_and,Bool.false_or,
        decide_true,Bool.true_and,and_true,true_and,false_or]
      by_cases hr : r<31 <;> by_cases hu : 31*k+r<8*(j+1) <;> simp [hr,hu]
  · simp [hk]

theorem Divided.succ {value j cur : ℕ} (hc : ∀ k r,r<31 → 8*j≤31*k+r → 31*k+r<8*(j+1) → k=cur)
    (h : ∀ k r,(parts.getD k 0).testBit r=(decide (r<31 ∧
      (31*k+r<8*j ∨ (k=cur ∧ 31*k+r<8*(j+1)))) && value.testBit (31*k+r))) :
    Divided value (j+1) parts := by
  refine ⟨fun k r => ?_⟩
  rw [h k r]
  congr 1
  rw [decide_eq_decide]
  constructor
  · rintro ⟨hr,hl | ⟨rfl,hup⟩⟩
    · exact ⟨hr,by omega⟩
    · exact ⟨hr,hup⟩
  · rintro ⟨hr,hup⟩
    refine ⟨hr,?_⟩
    by_cases hl : 31*k+r<8*j
    · exact .inl hl
    · exact .inr ⟨hc k r hr (by omega) hup,hup⟩

section DivideByte
variable {value j n byte : ℕ} {st : DivideState} (hj : j<n)
  (hbyte : ∀ i,byte.testBit i=(decide (i<8) && value.testBit (8*j+i)))
  (hpos : DividePosition j n st) (hdiv : Divided value j st.parts)
include hbyte

theorem byte_lt : byte<2^8 := by
  refine Nat.lt_pow_two_of_testBit _ fun i hi => ?_
  have hi8 : ¬ i<8 := by omega
  rw [hbyte,decide_eq_false hi8,Bool.false_and]

include hj hpos hdiv

theorem divideByte_fits (hroom : 31-st.bitsDone>8) (isFirst : Bool) :
    ∃ st',divideByte st byte isFirst=.ok st' ∧ DividePosition (j+1) n st' ∧
      Divided value (j+1) st'.parts := by
  obtain ⟨hc,hd⟩:=hpos.inside hj
  have hs:=hpos.size
  have hcin : st.current<st.parts.length := by omega
  have hat : 31*st.current+st.bitsDone=8*j := by omega
  have hx : byte <<< st.bitsDone<2^32 := by
    rw [Nat.shiftLeft_eq]
    calc byte*2^st.bitsDone<2^8*2^st.bitsDone :=
          Nat.mul_lt_mul_of_pos_right (byte_lt hbyte) (Nat.two_pow_pos _)
      _=2^(8+st.bitsDone) := (Nat.pow_add 2 8 _).symm
      _≤2^32 := Nat.pow_le_pow_right (by decide) (by omega)
  have hb : ∀ r,(byte <<< st.bitsDone).testBit r=(decide (r<31 ∧ 8*j≤31*st.current+r) &&
        byte.testBit (31*st.current+r-8*j)) := by
    intro r
    rw [Nat.testBit_shiftLeft]
    by_cases hr : st.bitsDone≤r
    · have hi : 31*st.current+r-8*j=r-st.bitsDone := by omega
      have hle : 8*j≤31*st.current+r := by omega
      rw [hi,hbyte (r-st.bitsDone)]
      by_cases h8 : r-st.bitsDone<8
      · have hr31 : r<31 := by omega
        simp [hr,hle,h8,hr31]
      · simp [h8]
    · have hle : ¬ 8*j≤31*st.current+r := by omega
      simp [hr,hle]
  refine ⟨⟨st.parts.modify st.current fun p => p ||| byte <<< st.bitsDone,st.current,
    st.bitsDone+8⟩,?_,⟨?_,?_,?_⟩,?_⟩
  · rw [divideByte,kBitsPerSubsecret,if_pos hroom,orPart_eq hcin hx]
    rfl
  · simpa using hs
  · intro h
    dsimp only
    omega
  · intro h h0
    simp only [length_modify]
    omega
  · refine Divided.succ ?_ (hdiv.or hbyte st.current _ hcin hb)
    intro k r hr hl hup
    omega

omit hbyte hdiv in
theorem testBit_currentByteRight (hf : ¬ 31-st.bitsDone>8) (b r : ℕ) :
    ((b &&& 0xFF >>> (8-(31-st.bitsDone))) <<< st.bitsDone).testBit r =
      (decide (r<31 ∧ 8*j≤31*st.current+r) && b.testBit (31*st.current+r-8*j)) := by
  obtain ⟨hc,hd⟩:=hpos.inside hj
  have hm : 8-(31-st.bitsDone)=st.bitsDone-23 := by omega
  rw [Nat.testBit_shiftLeft,Nat.testBit_and,testBit_mask,hm]
  by_cases hr : st.bitsDone≤r
  · have hi : 31*st.current+r-8*j=r-st.bitsDone := by omega
    have hle : 8*j≤31*st.current+r := by omega
    have hlt : st.bitsDone-23+(r-st.bitsDone)<8 ↔ r<31 := by omega
    rw [hi]
    simp only [hr,hle,hlt,decide_true,Bool.true_and,and_true]
    rw [Bool.and_comm]
  · have hle : ¬ 8*j≤31*st.current+r := by omega
    simp [hr,hle]

theorem divideByte_crosses (hfull : ¬ 31-st.bitsDone>8) :
    ∃ st',divideByte st byte (decide (j+1=n))=.ok st' ∧ DividePosition (j+1) n st' ∧
      Divided value (j+1) st'.parts := by
  obtain ⟨hc,hd⟩:=hpos.inside hj
  have hs:=hpos.size
  have hcin : st.current<st.parts.length := by omega
  have hshift : 8-(st.bitsDone+8)%31=31-st.bitsDone := by
    have hm : (st.bitsDone+8)%31=st.bitsDone-23 := by omega
    omega
  have hright:=testBit_currentByteRight hj hpos hfull byte
  have hx1 : (byte &&& 0xFF >>> (8-(31-st.bitsDone))) <<< st.bitsDone<2^32 := by
    refine Nat.lt_pow_two_of_testBit _ fun i hi => ?_
    have hi31 : ¬ (i<31 ∧ 8*j≤31*st.current+i) := by omega
    rw [hright,decide_eq_false hi31,Bool.false_and]
  have hor:=hdiv.or hbyte st.current _ hcin hright
  have hf:=orPart_eq hcin hx1
  obtain ⟨parts,hp⟩ : ∃ parts,parts=st.parts.modify st.current fun p =>
    p ||| (byte &&& 0xFF >>> (8-(31-st.bitsDone))) <<< st.bitsDone := ⟨_,rfl⟩
  have hplen : parts.length=st.parts.length := by rw [hp,length_modify]
  rw [← hp] at hor hf
  by_cases hl : j+1=n ∧ st.bitsDone+8=31
  · refine ⟨⟨parts,st.current,st.bitsDone⟩,?_,⟨by rw [hplen,hs],fun h => by omega,
      fun h h0 => ?_⟩,?_⟩
    · simp only [divideByte,kBitsPerSubsecret,if_neg hfull,hf,hl,decide_true,Bool.and_self,if_true]
      rfl
    · dsimp only
      omega
    · refine Divided.succ ?_ hor
      intro k r hr hlow hup
      omega
  · have hn : st.current+1<parts.length := by omega
    have hx2 : byte >>> (8-(st.bitsDone+8)%31)<2^32 :=
      lt_of_le_of_lt (Nat.shiftRight_le _ _) (lt_trans (byte_lt hbyte) (by decide))
    have hsecond:=orPart_eq hn hx2
    refine ⟨⟨parts.modify (st.current+1) fun p => p ||| byte >>> (8-(st.bitsDone+8)%31),
      st.current+1,(st.bitsDone+8)%31⟩,?_,
      ⟨by rw [length_modify,hplen,hs],fun h => ?_,fun h h0 => ?_⟩,⟨fun k r => ?_⟩⟩
    · simp only [divideByte,kBitsPerSubsecret,if_neg hfull,hf,bind,Except.bind,hsecond]
      split
      next h =>
        rw [Bool.and_eq_true] at h
        exact absurd ⟨of_decide_eq_true h.1,of_decide_eq_true h.2⟩ hl
      · rfl
    · dsimp only
      omega
    · rw [length_modify]
      dsimp only
      omega
    · rw [testBit_modify_or _ _ _ _ _ hn,hor,Nat.testBit_shiftRight,hbyte,hshift]
      by_cases hk : k=st.current+1
      · subst hk
        have hidx : 8*j+(31-st.bitsDone+r)=31*(st.current+1)+r := by omega
        have hne : ¬ st.current+1=st.current := by omega
        have hlow : ¬ 31*(st.current+1)+r<8*j := by omega
        have hlt : 31-st.bitsDone+r<8 ↔ r<31 ∧ 31*(st.current+1)+r<8*(j+1) := by omega
        rw [hidx]
        simp only [hne,hlow,hlt,false_and,or_self,and_false,decide_false,Bool.false_and,
          Bool.false_or,decide_true,Bool.true_and]
      · rw [decide_eq_false hk,Bool.false_and,Bool.or_false]
        congr 1
        rw [decide_eq_decide]
        constructor
        · rintro ⟨hr,h | ⟨rfl,h⟩⟩
          · exact ⟨hr,by omega⟩
          · exact ⟨hr,h⟩
        · rintro ⟨hr,h⟩
          refine ⟨hr,?_⟩
          by_cases hk' : k=st.current
          · exact .inr ⟨hk',h⟩
          · exact .inl (by omega)

theorem divideByte_eq : ∃ st',divideByte st byte (decide (j+1=n))=.ok st' ∧
    DividePosition (j+1) n st' ∧ Divided value (j+1) st'.parts := by
  by_cases hr : 31-st.bitsDone>8
  · exact divideByte_fits hj hbyte hpos hdiv hr _
  · exact divideByte_crosses hj hbyte hpos hdiv hr

end DivideByte

theorem divideLoop_eq {value n : ℕ} (rest : Bytes) (j : ℕ) (st : DivideState)
    (hn : j+rest.length=n) (hr : ∀ q,(littleEndian rest).testBit q=value.testBit (8*j+q))
    (hpos : DividePosition j n st) (hdiv : Divided value j st.parts) :
    ∃ st',divideLoop st rest=.ok st' ∧ DividePosition n n st' ∧ Divided value n st'.parts := by
  induction rest generalizing j st with
  | nil =>
    have hjn : j=n := by simpa using hn
    subst hjn
    exact ⟨st,rfl,hpos,hdiv⟩
  | cons b rest ih =>
    rw [length_cons] at hn
    have hbyte : ∀ i,b.toNat.testBit i=(decide (i<8) && value.testBit (8*j+i)) := by
      intro i
      by_cases hi : i<8
      · rw [← hr,testBit_littleEndian_cons,if_pos hi,decide_eq_true hi,Bool.true_and]
      · have hh : 2^8≤2^i := Nat.pow_le_pow_right (by decide) (by omega)
        rw [Nat.testBit_lt_two_pow (lt_of_lt_of_le b.toNat_lt hh),decide_eq_false hi,Bool.false_and]
    have hf : rest.isEmpty=decide (j+1=n) := by
      rw [Bool.eq_iff_iff,isEmpty_iff_length_eq_zero,decide_eq_true_eq]
      omega
    obtain ⟨st',h,hpos',hdiv'⟩:=divideByte_eq (by omega) hbyte hpos hdiv
    rw [divideLoop,hf,h]
    refine ih (j+1) st' (by omega) (fun q => ?_) hpos' hdiv'
    have hq:=hr (q+8)
    rw [testBit_littleEndian_cons,if_neg (by omega),Nat.add_sub_cancel] at hq
    rw [hq]
    congr 1
    omega

def subsecretOf : ℕ := secretValue s/2^(31*k)%2^31

theorem subsecretOf_lt : subsecretOf s k<2^31 := Nat.mod_lt _ (by decide)

theorem testBit_subsecretOf (k r : ℕ) :
    (subsecretOf s k).testBit r=(decide (r<31) && (secretValue s).testBit (31*k+r)) := by
  rw [subsecretOf,Nat.testBit_mod_two_pow,Nat.testBit_div_two_pow,Nat.add_comm]

theorem secretValue_lt : secretValue s<2^(8*s.length) := by
  have h:=littleEndian_lt s.reverse
  rwa [length_reverse] at h

theorem divideIntoSubsecrets_eq {s : Bytes} (hs : s≠[]) (hlen : 8*s.length+31<2^31) :
    divideIntoSubsecrets s=.ok ((List.range (numSubsecrets s)).map fun i =>
        subsecretOf s (numSubsecrets s-1-i)) := by
  have hpos : 0<s.length := length_pos_iff.mpr hs
  have hsize : divideRoundUp (u32 (u32 s.length*8)) kBitsPerSubsecret=numSubsecrets s := by
    rw [u32_of_lt (x := s.length) (by omega),u32_of_lt (by omega),divideRoundUp,
      kBitsPerSubsecret,numSubsecrets,u32]
    omega
  have hi : DividePosition 0 s.length ⟨List.replicate (numSubsecrets s) 0,0,0⟩ := by
    refine ⟨?_,fun _ => ⟨rfl,rfl⟩,fun h => by omega⟩
    rw [length_replicate]
    rfl
  have hz : Divided (secretValue s) 0 (List.replicate (numSubsecrets s) 0) := by
    refine ⟨fun k r => ?_⟩
    have hg : (List.replicate (numSubsecrets s) 0).getD k 0=0 := by
      rw [getD_eq_getElem?_getD,getElem?_replicate]
      split <;> rfl
    rw [hg,Nat.zero_testBit,decide_eq_false (by omega),Bool.false_and]
  obtain ⟨st,hr,hposn,hdiv⟩:=divideLoop_eq s.reverse 0 _ (by simp) (fun q => by
    rw [Nat.mul_zero,Nat.zero_add]; rfl) hi hz
  have hl:=hposn.finished rfl hpos
  have hc:=hposn.size
  have hp : st.parts.reverse=(List.range (numSubsecrets s)).map fun i =>
      subsecretOf s (numSubsecrets s-1-i) := by
    have hm : st.parts.length=numSubsecrets s := hc
    refine ext_getElem (by simp [hm]) fun i h1 h2 => ?_
    rw [getElem_reverse,getElem_map,getElem_range,← hm]
    rw [length_reverse] at h1
    refine Nat.eq_of_testBit_eq fun r => ?_
    have hb:=hdiv.bits (st.parts.length-1-i) r
    rw [getD_eq_getElem _ _ (by omega)] at hb
    rw [hb,testBit_subsecretOf]
    -- bits past the end of the secret are zero
    by_cases hin : 31*(st.parts.length-1-i)+r<8*s.length
    · simp [hin]
    · rw [testBit_of_lt (secretValue_lt s) (by omega)]
      simp
  rw [divideIntoSubsecrets,hsize,hr]
  simp only [bind,Except.bind,hl,decide_true,fcpCheck_true,hp]
  rfl

theorem rebuildFromSubsecrets_length (parts : List ℕ) (n : ℕ) :
    (rebuildFromSubsecrets parts n).length=n := by
  rw [rebuildFromSubsecrets,length_reverse,rebuildLoop_length]

/-- Bits of subsecret `k` that the secret uses; only the leading one may use fewer than 31. -/
def usedBits : ℕ := min 31 (8*s.length-31*k)

/-- Rebuilding gives the secret back exactly when every subsecret is right on its used bits,
provided a subsecret that is right on 31 bits does not use its bit 31 either. -/
theorem rebuildFromSubsecrets_eq_iff (value : ℕ → ℕ)
    (hh : ∀ k,31*(k+1)<8*s.length → value k%2^31=subsecretOf s k → value k<2^31) :
    rebuildFromSubsecrets ((List.range (numSubsecrets s)).map fun i =>
        value (numSubsecrets s-1-i)) s.length=s ↔
      ∀ k<numSubsecrets s,value k%2^usedBits s k=subsecretOf s k := by
  have hrev : ((List.range (numSubsecrets s)).map fun i =>
      value (numSubsecrets s-1-i)).reverse=(List.range (numSubsecrets s)).map value := by
    refine ext_getElem (by simp) fun i h1 h2 => ?_
    simp only [length_reverse,length_map,length_range] at h1
    rw [getElem_reverse,getElem_map,getElem_map,getElem_range,getElem_range]
    congr 1
    simp only [length_map,length_range]
    omega
  have hg : ∀ k<numSubsecrets s,((List.range (numSubsecrets s)).map value).getD k 0=value k := by
    intro k hk
    rw [getD_eq_getElem _ _ (by simpa using hk),getElem_map,getElem_range]
  have hn : ∀ q<8*s.length,q/31<numSubsecrets s := by
    intro q hq
    unfold numSubsecrets
    omega
  -- bit `q` of the output, once the subsecret below is known to be clean
  have hbit : ∀ q<8*s.length,(q/31≠0 → value (q/31-1)<2^31) →
      (littleEndian (rebuildLoop ((List.range (numSubsecrets s)).map value) 0
        s.length)).testBit q=(value (q/31)).testBit (q%31) := by
    intro q hq hclean
    have h:=testBit_rebuildLoop ((List.range (numSubsecrets s)).map value) 0 s.length q
      (by decide) hq (by
        rw [Nat.zero_add]
        intro hne
        rw [hg _ (by have := hn q hq; omega)]
        exact hclean hne)
    rw [Nat.zero_add] at h
    rw [h,hg _ (hn q hq)]
  have hs : ∀ q,(subsecretOf s (q/31)).testBit (q%31)=(secretValue s).testBit q := by
    intro q
    rw [testBit_subsecretOf,decide_eq_true (Nat.mod_lt _ (by decide)),Bool.true_and,Nat.div_add_mod]
  rw [rebuildFromSubsecrets,hrev]
  constructor
  · intro heq
    have hv : ∀ q,(littleEndian (rebuildLoop ((List.range (numSubsecrets s)).map value) 0
        s.length)).testBit q=(secretValue s).testBit q := by
      intro q
      rw [secretValue,← reverse_eq_iff.mp heq]
    have hc : ∀ k<numSubsecrets s,(k≠0 → value (k-1)<2^31) →
        value k%2^usedBits s k=subsecretOf s k := by
      intro k hk hclean
      refine Nat.eq_of_testBit_eq fun r => ?_
      rw [Nat.testBit_mod_two_pow,testBit_subsecretOf]
      by_cases hr : r<usedBits s k
      · have hr' : r<31 ∧ 31*k+r<8*s.length := by
          unfold usedBits at hr
          omega
        have hdiv : (31*k+r)/31=k := by omega
        have hm : (31*k+r)%31=r := by omega
        have hb:=hbit (31*k+r) hr'.2 (by rwa [hdiv])
        rw [hdiv,hm,hv] at hb
        rw [decide_eq_true hr,decide_eq_true hr'.1,hb]
      · by_cases hr31 : r<31
        · rw [testBit_of_lt (secretValue_lt s) (by unfold usedBits at hr; omega)]
          simp [hr]
        · simp [hr,hr31]
    -- from the back: a subsecret that is right leaves the next one undisturbed
    intro k
    induction k with
    | zero => exact fun hk => hc 0 hk (fun h => absurd rfl h)
    | succ k ih =>
      intro hk
      refine hc (k+1) hk fun _ => ?_
      have hbits : 31*(k+1)<8*s.length := by
        unfold numSubsecrets at hk
        omega
      have hp:=ih (by omega)
      rw [usedBits,Nat.min_eq_left (by omega)] at hp
      exact hh k hbits hp
  · intro ha
    refine reverse_eq_iff.mpr (littleEndian_injective (by
      rw [rebuildLoop_length,length_reverse]) fun q hq => ?_)
    rw [rebuildLoop_length] at hq
    rw [hbit q hq,← secretValue,← hs q,← ha _ (hn q hq),Nat.testBit_mod_two_pow,
      decide_eq_true (by unfold usedBits; omega),Bool.true_and]
    intro hne
    have hk : q/31-1<numSubsecrets s := by
      have := hn q hq
      omega
    refine hh _ (by omega) ?_
    have h:=ha _ hk
    rwa [usedBits,Nat.min_eq_left (by omega)] at h

end Fcp.SecAgg.ShamirSecretSharing

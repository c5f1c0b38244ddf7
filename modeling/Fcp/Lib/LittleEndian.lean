import Mathlib.Data.List.Basic
import Mathlib.Data.Nat.Bitwise
import Mathlib.Tactic.Ring

/-!
# Byte strings as little-endian numbers

A byte string is read as a number and its bits one by one.
-/

namespace Fcp

open List

theorem lt_two_pow_of_le {x k n : ℕ} (hx : x<2^k) (hk : k≤n) : x<2^n :=
  lt_of_lt_of_le hx (Nat.pow_le_pow_right (by decide) hk)

theorem testBit_of_lt {x k q : ℕ} (hx : x<2^k) (hk : k≤q) : x.testBit q=false :=
  Nat.testBit_lt_two_pow (lt_two_pow_of_le hx hk)

/-- Value of bytes given last one first. -/
def littleEndian : List UInt8 → ℕ
  | [] => 0
  | b::bs => 2^8*littleEndian bs+b.toNat

theorem testBit_littleEndian_cons (b : UInt8) (bs : List UInt8) (q : ℕ) :
    (littleEndian (b::bs)).testBit q =
      if q<8 then b.toNat.testBit q else (littleEndian bs).testBit (q-8) := by
  rw [littleEndian,Nat.testBit_two_pow_mul_add _ b.toNat_lt]

theorem littleEndian_lt (bs : List UInt8) : littleEndian bs<2^(8*bs.length) := by
  induction bs with
  | nil => decide
  | cons b bs ih =>
    have hb:=b.toNat_lt
    rw [littleEndian,length_cons,Nat.mul_succ,Nat.add_comm,Nat.pow_add]
    omega

theorem littleEndian_injective {as bs : List UInt8} (hl : as.length=bs.length)
    (h : ∀ q<8*as.length,(littleEndian as).testBit q=(littleEndian bs).testBit q) :
    as=bs := by
  induction as generalizing bs with
  | nil => exact (length_eq_zero_iff.mp hl.symm).symm
  | cons a as ih =>
    cases bs with
    | nil => simp at hl
    | cons b bs =>
      rw [length_cons] at h
      have hab : a=b := by
        refine UInt8.toNat_inj.mp (Nat.eq_of_testBit_eq fun q => ?_)
        by_cases hq : q<8
        · have hb:=h q (by omega)
          rwa [testBit_littleEndian_cons,testBit_littleEndian_cons,if_pos hq,if_pos hq] at hb
        · have hh : 2^8≤2^q := Nat.pow_le_pow_right (by decide) (by omega)
          rw [Nat.testBit_lt_two_pow (lt_of_lt_of_le a.toNat_lt hh),
            Nat.testBit_lt_two_pow (lt_of_lt_of_le b.toNat_lt hh)]
      have hr : as=bs := by
        refine ih (by simpa using hl) fun q hq => ?_
        have hb:=h (q+8) (by omega)
        rwa [testBit_littleEndian_cons,testBit_littleEndian_cons,if_neg (by omega),
          if_neg (by omega),Nat.add_sub_cancel] at hb
      rw [hab,hr]

theorem littleEndian_replicate (n : ℕ) : littleEndian (List.replicate n 0)=0 := by
  induction n with
  | zero => rfl
  | succ n ih =>
    rw [replicate_succ,littleEndian,ih]
    rfl

theorem testBit_littleEndian (bs : List UInt8) (q : ℕ) :
    (littleEndian bs).testBit q=(bs.getD (q/8) 0).toNat.testBit (q%8) := by
  induction bs generalizing q with
  | nil =>
    rw [littleEndian,Nat.zero_testBit,getD_nil]
    exact (Nat.zero_testBit _).symm
  | cons b bs ih =>
    rw [testBit_littleEndian_cons]
    split
    next hq => rw [Nat.div_eq_of_lt hq,Nat.mod_eq_of_lt hq,getD_cons_zero]
    next hq =>
      have hd : q/8=(q-8)/8+1 := by omega
      have hm : q%8=(q-8)%8 := by omega
      rw [ih,hd,hm,getD_cons_succ]

variable {bs : List UInt8}

theorem testBit_littleEndian_modify {i : ℕ} (hi : i<bs.length) (f : UInt8 → UInt8) (q : ℕ) :
    (littleEndian (bs.modify i f)).testBit q =
      if q/8=i then (f bs[i]).toNat.testBit (q%8) else (littleEndian bs).testBit q := by
  rw [testBit_littleEndian,testBit_littleEndian,getD_eq_getElem?_getD,
    getD_eq_getElem?_getD,getElem?_modify]
  split
  next heq =>
    rw [if_pos heq.symm,← heq,getElem?_eq_getElem hi]
    rfl
  next hne => rw [if_neg (Ne.symm hne),id_map']

theorem littleEndian_append (as bs : List UInt8) :
    littleEndian (as++bs)=littleEndian as+2^(8*as.length)*littleEndian bs := by
  induction as with
  | nil => simp [littleEndian]
  | cons a as ih =>
    rw [cons_append,littleEndian,ih,littleEndian,length_cons,Nat.mul_succ,Nat.pow_add]
    ring

theorem littleEndian_take (bs : List UInt8) (n : ℕ) :
    littleEndian (bs.take n)=littleEndian bs%2^(8*n) := by
  refine Nat.eq_of_testBit_eq fun q => ?_
  rw [Nat.testBit_mod_two_pow,testBit_littleEndian,testBit_littleEndian,
    getD_eq_getElem?_getD,getD_eq_getElem?_getD,getElem?_take]
  by_cases hq : q<8*n
  · have hd : q/8<n := by omega
    simp [hq,hd]
  · have hd : ¬ q/8<n := by omega
    simp [hq,hd]

theorem testBit_littleEndian_drop (bs : List UInt8) (n q : ℕ) :
    (littleEndian (bs.drop n)).testBit q=(littleEndian bs).testBit (8*n+q) := by
  have hd : (8*n+q)/8=n+q/8 := by omega
  have hm : (8*n+q)%8=q%8 := by omega
  rw [testBit_littleEndian,testBit_littleEndian,getD_eq_getElem?_getD,
    getD_eq_getElem?_getD,getElem?_drop,hd,hm]

/-- The `n` low bytes of a number, lowest first. -/
def toLittleEndian : ℕ → ℕ → List UInt8
  | 0, _ => []
  | n+1, x => UInt8.ofNat x::toLittleEndian n (x >>> 8)

@[simp] theorem length_toLittleEndian (n x : ℕ) : (toLittleEndian n x).length=n := by
  induction n generalizing x with
  | zero => rfl
  | succ n ih => rw [toLittleEndian,length_cons,ih]

theorem littleEndian_toLittleEndian (n x : ℕ) : littleEndian (toLittleEndian n x)=x%2^(8*n) := by
  induction n generalizing x with
  | zero => simp [toLittleEndian,littleEndian,Nat.mod_one]
  | succ n ih =>
    rw [toLittleEndian,littleEndian,ih,UInt8.toNat_ofNat',Nat.mul_succ,Nat.add_comm (8*n),
      Nat.pow_add,Nat.shiftRight_eq_div_pow,Nat.mod_mul,Nat.add_comm]

theorem eq_toLittleEndian {n x : ℕ} (hl : bs.length=n) (h : littleEndian bs=x) :
    bs=toLittleEndian n x := by
  subst h hl
  refine littleEndian_injective (length_toLittleEndian _ _).symm fun q _ => ?_
  rw [littleEndian_toLittleEndian,Nat.mod_eq_of_lt (littleEndian_lt bs)]

end Fcp

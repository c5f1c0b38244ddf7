import Fcp.Base.Monitoring
import Mathlib.Data.ZMod.Basic

/-!
# Fixed-width arithmetic (shared/math.h)

Machine integers are natural numbers; every operation that can leave its type reduces explicitly.
The `Opt` variants assume reduced arguments.
-/

namespace Fcp.SecAgg

def u8 (x : ℕ) : ℕ := x%2^8

def u32 (x : ℕ) : ℕ := x%2^32

def u64 (x : ℕ) : ℕ := x%2^64

variable {x a b z mod : ℕ}

theorem u32_of_lt (h : x<2^32) : u32 x=x := Nat.mod_eq_of_lt h

theorem u64_of_lt (h : x<2^64) : u64 x=x := Nat.mod_eq_of_lt h

/-- `DivideRoundUp`, with the wrap-around of `a + b - 1`. -/
def divideRoundUp (a b : ℕ) : ℕ := u32 (a+b+(2^32-1))/b

def addMod (a b z : ℕ) : ℕ := u64 (a+b)%z

def addModOpt (a b mod : ℕ) : ℕ :=
  let sum := u64 (a+b)
  if sum < mod then sum else sum-mod

/-- `((a - b) + z) % z`; the subtraction wraps below zero and the addition wraps back. -/
def subtractMod (a b z : ℕ) : ℕ := u64 (a+(2^64-b)+z)%z

def subtractModOpt (a b mod : ℕ) : ℕ := if a≥b then a-b else mod-b+a

def multiplyMod (a b z : ℕ) : ℕ := u32 (u64 (a*b)%z)

def intToByteString (input : ℕ) : Bytes :=
  [UInt8.ofNat (input/2^24),UInt8.ofNat (input/2^16),UInt8.ofNat (input/2^8),UInt8.ofNat input]

@[simp] theorem length_intToByteString (input : ℕ) : (intToByteString input).length=4 := rfl

theorem u32_eq_of_intToByteString_eq (h : intToByteString a=intToByteString b) : u32 a=u32 b := by
  simp only [intToByteString,List.cons.injEq,← UInt8.toNat_inj,UInt8.toNat_ofNat'] at h
  rw [u32,u32]
  omega

/-- Two factors that fit `uint32_t` cannot overflow the product. -/
theorem multiplyMod_eq (ha : a<2^32) (hb : b<2^32) (hz : z≤2^32)
    (hz0 : 0<z) : multiplyMod a b z=a*b%z := by
  have hab : a*b<2^64 := by
    have := Nat.mul_lt_mul'' ha hb
    calc a*b<2^32*2^32 := this
      _=2^64 := (Nat.pow_add 2 32 32).symm
  rw [multiplyMod,u64_of_lt hab,u32_of_lt (lt_of_lt_of_le (Nat.mod_lt _ hz0) hz)]

theorem addMod_eq (h : a+b<2^64) : addMod a b z=(a+b)%z := by
  rw [addMod,u64_of_lt h]

theorem addModOpt_eq (ha : a < mod) (hb : b < mod) (hm : mod≤2^63) :
    addModOpt a b mod=(a+b)%mod := by
  simp only [addModOpt,u64_of_lt (show a+b<2^64 by omega)]
  split
  next h => rw [Nat.mod_eq_of_lt h]
  next h => rw [Nat.mod_eq_sub_mod (by omega),Nat.mod_eq_of_lt (by omega)]

theorem subtractModOpt_add (ha : a < mod) (hb : b < mod) :
    (subtractModOpt a b mod+b)%mod=a ∧ subtractModOpt a b mod < mod := by
  simp only [subtractModOpt]
  split
  next h =>
    rw [Nat.sub_add_cancel h,Nat.mod_eq_of_lt ha]
    omega
  next h =>
    have he : mod-b+a+b=a+mod := by omega
    rw [he,Nat.add_mod_right,Nat.mod_eq_of_lt ha]
    omega

end Fcp.SecAgg

import Mathlib.Data.List.Basic
import Mathlib.Algebra.Order.Ring.Nat

/-!
# Variable-length numbers

Seven bits in a byte, low bits first; all bytes but the last one have their high bit set. A reader
takes at most ten bytes and keeps 64 bits.
-/

namespace Fcp

/-- A number in at most `k + 1` bytes. -/
def writeGroups : ℕ → ℕ → List UInt8
  | 0, x => [UInt8.ofNat x]
  | k+1, x =>
    if x<128 then [UInt8.ofNat x] else UInt8.ofNat (x%128+128)::writeGroups k (x/128)

/-- A number from at most `k` bytes, with the bytes that follow it. -/
def readGroups : ℕ → List UInt8 → Option (ℕ × List UInt8)
  | 0, _ => none
  | _+1, [] => none
  | k+1, b::bytes =>
    if b.toNat<128 then some (b.toNat,bytes)
    else (readGroups k bytes).map fun r => (b.toNat-128+128*r.1,r.2)

def writeVarint64 (x : ℕ) : List UInt8 := writeGroups 9 x

def readVarint64 (bytes : List UInt8) : Option (ℕ × List UInt8) :=
  (readGroups 10 bytes).map fun r => (r.1%2^64,r.2)

variable {x : ℕ}

theorem readGroups_last (hx : x<128) (k : ℕ) (rest : List UInt8) :
    readGroups (k+1) (UInt8.ofNat x::rest)=some (x,rest) := by
  have hb : (UInt8.ofNat x).toNat=x := by
    rw [UInt8.toNat_ofNat']
    omega
  rw [readGroups,hb,if_pos hx]

theorem readGroups_writeGroups {k x : ℕ} (hx : x<128^(k+1)) (rest : List UInt8) :
    readGroups (k+1) (writeGroups k x++rest)=some (x,rest) := by
  induction k generalizing x with
  | zero => exact readGroups_last (by omega) 0 rest
  | succ k ih =>
    rw [writeGroups]
    split
    · exact readGroups_last ‹_› (k+1) rest
    · have hb : (UInt8.ofNat (x%128+128)).toNat=x%128+128 := by
        rw [UInt8.toNat_ofNat']
        omega
      have hh : x/128<128^(k+1) := by
        rw [Nat.div_lt_iff_lt_mul (by decide),← Nat.pow_succ]
        exact hx
      rw [List.cons_append,readGroups,hb,if_neg (by omega),ih hh,Option.map_some]
      congr 2
      omega

theorem readVarint64_writeVarint64 (hx : x<2^64) (rest : List UInt8) :
    readVarint64 (writeVarint64 x++rest)=some (x,rest) := by
  have hr:=@readGroups_writeGroups 9 x (Nat.lt_trans hx (by decide)) rest
  rw [readVarint64,writeVarint64,hr,Option.map_some,Nat.mod_eq_of_lt hx]

theorem writeVarint64_ne_nil (x : ℕ) : writeVarint64 x≠[] := by
  rw [writeVarint64,writeGroups]
  split <;> exact List.cons_ne_nil _ _

theorem readGroups_length {k x : ℕ} {bs rest : List UInt8}
    (h : readGroups k bs=some (x,rest)) : rest.length<bs.length := by
  induction k generalizing bs x with
  | zero => cases h
  | succ k ih =>
    cases bs with
    | nil => cases h
    | cons b bs =>
      rw [readGroups] at h
      split at h
      · cases h
        exact Nat.lt_succ_self _
      · obtain ⟨⟨y,rest'⟩,hr,heq⟩:=Option.map_eq_some_iff.mp h
        cases heq
        exact Nat.lt_succ_of_lt (ih hr)

theorem readVarint64_length {bs rest : List UInt8} (h : readVarint64 bs=some (x,rest)) :
    rest.length < bs.length := by
  obtain ⟨⟨y,rest'⟩,hr,heq⟩:=Option.map_eq_some_iff.mp h
  cases heq
  exact readGroups_length hr

end Fcp

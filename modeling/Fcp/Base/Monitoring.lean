import Fcp.Lib.Except
import Mathlib.Algebra.Order.Ring.Nat

/-!
# Checks and statuses (fcp/base/monitoring.h, absl::Status)

A fatal check is the outer `Except Fault`, a status is an ordinary value of the computation.
-/

namespace Fcp

abbrev Bytes := List UInt8

/-- What ends the process instead of returning to the caller. -/
inductive Fault where
  /-- `FCP_CHECK` with a false condition. -/
  | check
  /-- Access to an element that does not exist. -/
  | outOfRange
  /-- Overflow of a signed `int`. -/
  | signedOverflow
  | wrapAround
  /-- A loop that has not ended within the fuel it was given. -/
  | noReturn
  | outOfMemory
  | badStatusOrAccess
  /-- A pointer that is not set. -/
  | nullDereference
  deriving Repr, DecidableEq

abbrev Checked := Except Fault

def fcpCheck (b : Bool) : Checked Unit := if b then .ok () else .error .check

@[simp] theorem fcpCheck_true : fcpCheck true=.ok () := rfl

@[simp] theorem fcpCheck_false : fcpCheck false=.error .check := rfl

theorem fcpCheck_eq_ok {b : Bool} {u : Unit} : fcpCheck b=.ok u ↔ b=true := by
  cases b <;> simp

def elementAt {α : Type} (v : List α) (i : ℕ) : Checked α :=
  match v[i]? with
  | some a => .ok a
  | none => .error .outOfRange

theorem elementAt_eq_ok {α : Type} {v : List α} {i : ℕ} {a : α} :
    elementAt v i=.ok a ↔ v[i]?=some a := by
  unfold elementAt
  cases v[i]? <;> simp

/-- The result of an operation on `int` values, which is not negative. -/
def toInt (x : ℕ) : Checked ℕ := if x<2^31 then .ok x else .error .signedOverflow

def intAdd (a b : ℕ) : Checked ℕ := toInt (a+b)

theorem intAdd_eq_ok {a b c : ℕ} : intAdd a b=.ok c ↔ a+b<2^31 ∧ c=a+b := ite_eq_ok

/-- A result of any sign: the bits below that of the sign hold it or its complement. -/
def checkInt : ℤ → Checked ℤ
  | .ofNat x => do return .ofNat (← toInt x)
  | .negSucc x => do return .negSucc (← toInt x)

theorem checkInt_eq_ite (x : ℤ) :
    checkInt x=if -2^31≤x ∧ x<2^31 then .ok x else .error .signedOverflow := by
  cases x with
  | ofNat x =>
    have hx : Int.ofNat x=x := rfl
    by_cases h : x<2^31
    · rw [checkInt,toInt,if_pos h,if_pos (by omega)]
      rfl
    · rw [checkInt,toInt,if_neg h,if_neg (by omega)]
      rfl
  | negSucc x =>
    by_cases h : x<2^31
    · rw [checkInt,toInt,if_pos h,if_pos (by omega)]
      rfl
    · rw [checkInt,toInt,if_neg h,if_neg (by omega)]
      rfl

def faultOf {α : Type} : Checked α → Option Fault
  | .ok _ => none
  | .error fault => some fault

theorem eq_error_of_faultOf {α : Type} {x : Checked α} {fault : Fault}
    (h : faultOf x=some fault) : x=.error fault := by
  cases x with
  | ok a => cases h
  | error f => rw [Option.some.inj h]

inductive StatusCode where
  | ok
  | cancelled
  | unknown
  | invalidArgument
  | deadlineExceeded
  | notFound
  | alreadyExists
  | permissionDenied
  | resourceExhausted
  | failedPrecondition
  | aborted
  | outOfRange
  | unimplemented
  | internal
  | unavailable
  | dataLoss
  | unauthenticated
  deriving Repr, DecidableEq

def StatusCode.value : StatusCode → ℕ
  | .ok => 0
  | .cancelled => 1
  | .unknown => 2
  | .invalidArgument => 3
  | .deadlineExceeded => 4
  | .notFound => 5
  | .alreadyExists => 6
  | .permissionDenied => 7
  | .resourceExhausted => 8
  | .failedPrecondition => 9
  | .aborted => 10
  | .outOfRange => 11
  | .unimplemented => 12
  | .internal => 13
  | .unavailable => 14
  | .dataLoss => 15
  | .unauthenticated => 16

def StatusCode.text : StatusCode → String
  | .ok => "OK"
  | .cancelled => "CANCELLED"
  | .unknown => "UNKNOWN"
  | .invalidArgument => "INVALID_ARGUMENT"
  | .deadlineExceeded => "DEADLINE_EXCEEDED"
  | .notFound => "NOT_FOUND"
  | .alreadyExists => "ALREADY_EXISTS"
  | .permissionDenied => "PERMISSION_DENIED"
  | .resourceExhausted => "RESOURCE_EXHAUSTED"
  | .failedPrecondition => "FAILED_PRECONDITION"
  | .aborted => "ABORTED"
  | .outOfRange => "OUT_OF_RANGE"
  | .unimplemented => "UNIMPLEMENTED"
  | .internal => "INTERNAL"
  | .unavailable => "UNAVAILABLE"
  | .dataLoss => "DATA_LOSS"
  | .unauthenticated => "UNAUTHENTICATED"

structure Status where
  code : StatusCode
  message : String
  deriving Repr, DecidableEq

def Status.okStatus : Status := ⟨.ok,""⟩

def Status.isOk (status : Status) : Bool := status.code=.ok

def Status.text (status : Status) : String :=
  if status.isOk then "OK" else status.code.text++": "++status.message

/-- `StatusOr<T>`: the error branch holds a status that is not OK. -/
abbrev StatusOr := Except Status

def statusOf {α : Type} : StatusOr α → Status
  | .ok _ => .okStatus
  | .error status => status

end Fcp

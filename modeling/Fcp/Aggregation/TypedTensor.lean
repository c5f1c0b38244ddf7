import Fcp.Aggregation.TensorAggregator

/-!
# Tensors and their elements (core/tensor.cc, core/tensor_data.cc, core/tensor_shape.cc)

The data of a tensor is the list of its elements. The number of elements that the shape promises
wraps around at `2^64`, and so does the number of bytes it is compared with.
-/

namespace Fcp.Aggregation

def Element : DataType → Type
  | .invalid => Empty
  | .float => BitVec 32
  | .double => BitVec 64
  | .int32 => BitVec 32
  | .string => Bytes
  | .int64 => BitVec 64

instance instDecidableEqElement : (d : DataType) → DecidableEq (Element d)
  | .invalid => inferInstanceAs (DecidableEq Empty)
  | .float => inferInstanceAs (DecidableEq (BitVec 32))
  | .double => inferInstanceAs (DecidableEq (BitVec 64))
  | .int32 => inferInstanceAs (DecidableEq (BitVec 32))
  | .string => inferInstanceAs (DecidableEq Bytes)
  | .int64 => inferInstanceAs (DecidableEq (BitVec 64))

namespace DataType

def valueSize : DataType → ℕ
  | .invalid => 0
  | .float => 4
  | .double => 8
  | .int32 => 4
  | .string => 16
  | .int64 => 8

def number : DataType → ℕ
  | .invalid => 0
  | .float => 1
  | .double => 2
  | .int32 => 3
  | .string => 7
  | .int64 => 9

theorem valueSize_pos {d : DataType} (h : d≠.invalid) : 0<d.valueSize := by
  cases d <;> simp_all [valueSize]

end DataType

def numElements (shape : List ℕ) : ℕ := shape.foldl (fun n dim => n*dim%2^64) 1

theorem numElements_singleton {n : ℕ} (h : n<2^64) : numElements [n]=n := by
  show 1*n%2^64=n
  rw [Nat.one_mul,Nat.mod_eq_of_lt h]

structure TypedTensor where
  dtype : DataType
  shape : List ℕ
  data : List (Element dtype)

namespace TypedTensor

def byteSize (t : TypedTensor) : ℕ := t.data.length*t.dtype.valueSize

def checkValid (t : TypedTensor) : Status :=
  if t.dtype=.invalid then ⟨.failedPrecondition,"Invalid Tensor dtype."⟩
  else if t.byteSize=0 then ⟨.failedPrecondition,"TensorData: non-empty size required"⟩
  else if t.byteSize≠numElements t.shape*t.dtype.valueSize%2^64 then
    ⟨.failedPrecondition,"TensorData byte_size is inconsistent with the Tensor dtype and shape."⟩
  else .okStatus

def create (dtype : DataType) (shape : List ℕ) (data : List (Element dtype)) :
    StatusOr TypedTensor :=
  let tensor : TypedTensor := ⟨dtype,shape,data⟩
  if tensor.checkValid.code≠.ok then .error tensor.checkValid else .ok tensor

def asAggVector (d : DataType) (t : TypedTensor) : Checked (List (Element d)) :=
  if h : t.dtype=d then .ok (h ▸ t.data) else .error .check

def movedFrom : TypedTensor := ⟨.invalid,[],[]⟩

variable {d : DataType}

theorem asAggVector_mk (shape : List ℕ) (data : List (Element d)) :
    asAggVector d ⟨d,shape,data⟩=.ok data := by
  simp [asAggVector]

variable {t : TypedTensor}

theorem checkValid_eq_ok : t.checkValid.code=.ok ↔ t.dtype≠.invalid ∧ t.byteSize≠0 ∧
      t.byteSize=numElements t.shape*t.dtype.valueSize%2^64 := by
  unfold checkValid
  split
  · simp_all
  · split
    · simp_all
    · split <;> simp_all [Status.okStatus]

theorem create_vector {data : List (Element d)} (hd : d≠.invalid) (hdata : data≠[])
    (hs : data.length*d.valueSize<2^63) :
    create d [data.length] data=.ok ⟨d,[data.length],data⟩ := by
  have hv : 0<d.valueSize := DataType.valueSize_pos hd
  have hl : data.length<2^64 := by
    calc data.length≤data.length*d.valueSize := Nat.le_mul_of_pos_right _ hv
      _<2^64 := by omega
  have hvalid : (⟨d,[data.length],data⟩ : TypedTensor).checkValid.code=.ok := by
    rw [checkValid_eq_ok]
    refine ⟨hd,?_,?_⟩
    · show data.length*d.valueSize≠0
      exact Nat.mul_ne_zero (by simpa using hdata) (Nat.ne_of_gt hv)
    · show data.length*d.valueSize=numElements [data.length]*d.valueSize%2^64
      rw [numElements_singleton hl,Nat.mod_eq_of_lt (by omega)]
  simp [create,hvalid]

def elements (d : DataType) (t : TypedTensor) : List (Element d) :=
  if h : t.dtype=d then h ▸ t.data else []

theorem asAggVector_elements (h : t.dtype=d) : t.asAggVector d=.ok (t.elements d) := by
  simp [asAggVector,elements,h]

theorem length_elements (h : t.dtype=d) : (t.elements d).length=t.data.length := by
  subst h
  simp [elements]

end TypedTensor

def ordinalsOf (t : TypedTensor) : List (BitVec 64) := t.elements .int64

structure InputTensor where
  tensor : TypedTensor
  valid : tensor.dtype=.invalid ∨ tensor.checkValid.code=.ok ∧ tensor.byteSize<2^63

namespace InputTensor

variable {t : InputTensor}

theorem byteSize_eq (h : t.tensor.dtype≠.invalid) : t.tensor.byteSize≠0 ∧ t.tensor.byteSize<2^63 ∧
      t.tensor.byteSize=numElements t.tensor.shape*t.tensor.dtype.valueSize%2^64 := by
  rcases t.valid with hi | ⟨hc,hs⟩
  · exact absurd hi h
  · obtain ⟨-,hne,heq⟩:=TypedTensor.checkValid_eq_ok.mp hc
    exact ⟨hne,hs,heq⟩

/-- A tensor has as many elements as a tensor of 64-bit integers of its shape, even where the
promised number of elements has wrapped around: they would differ by half of the memory. -/
theorem length_data_eq {s : InputTensor} (hs : s.tensor.dtype=.int64)
    (ht : t.tensor.dtype≠.invalid) (hshape : s.tensor.shape=t.tensor.shape) :
    s.tensor.data.length=t.tensor.data.length := by
  obtain ⟨-,hssize,hs'⟩ := byteSize_eq (t := s) (by simp [hs])
  obtain ⟨-,htsize,ht'⟩ := byteSize_eq ht
  rw [hshape] at hs'
  unfold TypedTensor.byteSize at *
  generalize numElements t.tensor.shape=n at *
  generalize s.tensor.data.length=a at *
  generalize t.tensor.data.length=b at *
  cases hd : t.tensor.dtype <;>
    simp only [hs,hd,DataType.valueSize,ne_eq,not_true_eq_false] at * <;> omega

theorem length_data_of_lt (h : t.tensor.dtype≠.invalid) (hlt : numElements t.tensor.shape<2^31) :
    t.tensor.data.length=numElements t.tensor.shape ∧ t.tensor.data.length≠0 := by
  obtain ⟨hne,-,heq⟩ := byteSize_eq h
  unfold TypedTensor.byteSize at *
  generalize numElements t.tensor.shape=n at *
  generalize t.tensor.data.length=a at *
  cases hd : t.tensor.dtype <;>
    simp only [hd,DataType.valueSize,ne_eq,not_true_eq_false] at * <;> omega

end InputTensor

end Fcp.Aggregation

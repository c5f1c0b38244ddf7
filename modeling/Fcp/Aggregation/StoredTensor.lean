import Fcp.Aggregation.CompositeKeyCombiner

/-!
# Tensors in memory (core/tensor.cc, core/tensor_data.cc, core/tensor_shape.cc)

The data is a block of bytes or an array of string views. The sizes that a shape promises are
products of `size_t` values, modulo `2^64`.
-/

namespace Fcp.Aggregation

structure StringView where
  position : ℕ
  size : ℕ
  deriving Repr, DecidableEq

inductive TensorData where
  | numeric (address : ℕ) (content : Bytes)
  | strings (address : ℕ) (content : Bytes) (stringViews : List StringView)
  deriving Repr, DecidableEq

namespace TensorData

def address : TensorData → ℕ
  | .numeric address _ => address
  | .strings address _ _ => address

def byteSize : TensorData → ℕ
  | .numeric _ content => content.length
  | .strings _ _ stringViews => stringViews.length*DataType.string.valueSize

def checkValid (data : TensorData) (valueSize : ℕ) : Checked Status := do
  fcpCheck (0<valueSize)
  if data.byteSize=0 then
    .ok ⟨.failedPrecondition,"TensorData: non-empty size required"⟩
  else if data.byteSize%valueSize≠0 then
    .ok ⟨.failedPrecondition,"TensorData: byte_size() must be a multiple of value_size " ++
      toString valueSize⟩
  else if data.address%valueSize≠0 then
    .ok ⟨.failedPrecondition,"TensorData: data() address is not aligned by value_size " ++
      toString valueSize⟩
  else .ok .okStatus

end TensorData

structure StoredTensor where
  dtype : DataType
  shape : List ℕ
  data : TensorData
  deriving DecidableEq

namespace StoredTensor

def checkValid (t : StoredTensor) : Checked Status :=
  if t.dtype=.invalid then .ok ⟨.failedPrecondition,"Invalid Tensor dtype."⟩
  else do
    let status ← t.data.checkValid t.dtype.valueSize
    if status.code≠.ok then .ok status
    else if t.data.byteSize≠numElements t.shape*t.dtype.valueSize%2^64 then
      .ok ⟨.failedPrecondition,
        "TensorData byte_size is inconsistent with the Tensor dtype and shape."⟩
    else .ok .okStatus

variable (dtype : DataType) (shape : List ℕ) (data : TensorData)

def create : Checked (StatusOr StoredTensor) := do
  let tensor : StoredTensor := ⟨dtype,shape,data⟩
  let status ← tensor.checkValid
  .ok (if status.code≠.ok then .error status else .ok tensor)

structure Valid (t : StoredTensor) : Prop where
  dtype : t.dtype≠.invalid
  nonempty : t.data.byteSize≠0
  whole : t.data.byteSize%t.dtype.valueSize=0
  aligned : t.data.address%t.dtype.valueSize=0
  consistent : t.data.byteSize=numElements t.shape*t.dtype.valueSize%2^64

variable {t : StoredTensor}

theorem checkValid_of_valid (h : t.Valid) : t.checkValid=.ok .okStatus := by
  have hs:=decide_eq_true (DataType.valueSize_pos h.dtype)
  have hd : t.data.checkValid t.dtype.valueSize=.ok .okStatus := by
    rw [TensorData.checkValid,hs,fcpCheck_true,ok_bind,if_neg h.nonempty,
      if_neg (not_not.mpr h.whole),if_neg (not_not.mpr h.aligned)]
  have hc : ¬ Status.okStatus.code≠.ok := not_not.mpr rfl
  rw [checkValid,if_neg h.dtype,hd,ok_bind,if_neg hc,if_neg (not_not.mpr h.consistent)]

theorem valid_of_checkValid {st : Status} (h : t.checkValid=.ok st)
    (hc : st.code=.ok) : t.Valid := by
  unfold checkValid at h
  split at h
  · cases h
    cases hc
  rename_i hdtype
  obtain ⟨dataStatus,hd,h⟩:=bind_eq_ok.mp h
  split at h
  · cases h
    exact (‹¬ _› hc).elim
  split at h
  · cases h
    cases hc
  rename_i hok hconsistent
  obtain ⟨-,-,hd⟩:=bind_eq_ok.mp hd
  split at hd
  · cases hd
    exact (hok nofun).elim
  split at hd
  · cases hd
    exact (hok nofun).elim
  split at hd
  · cases hd
    exact (hok nofun).elim
  rename_i hn hw ha
  exact ⟨hdtype,hn,not_not.mp hw,not_not.mp ha,not_not.mp hconsistent⟩

theorem create_eq_ok {dtype : DataType} {shape : List ℕ} {data : TensorData} :
    create dtype shape data=.ok (.ok t) ↔ t=⟨dtype,shape,data⟩ ∧ t.Valid := by
  constructor
  · intro h
    obtain ⟨st,hs,h⟩:=bind_eq_ok.mp h
    split at h
    · cases h
    · cases h
      exact ⟨rfl,valid_of_checkValid hs (not_not.mp ‹_›)⟩
  · rintro ⟨rfl,hv⟩
    rw [create,checkValid_of_valid hv]
    rfl

theorem exists_create : ∃ r,create dtype shape data=.ok r := by
  by_cases hd : dtype=.invalid
  · rw [create,checkValid,if_pos hd]
    exact ⟨_,rfl⟩
  · have hs:=decide_eq_true (DataType.valueSize_pos hd)
    rw [create,checkValid,if_neg hd,TensorData.checkValid,hs,fcpCheck_true,ok_bind]
    split_ifs <;> exact ⟨_,rfl⟩

end StoredTensor

theorem numElements_eq (shape : List ℕ) : numElements shape=shape.prod%2^64 := by
  have hf (n : ℕ) : n<2^64 → shape.foldl (fun n dim => n*dim%2^64) n=n*shape.prod%2^64 := by
    induction shape generalizing n with
    | nil =>
      intro hn
      rw [List.foldl_nil,List.prod_nil,Nat.mul_one,Nat.mod_eq_of_lt hn]
    | cons dim shape ih =>
      intro _
      rw [List.foldl_cons,ih _ (Nat.mod_lt _ (by decide)),List.prod_cons,← Nat.mul_assoc,
        Nat.mod_mul_mod]
  rw [numElements,hf 1 (by decide),Nat.one_mul]

end Fcp.Aggregation

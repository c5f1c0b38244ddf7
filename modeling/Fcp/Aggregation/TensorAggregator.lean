import Fcp.Base.Monitoring
import Fcp.Lib.NameMap

/-!
# Aggregators of tensors (core/tensor_aggregator.cc, core/agg_vector_aggregator.h)

`AggVectorAggregator` checks the data type and the shape of an input. The arithmetic of its
subclasses is a parameter here, over any type of vector data.
-/

namespace Fcp.Aggregation

inductive DataType where
  | invalid
  | float
  | double
  | int32
  | string
  | int64
  deriving DecidableEq

structure TensorSpec where
  name : String
  dtype : DataType
  shape : List ℕ
  deriving DecidableEq

structure Tensor (V : Type) where
  dtype : DataType
  shape : List ℕ
  data : V
  deriving DecidableEq

structure Intrinsic (V : Type) where
  input : TensorSpec
  output : TensorSpec
  initialData : V
  aggregateVector : V → V → V
  same_dtype : input.dtype=output.dtype
  same_shape : input.shape=output.shape

/-- The `result_tensor_` of an aggregator; nothing is left once it has been moved out. -/
abbrev ResultTensor (V : Type) := Option (Tensor V)

variable {V : Type}

namespace Intrinsic

def createAggregator (k : Intrinsic V) : ResultTensor V :=
  some ⟨k.input.dtype,k.input.shape,k.initialData⟩

def consumed : Status := ⟨.failedPrecondition,"Invalid Tensor dtype."⟩

def accumulate (k : Intrinsic V) (result : ResultTensor V) (tensor : Tensor V) :
    StatusOr (Tensor V) :=
  match result with
  | none => .error consumed
  | some t =>
    if tensor.dtype≠t.dtype then
      .error ⟨.invalidArgument,"AggVectorAggregator::AggregateTensors: dtype mismatch"⟩
    else if tensor.shape≠t.shape then
      .error ⟨.invalidArgument,"AggVectorAggregator::AggregateTensors: tensor shape mismatch"⟩
    else .ok { t with data := k.aggregateVector t.data tensor.data }

end Intrinsic

abbrev TensorMap (V : Type) := NameMap (Tensor V)

structure ProtocolEnv (V : Type) where
  intrinsics : List (Intrinsic V)
  createParser : Bytes → StatusOr (String → StatusOr (Tensor V))
  retrieveResource : ℕ → String → StatusOr Bytes
  addToCheckpoint : List (String × Tensor V) → String → Tensor V → Status
  buildCheckpoint : List (String × Tensor V) → StatusOr Bytes

def parseTensor (getTensor : String → StatusOr (Tensor V)) (k : Intrinsic V) :
    StatusOr (String × Tensor V) := do
  let tensor ← getTensor k.input.name
  if tensor.dtype≠k.input.dtype ∨ tensor.shape≠k.input.shape then
    .error ⟨.invalidArgument,"Input tensor spec mismatch."⟩
  else return (k.input.name,tensor)

def parseCheckpoint (env : ProtocolEnv V) (report : Bytes) : StatusOr (TensorMap V) := do
  let getTensor ← env.createParser report
  let tensors ← env.intrinsics.mapM (parseTensor getTensor)
  return NameMap.ofEntries tensors

def accumulateAll (tensorMap : TensorMap V) :
    List (Intrinsic V) → List (ResultTensor V) → Checked (Status × List (ResultTensor V))
  | k::ks, result::results =>
    match tensorMap.lookup k.input.name with
    | none => .error .check
    | some tensor =>
      match k.accumulate result tensor with
      | .error status => .ok (status,result::results)
      | .ok t => do
        let (status,results) ← accumulateAll tensorMap ks results
        return (status,some t::results)
  | _, results => .ok (.okStatus,results)

def reportAll (env : ProtocolEnv V) (added : List (String × Tensor V)) :
    List (Intrinsic V) → List (ResultTensor V) →
    Checked (StatusOr (List (String × Tensor V)) × List (ResultTensor V))
  | k::ks, result::results =>
    match result with
    | none => .ok (.error Intrinsic.consumed,none::results)
    | some t => do
      fcpCheck (decide (t.dtype=k.output.dtype))
      fcpCheck (decide (t.shape=k.output.shape))
      let status := env.addToCheckpoint added k.output.name t
      if status.code≠.ok then return (.error status,none::results)
      else
        let (report,results) ← reportAll env (added++[(k.output.name,t)]) ks results
        return (report,none::results)
  | _, results => .ok (.ok added,results)

end Fcp.Aggregation

import Fcp.Aggregation.TypedTensor
import Fcp.Lib.LittleEndian

/-!
# The combiner of composite keys (core/composite_key_combiner.cc)

A key has an eight-byte slot for each tensor, with a number or the address of an interned string.
The nodes of the hash tables keep their addresses; `key_vec_` refers to nodes by address.
-/

namespace Fcp.Aggregation

abbrev Cell := (d : DataType) × Element d

instance : DecidableEq Cell := inferInstanceAs (DecidableEq (Sigma Element))

structure Allocator where
  alloc : List ℕ → Option ℕ
  fresh : ∀ {live p},alloc live=some p → p∉live
  lt : ∀ {live p},alloc live=some p → p<2^64
  bound : ∀ {live p},alloc live=some p → live.length+1<2^59

structure Interned where
  address : ℕ
  content : Bytes
  deriving DecidableEq

structure KeyNode where
  address : ℕ
  key : Bytes
  ordinal : ℕ
  deriving DecidableEq

structure CompositeKeyCombiner where
  dtypes : List DataType
  keyVec : List ℕ
  internPool : List Interned
  compositeKeys : List KeyNode
  compositeKeyNext : ℕ
  deriving DecidableEq

def CompositeKeyCombiner.create (dtypes : List DataType) : Checked CompositeKeyCombiner := do
  fcpCheck (decide (∀ dtype∈dtypes,dtype≠.invalid))
  return ⟨dtypes,[],[],[],0⟩

def numericSlot (size n : ℕ) : Bytes := toLittleEndian size n++List.replicate (8-size) 0

/-- `a + b` of type `int64_t`, for operands that are not negative. -/
def int64Add (a b : ℕ) : Checked ℕ :=
  if a+b<2^63 then .ok (a+b) else .error .signedOverflow

namespace CompositeKeyCombiner

variable (A : Allocator) (c : CompositeKeyCombiner) (tensors : List TypedTensor)

def live : List ℕ := c.internPool.map Interned.address++c.compositeKeys.map KeyNode.address

def intern (content : Bytes) : Checked (ℕ × CompositeKeyCombiner) :=
  match c.internPool.find? fun e => e.content=content with
  | some e => .ok (e.address,c)
  | none =>
    match A.alloc c.live with
    | none => .error .outOfMemory
    | some p => .ok (p,{ c with internPool := c.internPool++[⟨p,content⟩] })

def copyToDest : Cell → Checked (Bytes × CompositeKeyCombiner)
  | ⟨.float,(x : BitVec 32)⟩ => .ok (numericSlot 4 x.toNat,c)
  | ⟨.double,(x : BitVec 64)⟩ => .ok (numericSlot 8 x.toNat,c)
  | ⟨.int32,(x : BitVec 32)⟩ => .ok (numericSlot 4 x.toNat,c)
  | ⟨.int64,(x : BitVec 64)⟩ => .ok (numericSlot 8 x.toNat,c)
  | ⟨.string,(content : Bytes)⟩ => do
    let (address,c) ← c.intern A content
    return (toLittleEndian 8 address,c)
  | ⟨.invalid,_⟩ => .error .check

def copyRow (A : Allocator) (i : ℕ) :
    List TypedTensor → ℕ → CompositeKeyCombiner → Checked (Bytes × CompositeKeyCombiner)
  | [], _, c => .ok ([],c)
  | t::tensors, j, c => do
    let x ← elementAt t.data i
    let (slot,c) ← c.copyToDest A ⟨t.dtype,x⟩
    let j ← intAdd j 1
    let (key,c) ← copyRow A i tensors j c
    return (slot++key,c)

def insertKey (key : Bytes) : Checked (ℕ × CompositeKeyCombiner) :=
  match c.compositeKeys.find? fun node => node.key=key with
  | some node => .ok (node.ordinal,c)
  | none =>
    match A.alloc c.live with
    | none => .error .outOfMemory
    | some p => do
      let next ← int64Add c.compositeKeyNext 1
      return (c.compositeKeyNext,
        { c with
          compositeKeys := c.compositeKeys++[⟨p,key,c.compositeKeyNext⟩]
          compositeKeyNext := next
          keyVec := c.keyVec++[p] })

def accumulateLoop (A : Allocator) (tensors : List TypedTensor) :
    ℕ → ℕ → CompositeKeyCombiner → Checked (List ℕ × CompositeKeyCombiner)
  | 0, _, c => .ok ([],c)
  | n+1, i, c => do
    let (key,c) ← copyRow A i tensors 0 c
    let (ordinal,c) ← c.insertKey A key
    let i ← intAdd i 1
    let (ordinals,c) ← accumulateLoop A tensors n i c
    return (ordinal::ordinals,c)

def checkTensors : Option (List ℕ) → ℕ → List (DataType × TypedTensor) →
    Checked (StatusOr (Option (List ℕ)))
  | shape, _, [] => .ok (.ok shape)
  | shape, i, (expected,t)::rest =>
    if shape.getD t.shape≠t.shape then
      .ok (.error ⟨.invalidArgument,
        "All tensors in the InputTensorList must have the expected shape."⟩)
    else if expected≠t.dtype then
      .ok (.error ⟨.invalidArgument,"Tensor did not have expected dtype " ++
        toString expected.number++" and instead had dtype "++toString t.dtype.number⟩)
    else do
      let i ← intAdd i 1
      checkTensors (some t.shape) i rest

def checkValidAndGetShape : Checked (StatusOr (List ℕ)) :=
  if tensors.length=0 then
    .ok (.error ⟨.invalidArgument,"InputTensorList must contain at least one tensor."⟩)
  else if tensors.length≠c.dtypes.length then
    .ok (.error ⟨.invalidArgument,"InputTensorList size "++toString tensors.length ++
      "is not the same as the length of expected dtypes "++toString c.dtypes.length⟩)
  else do
    match ← checkTensors none 0 (c.dtypes.zip tensors) with
    | .error status => return .error status
    | .ok none => .error .outOfRange
    | .ok (some shape) => return .ok shape

def accumulate : Checked (StatusOr TypedTensor × CompositeKeyCombiner) := do
  match ← c.checkValidAndGetShape tensors with
  | .error status => return (.error status,c)
  | .ok shape =>
    let (ordinals,c) ← accumulateLoop A tensors (numElements shape) 0 c
    return (TypedTensor.create .int64 shape (ordinals.map (BitVec.ofNat 64)),c)

def readNumber (size : ℕ) (slots : Bytes) : Checked ℕ :=
  if size ≤ slots.length then .ok (littleEndian (slots.take size)) else .error .outOfRange

def readElement : (d : DataType) → Bytes → Checked (Element d)
  | .float, slots => do
    let n ← readNumber 4 slots
    return BitVec.ofNat 32 n
  | .double, slots => do
    let n ← readNumber 8 slots
    return BitVec.ofNat 64 n
  | .int32, slots => do
    let n ← readNumber 4 slots
    return BitVec.ofNat 32 n
  | .int64, slots => do
    let n ← readNumber 8 slots
    return BitVec.ofNat 64 n
  | .string, slots => do
    let address ← readNumber 8 slots
    match c.internPool.find? fun e => e.address=address with
    | none => .error .outOfRange
    | some e => return e.content
  | .invalid, _ => .error .check

def outputTensors (c : CompositeKeyCombiner) :
    List DataType → List Bytes → Checked (StatusOr (List TypedTensor))
  | [], _ => .ok (.ok [])
  | d::dtypes, keyIters => do
    let data ← keyIters.mapM (c.readElement d)
    match TypedTensor.create d [keyIters.length] data with
    | .error status => return .error status
    | .ok t =>
      match ← outputTensors c dtypes (keyIters.map (List.drop 8)) with
      | .error status => return .error status
      | .ok ts => return .ok (t::ts)

def keyAt (address : ℕ) : Checked Bytes :=
  match c.compositeKeys.find? fun node => node.address=address with
  | none => .error .outOfRange
  | some node => .ok node.key

def getOutputKeys : Checked (StatusOr (List TypedTensor)) :=
  if c.keyVec=[] then .ok (.ok [])
  else do
    let keyIters ← c.keyVec.mapM c.keyAt
    c.outputTensors c.dtypes keyIters

end CompositeKeyCombiner

end Fcp.Aggregation

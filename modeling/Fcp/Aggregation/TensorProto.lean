import Fcp.Aggregation.StoredTensor
import Fcp.Lib.Varint

/-!
# Serialised tensors (core/tensor.cc, core/tensor_shape.cc)

Numbers are serialised as they are in memory, strings as a table of their sizes followed by their
contents, and read back as views into the message.
-/

namespace Fcp.Aggregation

structure TensorProto where
  dtype : DataType
  shape : List (BitVec 64)
  content : Bytes
  content_lt : content.length<2^63
  deriving DecidableEq

namespace TensorShape

variable (dims : List (BitVec 64))

def debugString : String :=
  String.intercalate " " (dims.map fun dim => "dim_sizes: "++toString dim.toInt)

def fromProto : StatusOr (List ℕ) :=
  if dims.any fun dim => dim.toInt<0 then
    .error ⟨.invalidArgument,
      "Negative dimension size isn't supported when converting from shape_proto: " ++
        debugString dims⟩
  else .ok (dims.map BitVec.toNat)

def toProto (shape : List ℕ) : List (BitVec 64) := shape.map (BitVec.ofNat 64)

end TensorShape

section Encode

def numberBytes : (d : DataType) → Element d → Bytes
  | .invalid, x => nomatch x
  | .float, (x : BitVec 32) => toLittleEndian 4 x.toNat
  | .double, (x : BitVec 64) => toLittleEndian 8 x.toNat
  | .int32, (x : BitVec 32) => toLittleEndian 4 x.toNat
  | .string, _ => []
  | .int64, (x : BitVec 64) => toLittleEndian 8 x.toNat

def firstElements {α : Type} : ℕ → List α → Checked (List α)
  | 0, _ => .ok []
  | _+1, [] => .error .outOfRange
  | num+1, a::rest => do
    let elements ← firstElements num rest
    .ok (a::elements)

def writeRaw (value : Bytes) : Checked Bytes :=
  if value.length<2^31 then .ok value else .error .outOfRange

def encodeStrings (values : List Bytes) (num : ℕ) : Checked Bytes := do
  let values ← firstElements num values
  let contents ← values.mapM writeRaw
  .ok (values.flatMap (fun value => writeVarint64 value.length)++contents.flatten)

def encodeContent (t : TypedTensor) (num : ℕ) : Checked Bytes :=
  match t with
  | ⟨.invalid,_,_⟩ => .error .check
  | ⟨.string,_,values⟩ => encodeStrings values num
  | ⟨d,_,data⟩ => .ok (data.flatMap (numberBytes d))

def TypedTensor.toProto (t : TypedTensor) : Checked TensorProto := do
  let content ← encodeContent t (numElements t.shape)
  if h : content.length<2^63 then .ok ⟨t.dtype,TensorShape.toProto t.shape,content,h⟩
  else .error .outOfMemory

end Encode

section Decode

/-- Where the memory of a `std::string`, which may be in the string itself, and of the views is. -/
structure Placement where
  contentAddress : Bytes → ℕ
  viewsAddress : ℕ → ℕ
  viewsAligned : ∀ num,viewsAddress num%16=0

variable (P : Placement) (content : Bytes)

def inputStream : Bytes := content.take (BitVec.ofNat 32 content.length).toInt.toNat

/-- The first pass over the strings: the views from the beginning of the content, their total size
and the rest of the stream, or the index of a string without a size. -/
def readSizes (i cumulativeSize : ℕ) : ℕ → Bytes → Except ℕ (List StringView × ℕ × Bytes)
  | 0, stream => .ok ([],cumulativeSize,stream)
  | num+1, stream =>
    match readVarint64 stream with
    | none => .error i
    | some (size,stream) => do
      let (views,total,stream) ←
        readSizes (i+1) ((cumulativeSize+size)%2^64) num stream
      .ok (⟨cumulativeSize,size⟩::views,total,stream)

def shiftViews (offset : ℕ) (views : List StringView) : List StringView :=
  views.map fun view => ⟨(view.position+offset)%2^64,view.size⟩

def initializeStrings (num : ℕ) : Checked (StatusOr TensorData) :=
  -- `resize` throws beyond `max_size()`
  if 2^59≤num then .error .outOfMemory
  else
    match readSizes 0 0 num (inputStream content) with
    | .error i =>
      .ok (.error ⟨.invalidArgument,"Expected to read "++toString num ++
        " string values but the input tensor content doesn't contain a size for the " ++
        toString i++"th string. The content size is "++toString content.length++" bytes."⟩)
    | .ok (views,cumulativeSize,rest) =>
      let offset := (inputStream content).length-rest.length
      if content.length<(offset+cumulativeSize)%2^64 then
        .ok (.error ⟨.invalidArgument,"Input tensor content has insufficient size to store " ++
          toString num++" string values. The content size is "++toString content.length ++
          " bytes, but "++toString ((offset+cumulativeSize)%2^64) ++
          " bytes are required."⟩)
      else .ok (.ok (.strings (P.viewsAddress num) content (shiftViews offset views)))

def decodeContent (dtype : DataType) (content : Bytes) (num : ℕ) : Checked (StatusOr TensorData) :=
  match dtype with
  | .invalid => .error .check
  | .string => initializeStrings P content num
  | _ => .ok (.ok (.numeric (P.contentAddress content) content))

namespace StoredTensor

variable (P : Placement) (proto : TensorProto)

def ofContent (content : Bytes) : Checked (StatusOr StoredTensor) :=
  match TensorShape.fromProto proto.shape with
  | .error status => .ok (.error status)
  | .ok shape => do
    match ← decodeContent P proto.dtype content (numElements shape) with
    | .error status => .ok (.error status)
    | .ok data => create proto.dtype shape data

def fromProto : Checked (StatusOr StoredTensor) := ofContent P proto proto.content

def fromMovedProto : Checked (StatusOr StoredTensor) × TensorProto :=
  match TensorShape.fromProto proto.shape with
  | .error status => (.ok (.error status),proto)
  | .ok _ => (ofContent P proto proto.content,{ proto with
      content := []
      content_lt := Nat.two_pow_pos 63 })

theorem fromMovedProto_fst : (fromMovedProto P proto).1=fromProto P proto := by
  rw [fromMovedProto,fromProto,ofContent]
  cases TensorShape.fromProto proto.shape with
  | error _ | ok _ => rfl

end StoredTensor

end Decode

section Elements

def readView (content : Bytes) (view : StringView) : Checked Bytes :=
  if view.position+view.size≤content.length then
    .ok ((content.drop view.position).take view.size)
  else .error .outOfRange

def readNumbers (size : ℕ) (content : Bytes) : List ℕ :=
  (List.range (content.length/size)).map fun i =>
    littleEndian ((content.drop (i*size)).take size)

def StoredTensor.typed (t : StoredTensor) : Checked TypedTensor :=
  match t.dtype, t.data with
  | .float, .numeric _ content =>
    .ok ⟨.float,t.shape,(readNumbers 4 content).map (BitVec.ofNat 32)⟩
  | .double, .numeric _ content =>
    .ok ⟨.double,t.shape,(readNumbers 8 content).map (BitVec.ofNat 64)⟩
  | .int32, .numeric _ content =>
    .ok ⟨.int32,t.shape,(readNumbers 4 content).map (BitVec.ofNat 32)⟩
  | .int64, .numeric _ content =>
    .ok ⟨.int64,t.shape,(readNumbers 8 content).map (BitVec.ofNat 64)⟩
  | .string, .strings _ content views => do
    let values ← views.mapM (readView content)
    .ok ⟨.string,t.shape,values⟩
  | _, _ => .error .check

end Elements

end Fcp.Aggregation

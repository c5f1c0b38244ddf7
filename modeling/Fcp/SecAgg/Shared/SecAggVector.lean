import Fcp.Lib.LittleEndian
import Fcp.Lib.NameMap
import Fcp.SecAgg.Shared.Math

/-!
# Packed and unpacked vectors (shared/secagg_vector.cc, shared/input_vector_specification.cc)

Elements are packed with `bit_width` bits each, low bits first, byte by byte or, by `Coder` and
`Decoder`, eight bytes at a time.
-/

namespace Fcp.SecAgg

def bitWidth (x : ℕ) : ℕ := if x=0 then 0 else x.log2+1

def byteAt (bytes : Bytes) (i : ℕ) : Checked ℕ :=
  match bytes[i]? with
  | some b => .ok b.toNat
  | none => .error .outOfRange

namespace SecAggVector

def kMaxModulus : ℕ := 2^62

def getBitWidth (modulus : ℕ) : ℕ := bitWidth (modulus-1)

def packedSize (numElements modulus : ℕ) : ℕ :=
  divideRoundUp (u32 (numElements*getBitWidth modulus)) 8

variable (bitWidth : ℕ) (bytes : Bytes)

def updateByte (i : ℕ) (f : UInt8 → UInt8) : Checked Bytes :=
  if i<bytes.length then .ok (bytes.modify i f) else .error .outOfRange

def packAligned (bytes : Bytes) (currentByteIndex element : ℕ) : ℕ → Checked Bytes
  | bitsLeftToPack+8 => do
    let bytes ← updateByte bytes currentByteIndex fun _ => UInt8.ofNat (element &&& 255)
    packAligned bytes (currentByteIndex+1) (element >>> 8) bitsLeftToPack
  | bitsLeftToPack =>
    if bitsLeftToPack>0 then
      updateByte bytes currentByteIndex fun b => b ||| UInt8.ofNat element
    else .ok bytes

def packUint64IntoByteStringAt (index element : ℕ) : Checked Bytes := do
  let leftmostBitPosition ← toInt (index*bitWidth)
  let currentByteIndex := leftmostBitPosition/8
  let startingBitPosition := leftmostBitPosition%8
  if startingBitPosition≠0 then
    let emptyBitsLeft := 8-startingBitPosition
    let mask := 2^min emptyBitsLeft bitWidth-1
    let valueToAdd := (element &&& mask) <<< startingBitPosition
    let bytes ← updateByte bytes currentByteIndex fun b => b ||| UInt8.ofNat valueToAdd
    -- `bits_left_to_pack` may become negative here, which ends the function as zero does
    packAligned bytes (currentByteIndex+1) (element >>> emptyBitsLeft) (bitWidth-emptyBitsLeft)
  else packAligned bytes currentByteIndex element bitWidth

def packFrom (bitWidth : ℕ) : Bytes → ℕ → List ℕ → Checked Bytes
  | bytes, _, [] => .ok bytes
  | bytes, index, element::rest => do
    let bytes ← packUint64IntoByteStringAt bitWidth bytes index element
    packFrom bitWidth bytes (index+1) rest

variable {bs r : Bytes}

theorem length_updateByte {i : ℕ} {f : UInt8 → UInt8} (h : updateByte bs i f=.ok r) :
    r.length=bs.length := by
  unfold updateByte at h
  split at h
  · cases h
    exact List.length_modify ..
  · cases h

variable {element bw i : ℕ}

theorem length_packAligned {cur n : ℕ} (h : packAligned bs cur element n=.ok r) :
    r.length=bs.length := by
  induction n using Nat.strongRecOn generalizing bs cur element with
  | ind n ih =>
    unfold packAligned at h
    split at h
    · rw [bind_eq_ok] at h
      obtain ⟨bytes',hup,h⟩:=h
      rw [ih _ (by omega) h,length_updateByte hup]
    · split at h
      · exact length_updateByte h
      · cases h
        rfl

theorem length_packUint64IntoByteStringAt
    (h : packUint64IntoByteStringAt bw bs i element=.ok r) : r.length=bs.length := by
  simp only [packUint64IntoByteStringAt,bind_eq_ok] at h
  obtain ⟨left,-,h⟩:=h
  split at h
  · rw [bind_eq_ok] at h
    obtain ⟨bytes',hup,h⟩:=h
    rw [length_packAligned h,length_updateByte hup]
  · exact length_packAligned h

theorem length_packFrom {span : List ℕ} (h : packFrom bw bs i span=.ok r) : r.length=bs.length := by
  induction span generalizing bs i with
  | nil =>
    cases h
    rfl
  | cons element rest ih =>
    rw [packFrom,bind_eq_ok] at h
    obtain ⟨bytes',hp,h⟩:=h
    rw [ih h,length_packUint64IntoByteStringAt hp]

def byteBefore : ℕ → Checked ℕ
  | 0 => .error .outOfRange
  | i+1 => byteAt bytes i

def unpackAligned (bytes : Bytes) (byteEnd unpacked : ℕ) : ℕ → Checked ℕ
  | bitsLeftToUnpack+8 => do
    let b ← byteBefore bytes byteEnd
    unpackAligned bytes (byteEnd-1) (u64 (unpacked <<< 8) ||| b) bitsLeftToUnpack
  | bitsLeftToUnpack =>
    if bitsLeftToUnpack>0 then do
      let b ← byteBefore bytes byteEnd
      return u64 (unpacked <<< bitsLeftToUnpack) ||| b >>> (8-bitsLeftToUnpack)
    else return unpacked

def unpackUint64FromByteStringAt (index : ℕ) : Checked ℕ := do
  let leftmostBitPosition ← toInt (index*bitWidth)
  let rightBoundaryBitPosition ← toInt ((index+1)*bitWidth)
  let leftmostByteIndex := leftmostBitPosition/8
  let rightmostByteIndex := (rightBoundaryBitPosition-1)/8
  if leftmostByteIndex=rightmostByteIndex then
    let numBitsToSkip := leftmostBitPosition%8
    let mask := (2^bitWidth-1) <<< numBitsToSkip
    let b ← byteAt bytes leftmostByteIndex
    return (b &&& mask) >>> numBitsToSkip
  else
    let bitsToCopy := rightBoundaryBitPosition%8
    if bitsToCopy≠0 then
      let b ← byteAt bytes rightmostByteIndex
      unpackAligned bytes rightmostByteIndex (b &&& (2^bitsToCopy-1)) (bitWidth-bitsToCopy)
    else unpackAligned bytes (rightmostByteIndex+1) 0 bitWidth

end SecAggVector

structure SecAggVector where
  packedBytes : Bytes
  modulus : ℕ
  numElements : ℕ
  branchlessCodec : Bool
  modulus_valid : 1 < modulus ∧ modulus≤SecAggVector.kMaxModulus
  size_valid : packedBytes.length=SecAggVector.packedSize numElements modulus
  deriving DecidableEq

namespace SecAggVector

variable (span : List ℕ) (v : SecAggVector) (modulus : ℕ)

def ofSpan : Checked SecAggVector :=
  if hm : 1 < modulus ∧ modulus≤kMaxModulus then
    if span.all fun element => decide (element < modulus) then
      match h : packFrom (getBitWidth modulus)
          (List.replicate (packedSize span.length modulus) 0) 0 span with
      | .ok bytes => .ok ⟨bytes,modulus,span.length,false,hm,by
          rw [length_packFrom h,List.length_replicate]⟩
      | .error fault => .error fault
    else .error .check
  else .error .check

def ofPackedBytes (packedBytes : Bytes) (modulus numElements : ℕ) (branchlessCodec : Bool) :
    Checked SecAggVector :=
  if hm : 1 < modulus ∧ modulus≤kMaxModulus then
    if hs : packedBytes.length=packedSize numElements modulus then
      .ok ⟨packedBytes,modulus,numElements,branchlessCodec,hm,hs⟩
    else .error .check
  else .error .check

def bitWidth : ℕ := getBitWidth v.modulus

structure Decoder where
  packedBytes : Bytes
  readCursor : ℕ
  cursorReadValue : ℕ
  scratch : ℕ
  readCursorBit : ℕ
  bitWidth : ℕ
  modulus : ℕ

namespace Decoder

def overwriteLow (value : ℕ) (bytes : Bytes) : ℕ :=
  littleEndian bytes ||| (value >>> (8*bytes.length)) <<< (8*bytes.length)

variable (d : Decoder)

def readData : Decoder :=
  let cursorReadValue := overwriteLow d.cursorReadValue ((d.packedBytes.drop d.readCursor).take 8)
  { d with
    cursorReadValue := cursorReadValue
    scratch := d.scratch ||| u64 (cursorReadValue <<< d.readCursorBit) }

def create (packedBytes : Bytes) (modulus : ℕ) : Decoder :=
  readData ⟨packedBytes,0,0,0,0,getBitWidth modulus,modulus⟩

def nextCursorBit (unwrittenBits bitWidth : ℕ) : ℤ :=
  let readCursorBit : ℤ := unwrittenBits-bitWidth
  let validScratchBits : ℤ := min 64 (64-bitWidth+unwrittenBits)
  let newReadCursorBit := readCursorBit+(validScratchBits-readCursorBit)/8*8
  if newReadCursorBit=64 then 56 else newReadCursorBit

def readValue : ℕ × Decoder :=
  let currentValue := d.scratch &&& (2^d.bitWidth-1)
  -- one of the two shift amounts is zero
  let cursorReadValue := u64 ((d.cursorReadValue >>> (d.bitWidth-d.readCursorBit)) <<<
    (d.readCursorBit-d.bitWidth))
  let newReadCursorBit := nextCursorBit d.readCursorBit d.bitWidth
  let d' : Decoder := readData
    { d with
      cursorReadValue := cursorReadValue
      scratch := d.scratch >>> d.bitWidth ||| cursorReadValue
      readCursor := d.readCursor + ((newReadCursorBit-(d.readCursorBit-d.bitWidth))/8).toNat
      readCursorBit := newReadCursorBit.toNat }
  (if currentValue<d.modulus then currentValue else currentValue-d.modulus,d')

def readValues : ℕ → Decoder → List ℕ
  | 0, _ => []
  | n+1, d => d.readValue.1::readValues n d.readValue.2

end Decoder

structure Coder where
  packedBytes : Bytes
  numBytesNeeded : ℕ
  modulus : ℕ
  bitWidth : ℕ
  numElements : ℕ
  writeCursor : ℕ
  targetCursorValue : ℕ
  startingBitPosition : ℕ

namespace Coder

def writeBlock (bytes : Bytes) (cursor value : ℕ) : Checked Bytes :=
  if cursor+8≤bytes.length then
    .ok (bytes.take cursor++toLittleEndian 8 value++bytes.drop (cursor+8))
  else .error .outOfRange

def create (modulus bitWidth numElements : ℕ) : Coder :=
  let numBytesNeeded := divideRoundUp (u32 (numElements*bitWidth)) 8
  { packedBytes := List.replicate (numBytesNeeded+8) 0
    numBytesNeeded := numBytesNeeded
    modulus := modulus
    bitWidth := bitWidth
    numElements := numElements
    writeCursor := 0
    targetCursorValue := 0
    startingBitPosition := 0 }

def writeValue (c : Coder) (value : ℕ) : Checked Coder := do
  let targetCursorValue := c.targetCursorValue &&& (2^c.startingBitPosition-1) |||
    u64 (value <<< c.startingBitPosition)
  let packedBytes ← writeBlock c.packedBytes c.writeCursor targetCursorValue
  let advance := (c.startingBitPosition+c.bitWidth)/8
  let newStartingBitPosition := (c.startingBitPosition+c.bitWidth)%8
  -- the part of the value that did not fit the block
  let runtCursorValue :=
    if newStartingBitPosition≠0 then value >>> ((64-c.startingBitPosition) &&& 63) else 0
  return { c with
    packedBytes := packedBytes
    writeCursor := c.writeCursor+advance
    targetCursorValue :=
      if advance=8 then runtCursorValue else targetCursorValue >>> ((advance*8) &&& 63)
    startingBitPosition := newStartingBitPosition }

def createVector (c : Coder) : Checked SecAggVector := do
  let packedBytes ← writeBlock c.packedBytes c.writeCursor c.targetCursorValue
  ofPackedBytes (packedBytes.take c.numBytesNeeded) c.modulus c.numElements true

end Coder

def packUint64IntoByteStringBranchless : Checked Bytes := do
  let coder ← span.foldlM Coder.writeValue
    (Coder.create modulus (getBitWidth modulus) span.length)
  let vector ← coder.createVector
  return vector.packedBytes

def decode : List ℕ := (Decoder.create v.packedBytes v.modulus).readValues v.numElements

def getAsUint64Vector : Checked (List ℕ) :=
  if v.branchlessCodec then .ok v.decode
  else (List.range v.numElements).mapM (unpackUint64FromByteStringAt v.bitWidth v.packedBytes)

end SecAggVector

abbrev SecAggVectorMap := NameMap SecAggVector

def NameMap.atOrDie {α : Type} (m : NameMap α) (name : String) : Checked α :=
  match m.lookup name with
  | some v => .ok v
  | none => .error .outOfRange

structure SecAggUnpackedVector where
  elements : List ℕ
  modulus : ℕ
  deriving DecidableEq

namespace SecAggUnpackedVector

def add (v : SecAggUnpackedVector) (other : SecAggVector) : Checked SecAggUnpackedVector := do
  fcpCheck (decide (v.elements.length=other.numElements))
  fcpCheck (decide (v.modulus=other.modulus))
  return ⟨List.zipWith (fun a b => addModOpt a b v.modulus) v.elements other.decode,v.modulus⟩

def addUnpacked (a b : SecAggUnpackedVector) : Checked SecAggUnpackedVector :=
  if a.elements.length≤b.elements.length then
    .ok ⟨List.zipWith (fun x y => addModOpt x y a.modulus) a.elements b.elements,a.modulus⟩
  else .error .outOfRange

end SecAggUnpackedVector

abbrev SecAggUnpackedVectorMap := NameMap SecAggUnpackedVector

namespace SecAggUnpackedVectorMap

def add (m : SecAggUnpackedVectorMap) (other : SecAggVectorMap) :
    Checked SecAggUnpackedVectorMap := do
  fcpCheck (decide (m.items.length=other.items.length))
  let items ← m.items.mapM fun e => do
    match other.lookup e.1 with
    | none => .error .check
    | some v => return (e.1,← e.2.add v)
  return NameMap.ofEntries items

def addMaps (a b : SecAggUnpackedVectorMap) : Checked SecAggUnpackedVectorMap := do
  let items ← a.items.mapM fun e => do
    let v ← NameMap.atOrDie b e.1
    return (e.1,← e.2.addUnpacked v)
  return NameMap.ofEntries items

end SecAggUnpackedVectorMap

structure InputVectorSpecification where
  name : String
  length : ℕ
  modulus : ℕ
  length_valid : length<2^31
  modulus_valid : 1 < modulus ∧ modulus≤SecAggVector.kMaxModulus
  deriving DecidableEq

end Fcp.SecAgg

import Fcp.SecAgg.Shared.Crypto
import Fcp.SecAgg.Shared.SecAggVector

/-!
# Masks from keys (shared/map_of_masks.cc, shared/aes_ctr_prng.cc)

Each key and vector specification seed a key stream that is cut into masks. Rejection sampling, a
loop without a bound, carries fuel; running out of it is the fault `noReturn`.
-/

namespace Fcp.SecAgg

def kPrngSeedConstant : UInt8 := 0x02

def kMaxSampleBits : ℕ := 63

def kMaxSampleBitsExpansion : ℕ := 16

def nameBytes (name : String) : Bytes := name.toByteArray.data.toList

variable (c : Crypto) (modulus : ℕ) (fuel : ℕ) (prngKeysToAdd prngKeysToSubtract : List AesKey)
  (sessionId : Bytes) (spec : InputVectorSpecification)
  (inputVectorSpecs : List InputVectorSpecification)

def digestKeyInput (prngInput : Bytes) (bitWidth : ℕ) (prngKey : AesKey) : Bytes :=
  intToByteString bitWidth++prngKey++[kPrngSeedConstant] ++
    intToByteString prngInput.length++prngInput

def digestKey (prngInput : Bytes) (bitWidth : ℕ) (prngKey : AesKey) : AesKey :=
  c.sha256 (digestKeyInput prngInput bitWidth prngKey)

def chooseBetterSampleBits (modulus sampleBits1 sampleBits2 : ℕ) : Checked ℕ := do
  fcpCheck (decide (sampleBits1 ≤ sampleBits2))
  fcpCheck (decide (sampleBits2≤kMaxSampleBits))
  fcpCheck (decide (sampleBits2-sampleBits1≤kMaxSampleBitsExpansion))
  let sampleModulus1 := 2^sampleBits1
  fcpCheck (decide (modulus ≤ sampleModulus1))
  if sampleBits1=sampleBits2 then return sampleBits1
  else
    let sampleModulus2 := 2^sampleBits2
    let sampleModulus2Over1 := 2^(sampleBits2-sampleBits1)
    let costProduct1 := u64 (divideRoundUp sampleBits1 8*(sampleModulus1/modulus))
    let costProduct2 := u64 (u64 (divideRoundUp sampleBits2 8*(sampleModulus2/modulus)) *
      sampleModulus2Over1)
    return if costProduct1>costProduct2 then sampleBits2 else sampleBits1

def computeBestSampleBits : Checked ℕ :=
  let minSampleBits := bitWidth (modulus-1)
  let maxSampleBits := min kMaxSampleBitsExpansion (minSampleBits+kMaxSampleBitsExpansion)
  (List.range' (minSampleBits+1) (maxSampleBits-minSampleBits)).foldlM
    (chooseBetterSampleBits modulus) minSampleBits

def kBlockSize : ℕ := 16

def kCacheSize : ℕ := 3*5*7*kBlockSize

def kMaxBlocks : ℕ := 0xFFFFFFFF

structure PrngBuffer where
  stream : ℕ → UInt8
  msbMask : ℕ
  bytesPerOutput : ℕ

namespace PrngBuffer

def create (stream : ℕ → UInt8) (msbMask bytesPerOutput : ℕ) : Checked PrngBuffer := do
  fcpCheck (decide (kCacheSize%bytesPerOutput=0))
  return ⟨stream,msbMask,bytesPerOutput⟩

def appendBytes (b : PrngBuffer) (position output : ℕ) : ℕ → ℕ
  | 0 => output
  | n+1 =>
    appendBytes b (position+1) (u64 (output <<< 8) ||| (b.stream position).toNat) n

/-- `NextMask` at a position of the stream; a refill fails after too many blocks. -/
def nextMask (b : PrngBuffer) (position : ℕ) : Checked ℕ := do
  if position≠0 ∧ position%kCacheSize=0 then
    fcpCheck (decide (position/kBlockSize≤kMaxBlocks))
  return b.appendBytes (position+1) ((b.stream position).toNat &&& b.msbMask)
    (b.bytesPerOutput-1)

end PrngBuffer

def maskElements (op : ℕ → ℕ → ℕ → ℕ) (modulus : ℕ) (b : PrngBuffer) : ℕ → List ℕ → Checked (List ℕ)
  | _, [] => .ok []
  | position, v::rest => do
    let mask ← b.nextMask position
    let rest ← maskElements op modulus b (position+b.bytesPerOutput) rest
    return op v mask modulus::rest

def maskElementsRejecting (op : ℕ → ℕ → ℕ → ℕ) (modulus rejectionThreshold : ℕ)
    (b : PrngBuffer) : ℕ → ℕ → List ℕ → Checked (List ℕ)
  | _, _, [] => .ok []
  | 0, _, _::_ => .error .noReturn
  | fuel+1, position, v::rest => do
    let mask ← b.nextMask position
    if mask<rejectionThreshold then
      maskElementsRejecting op modulus rejectionThreshold b fuel (position+b.bytesPerOutput)
        (op v (0%modulus) modulus::rest)
    else
      let rest ← maskElementsRejecting op modulus rejectionThreshold b fuel
        (position+b.bytesPerOutput) rest
      return op v (mask%modulus) modulus::rest

def prngInput : Bytes :=
  sessionId++intToByteString (bitWidth (spec.modulus-1))++intToByteString spec.length ++
    nameBytes spec.name

def isPowerOfTwo : Bool := decide (2^bitWidth (modulus-1)=modulus)

def applyKey
    (sampleBits : ℕ) (op : ℕ → ℕ → ℕ → ℕ) (buffer : List ℕ) (prngKey : AesKey) :
    Checked (List ℕ) := do
  let bytesPerOutput := divideRoundUp sampleBits 8
  let bitsInMsb := sampleBits-(bytesPerOutput-1)*8
  let digest := digestKey c (prngInput sessionId spec) sampleBits prngKey
  let prng ← PrngBuffer.create (c.prngStream digest) (u8 (2^bitsInMsb-1)) bytesPerOutput
  if isPowerOfTwo spec.modulus then maskElements op spec.modulus prng 0 buffer
  else
    maskElementsRejecting op spec.modulus ((2^sampleBits-spec.modulus)%spec.modulus) prng
      fuel 0 buffer

def maskVector (addImpl subtractImpl : ℕ → ℕ → ℕ → ℕ)
    (prngKeysToAdd prngKeysToSubtract : List AesKey) (sessionId : Bytes)
    (spec : InputVectorSpecification) : Checked (List ℕ) := do
  let sampleBits ← if isPowerOfTwo spec.modulus then pure (bitWidth (spec.modulus-1))
    else computeBestSampleBits spec.modulus
  let buffer ← prngKeysToAdd.foldlM (applyKey c fuel sessionId spec sampleBits addImpl)
    (List.replicate spec.length 0)
  prngKeysToSubtract.foldlM (applyKey c fuel sessionId spec sampleBits subtractImpl) buffer

def mapOfMasksImpl {V : Type} (c : Crypto) (fuel : ℕ) (addImpl subtractImpl : ℕ → ℕ → ℕ → ℕ)
    (mk : List ℕ → ℕ → Checked V) (prngKeysToAdd prngKeysToSubtract : List AesKey)
    (inputVectorSpecs : List InputVectorSpecification) (sessionId : Bytes) :
    Checked (NameMap V) := do
  let items ← inputVectorSpecs.mapM fun spec => do
    let buffer ← maskVector c fuel addImpl subtractImpl prngKeysToAdd prngKeysToSubtract
      sessionId spec
    return (spec.name,← mk buffer spec.modulus)
  return NameMap.ofEntries items

def mapOfMasks (sessionId : Bytes) : Checked SecAggVectorMap :=
  mapOfMasksImpl c fuel addMod subtractMod SecAggVector.ofSpan prngKeysToAdd prngKeysToSubtract
    inputVectorSpecs sessionId

def mapOfMasksV3 (sessionId : Bytes) : Checked SecAggVectorMap :=
  mapOfMasksImpl c fuel addModOpt subtractModOpt SecAggVector.ofSpan prngKeysToAdd
    prngKeysToSubtract inputVectorSpecs sessionId

def addVectors (a b : SecAggVector) : Checked SecAggVector := do
  fcpCheck (decide (a.modulus=b.modulus) && decide (a.numElements=b.numElements))
  let sums := List.zipWith (fun x y => u64 (x+y)%a.modulus) a.decode b.decode
  let sumCoder ← sums.foldlM SecAggVector.Coder.writeValue
    (SecAggVector.Coder.create a.modulus a.bitWidth a.numElements)
  sumCoder.createVector

def addMaps (a b : SecAggVectorMap) : Checked SecAggVectorMap := do
  let items ← a.items.mapM fun e => do
    let v ← NameMap.atOrDie b e.1
    return (e.1,← addVectors e.2 v)
  return NameMap.ofEntries items

def unpackedMapOfMasks (sessionId : Bytes) : Checked SecAggUnpackedVectorMap :=
  mapOfMasksImpl c fuel addModOpt subtractModOpt (fun elements modulus => .ok ⟨elements,modulus⟩)
    prngKeysToAdd prngKeysToSubtract inputVectorSpecs sessionId

end Fcp.SecAgg

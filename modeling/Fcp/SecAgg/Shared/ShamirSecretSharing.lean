import Fcp.SecAgg.Shared.Math

/-!
# Shamir secret sharing (shared/shamir_secret_sharing.cc)

Secrets are cut into 31-bit subsecrets. The object caches modular inverses and the last Lagrange
coefficients; the caches are part of the state here too.
-/

namespace Fcp.SecAgg

def kPrime : ℕ := 2147483659

def kBitsPerSubsecret : ℕ := 31

def kSubsecretSize : ℕ := 4

abbrev ShamirShare := Bytes

structure ShamirSecretSharing where
  inverses : List ℕ
  lastLcInput : List ℕ
  lastLcOutput : List ℕ
  deriving DecidableEq

namespace ShamirSecretSharing

def create : ShamirSecretSharing := ⟨[],[],[]⟩

structure DivideState where
  parts : List ℕ
  current : ℕ
  bitsDone : ℕ

def orPart (parts : List ℕ) (current x : ℕ) : Checked (List ℕ) :=
  if current<parts.length then .ok (parts.modify current (fun p => p ||| u32 x))
  else .error .outOfRange

def divideByte (st : DivideState) (currentByte : ℕ) (isFirst : Bool) : Checked DivideState :=
  if kBitsPerSubsecret-st.bitsDone>8 then do
    let parts ← orPart st.parts st.current (currentByte <<< st.bitsDone)
    return ⟨parts,st.current,st.bitsDone+8⟩
  else do
    let currentByteRight := currentByte &&& (0xFF >>> (8-(kBitsPerSubsecret-st.bitsDone)))
    let parts ← orPart st.parts st.current (currentByteRight <<< st.bitsDone)
    -- exactly done: the iterator stays on the last element
    if isFirst && decide (st.bitsDone+8=kBitsPerSubsecret) then
      return ⟨parts,st.current,st.bitsDone⟩
    else do
      let bitsDone := (st.bitsDone+8)%kBitsPerSubsecret
      let parts ← orPart parts (st.current+1) (currentByte >>> (8-bitsDone))
      return ⟨parts,st.current+1,bitsDone⟩

def divideLoop : DivideState → Bytes → Checked DivideState
  | st, [] => .ok st
  | st, currentByte::rest => do
    let st ← divideByte st currentByte.toNat rest.isEmpty
    divideLoop st rest

def divideIntoSubsecrets (toShare : Bytes) : Checked (List ℕ) := do
  let size := divideRoundUp (u32 (u32 toShare.length*8)) kBitsPerSubsecret
  let st ← divideLoop ⟨List.replicate size 0,0,0⟩ toShare.reverse
  fcpCheck (decide (st.current+1=st.parts.length))
  return st.parts.reverse

def nextHighBits (rest : List ℕ) (bitsDone : ℕ) : ℕ :=
  match rest with
  | [] => 0
  | next::_ => u8 (next &&& (0xFF >>> (kBitsPerSubsecret-bitsDone)))

/-- The loop of `RebuildFromSubsecrets`, over the subsecrets from `crbegin`; the bytes come
last one first and those that are never reached stay zero. -/
def rebuildLoop : List ℕ → ℕ → ℕ → Bytes
  | _, _, 0 => []
  | [], _, i+1 => List.replicate (i+1) 0
  | subsecret::rest, bitsDone, i+1 =>
    if kBitsPerSubsecret-bitsDone>8 then
      UInt8.ofNat (subsecret >>> bitsDone &&& 0xFF) ::
        rebuildLoop (subsecret::rest) (bitsDone+8) i
    else
      let nextLowBits := u8 (subsecret >>> bitsDone)
      let bitsDone' := (bitsDone+8)%kBitsPerSubsecret
      UInt8.ofNat (u8 (nextHighBits rest bitsDone <<< (8-bitsDone')) ||| nextLowBits) ::
        rebuildLoop rest bitsDone' i

def rebuildFromSubsecrets (secretParts : List ℕ) (secretLength : ℕ) : Bytes :=
  (rebuildLoop secretParts.reverse 0 secretLength).reverse

def evaluatePolynomial (polynomial : List ℕ) (x : ℕ) : ℕ :=
  let sum := polynomial.tail.foldr (fun c sum => u64 (u64 (sum+c)*x)%kPrime) 0
  u32 (u64 (sum+polynomial.headD 0)%kPrime)

def polynomialOf (threshold subsecret : ℕ) (random : ℕ → Fin kPrime) : List ℕ :=
  subsecret::(List.range (threshold-1)).map fun k => (random k : ℕ)

def appendSubshares (shares : List ShamirShare) (coefficients : List ℕ) : List ShamirShare :=
  shares.zipIdx.map fun p => p.1++intToByteString (evaluatePolynomial coefficients (p.2+1))

def share (threshold numShares : ℕ) (toShare : Bytes) (random : ℕ → ℕ → Fin kPrime) :
    Checked (List ShamirShare) := do
  fcpCheck (!toShare.isEmpty)
  fcpCheck (decide (numShares>1))
  fcpCheck (decide (2≤threshold ∧ threshold≤numShares))
  let subsecrets ← divideIntoSubsecrets toShare
  return subsecrets.zipIdx.foldl
    (fun shares p => appendSubshares shares (polynomialOf threshold p.1 (random p.2)))
    (List.replicate numShares [])

def modPowAux : ℕ → ℕ → ℕ → ℕ
  | 0, _, _ => 1
  | fuel+1, x, y =>
    if y=0 then 1
    else
      let p := modPowAux fuel x (y/2)%kPrime
      let q := multiplyMod p p kPrime
      if y &&& 1=0 then q else multiplyMod x q kPrime

def modPow (x y : ℕ) : ℕ := modPowAux 32 x y

def extendInverses (inverses : List ℕ) : ℕ → List ℕ
  | 0 => inverses
  | count+1 =>
    extendInverses (inverses++[modPow (inverses.length+1) (kPrime-2)]) count

def modInverse (o : ShamirSecretSharing) (n : ℕ) : Checked (ShamirSecretSharing × ℕ) := do
  fcpCheck (decide (n>0 ∧ n<kPrime))
  let inverses := extendInverses o.inverses (n-o.inverses.length)
  return (⟨inverses,o.lastLcInput,o.lastLcOutput⟩,inverses.getD (n-1) 0)

def lagrangeStep (o : ShamirSecretSharing) (acc xi xj : ℕ) : Checked (ShamirSecretSharing × ℕ) := do
  let acc := multiplyMod acc xj kPrime
  if xj>xi then
    let (o,inverse) ← o.modInverse (xj-xi)
    return (o,multiplyMod acc inverse kPrime)
  else
    -- factor out -1
    let acc := multiplyMod acc (kPrime-1) kPrime
    let (o,inverse) ← o.modInverse (xi-xj)
    return (o,multiplyMod acc inverse kPrime)

def lagrangeRow (xValues : List ℕ) (i : ℕ) :
    ShamirSecretSharing → ℕ → List ℕ → Checked (ShamirSecretSharing × ℕ)
  | o, acc, [] => .ok (o,acc)
  | o, acc, j::js =>
    if i=j then lagrangeRow xValues i o acc js
    else do
      let (o,acc) ← o.lagrangeStep acc (xValues.getD i 0) (xValues.getD j 0)
      lagrangeRow xValues i o acc js

def lagrangeRows (xValues : List ℕ) :
    ShamirSecretSharing → List ℕ → List ℕ → Checked (ShamirSecretSharing × List ℕ)
  | o, output, [] => .ok (o,output)
  | o, output, i::is => do
    let (o,c) ← lagrangeRow xValues i o 1 (List.range xValues.length)
    lagrangeRows xValues o (output++[c]) is

def lagrangeCoefficients (o : ShamirSecretSharing) (xValues : List ℕ) :
    Checked (ShamirSecretSharing × List ℕ) := do
  fcpCheck (decide (xValues.length>1))
  fcpCheck (xValues.all fun x => decide (x>0))
  if xValues=o.lastLcInput then
    return (o,o.lastLcOutput)
  else
    let (o,output) ← lagrangeRows xValues o [] (List.range xValues.length)
    return (⟨o.inverses,xValues,output⟩,output)

def maxNumSubsecrets (secretLength : ℕ) : Checked ℕ := do
  let sum ← toInt (8*secretLength+kBitsPerSubsecret)
  return (sum-1)/kBitsPerSubsecret

def checkShare (share : ShamirShare) (numSubsecrets maxNumSubsecrets : ℕ) : Checked ℕ := do
  fcpCheck (decide (share.length%kSubsecretSize=0))
  if numSubsecrets=0 then
    let numSubsecrets := share.length/kSubsecretSize
    fcpCheck (decide (numSubsecrets>0 ∧ numSubsecrets ≤ maxNumSubsecrets))
    return numSubsecrets
  else
    fcpCheck (decide (share.length=numSubsecrets*kSubsecretSize))
    return numSubsecrets

def collectShares (threshold maxNumSubsecrets : ℕ) :
    List ShamirShare → ℕ → List ℕ → ℕ → Checked (List ℕ × ℕ)
  | [], _, xValues, numSubsecrets => .ok (xValues,numSubsecrets)
  | share::rest, i, xValues, numSubsecrets =>
    if xValues.length<threshold then
      if share.isEmpty then
        collectShares threshold maxNumSubsecrets rest (i+1) xValues numSubsecrets
      else do
        let numSubsecrets ← checkShare share numSubsecrets maxNumSubsecrets
        collectShares threshold maxNumSubsecrets rest (i+1) (xValues++[i+1]) numSubsecrets
    else .ok (xValues,numSubsecrets)

def subshare (share : ShamirShare) (i : ℕ) : ℕ :=
  ((share.drop (kSubsecretSize*i)).take kSubsecretSize).foldl
    (fun acc b => u32 (u32 (acc <<< 8)+b.toNat)) 0

def reconstructSubsecret (shares : List ShamirShare) (xValues coefficients : List ℕ) (i : ℕ) : ℕ :=
  (xValues.zip coefficients).foldl
    (fun acc p =>
      u32 (acc+multiplyMod (subshare (shares.getD (p.1-1) []) i) p.2 kPrime)%kPrime) 0

def reconstruct (o : ShamirSecretSharing) (threshold : ℕ) (shares : List ShamirShare)
    (secretLength : ℕ) : Checked (ShamirSecretSharing × StatusOr Bytes) := do
  fcpCheck (decide (threshold>1))
  fcpCheck (decide (secretLength>0))
  fcpCheck (decide (shares.length≥threshold))
  let maxNum ← maxNumSubsecrets secretLength
  let (xValues,numSubsecrets) ← collectShares threshold maxNum shares 0 [] 0
  if xValues.length<threshold then
    return (o,.error ⟨.failedPrecondition,"Only "++toString xValues.length ++
      " valid shares were provided, but threshold was specified as "++toString threshold⟩)
  else
    let (o,coefficients) ← o.lagrangeCoefficients xValues
    let subsecrets := (List.range numSubsecrets).map
      (reconstructSubsecret shares xValues coefficients)
    return (o,.ok (rebuildFromSubsecrets subsecrets secretLength))

end ShamirSecretSharing
end Fcp.SecAgg

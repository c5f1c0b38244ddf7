import Fcp.Lib.NameMap
import Fcp.SecAgg.Shared.ShamirSecretSharing

/-!
# Messages, keys and cryptographic primitives

A `oneof` of shared/secagg_messages.proto is an inductive type with a constructor for "not set";
logging ids and `extra_data` are left out. `CreateFromShares` (shared/aes_key.cc) guesses the length
of the key from the first share that is present. The primitives are the parameter `Crypto`, whose
results have the lengths of the source's buffers; `Crypto.Correct` states what is expected beyond
that. The wrappers (shared/ecdh_key_agreement.cc, shared/aes_gcm_encryption.cc) are modelled.
-/

namespace Fcp.SecAgg

structure PairOfPublicKeys where
  noisePk : Bytes
  encPk : Bytes
  deriving DecidableEq

structure PairOfKeyShares where
  noiseSkShare : Bytes
  prfSkShare : Bytes
  deriving DecidableEq

inductive NoiseOrPrfKeyShare where
  | notSet
  | noiseSkShare (data : Bytes)
  | prfSkShare (data : Bytes)
  deriving DecidableEq

structure ShareKeysRequest where
  pairsOfPublicKeys : List PairOfPublicKeys
  sessionId : Bytes
  deriving DecidableEq

inductive ClientToServerWrapperMessage where
  | notSet
  | abort (diagnosticInfo : String)
  | advertiseKeys (pairOfPublicKeys : PairOfPublicKeys)
  | shareKeysResponse (encryptedKeyShares : List Bytes)
  | maskedInputResponse (vectors : NameMap Bytes)
  | unmaskingResponse (noiseOrPrfKeyShares : List NoiseOrPrfKeyShare)
  deriving DecidableEq

inductive ServerToClientWrapperMessage where
  | notSet
  | abort (diagnosticInfo : String) (earlySuccess : Bool)
  | shareKeysRequest (request : ShareKeysRequest)
  | maskedInputRequest (encryptedKeyShares : List Bytes)
  | unmaskingRequest (dead3ClientIds : List UInt32)
  deriving DecidableEq

abbrev AesKey := Bytes

namespace AesKey

def kSize : ℕ := 32

def kLegacyKeySize : ℕ := 17

def create (data : Bytes) : Checked AesKey := do
  fcpCheck (decide ((data.length>0 ∧ data.length≤17) ∨ data.length=32))
  return data

def keyLength : List ShamirShare → Checked ℕ
  | [] => .ok 0
  | share::rest =>
    if share.length=36 then .ok kSize
    else if share.length=20 then .ok kLegacyKeySize
    else do
      fcpCheck share.isEmpty
      keyLength rest

def stripLegacyKey : Bytes → Bytes
  | b::c::rest => if b=0 ∧ c≤127 then stripLegacyKey (c::rest) else b::c::rest
  | key => key

def createFromShares (shares : List ShamirShare) (threshold : ℕ) : Checked (StatusOr AesKey) := do
  let keyLength ← keyLength shares
  fcpCheck (decide (keyLength≠0))
  let (_,reconstructed) ← ShamirSecretSharing.create.reconstruct threshold shares keyLength
  match reconstructed with
  | .error status => return .error status
  | .ok reconstructed =>
    let key ← create (if keyLength=kLegacyKeySize then stripLegacyKey reconstructed
      else reconstructed)
    return .ok key

end AesKey

namespace EcdhPrivateKey

def kSize : ℕ := 32

end EcdhPrivateKey

namespace EcdhPublicKey

def kSize : ℕ := 33

def kUncompressedSize : ℕ := 65

end EcdhPublicKey

def kSha256Length : ℕ := 32

structure Crypto where
  sha256 : Bytes → Bytes
  prngStream : AesKey → ℕ → UInt8
  publicKey : Bytes → Bytes
  validPrivateKey : Bytes → Bool
  sharedSecret : Bytes → Bytes → Option Bytes
  aeadSeal : AesKey → Bytes → Bytes → Bytes
  aeadOpen : AesKey → Bytes → Bytes → Option Bytes
  serialize : PairOfKeyShares → Bytes
  parse : Bytes → Option PairOfKeyShares
  length_sha256 : ∀ input,(sha256 input).length=kSha256Length
  length_publicKey : ∀ key,(publicKey key).length=EcdhPublicKey.kSize
  length_sharedSecret : ∀ key other secret,sharedSecret key other=some secret →
    secret.length=AesKey.kSize

/-- A toy instance: nothing is secret, but every equation holds. -/
def Crypto.toy : Crypto where
  sha256 _ := List.replicate 32 0
  prngStream key i := key.getD (i%32) 0+UInt8.ofNat i
  publicKey key := (key++List.replicate 33 0).take 33
  validPrivateKey _ := true
  sharedSecret key other := some ((List.range 32).map fun i => key.getD i 0+other.getD i 0)
  aeadSeal _ _ plaintext := plaintext++List.replicate 16 0
  aeadOpen _ _ ciphertext := some (ciphertext.take (ciphertext.length-16))
  serialize pair :=
    List.replicate pair.noiseSkShare.length 1++0::(pair.noiseSkShare++pair.prfSkShare)
  parse bytes :=
    let size := (bytes.takeWhile (·=1)).length
    some ⟨(bytes.drop (size+1)).take size,(bytes.drop (size+1)).drop size⟩
  length_sha256 _ := List.length_replicate
  length_publicKey key := by simp [EcdhPublicKey.kSize]
  length_sharedSecret key other secret h := by
    cases h
    simp [AesKey.kSize]

abbrev EcdhKeyAgreement := Bytes

namespace EcdhKeyAgreement

def createFromPrivateKey (c : Crypto) (privateKey : Bytes) : StatusOr EcdhKeyAgreement :=
  if privateKey.length≠EcdhPrivateKey.kSize then
    .error ⟨.invalidArgument,"Private key must be of length 32"⟩
  else if c.validPrivateKey privateKey then .ok privateKey
  else .error ⟨.invalidArgument,"Invalid private key."⟩

def computeSharedSecret (c : Crypto) (key : EcdhKeyAgreement) (otherKey : Bytes) :
    StatusOr AesKey :=
  if otherKey.length≠EcdhPublicKey.kSize ∧ otherKey.length≠EcdhPublicKey.kUncompressedSize then
    .error ⟨.invalidArgument,"Public key must be of length 33 or 65"⟩
  else
    match c.sharedSecret key otherKey with
    | none => .error ⟨.invalidArgument,"Invalid ECDH public key."⟩
    | some secret => .ok secret

end EcdhKeyAgreement

namespace AesGcmEncryption

def kIvSize : ℕ := 12

def kTagSize : ℕ := 16

def encrypt (c : Crypto) (key : AesKey) (iv plaintext : Bytes) : Checked Bytes := do
  fcpCheck (decide (key.length=AesKey.kSize))
  return iv++c.aeadSeal key iv plaintext

def decrypt (c : Crypto) (key : AesKey) (ciphertext : Bytes) : Checked (StatusOr Bytes) := do
  fcpCheck (decide (key.length=AesKey.kSize))
  if ciphertext.length<kIvSize+kTagSize then
    return .error ⟨.dataLoss,"Ciphertext is too short."⟩
  else
    match c.aeadOpen key (ciphertext.take kIvSize) (ciphertext.drop kIvSize) with
    | none => return .error ⟨.dataLoss,"Verification of ciphertext failed."⟩
    | some plaintext => return .ok plaintext

end AesGcmEncryption
end Fcp.SecAgg

import Fcp.SecAgg.Shared.MapOfMasks

/-!
# States of a client (client/secagg_client_state.cc and its subclasses)

The `InputNotSet` and `InputSet` classes of a round are one constructor, with the input as an
option. Logging and the transition listener are left out.
-/

namespace Fcp.SecAgg

inductive OtherClientState where
  | alive
  | deadAtRound1
  | deadAtRound2
  | deadAtRound3
  deriving DecidableEq

structure ClientEnv where
  crypto : Crypto
  maxNeighborsExpected : ℕ
  minimumSurvivingNeighborsForReconstruction : ℕ
  inputVectorSpecs : List InputVectorSpecification
  encPrivateKey : Bytes
  prngPrivateKey : Bytes
  selfPrngKey : AesKey
  pairwiseCoefficients : ℕ → ℕ → Fin kPrime
  selfCoefficients : ℕ → ℕ → Fin kPrime
  iv : ℕ → Bytes
  maxNeighborsExpected_lt : maxNeighborsExpected<2^32
  encPrivateKey_valid : encPrivateKey.length=EcdhPrivateKey.kSize ∧
    crypto.validPrivateKey encPrivateKey=true
  prngPrivateKey_valid : prngPrivateKey.length=EcdhPrivateKey.kSize ∧
    crypto.validPrivateKey prngPrivateKey=true
  length_selfPrngKey : selfPrngKey.length=AesKey.kSize
  length_iv : ∀ i,(iv i).length=AesGcmEncryption.kIvSize

namespace ClientEnv

def toy (seed : UInt8) (inputVectorSpecs : List InputVectorSpecification) : ClientEnv where
  crypto := Crypto.toy
  maxNeighborsExpected := 3
  minimumSurvivingNeighborsForReconstruction := 2
  inputVectorSpecs := inputVectorSpecs
  encPrivateKey := List.replicate 32 seed
  prngPrivateKey := List.replicate 32 (seed+64)
  selfPrngKey := List.replicate 32 (seed+128)
  pairwiseCoefficients _ _ := ⟨1,by decide⟩
  selfCoefficients _ _ := ⟨1,by decide⟩
  iv _ := List.replicate 12 0
  maxNeighborsExpected_lt := by decide
  encPrivateKey_valid := ⟨rfl,rfl⟩
  prngPrivateKey_valid := ⟨rfl,rfl⟩
  length_selfPrngKey := rfl
  length_iv _ := rfl

def encPublicKey (env : ClientEnv) : Bytes := env.crypto.publicKey env.encPrivateKey

def prngPublicKey (env : ClientEnv) : Bytes := env.crypto.publicKey env.prngPrivateKey

end ClientEnv

structure KeysReceived where
  clientId : ℕ
  numberOfAliveNeighbors : ℕ
  numberOfNeighbors : ℕ
  otherClientStates : List OtherClientState
  otherClientEncKeys : List AesKey
  otherClientPrngKeys : List AesKey
  ownSelfKeyShare : ShamirShare
  sessionId : Bytes
  deriving DecidableEq

/-- The fields of the round 3 state, which the state that waits for an input has too. -/
structure SharesReceived where
  clientId : ℕ
  numberOfAliveNeighbors : ℕ
  numberOfNeighbors : ℕ
  otherClientStates : List OtherClientState
  pairwiseKeyShares : List ShamirShare
  selfKeyShares : List ShamirShare
  deriving DecidableEq

inductive ClientState where
  | r0AdvertiseKeys (inputMap : Option SecAggVectorMap)
  | r1ShareKeys (inputMap : Option SecAggVectorMap)
  | r2MaskedInputColl (keys : KeysReceived) (inputMap : Option SecAggVectorMap)
  | r2WaitingForInput (shares : SharesReceived) (mapOfMasks : SecAggVectorMap)
  | r3Unmasking (shares : SharesReceived)
  | completed
  | aborted (reason : String)

namespace ClientState

def stateName : ClientState → String
  | .r0AdvertiseKeys none => "R0_ADVERTISE_KEYS_INPUT_NOT_SET"
  | .r0AdvertiseKeys (some _) => "R0_ADVERTISE_KEYS_INPUT_SET"
  | .r1ShareKeys none => "R1_SHARE_KEYS_INPUT_NOT_SET"
  | .r1ShareKeys (some _) => "R1_SHARE_KEYS_INPUT_SET"
  | .r2MaskedInputColl _ none => "R2_MASKED_INPUT_COLL_INPUT_NOT_SET"
  | .r2MaskedInputColl _ (some _) => "R2_MASKED_INPUT_COLL_INPUT_SET"
  | .r2WaitingForInput _ _ => "R2_MASKED_INPUT_COLL_WAITING_FOR_INPUT"
  | .r3Unmasking _ => "R3_UNMASKING"
  | .completed => "COMPLETED"
  | .aborted _ => "ABORTED"

def isAborted : ClientState → Bool
  | .aborted _ => true
  | _ => false

def isCompletedSuccessfully : ClientState → Bool
  | .completed => true
  | _ => false

end ClientState

def validateInput (inputMap : SecAggVectorMap)
    (inputVectorSpecs : List InputVectorSpecification) : Bool :=
  decide (inputMap.items.length=inputVectorSpecs.length) && inputVectorSpecs.all fun spec =>
      match inputMap.lookup spec.name with
      | none => false
      | some v => decide (v.modulus=spec.modulus ∧ v.numElements=spec.length)

/-- Why a handler does not return: the process ends, or the client aborts the session. -/
inductive Failure where
  | fault (fault : Fault)
  | abort (reason : String)

abbrev Attempt := Except Failure

def attempt {α : Type} : Checked α → Attempt α
  | .ok a => .ok a
  | .error fault => .error (.fault fault)

theorem attempt_eq_ok {α : Type} {x : Checked α} {a : α} : attempt x=.ok a ↔ x=.ok a := by
  cases x <;> simp [attempt]

def abortIf (condition : Bool) (reason : String) : Attempt Unit :=
  if condition then .error (.abort reason) else .ok ()

theorem abortIf_eq_ok {condition : Bool} {reason : String} {u : Unit} :
    abortIf condition reason=.ok u ↔ condition=false := by
  cases condition <;> simp [abortIf]

structure AsyncAbort where
  message : String
  signalledFrom : Option ℕ

namespace AsyncAbort

def signalled (a : AsyncAbort) (check : ℕ) : Bool :=
  match a.signalledFrom with
  | none => false
  | some first => decide (first≤check)

def poll (a : AsyncAbort) (check : ℕ) : Attempt Unit := abortIf (a.signalled check) a.message

end AsyncAbort
end Fcp.SecAgg

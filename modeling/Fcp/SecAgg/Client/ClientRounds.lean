import Fcp.SecAgg.Client.ClientState

/-!
# What a client does with a request (client/secagg_client_r1_share_keys_base_state.cc,
client/secagg_client_r2_masked_input_coll_base_state.cc, client/secagg_client_r3_unmasking_state.cc)

Each iteration of a loop returns one record, and the counter of the neighbors that are alive runs
over the list of records afterwards.
-/

namespace Fcp.SecAgg

def decrement (count : ℕ) : ℕ := u32 (count+(2^32-1))

def countDown {α : Type} (test : α → Bool) (count : ℕ) (l : List α) : ℕ :=
  l.foldl (fun count a => if test a then decrement count else count) count

structure NeighborKeys where
  state : OtherClientState
  encKey : AesKey
  prngKey : AesKey
  isSelf : Bool
  deriving DecidableEq

variable (env : ClientEnv) (asyncAbort : AsyncAbort) (shares : SharesReceived)

def readPublicKeys (keys : PairOfPublicKeys) : Attempt NeighborKeys :=
  if keys.encPk.isEmpty || keys.noisePk.isEmpty then .ok ⟨.deadAtRound1,[],[],false⟩
  else if keys.encPk.length≠EcdhPublicKey.kSize ∨ keys.noisePk.length≠EcdhPublicKey.kSize then
    .error (.abort "Invalid public key in request from server.")
  else if keys.encPk=env.encPublicKey ∧ keys.noisePk=env.prngPublicKey then
    .ok ⟨.alive,[],[],true⟩
  else
    match EcdhKeyAgreement.computeSharedSecret env.crypto env.encPrivateKey keys.encPk,
      EcdhKeyAgreement.computeSharedSecret env.crypto env.prngPrivateKey keys.noisePk with
    | .ok encKey, .ok prngKey => .ok ⟨.alive,encKey,prngKey,false⟩
    | _, _ => .error (.abort "Invalid public key in request from server.")

def readAllPublicKeys (env : ClientEnv) (asyncAbort : AsyncAbort) :
    ℕ → Bool → List PairOfPublicKeys → Attempt (List NeighborKeys)
  | _, _, [] => .ok []
  | i, clientIdSet, keys::rest => do
    asyncAbort.poll i
    let neighbor ← readPublicKeys env keys
    abortIf (neighbor.isSelf && clientIdSet)
      "Found this client's keys in the ShareKeysRequest twice somehow."
    let neighbors ← readAllPublicKeys env asyncAbort (i+1) (neighbor.isSelf || clientIdSet) rest
    return neighbor::neighbors

def handleShareKeysRequest
    (request : ShareKeysRequest) :
    Attempt (KeysReceived × List ShamirShare × List ShamirShare) := do
  let numberOfClients := request.pairsOfPublicKeys.length
  let minimum := env.minimumSurvivingNeighborsForReconstruction
  abortIf (decide (numberOfClients < minimum))
    "The ShareKeysRequest received does not contain enough participants."
  abortIf (decide (numberOfClients>env.maxNeighborsExpected))
    "The ShareKeysRequest received contains too many participants."
  let pairwiseShares ← attempt (ShamirSecretSharing.share minimum numberOfClients
    env.prngPrivateKey env.pairwiseCoefficients)
  let selfShares ← attempt (ShamirSecretSharing.share minimum numberOfClients env.selfPrngKey
    env.selfCoefficients)
  abortIf (decide (request.sessionId.length≠kSha256Length))
    "Session ID is absent in ShareKeysRequest or has an unexpected length."
  let neighbors ← readAllPublicKeys env asyncAbort 0 false request.pairsOfPublicKeys
  let numberOfAlive :=
    countDown (fun neighbor => neighbor.state=.deadAtRound1) numberOfClients neighbors
  abortIf (decide (numberOfAlive < minimum))
    "There are not enough clients to complete this protocol session. Aborting."
  match neighbors.findIdx? fun neighbor => neighbor.isSelf with
  | none =>
    .error (.abort
      "The ShareKeysRequest sent by the server doesn't contain this client's public keys.")
  | some clientId => do
    let ownSelfKeyShare ← attempt (elementAt selfShares clientId)
    return (⟨clientId,numberOfAlive,numberOfClients,neighbors.map NeighborKeys.state,
      neighbors.map NeighborKeys.encKey,neighbors.map NeighborKeys.prngKey,ownSelfKeyShare,
      request.sessionId⟩,pairwiseShares,selfShares)

def encryptKeyShare (pairwiseShares selfShares : List ShamirShare)
    (encKey : AesKey) (i : ℕ) : Checked Bytes :=
  if encKey.isEmpty then .ok []
  else do
    let noiseSkShare ← elementAt pairwiseShares i
    let prfSkShare ← elementAt selfShares i
    AesGcmEncryption.encrypt env.crypto encKey (env.iv i)
      (env.crypto.serialize ⟨noiseSkShare,prfSkShare⟩)

def encryptKeyShares (firstCheck : ℕ)
    (otherClientEncKeys : List AesKey) (pairwiseShares selfShares : List ShamirShare) :
    Attempt (List Bytes) :=
  otherClientEncKeys.zipIdx.mapM fun p => do
    asyncAbort.poll (firstCheck+p.2)
    attempt (encryptKeyShare env pairwiseShares selfShares p.1 p.2)

/-- The state with an input set checks the signal once more than the one without. -/
def r1HandleShareKeysRequest
    (inputMap : Option SecAggVectorMap) (request : ShareKeysRequest) :
    Attempt (KeysReceived × List Bytes) := do
  let (keys,pairwiseShares,selfShares) ← handleShareKeysRequest env asyncAbort request
  abortIf (inputMap.isSome && asyncAbort.signalled keys.numberOfNeighbors) asyncAbort.message
  let encryptedKeyShares ← encryptKeyShares env asyncAbort (keys.numberOfNeighbors+1)
    keys.otherClientEncKeys pairwiseShares selfShares
  return (keys,encryptedKeyShares)

structure NeighborShares where
  state : OtherClientState
  pairwiseKeyShare : ShamirShare
  selfKeyShare : ShamirShare
  deriving DecidableEq

def decryptKeyShares (key : AesKey) (encrypted : Bytes) : Attempt PairOfKeyShares := do
  match ← attempt (AesGcmEncryption.decrypt env.crypto key encrypted) with
  | .error _ => .error (.abort "Authentication of encrypted data failed.")
  | .ok plaintext =>
    match env.crypto.parse plaintext with
    | none => .error (.abort "Unable to parse decrypted pair of key shares.")
    | some pair => return pair

def readKeyShares (keys : KeysReceived) (encryptedKeyShares : List Bytes)
    (i : ℕ) : Attempt NeighborShares := do
  let state ← attempt (elementAt keys.otherClientStates i)
  let encrypted ← attempt (elementAt encryptedKeyShares i)
  if i=keys.clientId then return ⟨state,[],keys.ownSelfKeyShare⟩
  else if state≠.alive then
    abortIf (!encrypted.isEmpty) "Received encrypted key shares from an aborted client."
    return ⟨state,[],[]⟩
  else if encrypted.isEmpty then return ⟨.deadAtRound2,[],[]⟩
  else
    let key ← attempt (elementAt keys.otherClientEncKeys i)
    let pair ← decryptKeyShares env key encrypted
    return ⟨.alive,pair.noiseSkShare,pair.prfSkShare⟩

def aliveKeys (test : ℕ → Bool) (states : List OtherClientState) (prngKeys : List AesKey) :
    List AesKey :=
  ((states.zip prngKeys).zipIdx.filter fun p => p.1.1=.alive ∧ test p.2).map fun p => p.1.2

def handleMaskedInputCollectionRequest (fuel : ℕ)
    (keys : KeysReceived) (encryptedKeyShares : List Bytes) :
    Attempt (SharesReceived × SecAggVectorMap) := do
  abortIf (decide (encryptedKeyShares.length≠keys.numberOfNeighbors))
    "The number of encrypted shares sent by the server does not match the number of clients."
  let neighbors ← (List.range keys.numberOfNeighbors).mapM fun i => do
    asyncAbort.poll i
    readKeyShares env keys encryptedKeyShares i
  -- only this loop sets `kDeadAtRound2`, so these are the decrements it makes
  let numberOfAlive := countDown (fun neighbor => neighbor.state=.deadAtRound2)
    keys.numberOfAliveNeighbors neighbors
  abortIf (decide (numberOfAlive<env.minimumSurvivingNeighborsForReconstruction))
    "There are not enough clients to complete this protocol session. Aborting."
  let states := neighbors.map NeighborShares.state
  let prngKeysToAdd := env.selfPrngKey ::
    aliveKeys (fun i => decide (i<keys.clientId)) states keys.otherClientPrngKeys
  let prngKeysToSubtract :=
    aliveKeys (fun i => decide (keys.clientId < i)) states keys.otherClientPrngKeys
  asyncAbort.poll keys.numberOfNeighbors
  let mapOfMasks ← attempt (mapOfMasks env.crypto fuel prngKeysToAdd prngKeysToSubtract
    env.inputVectorSpecs keys.sessionId)
  return (⟨keys.clientId,numberOfAlive,keys.numberOfNeighbors,states,
    neighbors.map NeighborShares.pairwiseKeyShare,neighbors.map NeighborShares.selfKeyShare⟩,
    mapOfMasks)

def addSecAggVectors (v1 v2 : SecAggVector) : Checked SecAggVector := do
  fcpCheck (decide (v1.modulus=v2.modulus))
  let vec1 ← v1.getAsUint64Vector
  let vec2 ← v2.getAsUint64Vector
  fcpCheck (decide (vec1.length=vec2.length))
  SecAggVector.ofSpan (List.zipWith (fun a b => u64 (a+b)%v1.modulus) vec1 vec2) v1.modulus

/-- The message of `SendMaskedInput`. The field of the response is created by the loop, so
without input vectors no content is set. -/
def maskedInputMessage (inputMap mapOfMasks : SecAggVectorMap) :
    Checked ClientToServerWrapperMessage := do
  let vectors ← inputMap.items.mapM fun e => do
    match mapOfMasks.lookup e.1 with
    | none => .error .check
    | some mask =>
      let sum ← addSecAggVectors e.2 mask
      return (e.1,sum.packedBytes)
  return if vectors.isEmpty then .notSet else .maskedInputResponse (NameMap.ofEntries vectors)

def markDead (clientId numberOfNeighbors : ℕ) :
    List OtherClientState → List UInt32 → Attempt (List OtherClientState)
  | states, [] => .ok states
  | states, i::rest =>
    let id := (i-1).toNat
    if id=clientId then
      .error (.abort ("The received UnmaskingRequest states this client has aborted, but this " ++
        "client had not yet aborted."))
    else if id≥numberOfNeighbors then
      .error (.abort ("The received UnmaskingRequest contains a client id that does not " ++
        "correspond to any client."))
    else
      match states[id]? with
      | none => .error (.fault .outOfRange)
      | some .alive => markDead clientId numberOfNeighbors (states.set id .deadAtRound3) rest
      | some .deadAtRound3 =>
        .error (.abort
          "The received UnmaskingRequest repeated a client more than once as a dead client.")
      | some _ =>
        .error (.abort ("The received UnmaskingRequest considers a client dead in round 3 that " ++
          "was already considered dead."))

def chooseShare (states : List OtherClientState) (i : ℕ) : Checked NoiseOrPrfKeyShare := do
  match ← elementAt states i with
  | .alive => return .prfSkShare (← elementAt shares.selfKeyShares i)
  | .deadAtRound3 => return .noiseSkShare (← elementAt shares.pairwiseKeyShares i)
  | _ => return .notSet

def handleUnmaskingRequest
    (dead3ClientIds : List UInt32) : Attempt (List NoiseOrPrfKeyShare) := do
  asyncAbort.poll 0
  let states ← markDead shares.clientId shares.numberOfNeighbors shares.otherClientStates
    dead3ClientIds
  -- the loop has counted down once for each id it did not abort at
  let numberOfAlive := countDown (fun _ => true) shares.numberOfAliveNeighbors dead3ClientIds
  abortIf (decide (numberOfAlive<env.minimumSurvivingNeighborsForReconstruction))
    "Not enough clients survived. The server should not have sent this UnmaskingRequest."
  (List.range shares.numberOfNeighbors).mapM fun i => do
    asyncAbort.poll (i+1)
    attempt (chooseShare shares states i)

end Fcp.SecAgg

import Fcp.SecAgg.Server.ProtocolImpl

/-!
# From share tables to masks
(`HandleShamirReconstruction`, `InitializePrng` and `StartPrng`)

After round 3 the server rebuilds the private keys of the clients that died in round 2 and the self
keys of those whose input is in the sum, and turns them into lists of keys, in batches.
-/

namespace Fcp.SecAgg.ProtocolImpl
variable {G : SharingGraph}

abbrev ClientMap (G : SharingGraph) (α : Type) := G.ClientId → Option α

structure ShamirReconstructionResult (G : SharingGraph) where
  abortedClientKeyAgreements : ClientMap G EcdhKeyAgreement
  selfKeys : ClientMap G AesKey

def presentKeys {α : Type} (table : ClientMap G α) : List G.ClientId :=
  (List.finRange G.numNodes).filter fun i => (table i).isSome

def reconstructPairwiseKeys (env : ServerEnv G) (table : SharesTable G) :
    ShamirSecretSharing → ClientMap G EcdhKeyAgreement → List G.ClientId →
      Checked (StatusOr (ClientMap G EcdhKeyAgreement))
  | _, keys, [] => .ok (.ok keys)
  | reconstructor, keys, i::rest => do
    let (reconstructor,reconstructed) ←
      reconstructor.reconstruct G.threshold ((table i).getD []) EcdhPrivateKey.kSize
    match reconstructed with
    | .error status => return .error status
    | .ok key =>
      match EcdhKeyAgreement.createFromPrivateKey env.crypto key with
      | .error _ => return .error ⟨.invalidArgument,
          "Unable to reconstruct aborted client's private key from shares"⟩
      | .ok agreement =>
        reconstructPairwiseKeys env table reconstructor
          (Function.update keys i (some agreement)) rest

def reconstructSelfKeys (table : SharesTable G) :
    ClientMap G AesKey → List G.ClientId → Checked (StatusOr (ClientMap G AesKey))
  | keys, [] => .ok (.ok keys)
  | keys, i::rest => do
    match ← AesKey.createFromShares ((table i).getD []) G.threshold with
    | .error status => return .error status
    | .ok key => reconstructSelfKeys table (Function.update keys i (some key)) rest

variable (env : ServerEnv G) (m : ProtocolImpl G)

def handleShamirReconstruction : Checked (StatusOr (ShamirReconstructionResult G)) :=
  match m.pairwiseShamirShareTable, m.selfShamirShareTable with
  | some pairwise, some self => do
    match ← reconstructPairwiseKeys env pairwise ShamirSecretSharing.create (fun _ => none)
        (env.pairwiseTableOrder (presentKeys pairwise)) with
    | .error status => return .error status
    | .ok agreements =>
      match ← reconstructSelfKeys self (fun _ => none)
          (env.selfTableOrder (presentKeys self)) with
      | .error status => return .error status
      | .ok selfKeys => return .ok ⟨agreements,selfKeys⟩
  | _, _ => .error .check

structure PrngWorkItems where
  prngKeysToAdd : List AesKey
  prngKeysToSubtract : List AesKey

def isIncluded : ClientStatus → Bool
  | .unmaskingResponseReceived
  | .deadAfterUnmaskingResponseReceived
  | .deadAfterMaskedInputResponseReceived => true
  | _ => false

def pairwiseWorkItems (env : ServerEnv G) (m : ProtocolImpl G)
    (agreements : ClientMap G EcdhKeyAgreement) (i : G.ClientId) :
    PrngWorkItems → List G.ClientId → StatusOr PrngWorkItems
  | items, [] => .ok items
  | items, aborted::rest =>
    if !SharingGraph.areNeighbors i aborted then
      pairwiseWorkItems env m agreements i items rest
    else
      match EcdhKeyAgreement.computeSharedSecret env.crypto ((agreements aborted).getD [])
          (m.pairwisePublicKeys i) with
      | .error _ => .error ⟨.invalidArgument,"Invalid public key from client detected"⟩
      | .ok sharedKey =>
        let items : PrngWorkItems :=
          if SharingGraph.isOutgoingNeighbor i aborted then
            ⟨items.prngKeysToAdd++[sharedKey],items.prngKeysToSubtract⟩
          else ⟨items.prngKeysToAdd,items.prngKeysToSubtract++[sharedKey]⟩
        pairwiseWorkItems env m agreements i items rest

def workItems (env : ServerEnv G) (m : ProtocolImpl G) (r : ShamirReconstructionResult G) :
    PrngWorkItems → List G.ClientId → Checked (StatusOr PrngWorkItems)
  | items, [] => .ok (.ok items)
  | items, i::rest =>
    if !isIncluded (m.clientStatus i) then workItems env m r items rest
    else
      match r.selfKeys i with
      | none => .error .check
      | some selfKey =>
        match pairwiseWorkItems env m r.abortedClientKeyAgreements i
            ⟨items.prngKeysToAdd,items.prngKeysToSubtract++[selfKey]⟩
            (env.keyAgreementOrder (presentKeys r.abortedClientKeyAgreements)) with
        | .error status => .ok (.error status)
        | .ok items => workItems env m r items rest

def initializePrng (r : ShamirReconstructionResult G) : Checked (StatusOr PrngWorkItems) :=
  workItems env m r ⟨[],[]⟩ (List.finRange G.numNodes)

def kPrngBatchSize : ℕ := 32

def prngBatches : ℕ → List AesKey → List (List AesKey)
  | 0, _ => []
  | count+1, keys =>
    if keys.isEmpty then []
    else keys.take kPrngBatchSize::prngBatches count (keys.drop kPrngBatchSize)

def prngGenerators (items : PrngWorkItems) : List PrngWorkItems :=
  (prngBatches items.prngKeysToAdd.length items.prngKeysToAdd).map (fun keys => ⟨keys,[]⟩) ++
    (prngBatches items.prngKeysToSubtract.length items.prngKeysToSubtract).map
      (fun keys => ⟨[],keys⟩)

def startPrng (items : PrngWorkItems) : Checked (ProtocolImpl G × Accumulator PrngWorkItems) :=
  match m.maskedInput with
  | none => .error .check
  | some maskedInput =>
    .ok ({ m with maskedInput := none },
      (prngGenerators items).foldl Accumulator.schedule (Accumulator.create maskedInput))

def runPrngTask (accumulator : Accumulator PrngWorkItems)
    (i fuel : ℕ) : Checked (Accumulator PrngWorkItems) :=
  match accumulator.scheduled[i]?, m.sessionId with
  | some items, some sessionId => do
    let partialSum ← unpackedMapOfMasks env.crypto fuel items.prngKeysToAdd
      items.prngKeysToSubtract env.inputVectorSpecs sessionId
    return accumulator.generated i partialSum
  | some _, none => .error .check
  | none, _ => .ok accumulator

def setResult (value : SecAggUnpackedVectorMap) : Checked (ProtocolImpl G) := do
  let items ← value.items.mapM fun e => do
    return (e.1,← SecAggVector.ofSpan e.2.elements e.2.modulus)
  fcpCheck m.result.isNone
  return { m with result := some (NameMap.ofEntries items) }

end Fcp.SecAgg.ProtocolImpl

import Fcp.SecAgg.Server.SharingGraph
import Fcp.SecAgg.Shared.MapOfMasks

/-!
# What the server does with the messages of a round
(server/secagg_server_protocol_impl.cc, server/aes/aes_secagg_server_protocol_impl.cc)

Vectors indexed by client or by neighbor are functions on `ClientId` and `Slot`; a row of a share
table is a list, because `operator[]` on the hash map would create an empty one.
-/

namespace Fcp.SecAgg

open SharingGraph

inductive ClientStatus where
  | readyToStart
  | deadBeforeSendingAnything
  | advertiseKeysReceived
  | deadAfterAdvertiseKeysReceived
  | shareKeysReceived
  | deadAfterShareKeysReceived
  | maskedInputResponseReceived
  | deadAfterMaskedInputResponseReceived
  | unmaskingResponseReceived
  | deadAfterUnmaskingResponseReceived
  deriving Repr, DecidableEq

def ClientStatus.isDead : ClientStatus → Bool
  | .deadBeforeSendingAnything
  | .deadAfterAdvertiseKeysReceived
  | .deadAfterShareKeysReceived
  | .deadAfterMaskedInputResponseReceived
  | .deadAfterUnmaskingResponseReceived => true
  | _ => false

inductive ClientMask where
  | pairwiseMask
  | selfMask
  | noMask
  deriving Repr, DecidableEq

def clientMaskType : ClientStatus → ClientMask
  | .shareKeysReceived
  | .deadAfterShareKeysReceived => .pairwiseMask
  | .maskedInputResponseReceived
  | .deadAfterMaskedInputResponseReceived
  | .unmaskingResponseReceived
  | .deadAfterUnmaskingResponseReceived => .selfMask
  | _ => .noMask

structure ServerEnv (G : SharingGraph) where
  crypto : Crypto
  minimumNumberOfClientsToProceed : ℤ
  inputVectorSpecs : List InputVectorSpecification
  asyncRound2 : Bool
  pairwiseTableOrder : List G.ClientId → List G.ClientId
  selfTableOrder : List G.ClientId → List G.ClientId
  keyAgreementOrder : List G.ClientId → List G.ClientId
  pairwiseTableOrder_perm : ∀ l,(pairwiseTableOrder l).Perm l
  selfTableOrder_perm : ∀ l,(selfTableOrder l).Perm l
  keyAgreementOrder_perm : ∀ l,(keyAgreementOrder l).Perm l

def ServerEnv.pair (inputVectorSpecs : List InputVectorSpecification) : ServerEnv pair where
  crypto := Crypto.toy
  minimumNumberOfClientsToProceed := 2
  inputVectorSpecs := inputVectorSpecs
  asyncRound2 := false
  pairwiseTableOrder := id
  selfTableOrder := id
  keyAgreementOrder := id
  pairwiseTableOrder_perm _ := .refl _
  selfTableOrder_perm _ := .refl _
  keyAgreementOrder_perm _ := .refl _

abbrev SharesTable (G : SharingGraph) := G.ClientId → Option (List ShamirShare)

/-- `Accumulator` with its tasks: `scheduled` generators that have not run, `partials` that wait
for the sequential scheduler, and the value accumulated so far. -/
structure Accumulator (Generator : Type) where
  scheduled : List Generator
  partials : List SecAggUnpackedVectorMap
  value : SecAggUnpackedVectorMap
  hasUnobservedWork : Bool

namespace Accumulator
variable {Generator : Type}

def create (value : SecAggUnpackedVectorMap) : Accumulator Generator := ⟨[],[],value,false⟩

variable (a : Accumulator Generator)

def isIdle : Bool := a.scheduled.isEmpty && a.partials.isEmpty

def schedule (g : Generator) : Accumulator Generator :=
  { a with scheduled := a.scheduled++[g], hasUnobservedWork := a.hasUnobservedWork || a.isIdle }

def generated (i : ℕ) (partialSum : SecAggUnpackedVectorMap) : Accumulator Generator :=
  { a with scheduled := a.scheduled.eraseIdx i, partials := a.partials++[partialSum] }

def accumulate (i : ℕ) : Checked (Accumulator Generator) :=
  match a.partials[i]? with
  | none => .ok a
  | some partialSum => do
    let value ← SecAggUnpackedVectorMap.addMaps a.value partialSum
    return { a with partials := a.partials.eraseIdx i, value := value }

end Accumulator

structure ProtocolImpl (G : SharingGraph) where
  clientStatus : G.ClientId → ClientStatus
  pairwisePublicKeys : G.ClientId → Bytes
  pairsOfPublicKeys : G.ClientId → PairOfPublicKeys
  encryptedShares : G.ClientId → G.Slot → Bytes
  sessionId : Option Bytes
  maskedInput : Option SecAggUnpackedVectorMap
  maskedInputQueue : List SecAggVectorMap
  maskedInputAccumulator : Option (Accumulator Unit)
  pairwiseShamirShareTable : Option (SharesTable G)
  selfShamirShareTable : Option (SharesTable G)
  result : Option SecAggVectorMap

namespace ProtocolImpl
variable {G : SharingGraph}

def create (G : SharingGraph) : ProtocolImpl G where
  clientStatus _ := .readyToStart
  pairwisePublicKeys _ := []
  pairsOfPublicKeys _ := ⟨[],[]⟩
  encryptedShares _ _ := []
  sessionId := none
  maskedInput := none
  maskedInputQueue := []
  maskedInputAccumulator := none
  pairwiseShamirShareTable := none
  selfShamirShareTable := none
  result := none

variable (env : ServerEnv G) (m : ProtocolImpl G) (keys : PairOfPublicKeys) (client : G.ClientId)
  (vectors : NameMap Bytes) (shares : List Bytes)

def setClientStatus (status : ClientStatus) : ProtocolImpl G :=
  { m with clientStatus := Function.update m.clientStatus client status }

def isClientDead : Bool := (m.clientStatus client).isDead

def getNeighborIndexOrDie (u v : G.ClientId) : Checked G.Slot :=
  match neighborIndex u v with
  | some i => .ok i
  | none => .error .check

def publicKeySizesValid : Bool := !((decide (keys.encPk.length≠EcdhPublicKey.kSize) &&
      (decide (keys.encPk.length<EcdhPublicKey.kUncompressedSize) ||
        decide (keys.noisePk.length<EcdhPublicKey.kUncompressedSize))) ||
    decide (keys.encPk.length≠keys.noisePk.length))

def handleAdvertiseKeys (keys : PairOfPublicKeys) : StatusOr (ProtocolImpl G) :=
  if publicKeySizesValid keys then
    let pairwiseKey :=
      if keys.noisePk.length=EcdhPublicKey.kSize then keys.noisePk
      -- the header, if any, is stripped off
      else keys.noisePk.drop (keys.noisePk.length-EcdhPublicKey.kUncompressedSize)
    .ok { m with
      pairwisePublicKeys := Function.update m.pairwisePublicKeys client pairwiseKey
      pairsOfPublicKeys := Function.update m.pairsOfPublicKeys client keys }
  else
    .error ⟨.invalidArgument,"A public key sent by the client was not the correct size."⟩

def erasePublicKeysForClient : ProtocolImpl G :=
  { m with
    pairwisePublicKeys := Function.update m.pairwisePublicKeys client []
    pairsOfPublicKeys := Function.update m.pairsOfPublicKeys client ⟨[],[]⟩ }

def sessionIdInput : Bytes := intToByteString keys.noisePk.length++keys.noisePk ++
    intToByteString keys.noisePk.length++keys.encPk

def computeSessionId (c : Crypto) (m : ProtocolImpl G) : ProtocolImpl G :=
  { m with
    sessionId := some (c.sha256
      ((List.finRange G.numNodes).flatMap fun i => sessionIdInput (m.pairsOfPublicKeys i))) }

def prepareShareKeysRequestForClient : List PairOfPublicKeys :=
  (List.finRange G.degree).map fun j => m.pairsOfPublicKeys (neighbor client j)

/-- `ClearPairsOfPublicKeys`; the cleared vector is not read again. -/
def clearPairsOfPublicKeys : ProtocolImpl G :=
  { m with pairsOfPublicKeys := fun _ => ⟨[],[]⟩ }

def checkKeyShare
    (i : G.Slot) : StatusOr Unit :=
  let isEmpty := (shares.getD i []).isEmpty
  let neighborId := neighbor client i
  let shouldBeEmpty := decide (neighborId=client) ||
    decide (m.clientStatus neighborId=.deadBeforeSendingAnything)
  if isEmpty && !shouldBeEmpty then
    .error ⟨.invalidArgument,"Client omitted a key share that was expected."⟩
  else if shouldBeEmpty && !isEmpty then
    .error ⟨.invalidArgument,"Client sent a key share that was not expected."⟩
  else .ok ()

def routeShares (share : G.Slot → Bytes) (m : ProtocolImpl G) : Checked (ProtocolImpl G) :=
  (List.finRange G.degree).foldlM (fun m i => do
    let neighborId := neighbor client i
    let indexInNeighbor ← getNeighborIndexOrDie neighborId client
    return { m with
      encryptedShares := Function.update m.encryptedShares neighborId
        (Function.update (m.encryptedShares neighborId) indexInNeighbor (share i)) }) m

def handleShareKeysResponse : Checked (StatusOr (ProtocolImpl G)) :=
  if shares.length≠G.degree then
    .ok (.error ⟨.invalidArgument,"The ShareKeysResponse does not contain the expected number " ++
      "of encrypted pairs of key shares."⟩)
  else
    match (List.finRange G.degree).mapM (checkKeyShare m client shares) with
    | .error status => .ok (.error status)
    | .ok _ => do
      let m ← routeShares client (fun i => shares.getD i []) m
      return .ok m

def eraseShareKeysForClient : Checked (ProtocolImpl G) := routeShares client (fun _ => []) m

def prepareMaskedInputCollectionRequestForClient : List Bytes :=
  (List.finRange G.degree).map (m.encryptedShares client)

/-- `ClearShareKeys`; the cleared vector is not read again. -/
def clearShareKeys : ProtocolImpl G :=
  { m with encryptedShares := fun _ _ => [] }

def initializeVectorMap (specs : List InputVectorSpecification) : SecAggUnpackedVectorMap :=
  NameMap.ofEntries
    (specs.map fun spec => (spec.name,⟨List.replicate spec.length 0,spec.modulus⟩))

def setupMaskedInputCollection : ProtocolImpl G :=
  let initialValue := initializeVectorMap env.inputVectorSpecs
  if env.asyncRound2 then
    { m with maskedInputAccumulator := some (Accumulator.create initialValue) }
  else { m with maskedInput := some initialValue }

def checkMaskedVector (spec : InputVectorSpecification) : Checked (StatusOr SecAggVector) :=
  match vectors.lookup spec.name with
  | none => .ok (.error ⟨.invalidArgument,"Masked input does not match input vector " ++
      "specification - wrong vector names."⟩)
  | some encoded => do
    let numBits ← toInt (spec.length*SecAggVector.getBitWidth spec.modulus)
    if encoded.length≠divideRoundUp numBits 8 then
      return .error ⟨.invalidArgument,"Masked input does not match input vector " ++
        "specification - vector is wrong size."⟩
    else return .ok (← SecAggVector.ofPackedBytes encoded spec.modulus spec.length false)

def checkMaskedVectors : NameMap Bytes → List InputVectorSpecification → SecAggVectorMap →
    Checked (StatusOr SecAggVectorMap)
  | _, [], checked => .ok (.ok checked)
  | vectors, spec::specs, checked => do
    match ← checkMaskedVector vectors spec with
    | .error status => return .error status
    | .ok v => checkMaskedVectors (vectors.replace spec.name []) specs (checked.emplace spec.name v)

def handleMaskedInputCollectionResponse : Checked (StatusOr (ProtocolImpl G)) :=
  if vectors.items.length≠env.inputVectorSpecs.length then
    .ok (.error ⟨.invalidArgument,"Masked input does not match input vector specification - " ++
      "wrong number of vectors."⟩)
  else do
    match ← checkMaskedVectors vectors env.inputVectorSpecs ∅ with
    | .error status => return .error status
    | .ok checked =>
      if env.asyncRound2 then
        match m.maskedInputAccumulator with
        | none => .error .check
        | some accumulator =>
          -- an empty queue was taken by a task, or never filled: a new task is needed
          let accumulator :=
            if m.maskedInputQueue.isEmpty then accumulator.schedule () else accumulator
          return .ok { m with
            maskedInputQueue := m.maskedInputQueue++[checked]
            maskedInputAccumulator := some accumulator }
      else
        match m.maskedInput with
        | none => .error .check
        | some maskedInput =>
          let maskedInput ← SecAggUnpackedVectorMap.add maskedInput checked
          return .ok { m with maskedInput := some maskedInput }

def unpackMap (m : SecAggVectorMap) : SecAggUnpackedVectorMap :=
  NameMap.ofEntries (m.items.map fun e => (e.1,⟨e.2.decode,e.2.modulus⟩))

def addReduce : List SecAggVectorMap → Checked SecAggUnpackedVectorMap
  | [] => .error .check
  | first::rest => rest.foldlM SecAggUnpackedVectorMap.add (unpackMap first)

def runQueueTask : Checked (ProtocolImpl G) :=
  match m.maskedInputAccumulator with
  | none => .ok m
  | some accumulator =>
    if accumulator.scheduled.isEmpty then .ok m
    else do
      let partialSum ← addReduce m.maskedInputQueue
      return { m with
        maskedInputQueue := []
        maskedInputAccumulator := some (accumulator.generated 0 partialSum) }

def accumulateMaskedInput (i : ℕ) : Checked (ProtocolImpl G) :=
  match m.maskedInputAccumulator with
  | none => .ok m
  | some accumulator => do
    let accumulator ← accumulator.accumulate i
    return { m with maskedInputAccumulator := some accumulator }

def accumulatorIsIdle : Bool :=
  match m.maskedInputAccumulator with
  | none => true
  | some accumulator => accumulator.isIdle

/-- `FinalizeMaskedInputCollection`; an idle accumulator has no active task. -/
def finalizeMaskedInputCollection : Checked (ProtocolImpl G) :=
  if env.asyncRound2 then
    match m.maskedInputAccumulator with
    | none => .error .check
    | some accumulator => do
      fcpCheck accumulator.isIdle
      return { m with maskedInput := some accumulator.value }
  else .ok m

def setUpShamirSharesTables : ProtocolImpl G :=
  let table (mask : ClientMask) : SharesTable G := fun i =>
    if clientMaskType (m.clientStatus i)=mask then some (List.replicate G.degree []) else none
  { m with
    pairwiseShamirShareTable := some (table .pairwiseMask)
    selfShamirShareTable := some (table .selfMask) }

def checkUnmaskingShare (mask : ClientMask) (share : NoiseOrPrfKeyShare) : StatusOr Unit :=
  match mask, share with
  | .pairwiseMask, .noiseSkShare _ => .ok ()
  | .selfMask, .prfSkShare _ => .ok ()
  | .noMask, .notSet => .ok ()
  | .noMask, _ =>
    .error ⟨.invalidArgument,"Client included a key share for which none was expected."⟩
  | _, _ => .error ⟨.invalidArgument,"Client did not include the correct type of key share."⟩

def checkUnmaskingShares (m : ProtocolImpl G) (client : G.ClientId)
    (shares : List NoiseOrPrfKeyShare) : List G.Slot → Checked (StatusOr Unit)
  | [] => .ok (.ok ())
  | i::rest => do
    let share ← elementAt shares i
    match checkUnmaskingShare (clientMaskType (m.clientStatus (neighbor client i)))
        share with
    | .error status => return .error status
    | .ok () => checkUnmaskingShares m client shares rest

def writeShare (table : SharesTable G) (neighborId : G.ClientId) (index : G.Slot)
    (data : ShamirShare) : Checked (SharesTable G) :=
  let row := (table neighborId).getD []
  if index<row.length then .ok (Function.update table neighborId (some (row.set index data)))
  else .error .outOfRange

def recordUnmaskingShare (shares : List NoiseOrPrfKeyShare)
    (tables : SharesTable G × SharesTable G) (i : G.Slot) :
    Checked (SharesTable G × SharesTable G) := do
  let ithNeighbor := neighbor client i
  let index ← getNeighborIndexOrDie ithNeighbor client
  match ← elementAt shares i with
  | .noiseSkShare data => return (← writeShare tables.1 ithNeighbor index data,tables.2)
  | .prfSkShare data => return (tables.1,← writeShare tables.2 ithNeighbor index data)
  | .notSet => return tables

def handleUnmaskingResponse
    (shares : List NoiseOrPrfKeyShare) : Checked (StatusOr (ProtocolImpl G)) :=
  match m.pairwiseShamirShareTable, m.selfShamirShareTable with
  | some pairwise, some self => do
    match ← checkUnmaskingShares m client shares (List.finRange G.degree) with
    | .error status => return .error status
    | .ok () =>
      let tables ← (List.finRange G.degree).foldlM (recordUnmaskingShare client shares)
        (pairwise,self)
      return .ok { m with
        pairwiseShamirShareTable := some tables.1
        selfShamirShareTable := some tables.2 }
  | _, _ => .error .check

end ProtocolImpl
end Fcp.SecAgg

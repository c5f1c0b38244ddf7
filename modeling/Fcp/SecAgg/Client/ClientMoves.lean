import Fcp.SecAgg.Client.SecAggClient

/-!
# What a call does to a client

`Move` lists what a call can do to a client, with what the handler of the call found out.
-/

namespace Fcp.SecAgg

variable {a : AsyncAbort}

theorem forall₂_of_poll {α β : Type} {check : α → ℕ} {f : α → Attempt β} {l : List α} {r : List β}
    (h : l.mapM (fun x => a.poll (check x) >>= fun _ => f x)=.ok r) :
    List.Forall₂ (fun x y => f x=.ok y) l r := by
  refine (mapM_eq_ok.mp h).imp fun x y hxy => ?_
  obtain ⟨-,-,hf⟩:=bind_eq_ok.mp hxy
  exact hf

theorem readAllPublicKeys_eq_ok {env : ClientEnv} {i : ℕ} {clientIdSet : Bool}
    {pairs : List PairOfPublicKeys} {nbs : List NeighborKeys}
    (h : readAllPublicKeys env a i clientIdSet pairs=.ok nbs) :
    List.Forall₂ (fun keys nb => readPublicKeys env keys=.ok nb) pairs nbs ∧
      (clientIdSet=true → ∀ nb∈nbs,nb.isSelf=false) ∧
      nbs.Pairwise fun nb other => nb.isSelf=true → other.isSelf=false := by
  induction pairs generalizing i clientIdSet nbs with
  | nil =>
    cases h
    exact ⟨.nil,fun _ _ hm => absurd hm List.not_mem_nil,.nil⟩
  | cons keys rest ih =>
    simp only [readAllPublicKeys,bind_eq_ok,abortIf_eq_ok,pure_eq_ok] at h
    obtain ⟨-,-,nb,hr,-,hs,neighbors',hrest,rfl⟩:=h
    obtain ⟨ha,hset,hp⟩:=ih hrest
    refine ⟨.cons hr ha,fun hid => ?_,.cons (fun other ho hn => ?_) hp⟩
    · intro other ho
      obtain rfl | ho:=List.mem_cons.mp ho
      · simpa [hid] using hs
      · exact hset (by rw [hid,Bool.or_true]) other ho
    · exact hset (by rw [hn,Bool.true_or]) other ho

/-- What a client has found out and sends when a `ShareKeysRequest` does not make it abort. -/
inductive SharesKeys (env : ClientEnv) (request : ShareKeysRequest) :
    KeysReceived → List Bytes → Prop
  | intro {neighbors : List NeighborKeys} {pairwiseShares selfShares : List ShamirShare}
      {clientId : ℕ} {ownSelfKeyShare : ShamirShare} {encryptedKeyShares : List Bytes}
      (hmin : env.minimumSurvivingNeighborsForReconstruction ≤
        countDown (fun neighbor => neighbor.state=.deadAtRound1)
          request.pairsOfPublicKeys.length neighbors)
      (hmax : request.pairsOfPublicKeys.length≤env.maxNeighborsExpected)
      (hpairwise : ShamirSecretSharing.share env.minimumSurvivingNeighborsForReconstruction
        request.pairsOfPublicKeys.length env.prngPrivateKey env.pairwiseCoefficients =
          .ok pairwiseShares)
      (hself : ShamirSecretSharing.share env.minimumSurvivingNeighborsForReconstruction
        request.pairsOfPublicKeys.length env.selfPrngKey env.selfCoefficients=.ok selfShares)
      (hsession : request.sessionId.length=kSha256Length)
      (hkeys : List.Forall₂ (fun keys neighbor => readPublicKeys env keys=.ok neighbor)
        request.pairsOfPublicKeys neighbors)
      (honce : neighbors.Pairwise
        fun neighbor other => neighbor.isSelf=true → other.isSelf=false)
      (hid : neighbors.findIdx? NeighborKeys.isSelf=some clientId)
      (hown : selfShares[clientId]?=some ownSelfKeyShare)
      (hencrypted : List.Forall₂
        (fun p e => encryptKeyShare env pairwiseShares selfShares p.1 p.2=.ok e)
        (neighbors.map NeighborKeys.encKey).zipIdx encryptedKeyShares) :
      SharesKeys env request
        ⟨clientId,countDown (fun neighbor => neighbor.state=.deadAtRound1)
          request.pairsOfPublicKeys.length neighbors,
          request.pairsOfPublicKeys.length,neighbors.map NeighborKeys.state,
          neighbors.map NeighborKeys.encKey,neighbors.map NeighborKeys.prngKey,ownSelfKeyShare,
          request.sessionId⟩ encryptedKeyShares

theorem r1HandleShareKeysRequest_eq_ok {env : ClientEnv} {ins : Option SecAggVectorMap}
    {req : ShareKeysRequest} {r : KeysReceived × List Bytes}
    (h : r1HandleShareKeysRequest env a ins req=.ok r) :
    SharesKeys env req r.1 r.2 := by
  obtain ⟨⟨keys,pairwiseShares,selfShares⟩,hh,h⟩:=bind_eq_ok.mp h
  simp only [bind_eq_ok,abortIf_eq_ok,pure_eq_ok] at h
  obtain ⟨-,-,enc,hencrypted,rfl⟩:=h
  simp only [handleShareKeysRequest,bind_eq_ok,abortIf_eq_ok,attempt_eq_ok,
    decide_eq_false_iff_not] at hh
  obtain ⟨-,-,-,hm,pairwise,hp,self,hs,-,hsession,nbs,hr,-,hmin,hf⟩:=hh
  cases hid : nbs.findIdx? fun nb => nb.isSelf with
  | none =>
    rw [hid] at hf
    cases hf
  | some id =>
    rw [hid] at hf
    simp only [bind_eq_ok,attempt_eq_ok,pure_eq_ok,Prod.mk.injEq] at hf
    obtain ⟨own,hown,rfl,rfl,rfl⟩:=hf
    obtain ⟨hk,-,ho⟩:=readAllPublicKeys_eq_ok hr
    exact .intro (Nat.le_of_not_lt hmin) (Nat.le_of_not_lt hm) hp hs
      (not_not.mp hsession) hk ho hid (elementAt_eq_ok.mp hown)
      ((forall₂_of_poll hencrypted).imp fun _ _ he => attempt_eq_ok.mp he)

/-- What a client has found out when a `MaskedInputCollectionRequest` does not make it abort. -/
inductive ReadsShares (env : ClientEnv) (fuel : ℕ) (keys : KeysReceived)
    (encryptedKeyShares : List Bytes) : SharesReceived → SecAggVectorMap → Prop
  | intro {neighbors : List NeighborShares} {mapOfMasks : SecAggVectorMap}
      (hlength : encryptedKeyShares.length=keys.numberOfNeighbors)
      (hshares : List.Forall₂
        (fun i neighbor => readKeyShares env keys encryptedKeyShares i=.ok neighbor)
        (List.range keys.numberOfNeighbors) neighbors)
      (hmin : env.minimumSurvivingNeighborsForReconstruction ≤
        countDown (fun neighbor => neighbor.state=.deadAtRound2) keys.numberOfAliveNeighbors
          neighbors)
      (hmasks : SecAgg.mapOfMasks env.crypto fuel
        (env.selfPrngKey::aliveKeys (fun i => decide (i<keys.clientId))
          (neighbors.map NeighborShares.state) keys.otherClientPrngKeys)
        (aliveKeys (fun i => decide (keys.clientId < i)) (neighbors.map NeighborShares.state)
          keys.otherClientPrngKeys) env.inputVectorSpecs keys.sessionId=.ok mapOfMasks) :
      ReadsShares env fuel keys encryptedKeyShares
        ⟨keys.clientId,countDown (fun neighbor => neighbor.state=.deadAtRound2)
          keys.numberOfAliveNeighbors neighbors,
          keys.numberOfNeighbors,neighbors.map NeighborShares.state,
          neighbors.map NeighborShares.pairwiseKeyShare,
          neighbors.map NeighborShares.selfKeyShare⟩ mapOfMasks

theorem handleMaskedInputCollectionRequest_eq_ok {env : ClientEnv} {fuel : ℕ}
    {keys : KeysReceived} {enc : List Bytes} {r : SharesReceived × SecAggVectorMap}
    (h : handleMaskedInputCollectionRequest env a fuel keys enc=.ok r) :
    ReadsShares env fuel keys enc r.1 r.2 := by
  simp only [handleMaskedInputCollectionRequest,bind_eq_ok,abortIf_eq_ok,attempt_eq_ok,
    pure_eq_ok,decide_eq_false_iff_not] at h
  obtain ⟨-,hl,nbs,hs,-,hmin,-,-,masks,hm,rfl⟩:=h
  exact .intro (not_not.mp hl) (forall₂_of_poll hs) (Nat.le_of_not_lt hmin) hm

/-- What a client answers when an `UnmaskingRequest` does not make it abort. -/
inductive Unmasks (env : ClientEnv) (shares : SharesReceived) (dead3ClientIds : List UInt32)
    (response : List NoiseOrPrfKeyShare) : Prop
  | intro {states : List OtherClientState}
      (hmark : markDead shares.clientId shares.numberOfNeighbors shares.otherClientStates
        dead3ClientIds=.ok states)
      (hmin : env.minimumSurvivingNeighborsForReconstruction ≤
        countDown (fun _ => true) shares.numberOfAliveNeighbors dead3ClientIds)
      (hchoose : List.Forall₂ (fun i share => chooseShare shares states i=.ok share)
        (List.range shares.numberOfNeighbors) response)

theorem handleUnmaskingRequest_eq_ok {env : ClientEnv} {shares : SharesReceived}
    {dead : List UInt32} {resp : List NoiseOrPrfKeyShare}
    (h : handleUnmaskingRequest env a shares dead=.ok resp) :
    Unmasks env shares dead resp := by
  simp only [handleUnmaskingRequest,bind_eq_ok,abortIf_eq_ok,decide_eq_false_iff_not] at h
  obtain ⟨-,-,states,hm,-,hmin,hc⟩:=h
  exact .intro hm (Nat.le_of_not_lt hmin) ((forall₂_of_poll (mapM_eq_ok.mpr (mapM_eq_ok.mp hc))).imp
      fun _ _ he => attempt_eq_ok.mp he)

namespace ClientState

open SecAggClient (Event)

inductive Moves (env : ClientEnv) : ClientState → Event → Transition → Prop
  | advertise {inputMap : Option SecAggVectorMap} : Moves env (.r0AdvertiseKeys inputMap) .start
        (.r1ShareKeys inputMap,[.advertiseKeys ⟨env.prngPublicKey,env.encPublicKey⟩])
  | inputR0 {inputMap : SecAggVectorMap}
      (hvalid : validateInput inputMap env.inputVectorSpecs=true) :
      Moves env (.r0AdvertiseKeys none) (.setInput inputMap) (.r0AdvertiseKeys (some inputMap),[])
  | inputR1 {inputMap : SecAggVectorMap}
      (hvalid : validateInput inputMap env.inputVectorSpecs=true) :
      Moves env (.r1ShareKeys none) (.setInput inputMap) (.r1ShareKeys (some inputMap),[])
  | inputR2 {keys : KeysReceived} {inputMap : SecAggVectorMap}
      (hvalid : validateInput inputMap env.inputVectorSpecs=true) :
      Moves env (.r2MaskedInputColl keys none) (.setInput inputMap)
        (.r2MaskedInputColl keys (some inputMap),[])
  | abort {s : ClientState} {event : Event} (reason : String)
      (hlive : s.isAborted=false ∧ s.isCompletedSuccessfully=false) :
      Moves env s event (.aborted reason,[.abort reason])
  | stop {s : ClientState} {asyncAbort : AsyncAbort} {fuel : ℕ} {diagnosticInfo : String}
      {earlySuccess : Bool}
      (hlive : s.isAborted=false ∧ s.isCompletedSuccessfully=false) :
      Moves env s (.receiveMessage asyncAbort fuel (.abort diagnosticInfo earlySuccess))
        (handleAbortMessage earlySuccess)
  | shareKeys {asyncAbort : AsyncAbort} {fuel : ℕ} {inputMap : Option SecAggVectorMap}
      {request : ShareKeysRequest} {keys : KeysReceived} {encryptedKeyShares : List Bytes}
      (hkeys : SharesKeys env request keys encryptedKeyShares) :
      Moves env (.r1ShareKeys inputMap)
        (.receiveMessage asyncAbort fuel (.shareKeysRequest request))
        (.r2MaskedInputColl keys inputMap,[.shareKeysResponse encryptedKeyShares])
  | readShares {asyncAbort : AsyncAbort} {fuel : ℕ} {keys : KeysReceived}
      {encryptedKeyShares : List Bytes} {shares : SharesReceived} {mapOfMasks : SecAggVectorMap}
      (hshares : ReadsShares env fuel keys encryptedKeyShares shares mapOfMasks) :
      Moves env (.r2MaskedInputColl keys none)
        (.receiveMessage asyncAbort fuel (.maskedInputRequest encryptedKeyShares))
        (.r2WaitingForInput shares mapOfMasks,[])
  | maskInput {asyncAbort : AsyncAbort} {fuel : ℕ} {keys : KeysReceived}
      {inputMap : SecAggVectorMap} {encryptedKeyShares : List Bytes} {shares : SharesReceived}
      {mapOfMasks : SecAggVectorMap} {message : ClientToServerWrapperMessage}
      (hshares : ReadsShares env fuel keys encryptedKeyShares shares mapOfMasks)
      (hmessage : maskedInputMessage inputMap mapOfMasks=.ok message) :
      Moves env (.r2MaskedInputColl keys (some inputMap))
        (.receiveMessage asyncAbort fuel (.maskedInputRequest encryptedKeyShares))
        (.r3Unmasking shares,[message])
  | maskInputLate {inputMap : SecAggVectorMap} {shares : SharesReceived}
      {mapOfMasks : SecAggVectorMap} {message : ClientToServerWrapperMessage}
      (hvalid : validateInput inputMap env.inputVectorSpecs=true)
      (hmessage : maskedInputMessage inputMap mapOfMasks=.ok message) :
      Moves env (.r2WaitingForInput shares mapOfMasks) (.setInput inputMap)
        (.r3Unmasking shares,[message])
  | unmask {asyncAbort : AsyncAbort} {fuel : ℕ} {shares : SharesReceived}
      {dead3ClientIds : List UInt32} {response : List NoiseOrPrfKeyShare}
      (hresponse : Unmasks env shares dead3ClientIds response) :
      Moves env (.r3Unmasking shares)
        (.receiveMessage asyncAbort fuel (.unmaskingRequest dead3ClientIds))
        (.completed,[.unmaskingResponse response])

variable {env : ClientEnv} {s : ClientState} {t : Transition}

theorem start_moves (h : s.start env=.ok t) : Moves env s .start t := by
  cases s <;> cases h
  exact .advertise

theorem abort_moves {reason : String} (h : s.abort reason=.ok t) :
    Moves env s (.abort reason) t := by
  cases s <;> cases h <;> exact .abort _ ⟨rfl,rfl⟩

theorem setInput_moves {ins : SecAggVectorMap} (h : s.setInput env ins=.ok (.ok t)) :
    Moves env s (.setInput ins) t := by
  cases hv : validateInput ins env.inputVectorSpecs with
  | false =>
    unfold ClientState.setInput at h
    rw [hv] at h
    split at h <;> cases h
  | true =>
    unfold ClientState.setInput at h
    rw [hv] at h
    split at h
    · cases h
      exact .inputR0 hv
    · cases h
      exact .inputR1 hv
    · cases h
      exact .inputR2 hv
    · obtain ⟨msg,hm,⟨⟩⟩:=bind_eq_ok.mp h
      exact .maskInputLate hv hm
    · cases h

theorem orAbort_eq_ok {α : Type} {x : Attempt α} {next : α → Checked Transition}
    (h : orAbort x next=.ok (.ok t)) :
    (∃ reason,t=abortAndNotifyServer reason) ∨ ∃ a,x=.ok a ∧ next a=.ok t := by
  cases x with
  | ok a =>
    obtain ⟨t',ht,⟨⟩⟩:=bind_eq_ok.mp h
    exact .inr ⟨a,rfl,ht⟩
  | error e =>
    cases e with
    | fault => cases h
    | abort reason =>
      cases h
      exact .inl ⟨reason,rfl⟩

theorem handleMessage_moves {asyncAbort : AsyncAbort} {fuel : ℕ}
    {msg : ServerToClientWrapperMessage}
    (h : s.handleMessage env asyncAbort fuel msg=.ok (.ok t)) :
    Moves env s (.receiveMessage asyncAbort fuel msg) t := by
  unfold handleMessage at h
  split at h
  · cases h
  · cases h
  · cases h
    rename_i hc ha
    refine .stop ⟨?_,?_⟩
    · cases s <;> first | rfl | exact absurd rfl (ha _)
    · cases s <;> first | rfl | exact absurd rfl hc
  · obtain ⟨reason,rfl⟩ | ⟨r,hr,h⟩:=orAbort_eq_ok h
    · exact .abort reason ⟨rfl,rfl⟩
    · cases h
      exact .shareKeys (r1HandleShareKeysRequest_eq_ok hr)
  · obtain ⟨reason,rfl⟩ | ⟨r,hr,h⟩:=orAbort_eq_ok h
    · exact .abort reason ⟨rfl,rfl⟩
    · have hs:=handleMaskedInputCollectionRequest_eq_ok hr
      rename_i ins _ _
      cases ins with
      | none =>
        cases h
        exact .readShares hs
      | some ins =>
        obtain ⟨msg,hm,⟨⟩⟩:=bind_eq_ok.mp h
        exact .maskInput hs hm
  · obtain ⟨reason,rfl⟩ | ⟨r,hr,h⟩:=orAbort_eq_ok h
    · exact .abort reason ⟨rfl,rfl⟩
    · cases h
      exact .unmask (handleUnmaskingRequest_eq_ok hr)
  · cases h

end ClientState

namespace SecAggClient

open ClientState (Moves)

variable {env : ClientEnv} {c c' : SecAggClient} {e : Event}

theorem step_moves (h : c.step env e=.ok c') :
    c'=c ∨ ∃ t,Moves env c.state e t ∧ c'=⟨t.1,c.sent++t.2⟩ := by
  have hf : ∀ answer : StatusOr Transition,(∀ t,answer=.ok t → Moves env c.state e t) →
      (c.finish answer).1=c ∨
        ∃ t,Moves env c.state e t ∧ (c.finish answer).1=⟨t.1,c.sent++t.2⟩ := by
    intro answer ha
    cases answer with
    | error st => exact .inl rfl
    | ok t => exact .inr ⟨t,ha t rfl,rfl⟩
  cases e with
  | start =>
    cases h
    exact hf _ fun t ht => ClientState.start_moves ht
  | setInput ins =>
    simp only [step,SecAggClient.setInput,bind_eq_ok,pure_eq_ok] at h
    obtain ⟨_,⟨answer,ha,rfl⟩,rfl⟩:=h
    refine hf _ fun t ht => ClientState.setInput_moves ?_
    rw [ha,ht]
  | abort reason =>
    cases h
    unfold SecAggClient.abort
    split
    · exact .inl rfl
    · exact hf _ fun t ht => ClientState.abort_moves ht
  | receiveMessage asyncAbort fuel incoming =>
    simp only [step,receiveMessage,bind_eq_ok,pure_eq_ok] at h
    obtain ⟨_,⟨answer,ha,hr⟩,rfl⟩:=h
    cases answer with
    | error st =>
      cases hr
      exact .inl rfl
    | ok t =>
      cases hr
      exact .inr ⟨t,ClientState.handleMessage_moves ha,rfl⟩

end SecAggClient
end Fcp.SecAgg

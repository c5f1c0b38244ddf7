import Fcp.SecAgg.Client.ClientMoves

/-!
# What a client believes about its neighbors

The state of a neighbor is derived from the requests of the server alone: a missing public key, a
missing encrypted share, an entry of `dead_3_client_ids`.
-/

namespace Fcp.SecAgg

open List

def ClientEnv.ownKeys (env : ClientEnv) : PairOfPublicKeys := ⟨env.prngPublicKey,env.encPublicKey⟩

def PairOfPublicKeys.missing (keys : PairOfPublicKeys) : Bool :=
  keys.encPk.isEmpty || keys.noisePk.isEmpty

def stateAfterRound1 (keys : PairOfPublicKeys) : OtherClientState :=
  if keys.missing then .deadAtRound1 else .alive

theorem ClientEnv.ownKeys_missing (env : ClientEnv) : env.ownKeys.missing=false := by
  have hp : ∀ key,(env.crypto.publicKey key).isEmpty=false := by
    intro key
    rw [isEmpty_eq_false_iff,← length_pos_iff,env.crypto.length_publicKey]
    decide
  simp [PairOfPublicKeys.missing,ClientEnv.ownKeys,encPublicKey,prngPublicKey,hp]

theorem readPublicKeys_self (env : ClientEnv) :
    readPublicKeys env env.ownKeys=.ok ⟨.alive,[],[],true⟩ := by
  have hm:=env.ownKeys_missing
  unfold PairOfPublicKeys.missing at hm
  simp only [readPublicKeys,hm]
  simp [ClientEnv.ownKeys,ClientEnv.encPublicKey,ClientEnv.prngPublicKey,
    env.crypto.length_publicKey]

variable {nb : NeighborKeys} {i : ℕ} {states : List OtherClientState}

theorem readPublicKeys_other {env : ClientEnv} {keys : PairOfPublicKeys}
    (hm : keys.missing=false) (ho : keys≠env.ownKeys)
    (h : readPublicKeys env keys=.ok nb) :
    ∃ encKey prngKey,
      EcdhKeyAgreement.computeSharedSecret env.crypto env.encPrivateKey keys.encPk=.ok encKey ∧
      EcdhKeyAgreement.computeSharedSecret env.crypto env.prngPrivateKey keys.noisePk =
        .ok prngKey ∧
      nb=⟨.alive,encKey,prngKey,false⟩ := by
  unfold PairOfPublicKeys.missing at hm
  unfold readPublicKeys at h
  rw [hm,if_neg (by decide)] at h
  split at h
  · cases h
  · split at h
    next hown => exact absurd (by rw [ClientEnv.ownKeys,← hown.1,← hown.2]) ho
    · split at h
      next encKey prngKey he hp =>
        cases h
        exact ⟨encKey,prngKey,he,hp,rfl⟩
      · cases h

theorem readPublicKeys_state {env : ClientEnv} {keys : PairOfPublicKeys}
    (h : readPublicKeys env keys=.ok nb) :
    nb.state=stateAfterRound1 keys ∧ (nb.isSelf=true ↔ keys=env.ownKeys) := by
  unfold stateAfterRound1
  cases hm : keys.missing with
  | true =>
    rw [readPublicKeys,if_pos (show (_ || _)=true from hm)] at h
    cases h
    refine ⟨rfl,nofun,fun ho => ?_⟩
    rw [ho,env.ownKeys_missing] at hm
    cases hm
  | false =>
    by_cases ho : keys=env.ownKeys
    · rw [ho,readPublicKeys_self] at h
      cases h
      exact ⟨rfl,fun _ => ho,fun _ => rfl⟩
    · obtain ⟨encKey,prngKey,-,-,rfl⟩:=readPublicKeys_other hm ho h
      exact ⟨rfl,nofun,fun h => absurd h ho⟩

namespace SharesKeys

variable {env : ClientEnv} {req : ShareKeysRequest} {keys : KeysReceived}
  {enc : List Bytes}

section

variable (h : SharesKeys env req keys enc)
include h

theorem numberOfNeighbors_eq : keys.numberOfNeighbors=req.pairsOfPublicKeys.length := by
  cases h
  rfl

theorem otherClientStates_eq :
    keys.otherClientStates=req.pairsOfPublicKeys.map stateAfterRound1 := by
  obtain ⟨-,-,-,-,-,hk,-,-,-,-⟩:=h
  refine ext_getElem ?_ fun i hi hi' => ?_
  · simp [hk.length_eq]
  · have hr:=(forall₂_iff_get.mp hk).2 i (by simpa using hi') (by simpa using hi)
    simpa using (readPublicKeys_state hr).1

theorem own_iff {pair : PairOfPublicKeys} (hi : req.pairsOfPublicKeys[i]?=some pair) :
    pair=env.ownKeys ↔ i=keys.clientId := by
  obtain ⟨-,-,-,-,-,hk,ho,hid,-,-⟩:=h
  obtain ⟨nb,hn,hr⟩:=forall₂_getElem_left hk hi
  rename_i neighbors _ _ id _
  rw [← (readPublicKeys_state hr).2]
  obtain ⟨hlt,hs,-⟩:=findIdx?_eq_some_iff_getElem.mp hid
  obtain ⟨hilt,rfl⟩:=List.getElem?_eq_some_iff.mp hn
  constructor
  · intro hi
    obtain hl | heq | hh:=Nat.lt_trichotomy i id
    · rw [pairwise_iff_getElem.mp ho i id hilt hlt hl hi] at hs
      cases hs
    · exact heq
    · rw [pairwise_iff_getElem.mp ho id i hlt hilt hh hs] at hi
      cases hi
  · intro heq
    dsimp only at heq
    subst heq
    exact hs

end

end SharesKeys

def stateAfterRound2 (isSelf : Bool) (state : OtherClientState) (encrypted : Bytes) :
    OtherClientState :=
  if isSelf=false ∧ state=.alive ∧ encrypted.isEmpty then .deadAtRound2 else state

theorem readKeyShares_state {env : ClientEnv} {keys : KeysReceived}
    {enc : List Bytes} {nb : NeighborShares}
    (h : readKeyShares env keys enc i=.ok nb) :
    ∃ state encrypted,keys.otherClientStates[i]?=some state ∧ enc[i]?=some encrypted ∧
      nb.state=stateAfterRound2 (decide (i=keys.clientId)) state encrypted := by
  simp only [readKeyShares,bind_eq_ok,attempt_eq_ok,elementAt_eq_ok] at h
  obtain ⟨state,hs,encrypted,hencrypted,h⟩:=h
  refine ⟨state,encrypted,hs,hencrypted,?_⟩
  unfold stateAfterRound2
  split at h
  next hself =>
    cases h
    simp [hself]
  next hself =>
    split at h
    next hd =>
      simp only [bind_eq_ok,pure_eq_ok] at h
      obtain ⟨-,-,rfl⟩:=h
      simp [hd]
    next ha =>
      split at h
      next he =>
        cases h
        simp [hself,not_not.mp ha,he]
      next he =>
        simp only [bind_eq_ok,pure_eq_ok] at h
        obtain ⟨-,-,-,-,rfl⟩:=h
        simp [he,not_not.mp ha]

namespace ReadsShares

variable {env : ClientEnv} {fuel : ℕ} {keys : KeysReceived} {enc : List Bytes}
  {shares : SharesReceived} {mapOfMasks : SecAggVectorMap}

section

variable (h : ReadsShares env fuel keys enc shares mapOfMasks)
include h

theorem numberOfNeighbors_eq : shares.numberOfNeighbors=keys.numberOfNeighbors := by
  cases h
  rfl

theorem length_otherClientStates : shares.otherClientStates.length=keys.numberOfNeighbors := by
  obtain ⟨-,hs,-,-⟩:=h
  simp [← hs.length_eq]

theorem otherClientStates_getElem
    {state' : OtherClientState} (hi : shares.otherClientStates[i]?=some state') :
    ∃ state encrypted,keys.otherClientStates[i]?=some state ∧ enc[i]?=some encrypted ∧
      state'=stateAfterRound2 (decide (i=keys.clientId)) state encrypted := by
  obtain ⟨-,hs,-,-⟩:=h
  rw [getElem?_map] at hi
  obtain ⟨nb,hn,rfl⟩:=Option.map_eq_some_iff.mp hi
  exact readKeyShares_state (forall₂_range hs hn)

end

end ReadsShares

def timesListed (i : ℕ) (dead3ClientIds : List UInt32) : ℕ :=
  dead3ClientIds.countP fun id => (id-1).toNat=i

theorem markDead_eq_ok {clientId k : ℕ} {states' : List OtherClientState} {dead : List UInt32}
    (h : markDead clientId k states dead=.ok states') (i : ℕ) :
    (timesListed i dead=0 ∧ states'[i]?=states[i]?) ∨
      (timesListed i dead=1 ∧ states[i]?=some .alive ∧
        states'[i]?=some .deadAtRound3 ∧ i≠clientId) := by
  induction dead generalizing states with
  | nil =>
    cases h
    exact .inl ⟨rfl,rfl⟩
  | cons id rest ih =>
    unfold markDead at h
    simp only at h
    split at h
    · cases h
    next hself =>
      split at h
      · cases h
      · split at h
        · cases h
        next ha =>
          have hlt : (id-1).toNat<states.length := (List.getElem?_eq_some_iff.mp ha).1
          have hr:=ih h
          rw [timesListed,countP_cons,← timesListed]
          by_cases hi : (id-1).toNat=i
          · subst hi
            rw [getElem?_set_self hlt] at hr
            obtain ⟨hz,hs⟩ | ⟨-,hs,-,-⟩:=hr
            · exact .inr ⟨by simp [hz],ha,hs,hself⟩
            · cases hs
          · rw [getElem?_set_ne hi] at hr
            simpa [hi] using hr
        · cases h
        · cases h

theorem chooseShare_eq_ok {shares : SharesReceived}
    {share : NoiseOrPrfKeyShare} (h : chooseShare shares states i=.ok share) :
    match share with
    | .prfSkShare data => states[i]?=some .alive ∧ shares.selfKeyShares[i]?=some data
    | .noiseSkShare data => states[i]?=some .deadAtRound3 ∧ shares.pairwiseKeyShares[i]?=some data
    | .notSet => states[i]?=some .deadAtRound1 ∨ states[i]?=some .deadAtRound2 := by
  simp only [chooseShare,bind_eq_ok,elementAt_eq_ok] at h
  obtain ⟨state,hs,h⟩:=h
  rw [hs]
  cases state with
  | alive | deadAtRound3 =>
    simp only [bind_eq_ok,elementAt_eq_ok,pure_eq_ok] at h
    obtain ⟨data,hd,rfl⟩:=h
    exact ⟨rfl,hd⟩
  | deadAtRound1 =>
    cases h
    exact .inl rfl
  | deadAtRound2 =>
    cases h
    exact .inr rfl

end Fcp.SecAgg

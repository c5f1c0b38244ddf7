import Fcp.Lib.Run
import Fcp.SecAgg.Client.NeighborStates

/-!
# What a client discloses

Over its whole life, whatever the server sends, a client discloses at most one of the two secrets
of a neighbor.
-/

namespace Fcp.SecAgg.SecAggClient

open ClientState (Moves)
open List

variable {env : ClientEnv}

abbrev History := List (SecAggClient × Event)

def ReceivedIn (history : History) (inState : ClientState → Prop)
    (message : ServerToClientWrapperMessage) : Prop :=
  ∃ c asyncAbort fuel,(c,Event.receiveMessage asyncAbort fuel message)∈history ∧ inState c.state

def InRound1 (s : ClientState) : Prop := ∃ inputMap,s=.r1ShareKeys inputMap

def InRound2 (s : ClientState) : Prop := ∃ keys inputMap,s=.r2MaskedInputColl keys inputMap

def InRound3 (s : ClientState) : Prop := ∃ shares,s=.r3Unmasking shares

variable {hist : History}

theorem ReceivedIn.append {inState : ClientState → Prop} {msg : ServerToClientWrapperMessage}
    (h : ReceivedIn hist inState msg) (entry : SecAggClient × Event) :
    ReceivedIn (hist++[entry]) inState msg := by
  obtain ⟨c,asyncAbort,fuel,hm,hs⟩:=h
  exact ⟨c,asyncAbort,fuel,mem_append_left _ hm,hs⟩

def AliveAfterRound2 (env : ClientEnv) (request : ShareKeysRequest)
    (encryptedKeyShares : List Bytes) (i : ℕ) : Prop :=
  ∃ pair encrypted,request.pairsOfPublicKeys[i]?=some pair ∧ pair.missing=false ∧
    encryptedKeyShares[i]?=some encrypted ∧ (pair=env.ownKeys ∨ encrypted≠[])

def Permitted (env : ClientEnv) (request : ShareKeysRequest) (encryptedKeyShares : List Bytes)
    (dead3ClientIds : List UInt32) (i : ℕ) : NoiseOrPrfKeyShare → Prop
  | .noiseSkShare _ =>
    AliveAfterRound2 env request encryptedKeyShares i ∧ timesListed i dead3ClientIds=1
  | .prfSkShare _ =>
    AliveAfterRound2 env request encryptedKeyShares i ∧ timesListed i dead3ClientIds=0
  | .notSet => ¬AliveAfterRound2 env request encryptedKeyShares i

def Discloses (env : ClientEnv) (history : History) (response : List NoiseOrPrfKeyShare) : Prop :=
  ∃ request encryptedKeyShares dead3ClientIds,
    ReceivedIn history InRound1 (.shareKeysRequest request) ∧
    ReceivedIn history InRound2 (.maskedInputRequest encryptedKeyShares) ∧
    ReceivedIn history InRound3 (.unmaskingRequest dead3ClientIds) ∧
    response.length=request.pairsOfPublicKeys.length ∧
    ∀ i share,response[i]?=some share →
      Permitted env request encryptedKeyShares dead3ClientIds i share

def KeysSeen (env : ClientEnv) (history : History) (keys : KeysReceived) : Prop :=
  ∃ request encrypted,ReceivedIn history InRound1 (.shareKeysRequest request) ∧
    SharesKeys env request keys encrypted

def SharesSeen (env : ClientEnv) (history : History) (shares : SharesReceived) : Prop :=
  ∃ request encryptedKeyShares,ReceivedIn history InRound1 (.shareKeysRequest request) ∧
    ReceivedIn history InRound2 (.maskedInputRequest encryptedKeyShares) ∧
    shares.numberOfNeighbors=request.pairsOfPublicKeys.length ∧
    ∀ i state,shares.otherClientStates[i]?=some state →
      (state=.alive ↔ AliveAfterRound2 env request encryptedKeyShares i) ∧ state≠.deadAtRound3

def StateSeen (env : ClientEnv) (history : History) : ClientState → Prop
  | .r2MaskedInputColl keys _ => KeysSeen env history keys
  | .r2WaitingForInput shares _ | .r3Unmasking shares => SharesSeen env history shares
  | _ => True

variable {s : ClientState} {keys : KeysReceived} {enc : List Bytes}
  {shares : SharesReceived} {mapOfMasks : SecAggVectorMap} {e : Event} {t : Transition}

theorem StateSeen.append (h : StateSeen env hist s)
    (entry : SecAggClient × Event) : StateSeen env (hist++[entry]) s := by
  cases s with
  | r2MaskedInputColl keys ins =>
    obtain ⟨req,encrypted,hr,hk⟩:=h
    exact ⟨req,encrypted,hr.append entry,hk⟩
  | r2WaitingForInput shares _ | r3Unmasking shares =>
    obtain ⟨req,encrypted,hf,hs,hstate⟩:=h
    exact ⟨req,encrypted,hf.append entry,hs.append entry,hstate⟩
  | _ => trivial

theorem stateAfterRound2_alive {req : ShareKeysRequest}
    {encrypted' : List Bytes} {i : ℕ} {state : OtherClientState}
    {encrypted : Bytes} (hk : SharesKeys env req keys encrypted')
    (hs : keys.otherClientStates[i]?=some state)
    (he : enc[i]?=some encrypted) :
    (stateAfterRound2 (decide (i=keys.clientId)) state encrypted=.alive ↔
        AliveAfterRound2 env req enc i) ∧
      stateAfterRound2 (decide (i=keys.clientId)) state encrypted≠.deadAtRound3 := by
  rw [hk.otherClientStates_eq,getElem?_map] at hs
  obtain ⟨pair,hp,rfl⟩:=Option.map_eq_some_iff.mp hs
  have ha : AliveAfterRound2 env req enc i ↔
      pair.missing=false ∧ (i=keys.clientId ∨ encrypted≠[]) := by
    simp [AliveAfterRound2,hp,he,hk.own_iff hp]
  rw [ha,stateAfterRound2,stateAfterRound1]
  cases pair.missing with
  | true => simp
  | false =>
    by_cases hself : i=keys.clientId
    · simp [hself]
    · cases encrypted <;> simp [hself]

theorem KeysSeen.readShares {fuel : ℕ} (hseen : KeysSeen env hist keys)
    (hr : ReceivedIn hist InRound2 (.maskedInputRequest enc))
    (hs : ReadsShares env fuel keys enc shares mapOfMasks) :
    SharesSeen env hist shares := by
  obtain ⟨req,encrypted,hf,hk⟩:=hseen
  refine ⟨req,enc,hf,hr,?_,?_⟩
  · rw [hs.numberOfNeighbors_eq,hk.numberOfNeighbors_eq]
  · intro i state' hi
    obtain ⟨state,e,hstate,he,rfl⟩:=hs.otherClientStates_getElem hi
    exact stateAfterRound2_alive hk hstate he

theorem SharesSeen.unmask {dead : List UInt32}
    {resp : List NoiseOrPrfKeyShare} (hseen : SharesSeen env hist shares)
    (hr : ReceivedIn hist InRound3 (.unmaskingRequest dead))
    (hu : Unmasks env shares dead resp) : Discloses env hist resp := by
  obtain ⟨req,enc,hf,hsecond,hn,hstate⟩:=hseen
  obtain ⟨hm,-,hchoose⟩:=hu
  refine ⟨req,enc,dead,hf,hsecond,hr,?_,?_⟩
  · rw [← hchoose.length_eq,length_range,hn]
  · intro i share hi
    have hc:=chooseShare_eq_ok (forall₂_range hchoose hi)
    obtain ⟨hl,hsame⟩ | ⟨hl,ha,hd,-⟩:=markDead_eq_ok hm i
    · -- a neighbor that is not listed: the state of round 2 decides
      rw [hsame] at hc
      cases share with
      | prfSkShare data => exact ⟨(hstate i _ hc.1).1.mp rfl,hl⟩
      | noiseSkShare data => exact absurd rfl (hstate i _ hc.1).2
      | notSet => obtain hs | hs:=hc <;> exact fun h => nomatch (hstate i _ hs).1.mpr h
    · rw [hd] at hc
      cases share with
      | prfSkShare data => cases hc.1
      | noiseSkShare data => exact ⟨(hstate i _ ha).1.mp rfl,hl⟩
      | notSet => obtain hs | hs:=hc <;> cases hs

def isUnmaskingResponse : ClientToServerWrapperMessage → Bool
  | .unmaskingResponse _ => true
  | _ => false

inductive Silent (env : ClientEnv) (history : History) : SecAggClient → Prop
  | before {c : SecAggClient} (hnone : ∀ m∈c.sent,isUnmaskingResponse m=false) :
      Silent env history c
  | after {sent : List ClientToServerWrapperMessage} {response : List NoiseOrPrfKeyShare}
      (hnone : ∀ m∈sent,isUnmaskingResponse m=false)
      (hresponse : Discloses env history response) :
      Silent env history ⟨.completed,sent++[.unmaskingResponse response]⟩

variable {c : SecAggClient}

theorem Silent.append (h : Silent env hist c) (entry : SecAggClient × Event) :
    Silent env (hist++[entry]) c := by
  cases h with
  | before hn => exact .before hn
  | after hn hr =>
    obtain ⟨req,encrypted,ids,hf,hs,ht,he⟩:=hr
    exact .after hn ⟨req,encrypted,ids,hf.append entry,hs.append entry,ht.append entry,he⟩

theorem moves_response (h : Moves env s e t) : (∀ m∈t.2,isUnmaskingResponse m=false) ∨
      ∃ asyncAbort fuel shares dead resp,s=.r3Unmasking shares ∧
        e=.receiveMessage asyncAbort fuel (.unmaskingRequest dead) ∧
        Unmasks env shares dead resp ∧
        t=(.completed,[.unmaskingResponse resp]) := by
  cases h with
  | unmask hr => exact .inr ⟨_,_,_,_,_,rfl,rfl,hr,rfl⟩
  | maskInput _ hmessage | maskInputLate _ hmessage =>
    simp only [maskedInputMessage,bind_eq_ok,pure_eq_ok] at hmessage
    obtain ⟨vecs,-,rfl⟩:=hmessage
    refine .inl fun m hm => mem_singleton.mp hm ▸ ?_
    split <;> rfl
  | inputR0 | inputR1 | inputR2 | readShares => exact .inl fun m hm => absurd hm not_mem_nil
  | @stop _ _ _ _ earlySuccess =>
    refine .inl fun m hm => ?_
    cases earlySuccess <;> cases hm
  | advertise | abort | shareKeys => exact .inl fun m hm => mem_singleton.mp hm ▸ rfl

theorem moves_stateSeen (hs : StateSeen env hist c.state)
    (h : Moves env c.state e t) : StateSeen env (hist++[(c,e)]) t.1 := by
  have hl : (c,e)∈hist++[(c,e)] := mem_append_right _ (mem_singleton.mpr rfl)
  replace hs := hs.append (c,e)
  obtain ⟨state,sent⟩:=c
  dsimp only at h hs
  cases h with
  | shareKeys hk => exact ⟨_,_,⟨_,_,_,hl,_,rfl⟩,hk⟩
  | inputR2 | maskInputLate => exact hs
  | readShares hshares | maskInput hshares =>
    exact KeysSeen.readShares hs ⟨_,_,_,hl,_,_,rfl⟩ hshares
  | @stop _ _ _ _ earlySuccess => cases earlySuccess <;> trivial
  | _ => trivial

theorem seen_of_run (h : Run (step env) create hist c) :
    StateSeen env hist c.state ∧ Silent env hist c := by
  induction h with
  | nil => exact ⟨trivial,.before fun m hm => absurd hm not_mem_nil⟩
  | @snoc hist c c' e _ hs ih =>
    obtain ⟨hseen,hsilent⟩:=ih
    obtain rfl | ⟨t,hmove,rfl⟩:=step_moves hs
    · exact ⟨hseen.append _,hsilent.append _⟩
    · refine ⟨moves_stateSeen hseen hmove,?_⟩
      cases hsilent with
      | after =>
        -- a completed session answers no call
        cases hmove with
        | abort _ hl | stop hl => cases hl.2
      | before hn =>
        obtain ho | ⟨asyncAbort,fuel,shares,ids,resp,hstate,rfl,hu,rfl⟩:=moves_response hmove
        · exact .before fun m hm => (mem_append.mp hm).elim (hn m) (ho m)
        · refine .after hn ?_
          have hlast : (c,Event.receiveMessage asyncAbort fuel (.unmaskingRequest ids)) ∈
              hist++[(c,.receiveMessage asyncAbort fuel (.unmaskingRequest ids))] :=
            mem_append_right _ (mem_singleton.mpr rfl)
          have hshares:=hseen.append (c,.receiveMessage asyncAbort fuel (.unmaskingRequest ids))
          rw [hstate] at hshares
          exact SharesSeen.unmask hshares ⟨c,asyncAbort,fuel,hlast,shares,hstate⟩ hu

/-- In every session, with arbitrary messages from the server, a client sends at most one
unmasking response. Each of its entries holds what is permitted, so never both secrets of a
neighbor, and only an abort could follow it. -/
theorem unmasking_response_of_run {hist : History} {c : SecAggClient}
    (h : Run (step env) create hist c) :
    c.sent.countP isUnmaskingResponse≤1 ∧
      ∀ before response after,c.sent=before++.unmaskingResponse response::after →
        Discloses env hist response ∧ ∀ m∈after,∃ reason,m=.abort reason := by
  have hc : ∀ sent : List ClientToServerWrapperMessage,
      (∀ m∈sent,isUnmaskingResponse m=false) → sent.countP isUnmaskingResponse=0 := by
    intro sent hn
    exact countP_eq_zero.mpr fun m hm => by rw [hn m hm]; exact Bool.false_ne_true
  obtain ⟨-,hs⟩:=seen_of_run h
  cases hs with
  | before hn =>
    refine ⟨by rw [hc _ hn]; exact Nat.zero_le _,fun before response after hsent => ?_⟩
    have hmem : ClientToServerWrapperMessage.unmaskingResponse response∈c.sent := by
      rw [hsent]
      exact mem_append_right _ mem_cons_self
    cases hn _ hmem
  | @after sent response hn hr =>
    refine ⟨by simp [countP_append,hc _ hn,isUnmaskingResponse],
      fun before response' after hsent => ?_⟩
    -- the response is the last message sent, so nothing stands after it
    obtain rfl | ⟨init,last,rfl⟩:=eq_nil_or_concat after
    · obtain ⟨-,hl⟩:=append_inj' hsent rfl
      cases hl
      exact ⟨hr,fun m hm => absurd hm not_mem_nil⟩
    · rw [concat_eq_append,← cons_append,← append_assoc] at hsent
      obtain ⟨hi,-⟩:=append_inj' hsent rfl
      have hmem : ClientToServerWrapperMessage.unmaskingResponse response'∈sent := by
        rw [hi]
        exact mem_append_right _ mem_cons_self
      cases hn _ hmem

/-- A client starts, reads the keys of two neighbors and then `rest`. -/
def sessionEvents (rest : Bytes → (ServerToClientWrapperMessage → Event) → List Event) :
    List Event :=
  let receive := Event.receiveMessage ⟨"",none⟩ 0
  .start::receive (.shareKeysRequest ⟨[1,2,3].map fun seed => ClientEnv.ownKeys (.toy seed []),
      List.replicate 32 0⟩)::
    rest (List.replicate 12 0++Crypto.toy.serialize ⟨[1],[2]⟩++List.replicate 16 0) receive

def disclosesAround : ClientToServerWrapperMessage → Bool
  | .unmaskingResponse [.prfSkShare _,.noiseSkShare _,.prfSkShare _] => true
  | _ => false

theorem unmasking_response_of_run_three : ∃ hist c,Run (step (.toy 1 [])) create hist c ∧
      c.sent.countP isUnmaskingResponse=1 ∧
      ∀ before response after,c.sent=before++.unmaskingResponse response::after →
        Discloses (.toy 1 []) hist response ∧ ∀ m∈after,∃ reason,m=.abort reason := by
  obtain ⟨hist,c,hrun,m,hm,htrue⟩:=exists_run (step (.toy 1 [])) create
    (sessionEvents fun encrypted receive =>
      [.setInput ∅,receive (.maskedInputRequest [[],encrypted,encrypted]),
        receive (.unmaskingRequest [2])])
    (P := fun c => ∃ m∈c.sent,disclosesAround m) (by decide +kernel)
  obtain ⟨hc,hr⟩:=unmasking_response_of_run hrun
  refine ⟨hist,c,hrun,?_,hr⟩
  have hp : 0<c.sent.countP isUnmaskingResponse := by
    refine countP_pos_iff.mpr ⟨m,hm,?_⟩
    cases m <;> first | rfl | cases htrue
  omega

end Fcp.SecAgg.SecAggClient

import Fcp.SecAgg.Server.ClientDrops

/-!
# Leaving a round

`ProceedToNextRound` in closed form: the silent clients are dropped, then every client that is left
is sent its message of the next round.
-/

namespace Fcp.SecAgg

open List
namespace ServerState
variable {G : SharingGraph} (env : ServerEnv G)

/-- Nobody is silent: every client is dead or has answered in this round. -/
def Settled (s : ServerState G) (received : ClientStatus) : Prop :=
  ∀ i,(s.clientStatus i).isDead=true ∨ s.clientStatus i=received

def sendEach (s : ServerState G) (recipient : G.ClientId → Bool)
    (message : G.ClientId → ServerToClientWrapperMessage) : ServerState G :=
  { s with sent := fun i => if recipient i then s.sent i++[message i] else s.sent i }

def leaveR0 (s : ServerState G) : ServerState G :=
  let impl := s.impl.computeSessionId env.crypto
  let s := s.sendEach (fun i => !(s.clientStatus i).isDead) fun i =>
    .shareKeysRequest ⟨impl.prepareShareKeysRequestForClient i,impl.sessionId.getD []⟩
  { s with impl := impl.clearPairsOfPublicKeys }.enter .r1ShareKeys

def leaveR1 (s : ServerState G) : ServerState G :=
  let s' := s.sendEach (fun i => decide (s.clientStatus i=.shareKeysReceived)) fun i =>
    .maskedInputRequest (s.impl.prepareMaskedInputCollectionRequestForClient i)
  { s' with impl := s.impl.clearShareKeys.setupMaskedInputCollection env }.enter
    .r2MaskedInputCollection

def leaveR2 (s : ServerState G) (impl : ProtocolImpl G) : ServerState G :=
  let s' := s.sendEach (fun i => !(s.clientStatus i).isDead) fun i =>
    .unmaskingRequest (s.dead3ClientIds i)
  { s' with impl := impl.setUpShamirSharesTables }.enter .r3Unmasking

section
variable (r : ServerState G → G.ClientId → Bool)
  (msg : ServerState G → G.ClientId → ServerToClientWrapperMessage)
  (hr : ∀ s sent,r { s with sent := sent }=r s) (hm : ∀ s sent,msg { s with sent := sent }=msg s)
include hr hm

theorem foldlM_send (l : List G.ClientId) (hl : l.Nodup) (s : ServerState G) :
    l.foldlM (fun s i => if r s i then .ok (s.send i (msg s i)) else .ok s) s =
      (.ok (s.sendEach (fun i => decide (i∈l) && r s i) (msg s)) : Checked (ServerState G)) := by
  induction l generalizing s with
  | nil => simp [sendEach,pure,Except.pure]
  | cons i l ih =>
    obtain ⟨hi,hl⟩:=nodup_cons.mp hl
    rw [foldlM_cons]
    cases hc : r s i with
    | true | false =>
      simp only [Bool.false_eq_true,if_true,if_false,ok_bind]
      rw [ih hl]
      simp only [sendEach,send,hr,hm]
      congr 2
      funext j
      by_cases hj : j=i
      · subst hj
        simp [hi,hc]
      · simp [hj]

theorem forClients_send (s : ServerState G) :
    s.forClients (fun s i => if r s i then .ok (s.send i (msg s i)) else .ok s) =
      .ok (s.sendEach (r s) (msg s)) := by
  rw [forClients,foldlM_send r msg hr hm _ (nodup_finRange _)]
  simp

end

variable {r : G.ClientId → Bool} {i : G.ClientId}

theorem dropClient_sendEach (hi : r i=false)
    (msg : G.ClientId → ServerToClientWrapperMessage) (s : ServerState G) (reason : String)
    (code : ClientDropReason) :
    (s.sendEach r msg).dropClient env i reason code true =
      (s.dropClient env i reason code true).sendEach r msg := by
  have hs : Function.update (s.sendEach r msg).sent i
      ((s.sendEach r msg).sent i++[.abort reason (decide (code=.earlySuccess))])
      = ((s.dropClient env i reason code true).sendEach r msg).sent := by
    funext j
    by_cases hj : j=i
    · subst hj
      simp [sendEach,hi,dropClient,dropEffect,dropCounts]
    · simp [sendEach,hj,dropClient,dropEffect,dropCounts]
  have hr : ∀ sent,{ (s.sendEach r msg).dropClient env i reason code true with
      sent := sent }={ s.dropClient env i reason code true with sent := sent } :=
    fun sent => rfl
  exact (congrArg (fun sent => { (s.sendEach r msg).dropClient env i reason code
    true with sent := sent }) hs).trans (hr _)

def r1Body (s : ServerState G) (i : G.ClientId) : Checked (ServerState G) :=
  if !s.impl.isClientDead i && decide (s.clientStatus i≠.shareKeysReceived) then
    s.abortClient env i "Client did not send ShareKeysResponse before round transition."
      .noShareKeys true
  else if s.clientStatus i=.shareKeysReceived then
    .ok (s.send i (.maskedInputRequest (s.impl.prepareMaskedInputCollectionRequestForClient i)))
  else .ok s

theorem r1Body_received {s : ServerState G} (hr : s.clientStatus i=.shareKeysReceived) :
    r1Body env s i=.ok (s.send i
      (.maskedInputRequest (s.impl.prepareMaskedInputCollectionRequestForClient i))) := by
  simp [r1Body,hr]

theorem r1Body_dead {s : ServerState G} (hd : (s.clientStatus i).isDead=true) :
    r1Body env s i=.ok s := by
  have hne : s.clientStatus i≠.shareKeysReceived := by
    intro h
    rw [h] at hd
    cases hd
  simp [r1Body,hd,hne]

theorem r1Body_silent {s : ServerState G} (hs : s.isTerminal=false)
    (hd : (s.clientStatus i).isDead=false) (hr : s.clientStatus i≠.shareKeysReceived) :
    r1Body env s i=.ok (s.dropClient env i
      "Client did not send ShareKeysResponse before round transition." .noShareKeys true) := by
  simp [r1Body,hd,hr,abortClient_eq env hs]

variable {l : List G.ClientId}

theorem sendEach_append {s : ServerState G}
    {msg : G.ClientId → ServerToClientWrapperMessage} (hi : i∉l) (hr : r i=true) :
    (s.sendEach (fun j => decide (j∈l) && r j) msg).send i (msg i) =
      s.sendEach (fun j => decide (j∈l++[i]) && r j) msg := by
  simp only [sendEach,send]
  congr 1
  funext j
  by_cases hj : j=i
  · subst hj
    simp [hi,hr]
  · simp [hj]

theorem sendEach_append_of_not {s : ServerState G}
    (msg : G.ClientId → ServerToClientWrapperMessage) (hr : r i=false) :
    s.sendEach (fun j => decide (j∈l) && r j) msg =
      s.sendEach (fun j => decide (j∈l++[i]) && r j) msg := by
  simp only [sendEach]
  congr 1
  funext j
  by_cases hj : j=i
  · subst hj
    simp [hr]
  · simp [hj]

theorem forall_mem_append_singleton {α : Type} {l : List α} {i : α} {P : α → Prop}
    (hl : ∀ j∈l,P j) (hi : P i) : ∀ j∈l++[i],P j := by
  intro j hj
  rcases mem_append.mp hj with hj | hj
  · exact hl j hj
  · rwa [mem_singleton.mp hj]

theorem r1_loop {s : ServerState G} (hk : s.kind=.r1ShareKeys) (l : List G.ClientId)
    (hl : l.Nodup) :
    ∃ t,DropsSilent env .shareKeysReceived .noShareKeys s t ∧
      (∀ i∈l,(t.clientStatus i).isDead=true ∨ t.clientStatus i=.shareKeysReceived) ∧
      l.foldlM (r1Body env) s=.ok (t.sendEach
        (fun i => decide (i∈l) && decide (s.clientStatus i=.shareKeysReceived))
        fun i => .maskedInputRequest (s.impl.prepareMaskedInputCollectionRequestForClient i)) := by
  induction l using List.reverseRecOn with
  | nil => exact ⟨s,.refl,by simp,by simp [sendEach,pure,Except.pure]⟩
  | append_singleton l i ih =>
    obtain ⟨hl,hil⟩ : l.Nodup ∧ i∉l := by
      rw [nodup_append] at hl
      exact ⟨hl.1,fun h => hl.2.2 i h i (mem_singleton_self i) rfl⟩
    obtain ⟨t,hdrops,hs,heq⟩:=ih hl
    have ht : t.isTerminal=false := not_terminal_iff.mpr (by simp [hdrops.kind_eq.trans hk])
    rw [foldlM_append,heq,ok_bind,foldlM_cons]
    simp only [foldlM_nil,bind_pure]
    by_cases hr : t.clientStatus i=.shareKeysReceived
    · -- it has answered: the request goes out
      have hsi : s.clientStatus i=.shareKeysReceived := by
        rw [← hdrops.status_of_alive (by rw [hr]; rfl),hr]
      have hi : t.impl.prepareMaskedInputCollectionRequestForClient i =
          s.impl.prepareMaskedInputCollectionRequestForClient i := by
        rw [hdrops.impl_eq (by rw [hk]; rfl)]
        rfl
      refine ⟨t,hdrops,forall_mem_append_singleton hs (.inr hr),?_⟩
      refine (r1Body_received env (by exact hr)).trans (congrArg Except.ok ?_)
      rw [← sendEach_append hil (by simpa using hsi),← hi]
      rfl
    · have hsi : s.clientStatus i≠.shareKeysReceived := by
        intro h
        exact hr ((hdrops.status_eq (.inr h)).trans h)
      cases hd : (t.clientStatus i).isDead with
      | true =>
        refine ⟨t,hdrops,forall_mem_append_singleton hs (.inl hd),?_⟩
        refine (r1Body_dead env (by exact hd)).trans (congrArg Except.ok ?_)
        exact sendEach_append_of_not _ (by simpa using hsi)
      | false =>
        refine ⟨t.dropClient env i "Client did not send ShareKeysResponse before round transition."
          .noShareKeys true,hdrops.tail (.drop i _ ht hd hr),?_,?_⟩
        · refine forall_mem_append_singleton (fun j hj => ?_) (.inl ?_)
          · have hji : j≠i := fun h => hil (h ▸ hj)
            rw [dropClient_clientStatus,Function.update_of_ne hji]
            exact hs j hj
          · rw [dropClient_clientStatus,Function.update_self]
            exact isDead_deadStatus (not_terminal_iff.mp ht) _
        · refine (r1Body_silent env (by exact ht) (by exact hd) (by exact hr)).trans
            (congrArg Except.ok ?_)
          rw [dropClient_sendEach env (by simp [hil])]
          exact sendEach_append_of_not _ (by simpa using hsi)

section
variable {s : ServerState G}

theorem r0Next_eq (hk : s.kind=.r0AdvertiseKeys) :
    ∃ t,DropsSilent env .advertiseKeysReceived .noAdvertiseKeys s t ∧
      t.Settled .advertiseKeysReceived ∧ r0Next env s=.ok (leaveR0 env t) := by
  have hs : s.isTerminal=false := not_terminal_iff.mpr (by simp [hk])
  obtain ⟨t,ht,hd,hset⟩:=silent_loop env (dropsIfSilent_abortIfSilent env .advertiseKeysReceived
      "Client did not send AdvertiseKeys message before round transition." .noAdvertiseKeys)
    (List.finRange G.numNodes) s hs
  refine ⟨t,hd,fun i => hset i (mem_finRange i),?_⟩
  rw [r0Next,forClients,ht,ok_bind]
  simp only [ProtocolImpl.computeSessionId]
  rw [forClients_send (fun s i => !s.impl.isClientDead i) (fun s i => .shareKeysRequest
    ⟨s.impl.prepareShareKeysRequestForClient i,_⟩) (fun _ _ => rfl) (fun _ _ => rfl)]
  rfl

theorem r1Next_eq (hk : s.kind=.r1ShareKeys) :
    ∃ t,DropsSilent env .shareKeysReceived .noShareKeys s t ∧
      t.Settled .shareKeysReceived ∧ r1Next env s=.ok (leaveR1 env t) := by
  obtain ⟨t,hd,hs,hl⟩:=r1_loop env hk _ (nodup_finRange G.numNodes)
  refine ⟨t,hd,fun i => hs i (mem_finRange i),?_⟩
  have hr : (fun i => decide (i∈List.finRange G.numNodes) &&
      decide (s.clientStatus i=.shareKeysReceived)) =
      fun i => decide (t.clientStatus i=.shareKeysReceived) := by
    funext i
    simp only [mem_finRange,decide_true,Bool.true_and,decide_eq_decide]
    constructor
    · intro h
      exact (hd.status_eq (.inr h)).trans h
    · intro h
      rw [← hd.status_of_alive (by rw [h]; rfl),h]
  have hi : s.impl.prepareMaskedInputCollectionRequestForClient =
      t.impl.prepareMaskedInputCollectionRequestForClient := by
    rw [hd.impl_eq (by rw [hk]; rfl)]
    rfl
  rw [hr,hi] at hl
  have hb : r1Next env s=(s.forClients (r1Body env) >>= fun s =>
      let s := { s with impl := s.impl.clearShareKeys }.enter .r2MaskedInputCollection
      pure { s with impl := s.impl.setupMaskedInputCollection env }) := rfl
  rw [hb,forClients,hl,ok_bind]
  rfl

theorem r2Next_eq (hk : s.kind=.r2MaskedInputCollection) :
    ∃ t,DropsSilent env .maskedInputResponseReceived .noMaskedInput s t ∧
      t.Settled .maskedInputResponseReceived ∧
      r2Next env s=(t.impl.finalizeMaskedInputCollection env >>= fun impl =>
        .ok (leaveR2 t impl)) := by
  have hs : s.isTerminal=false := not_terminal_iff.mpr (by simp [hk])
  obtain ⟨t,ht,hd,hset⟩:=silent_loop env
    (dropsIfSilent_abortIfSilent env .maskedInputResponseReceived
      "Client did not send MaskedInputCollectionResponse before round transition." .noMaskedInput)
    (List.finRange G.numNodes) s hs
  refine ⟨t,hd,fun i => hset i (mem_finRange i),?_⟩
  have hsend:=forClients_send (fun (s : ServerState G) i => !s.impl.isClientDead i)
    (fun s i => .unmaskingRequest (s.dead3ClientIds i)) (fun _ _ => rfl) (fun _ _ => rfl) t
  have hf : (fun (s : ServerState G) i => if (!s.impl.isClientDead i)=true then
      (.ok (s.send i (.unmaskingRequest (s.dead3ClientIds i))) : Checked (ServerState G))
      else .ok s) = fun s i => if s.impl.isClientDead i then .ok s
        else .ok (s.send i (.unmaskingRequest (s.dead3ClientIds i))) := by
    funext s i
    cases s.impl.isClientDead i <;> rfl
  rw [hf] at hsend
  rw [r2Next,forClients,ht,ok_bind,hsend,ok_bind]
  rfl

theorem r3Next_eq (hk : s.kind=.r3Unmasking) :
    ∃ t,DropsSilent env .unmaskingResponseReceived .earlySuccess s t ∧
      t.Settled .unmaskingResponseReceived ∧ r3Next env s=.ok (t.enter .prngRunning) := by
  have hs : s.isTerminal=false := not_terminal_iff.mpr (by simp [hk])
  have hb : DropsIfSilent env .unmaskingResponseReceived
      "Client did not send unmasking response but protocol completed successfully." .earlySuccess
      fun s i =>
        if s.clientStatus i≠.unmaskingResponseReceived then
          s.abortClient env i
            "Client did not send unmasking response but protocol completed successfully."
            .earlySuccess true
        else .ok s := by
    intro s i hs
    by_cases hr : s.clientStatus i=.unmaskingResponseReceived
    · simp [hr]
    · simp [hr,abortClient_eq env hs]
  obtain ⟨t,ht,hd,hset⟩:=silent_loop env hb (List.finRange G.numNodes) s hs
  refine ⟨t,hd,fun i => hset i (mem_finRange i),?_⟩
  rw [r3Next,forClients,ht]
  rfl

end

end ServerState
end Fcp.SecAgg

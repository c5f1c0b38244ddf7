import Fcp.SecAgg.Server.SecAggServer

/-!
# Dropping clients

`HandleAbortClient` of every round in one closed form, and the loops that drop silent clients.
-/

namespace Fcp.SecAgg

open List SharingGraph

namespace ProtocolImpl
variable {G : SharingGraph} (slots : List G.Slot) (client : G.ClientId) (c : G.ClientId)
  (m : ProtocolImpl G) (share : G.Slot → Bytes) (old : G.ClientId → G.Slot → Bytes)

def routed : G.ClientId → G.Slot → Bytes := fun v j =>
  match neighborIndex client v with
  | none => old v j
  | some i => if neighbor v j=client then share i else old v j

theorem getNeighborIndexOrDie_neighbor (i : G.Slot) :
    ∃ j,getNeighborIndexOrDie (neighbor c i) c=.ok j ∧ neighbor (neighbor c i) j=c := by
  have h:=areNeighbors_neighbor c i
  rw [areNeighbors_comm,areNeighbors_iff] at h
  obtain ⟨j,hj⟩:=h
  refine ⟨j,?_,hj⟩
  rw [getNeighborIndexOrDie,neighborIndex_eq_some.mpr hj]

def routedOn : G.ClientId → G.Slot → Bytes := fun v j =>
  match neighborIndex client v with
  | none => old v j
  | some i => if i∈slots ∧ neighbor v j=client then share i else old v j

theorem routedOn_cons {i j : G.Slot} (hj : neighbor (neighbor c i) j=c) :
    routedOn slots c share (Function.update old (neighbor c i)
          (Function.update (old (neighbor c i)) j (share i))) =
      routedOn (i::slots) c share old := by
  funext v k
  unfold routedOn
  cases hv : neighborIndex c v with
  | none =>
    have hne : v≠neighbor c i := by
      intro h
      rw [h,neighborIndex_eq_some.mpr rfl] at hv
      cases hv
    simp only [Function.update_of_ne hne]
  | some i' =>
    have hi':=neighborIndex_eq_some.mp hv
    by_cases hii : i'=i
    · subst hii
      subst hi'
      by_cases hk : neighbor (neighbor c i') k=c
      · have hkj : k=j := neighbor_injective _ (hk.trans hj.symm)
        simp [hkj,hj]
      · have hkj : k≠j := fun h => hk (h ▸ hj)
        simp [hk,hkj]
    · have hne : v≠neighbor c i := by
        intro h
        exact hii (neighbor_injective _ (hi'.trans h))
      simp [Function.update_of_ne hne,hii]

theorem routeShares_on (m : ProtocolImpl G) : slots.foldlM (fun m i => do
        let neighborId := neighbor c i
        let indexInNeighbor ← getNeighborIndexOrDie neighborId c
        return { m with
          encryptedShares := Function.update m.encryptedShares neighborId
            (Function.update (m.encryptedShares neighborId) indexInNeighbor (share i)) }) m =
      (.ok { m with encryptedShares := routedOn slots c share m.encryptedShares } :
        Checked (ProtocolImpl G)) := by
  induction slots generalizing m with
  | nil =>
    have h : routedOn [] c share m.encryptedShares=m.encryptedShares := by
      funext v j
      unfold routedOn
      split <;> simp
    rw [h]
    rfl
  | cons i slots ih =>
    obtain ⟨j,hj,hn⟩:=getNeighborIndexOrDie_neighbor c i
    rw [foldlM_cons]
    simp only [hj,ok_bind,pure_bind]
    rw [ih]
    simp only [routedOn_cons slots c share m.encryptedShares hn]

theorem routeShares_eq (m : ProtocolImpl G) :
    routeShares c share m=.ok { m with encryptedShares := routed c share m.encryptedShares } := by
  have h : routedOn (List.finRange G.degree) c share m.encryptedShares =
      routed c share m.encryptedShares := by
    funext v j
    simp [routedOn,routed]
  rw [routeShares,routeShares_on,h]

def withoutShares (client : G.ClientId) : ProtocolImpl G :=
  { m with encryptedShares := routed client (fun _ => []) m.encryptedShares }

theorem eraseShareKeysForClient_eq (c : G.ClientId) :
    m.eraseShareKeysForClient c=.ok (m.withoutShares c) :=
  routeShares_eq c _ m

@[simp] theorem clientStatus_setClientStatus (c : G.ClientId) (st : ClientStatus) :
    (m.setClientStatus c st).clientStatus=Function.update m.clientStatus c st := rfl

end ProtocolImpl

namespace ServerState
variable {G : SharingGraph} (env : ServerEnv G) (kind : SecAggServerStateKind)
  (received : ClientStatus) (status : ClientStatus) (m : ProtocolImpl G) (c : G.ClientId)
  (client : G.ClientId)

def deadStatus : ClientStatus :=
  match kind with
  | .r0AdvertiseKeys => .deadBeforeSendingAnything
  | .r1ShareKeys => .deadAfterAdvertiseKeysReceived
  | .r2MaskedInputCollection =>
    if status=.maskedInputResponseReceived then .deadAfterMaskedInputResponseReceived
    else .deadAfterShareKeysReceived
  | .r3Unmasking =>
    if status=.unmaskingResponseReceived then .deadAfterUnmaskingResponseReceived
    else .deadAfterMaskedInputResponseReceived
  | .prngRunning => .deadAfterUnmaskingResponseReceived
  | .completed
  | .aborted => status

def receivedStatus : SecAggServerStateKind → Option ClientStatus
  | .r0AdvertiseKeys => some .advertiseKeysReceived
  | .r1ShareKeys => some .shareKeysReceived
  | .r2MaskedInputCollection => some .maskedInputResponseReceived
  | .r3Unmasking => some .unmaskingResponseReceived
  | _ => none

def failsBefore : Bool :=
  match kind with
  | .r0AdvertiseKeys
  | .r1ShareKeys => true
  | .r2MaskedInputCollection => decide (status≠.maskedInputResponseReceived)
  | _ => false

/-- The drop is that of a client whose masked input stays in the sum without its unmasking. -/
def failsAfter : Bool :=
  match kind with
  | .r2MaskedInputCollection => decide (status=.maskedInputResponseReceived)
  | .r3Unmasking => decide (status≠.unmaskingResponseReceived)
  | _ => false

/-- The client no longer counts as ready; in round 3 an answer stays counted. -/
def losesReady : Bool := kind≠.r3Unmasking && decide (receivedStatus kind=some status)

def eraseImpl : ProtocolImpl G :=
  match kind with
  | .r0AdvertiseKeys =>
    if m.clientStatus client=.advertiseKeysReceived then m.erasePublicKeysForClient client else m
  | .r1ShareKeys =>
    if m.clientStatus client=.shareKeysReceived then m.withoutShares client else m
  | _ => m

def dropImpl : ProtocolImpl G :=
  (eraseImpl kind m client).setClientStatus client (deadStatus kind (m.clientStatus client))

def lacksClients (s : ServerState G) (status : ClientStatus) : Bool :=
  match s.kind with
  | .r0AdvertiseKeys
  | .r1ShareKeys
  | .r2MaskedInputCollection =>
    decide (s.numberOfAliveClients<env.minimumNumberOfClientsToProceed)
  | .r3Unmasking => decide (status≠.unmaskingResponseReceived) &&
      decide (s.numberOfPendingClients+s.messagesReceivedInThisRound <
        env.minimumNumberOfClientsToProceed)
  | _ => false

def dropCounts (s : ServerState G) (client : G.ClientId) (reasonCode : ClientDropReason) :
    ServerState G :=
  let status := s.clientStatus client
  let early := decide (s.kind=.r3Unmasking) && decide (reasonCode=.earlySuccess)
  { s with
    failedBeforeSendingMaskedInput :=
      s.failedBeforeSendingMaskedInput+(failsBefore s.kind status).toInt
    failedAfterSendingMaskedInput :=
      s.failedAfterSendingMaskedInput+(failsAfter s.kind status && !early).toInt
    terminatedWithoutUnmasking :=
      s.terminatedWithoutUnmasking+(failsAfter s.kind status && early).toInt
    readyForNextRound := s.readyForNextRound-(losesReady s.kind status).toInt
    clientsAbortedAtRound2 := s.clientsAbortedAtRound2 ++
      if s.kind=.r2MaskedInputCollection ∧ status≠.maskedInputResponseReceived then [client]
      else []
    impl := dropImpl s.kind s.impl client }

def dropEffect (s : ServerState G) (client : G.ClientId) (reasonCode : ClientDropReason) :
    ServerState G :=
  let s' := s.dropCounts client reasonCode
  { s' with needsToAbort := s.needsToAbort || lacksClients env s' (s.clientStatus client) }

theorem abortIfTooFewAlive_eq (s : ServerState G) : s.abortIfTooFewAlive env =
      { s with
        needsToAbort := s.needsToAbort ||
          decide (s.numberOfAliveClients<env.minimumNumberOfClientsToProceed) } := by
  unfold abortIfTooFewAlive
  split <;> simp [*]

section

attribute [local simp] dropEffect dropCounts dropImpl eraseImpl failsBefore failsAfter losesReady
  receivedStatus deadStatus lacksClients setClientStatus clientStatus numberOfAliveClients
  numberOfPendingClients

variable {s : ServerState G} (code : ClientDropReason)

theorem r0HandleAbortClient_eq (hk : s.kind=.r0AdvertiseKeys) :
    s.r0HandleAbortClient env c=s.dropEffect env c code := by
  rw [r0HandleAbortClient,abortIfTooFewAlive_eq]
  by_cases hc : s.impl.clientStatus c=.advertiseKeysReceived
  · simp [hk,hc]
  · simp [hk,hc,Ne.symm hc]

theorem r1HandleAbortClient_eq (hk : s.kind=.r1ShareKeys) :
    s.r1HandleAbortClient env c=.ok (s.dropEffect env c code) := by
  simp only [r1HandleAbortClient,abortIfTooFewAlive_eq]
  by_cases hc : s.impl.clientStatus c=.shareKeysReceived
  · simp [hk,hc,ProtocolImpl.eraseShareKeysForClient_eq]
    rfl
  · simp [hk,hc,Ne.symm hc]
    rfl

theorem r2HandleAbortClient_eq (hk : s.kind=.r2MaskedInputCollection) :
    s.r2HandleAbortClient env c=s.dropEffect env c code := by
  rw [r2HandleAbortClient,abortIfTooFewAlive_eq]
  by_cases hc : s.impl.clientStatus c=.maskedInputResponseReceived
  · simp [hk,hc]
  · simp [hk,hc,Ne.symm hc]

theorem r3HandleAbortClient_eq (hk : s.kind=.r3Unmasking) :
    s.r3HandleAbortClient env c code=s.dropEffect env c code := by
  unfold r3HandleAbortClient
  by_cases hc : s.impl.clientStatus c=.unmaskingResponseReceived
  · simp [hk,hc]
  · by_cases he : code=.earlySuccess
    · simp [hk,hc,he]
      split <;> simp_all
    · simp [hk,hc,he]
      split <;> simp_all

theorem handleAbortClient_eq (hs : s.isTerminal=false) :
    s.handleAbortClient env c code=.ok (s.dropEffect env c code) := by
  unfold handleAbortClient
  split <;> rename_i hk
  · rw [r0HandleAbortClient_eq env c code hk]
  · rw [r1HandleAbortClient_eq env c code hk]
  · rw [r2HandleAbortClient_eq env c code hk]
  · rw [r3HandleAbortClient_eq env c code hk]
  · simp [prngHandleAbortClient,hk]
  · simp [isTerminal,isCompletedSuccessfully,hk] at hs
  · simp [isTerminal,isAborted,hk] at hs

end

@[simp] theorem isClientDead_impl (s : ServerState G) (c : G.ClientId) :
    s.impl.isClientDead c=(s.clientStatus c).isDead := rfl

def dropClient (s : ServerState G) (client : G.ClientId) (reason : String)
    (reasonCode : ClientDropReason) (notify : Bool) : ServerState G :=
  let t := s.dropEffect env client reasonCode
  { t with
    sent := if notify then Function.update t.sent client
        (t.sent client++[.abort reason (decide (reasonCode=.earlySuccess))])
      else t.sent
    dropped := t.dropped++[⟨client,t.clientStatus client,reasonCode,reason⟩] }

theorem abortClient_eq {s : ServerState G} (hs : s.isTerminal=false) (c : G.ClientId)
    (reason : String) (code : ClientDropReason) (notify : Bool) :
    s.abortClient env c reason code notify=.ok (if (s.clientStatus c).isDead then s
        else s.dropClient env c reason code notify) := by
  cases hd : (s.clientStatus c).isDead with
  | true => simp [abortClient,hs,hd,pure,Except.pure]
  | false =>
    simp only [abortClient,hs,Bool.not_false,fcpCheck_true,ok_bind,isClientDead_impl,hd,
      Bool.false_eq_true,if_false,handleAbortClient_eq env c code hs]
    cases notify <;> rfl

section
variable (s : ServerState G) (reason : String) (code : ClientDropReason) (notify : Bool)

@[simp] theorem dropClient_kind : (s.dropClient env c reason code notify).kind=s.kind := rfl

@[simp] theorem dropClient_impl :
    (s.dropClient env c reason code notify).impl=dropImpl s.kind s.impl c := rfl

theorem eraseImpl_clientStatus : (eraseImpl kind m c).clientStatus=m.clientStatus := by
  unfold eraseImpl
  split
  · split <;> rfl
  · split <;> rfl
  · rfl

theorem dropImpl_clientStatus : (dropImpl kind m c).clientStatus =
      Function.update m.clientStatus c (deadStatus kind (m.clientStatus c)) := by
  rw [dropImpl,ProtocolImpl.clientStatus_setClientStatus,eraseImpl_clientStatus]

@[simp] theorem dropClient_clientStatus : (s.dropClient env c reason code notify).clientStatus =
      Function.update s.clientStatus c (deadStatus s.kind (s.clientStatus c)) :=
  dropImpl_clientStatus s.kind s.impl c

end

theorem isTerminal_congr {s t : ServerState G} (h : t.kind=s.kind) : t.isTerminal=s.isTerminal := by
  simp only [isTerminal,isAborted,isCompletedSuccessfully,h]

theorem isDead_deadStatus {kind : SecAggServerStateKind} (hk : kind≠.completed ∧ kind≠.aborted)
    (st : ClientStatus) : (deadStatus kind st).isDead=true := by
  cases kind with
  | completed => exact absurd rfl hk.1
  | aborted => exact absurd rfl hk.2
  | r2MaskedInputCollection | r3Unmasking => simp only [deadStatus]; split <;> rfl
  | _ => rfl

theorem not_terminal_iff {s : ServerState G} :
    s.isTerminal=false ↔ s.kind≠.completed ∧ s.kind≠.aborted := by
  simp only [isTerminal,isAborted,isCompletedSuccessfully,Bool.or_eq_false_iff,
    decide_eq_false_iff_not]
  exact and_comm

inductive DropSilent (received : ClientStatus) (reasonCode : ClientDropReason) :
    ServerState G → ServerState G → Prop
  | drop {s : ServerState G} (i : G.ClientId) (reason : String) (hs : s.isTerminal=false)
      (hd : (s.clientStatus i).isDead=false) (hr : s.clientStatus i≠received) :
      DropSilent received reasonCode s (s.dropClient env i reason reasonCode true)

abbrev DropsSilent (reasonCode : ClientDropReason) : ServerState G → ServerState G → Prop :=
  Relation.ReflTransGen (DropSilent env received reasonCode)

section
variable {env} {recv : ClientStatus} {code : ClientDropReason} {s t : ServerState G}

section

variable (h : DropsSilent env recv code s t)
include h

theorem DropsSilent.kind_eq : t.kind=s.kind := by
  induction h with
  | refl => rfl
  | tail _ hs ih =>
    cases hs
    exact ih

theorem DropsSilent.status_eq {i : G.ClientId}
    (hi : (s.clientStatus i).isDead=true ∨ s.clientStatus i=recv) :
    t.clientStatus i=s.clientStatus i := by
  induction h with
  | refl => rfl
  | @tail u _ _ hs ih =>
    cases hs with
    | drop j reason hu hd hr =>
      have hij : i≠j := by
        rintro rfl
        rcases hi with hi | hi
        · rw [ih,hi] at hd
          cases hd
        · exact hr (ih.trans hi)
      rw [dropClient_clientStatus,Function.update_of_ne hij,ih]

theorem DropsSilent.status_of_alive {i : G.ClientId} (hi : (t.clientStatus i).isDead=false) :
    t.clientStatus i=s.clientStatus i := by
  induction h with
  | refl => rfl
  | @tail u _ _ hs ih =>
    cases hs with
    | drop j reason hu hd hr =>
      have hij : i≠j := by
        rintro rfl
        rw [dropClient_clientStatus,Function.update_self,
          isDead_deadStatus (not_terminal_iff.mp hu)] at hi
        cases hi
      have hst : (u.dropClient env j reason code true).clientStatus i=u.clientStatus i := by
        rw [dropClient_clientStatus,Function.update_of_ne hij]
      rw [hst] at hi ⊢
      exact ih hi

end

theorem eraseImpl_of_silent {kind : SecAggServerStateKind} {m : ProtocolImpl G}
    {c : G.ClientId} (hr : receivedStatus kind=some recv)
    (hc : m.clientStatus c≠recv) : eraseImpl kind m c=m := by
  unfold eraseImpl
  split
  · cases hr
    exact if_neg hc
  · cases hr
    exact if_neg hc
  · rfl

section

variable (h : DropsSilent env recv code s t)
include h

theorem DropsSilent.impl_eq (hr : receivedStatus s.kind=some recv) :
    t.impl={ s.impl with clientStatus := t.clientStatus } := by
  induction h with
  | refl => rfl
  | @tail u _ hp hs ih =>
    cases hs with
    | drop j reason hu hd hrj =>
      rw [← DropsSilent.kind_eq hp] at hr
      rw [dropClient_impl,dropImpl,eraseImpl_of_silent hr hrj,dropClient_clientStatus,ih]
      rfl

theorem DropsSilent.ready_eq
    (hr : receivedStatus s.kind=some recv) : t.readyForNextRound=s.readyForNextRound := by
  induction h with
  | refl => rfl
  | @tail u _ hp hs ih =>
    cases hs with
    | drop j reason hu hd hrj =>
      rw [← DropsSilent.kind_eq hp] at hr
      have hl : losesReady u.kind (u.clientStatus j)=false := by simp [losesReady,hr,Ne.symm hrj]
      rw [← ih]
      simp [dropClient,dropEffect,dropCounts,hl]

theorem DropsSilent.messages_eq : t.messagesReceivedInThisRound=s.messagesReceivedInThisRound := by
  induction h with
  | refl => rfl
  | tail _ hs ih =>
    cases hs
    exact ih

end

end

def DropsIfSilent (reason : String) (reasonCode : ClientDropReason)
    (body : ServerState G → G.ClientId → Checked (ServerState G)) : Prop :=
  ∀ s i,s.isTerminal=false → body s i =
    .ok (if (s.clientStatus i).isDead=true ∨ s.clientStatus i=received then s
      else s.dropClient env i reason reasonCode true)

theorem dropsIfSilent_abortIfSilent (recv : ClientStatus) (reason : String)
    (code : ClientDropReason) :
    DropsIfSilent env recv reason code
      (abortIfSilent env recv reason code) := by
  intro s i hs
  by_cases hi : (s.clientStatus i).isDead=true ∨ s.clientStatus i=recv
  · rcases hi with hi | hi <;> simp [abortIfSilent,hi]
  · obtain ⟨hd,hr⟩:=not_or.mp hi
    simp [abortIfSilent,hd,hr,abortClient_eq env hs]

theorem silent_loop {recv : ClientStatus} {reason : String} {code : ClientDropReason}
    {body : ServerState G → G.ClientId → Checked (ServerState G)}
    (hb : DropsIfSilent env recv reason code body) (l : List G.ClientId)
    (s : ServerState G) (hs : s.isTerminal=false) :
    ∃ t,l.foldlM body s=.ok t ∧ DropsSilent env recv code s t ∧
      ∀ i∈l,(t.clientStatus i).isDead=true ∨ t.clientStatus i=recv := by
  induction l using List.reverseRecOn with
  | nil => exact ⟨s,rfl,Relation.ReflTransGen.refl,by simp⟩
  | append_singleton l i ih =>
    obtain ⟨t,hl,hdrops,hset⟩:=ih
    have ht : t.isTerminal=false := by rw [isTerminal_congr hdrops.kind_eq,hs]
    rw [foldlM_append,hl,ok_bind,foldlM_cons,hb t i ht]
    simp only [foldlM_nil,bind_pure]
    by_cases hi : (t.clientStatus i).isDead=true ∨ t.clientStatus i=recv
    · rw [if_pos hi]
      refine ⟨t,rfl,hdrops,fun j hj => ?_⟩
      rcases mem_append.mp hj with hj | hj
      · exact hset j hj
      · rwa [mem_singleton.mp hj]
    · rw [if_neg hi]
      obtain ⟨hd,hr⟩:=not_or.mp hi
      rw [Bool.not_eq_true] at hd
      refine ⟨_,rfl,hdrops.tail (.drop i reason ht hd hr),fun j hj => ?_⟩
      by_cases hij : j=i
      · left
        rw [hij,dropClient_clientStatus,Function.update_self]
        exact isDead_deadStatus (not_terminal_iff.mp ht) _
      · have hjl : j∈l := by
          rcases mem_append.mp hj with hj | hj
          · exact hj
          · exact absurd (mem_singleton.mp hj) hij
        rw [dropClient_clientStatus,Function.update_of_ne hij]
        exact hset j hjl

end ServerState
end Fcp.SecAgg

import Fcp.Lib.Tally
import Fcp.SecAgg.Server.ServerMoves

/-!
# The counters of the server

In every state of every run each counter is the number of clients in the statuses it stands for.
-/

namespace Fcp.SecAgg

open ProtocolImpl

namespace ProtocolImpl
variable {G : SharingGraph} {env : ServerEnv G} {m impl : ProtocolImpl G} {c : G.ClientId}

theorem handleAdvertiseKeys_clientStatus {keys : PairOfPublicKeys}
    (h : m.handleAdvertiseKeys c keys=.ok impl) : impl.clientStatus=m.clientStatus := by
  unfold handleAdvertiseKeys at h
  split at h
  · cases h
    rfl
  · cases h

theorem handleShareKeysResponse_clientStatus {shares : List Bytes}
    (h : m.handleShareKeysResponse c shares=.ok (.ok impl)) :
    impl.clientStatus=m.clientStatus := by
  unfold handleShareKeysResponse at h
  split at h
  · cases h
  · split at h
    · cases h
    · rw [routeShares_eq] at h
      cases h
      rfl

theorem handleMaskedInputCollectionResponse_clientStatus {vecs : NameMap Bytes}
    (h : m.handleMaskedInputCollectionResponse env vecs=.ok (.ok impl)) :
    impl.clientStatus=m.clientStatus := by
  unfold handleMaskedInputCollectionResponse at h
  split at h
  · cases h
  · obtain ⟨checked,-,h⟩:=bind_eq_ok.mp h
    cases checked with
    | error st => cases h
    | ok checked =>
      dsimp only at h
      split at h
      · split at h
        · cases h
        · cases h
          rfl
      · split at h
        · cases h
        · obtain ⟨sum,-,⟨⟩⟩:=bind_eq_ok.mp h
          rfl

theorem handleUnmaskingResponse_clientStatus {shares : List NoiseOrPrfKeyShare}
    (h : m.handleUnmaskingResponse c shares=.ok (.ok impl)) :
    impl.clientStatus=m.clientStatus := by
  unfold handleUnmaskingResponse at h
  split at h
  · obtain ⟨checked,-,h⟩:=bind_eq_ok.mp h
    cases checked with
    | error st => cases h
    | ok checked =>
      obtain ⟨tables,-,⟨⟩⟩:=bind_eq_ok.mp h
      rfl
  · cases h

theorem runQueueTask_clientStatus (h : m.runQueueTask=.ok impl) :
    impl.clientStatus=m.clientStatus := by
  unfold runQueueTask at h
  split at h
  · cases h
    rfl
  · split at h
    · cases h
      rfl
    · obtain ⟨sum,-,⟨⟩⟩:=bind_eq_ok.mp h
      rfl

theorem accumulateMaskedInput_clientStatus {i : ℕ} (h : m.accumulateMaskedInput i=.ok impl) :
    impl.clientStatus=m.clientStatus := by
  unfold accumulateMaskedInput at h
  split at h
  · cases h
    rfl
  · obtain ⟨accumulator,-,⟨⟩⟩:=bind_eq_ok.mp h
    rfl

theorem finalizeMaskedInputCollection_clientStatus
    (h : m.finalizeMaskedInputCollection env=.ok impl) :
    impl.clientStatus=m.clientStatus := by
  unfold finalizeMaskedInputCollection at h
  split at h
  · split at h
    · cases h
    · obtain ⟨_,-,⟨⟩⟩:=bind_eq_ok.mp h
      rfl
  · cases h
    rfl

theorem setResult_clientStatus {value : SecAggUnpackedVectorMap}
    (h : m.setResult value=.ok impl) : impl.clientStatus=m.clientStatus := by
  obtain ⟨items,-,h⟩:=bind_eq_ok.mp h
  obtain ⟨_,-,⟨⟩⟩:=bind_eq_ok.mp h
  rfl

theorem setupMaskedInputCollection_clientStatus :
    (m.setupMaskedInputCollection env).clientStatus=m.clientStatus := by
  unfold setupMaskedInputCollection
  cases env.asyncRound2 <;> rfl

end ProtocolImpl

namespace ServerState
variable {G : SharingGraph} {env : ServerEnv G} {s s' : ServerState G} {c : G.ClientId}

theorem roundHandler_clientStatus {msg : ClientToServerWrapperMessage} {impl : ProtocolImpl G}
    (h : s.roundHandler env c msg=some (.ok (.ok impl))) :
    impl.clientStatus=s.clientStatus := by
  unfold roundHandler at h
  split at h
  · exact handleAdvertiseKeys_clientStatus (by simpa using h)
  · exact handleShareKeysResponse_clientStatus (Option.some.inj h)
  · exact handleMaskedInputCollectionResponse_clientStatus (Option.some.inj h)
  · exact handleUnmaskingResponse_clientStatus (Option.some.inj h)
  · cases h

theorem enterState_eq_ok (hk : s.kind=.prngRunning) (h : s.enterState env=.ok s') :
    (∃ st,s.initializeWorkItems env=.ok (.error st) ∧ s'={ s with completionStatus := some st }) ∨
    ∃ items maskedInput,s.initializeWorkItems env=.ok (.ok items) ∧
      s.impl.maskedInput=some maskedInput ∧
      s'={ s with
        impl := { s.impl with maskedInput := none }
        prngRun := some ((prngGenerators items).foldl Accumulator.schedule
          (Accumulator.create maskedInput)) } := by
  rw [enterState,if_pos hk] at h
  obtain ⟨r,hr,h⟩:=bind_eq_ok.mp h
  cases r with
  | error st =>
    cases h
    exact .inl ⟨st,hr,rfl⟩
  | ok items =>
    obtain ⟨⟨impl,accumulator⟩,hs,⟨⟩⟩:=bind_eq_ok.mp h
    unfold startPrng at hs
    split at hs
    · cases hs
    next maskedInput hm =>
      cases hs
      exact .inr ⟨items,maskedInput,hr,hm,rfl⟩

def allowed : SecAggServerStateKind → ClientStatus → Bool
  | .r0AdvertiseKeys, .readyToStart
  | .r0AdvertiseKeys, .advertiseKeysReceived
  | .r1ShareKeys, .advertiseKeysReceived
  | .r1ShareKeys, .shareKeysReceived
  | .r2MaskedInputCollection, .shareKeysReceived
  | .r2MaskedInputCollection, .maskedInputResponseReceived
  | .r3Unmasking, .maskedInputResponseReceived
  | .r3Unmasking, .unmaskingResponseReceived
  | .prngRunning, .unmaskingResponseReceived
  | .completed, .unmaskingResponseReceived => true
  | .r0AdvertiseKeys, .deadBeforeSendingAnything => true
  | .r1ShareKeys, .deadBeforeSendingAnything
  | .r1ShareKeys, .deadAfterAdvertiseKeysReceived => true
  | .r2MaskedInputCollection, .deadAfterUnmaskingResponseReceived => false
  | .r2MaskedInputCollection, status
  | .r3Unmasking, status
  | .prngRunning, status
  | .completed, status => status.isDead
  | .aborted, _ => true
  | _, _ => false

def failedBefore : ClientStatus → Bool
  | .deadBeforeSendingAnything
  | .deadAfterAdvertiseKeysReceived
  | .deadAfterShareKeysReceived => true
  | _ => false

def failedAfter (status : ClientStatus) : Bool := status=.deadAfterMaskedInputResponseReceived

def countsAlive (status : ClientStatus) : Bool := !failedBefore status && !failedAfter status

def countsReady : SecAggServerStateKind → ClientStatus → Bool
  | .r3Unmasking, status => status=.unmaskingResponseReceived ||
      status=.deadAfterUnmaskingResponseReceived
  | kind, status => decide (receivedStatus kind=some status)

structure Bookkeeping (s : ServerState G) : Prop where
  allowed : ∀ i,allowed s.kind (s.clientStatus i)=true
  failedBefore : s.failedBeforeSendingMaskedInput=tally failedBefore s.clientStatus
  failedAfter : s.failedAfterSendingMaskedInput+s.terminatedWithoutUnmasking =
    tally failedAfter s.clientStatus
  ready : s.readyForNextRound=tally (countsReady s.kind) s.clientStatus
  messages : s.kind=.r3Unmasking → s.messagesReceivedInThisRound=s.readyForNextRound

theorem bookkeeping_create : Bookkeeping (create G) where
  allowed _ := rfl
  failedBefore := (tally_eq_zero fun _ => rfl).symm
  failedAfter := (tally_eq_zero fun _ => rfl).symm
  ready := (tally_eq_zero fun _ => rfl).symm
  messages h := by cases h

variable {kind : SecAggServerStateKind} {st : ClientStatus}

theorem dropped_status (hk : kind≠.completed ∧ kind≠.aborted)
    (ha : allowed kind st=true) (hd : st.isDead=false) :
    allowed kind (deadStatus kind st)=true ∧
    failedBefore st=false ∧ failedBefore (deadStatus kind st)=failsBefore kind st ∧
    failedAfter st=false ∧ failedAfter (deadStatus kind st)=failsAfter kind st ∧
    (countsReady kind st).toInt-(countsReady kind (deadStatus kind st)).toInt =
      (losesReady kind st).toInt := by
  cases kind <;> cases st <;> revert ha hd hk <;> decide

theorem Bookkeeping.drop (h : Bookkeeping s) {reason : String} {code : ClientDropReason}
    {notify : Bool} (hs : s.isTerminal=false) (hd : (s.clientStatus c).isDead=false) :
    Bookkeeping (s.dropClient env c reason code notify) := by
  obtain ⟨ha,hb,hb',hf,hf',hr⟩:=dropped_status (not_terminal_iff.mp hs) (h.allowed c) hd
  have hbefore:=h.failedBefore
  have hafter:=h.failedAfter
  have hready:=h.ready
  constructor
  · intro i
    rw [dropClient_clientStatus,dropClient_kind]
    by_cases hi : i=c
    · subst hi
      rw [Function.update_self]
      exact ha
    · rw [Function.update_of_ne hi]
      exact h.allowed i
  · rw [dropClient_clientStatus,tally_update,hb,hb',← hbefore]
    simp [dropClient,dropEffect,dropCounts]
  · rw [dropClient_clientStatus,tally_update,hf,hf',← hafter]
    simp only [dropClient,dropEffect,dropCounts]
    cases failsAfter s.kind (s.clientStatus c) <;>
      cases decide (s.kind=.r3Unmasking) && decide (code=.earlySuccess) <;> simp <;> omega
  · rw [dropClient_clientStatus,dropClient_kind,tally_update,← hready]
    simp only [dropClient,dropEffect,dropCounts]
    omega
  · intro hk
    have hl : losesReady s.kind (s.clientStatus c)=false := by
      rw [dropClient_kind] at hk
      simp [losesReady,hk]
    simpa [dropClient,dropEffect,dropCounts,hl] using h.messages hk

theorem accepted_status {recv : ClientStatus} (he : expectedStatus kind=some st)
    (hr : receivedStatus kind=some recv) :
    allowed kind recv=true ∧
    failedBefore st=false ∧ failedBefore recv=false ∧
    failedAfter st=false ∧ failedAfter recv=false ∧
    countsReady kind st=false ∧ countsReady kind recv=true := by
  cases kind <;> cases he <;> cases hr <;> decide

variable {recv : ClientStatus}

theorem Bookkeeping.accept (h : Bookkeeping s) {impl : ProtocolImpl G}
    (he : expectedStatus s.kind=some (s.clientStatus c))
    (hr : receivedStatus s.kind=some recv) (hst : impl.clientStatus=s.clientStatus) :
    Bookkeeping (s.recordMessage c recv impl) := by
  obtain ⟨ha,hb,hb',hf,hf',hc,hc'⟩:=accepted_status he hr
  have hs : (s.recordMessage c recv impl).clientStatus=Function.update s.clientStatus c recv := by
    rw [← hst]
    rfl
  have hkind : (s.recordMessage c recv impl).kind=s.kind := rfl
  constructor
  · intro i
    rw [hs,hkind]
    by_cases hi : i=c
    · subst hi
      rw [Function.update_self]
      exact ha
    · rw [Function.update_of_ne hi]
      exact h.allowed i
  · rw [hs,tally_update,hb,hb',← h.failedBefore]
    simp [recordMessage]
  · rw [hs,tally_update,hf,hf',← h.failedAfter]
    simp [recordMessage]
  · rw [hs,hkind,tally_update,hc,hc',← h.ready]
    simp [recordMessage]
  · intro hk
    have hm:=h.messages hk
    simp only [recordMessage]
    omega

/-- Statuses and cumulative counters are passed on, nobody is ready yet. -/
theorem Bookkeeping.enter (h : Bookkeeping s) (hst : s'.clientStatus=s.clientStatus)
    (ha : ∀ i,ServerState.allowed s'.kind (s.clientStatus i)=true ∧
      countsReady s'.kind (s.clientStatus i)=false)
    (hb : s'.failedBeforeSendingMaskedInput=s.failedBeforeSendingMaskedInput)
    (hf : s'.failedAfterSendingMaskedInput=s.failedAfterSendingMaskedInput)
    (ht : s'.terminatedWithoutUnmasking=s.terminatedWithoutUnmasking)
    (hr : s'.readyForNextRound=0) (hm : s'.messagesReceivedInThisRound=0) :
    Bookkeeping s' where
  allowed i := by
    rw [hst]
    exact (ha i).1
  failedBefore := by rw [hst,hb,h.failedBefore]
  failedAfter := by rw [hst,hf,ht,h.failedAfter]
  ready := by rw [hst,hr,tally_eq_zero fun i => (ha i).2]
  messages _ := by rw [hr,hm]

theorem Bookkeeping.congr (h : Bookkeeping s) (hkind : s'.kind=s.kind)
    (hst : s'.clientStatus=s.clientStatus)
    (hb : s'.failedBeforeSendingMaskedInput=s.failedBeforeSendingMaskedInput)
    (hf : s'.failedAfterSendingMaskedInput=s.failedAfterSendingMaskedInput)
    (ht : s'.terminatedWithoutUnmasking=s.terminatedWithoutUnmasking)
    (hr : s'.readyForNextRound=s.readyForNextRound)
    (hm : s'.messagesReceivedInThisRound=s.messagesReceivedInThisRound) :
    Bookkeeping s' where
  allowed i := by
    rw [hst,hkind]
    exact h.allowed i
  failedBefore := by rw [hst,hb,h.failedBefore]
  failedAfter := by rw [hst,hf,ht,h.failedAfter]
  ready := by rw [hst,hkind,hr,h.ready]
  messages hk := by rw [hr,hm,h.messages (hkind ▸ hk)]

def nextKind : SecAggServerStateKind → SecAggServerStateKind
  | .r0AdvertiseKeys => .r1ShareKeys
  | .r1ShareKeys => .r2MaskedInputCollection
  | .r2MaskedInputCollection => .r3Unmasking
  | .r3Unmasking => .prngRunning
  | kind => kind

structure LeavesRound (s s' : ServerState G) : Prop where
  kind : s'.kind=nextKind s.kind
  received : ∃ received,receivedStatus s.kind=some received ∧ s.Settled received
  clientStatus : s'.clientStatus=s.clientStatus
  failedBefore : s'.failedBeforeSendingMaskedInput=s.failedBeforeSendingMaskedInput
  failedAfter : s'.failedAfterSendingMaskedInput=s.failedAfterSendingMaskedInput
  terminated : s'.terminatedWithoutUnmasking=s.terminatedWithoutUnmasking
  ready : s'.readyForNextRound=0
  messages : s'.messagesReceivedInThisRound=0
  needsToAbort : s'.needsToAbort=false

theorem NextRound.leaves (h : NextRound env s s') : LeavesRound s s' := by
  cases h with
  | toR1 hk hs hr => refine ⟨?_,⟨_,?_,hs⟩,?_,?_,?_,?_,?_,?_,?_⟩ <;> first | (rw [hk]; rfl) | rfl
  | toR2 hk hs hr =>
    refine ⟨?_,⟨_,?_,hs⟩,setupMaskedInputCollection_clientStatus,?_,?_,?_,
      ?_,?_,?_⟩ <;> first | (rw [hk]; rfl) | rfl
  | toR3 hk hs hr hi h =>
    have hst:=finalizeMaskedInputCollection_clientStatus h
    refine ⟨?_,⟨_,?_,hs⟩,hst,?_,?_,?_,?_,?_,?_⟩ <;> first | (rw [hk]; rfl) | rfl
  | toPrng hk hs hr h =>
    rcases enterState_eq_ok rfl h with ⟨st,-,rfl⟩ | ⟨items,maskedInput,-,-,rfl⟩ <;>
      refine ⟨?_,⟨_,?_,hs⟩,?_,?_,?_,?_,?_,?_,?_⟩ <;> first | (rw [hk]; rfl) | rfl

theorem settled_status (hr : receivedStatus kind=some recv)
    (ha : allowed kind st=true) (hs : st.isDead=true ∨ st=recv) :
    allowed (nextKind kind) st=true ∧ countsReady (nextKind kind) st=false ∧
      countsAlive st=countsReady kind st := by
  cases kind <;> cases hr <;> cases st <;> revert ha hs <;> decide

theorem Bookkeeping.next (h : Bookkeeping s) (hl : LeavesRound s s') : Bookkeeping s' := by
  obtain ⟨recv,hr,hs⟩:=hl.received
  refine h.enter hl.clientStatus ?_ hl.failedBefore hl.failedAfter hl.terminated hl.ready
    hl.messages
  intro i
  rw [hl.kind]
  have hi:=settled_status hr (h.allowed i) (hs i)
  exact ⟨hi.1,hi.2.1⟩

theorem completed_status (ha : allowed .prngRunning st=true) : allowed .completed st=true := by
  cases st <;> exact ha

theorem Task.clientStatus_eq (h : Task env s s') : s'.clientStatus=s.clientStatus := by
  cases h with
  | collect hk hi =>
    rcases hi with hi | ⟨i,hi⟩
    · exact runQueueTask_clientStatus hi
    · exact accumulateMaskedInput_clientStatus hi
  | prng hr hn => rfl
  | finish hr hidle hi => exact setResult_clientStatus hi

theorem Bookkeeping.task (h : Bookkeeping s) (ht : Task env s s') : Bookkeeping s' := by
  have hst:=ht.clientStatus_eq
  cases ht with
  | collect | prng | finish => exact h.congr rfl hst rfl rfl rfl rfl rfl

theorem Bookkeeping.move (hm : Move env s s') (h : Bookkeeping s) : Bookkeeping s' := by
  cases hm with
  | drop c reason code notify hs hd => exact h.drop hs hd
  | accept c msg recv impl he hr ha => exact h.accept he hr (roundHandler_clientStatus ha)
  | next hn => exact h.next hn.leaves
  | abort reason hs => exact h.enter rfl (fun i => ⟨rfl,rfl⟩) rfl rfl rfl rfl rfl
  | complete st hk hstarted hc =>
    refine h.enter rfl (fun i => ⟨?_,rfl⟩) rfl rfl rfl rfl rfl
    have hi:=h.allowed i
    rw [hk] at hi
    exact completed_status hi
  | fail st hk hstarted hc => exact h.enter rfl (fun i => ⟨rfl,rfl⟩) rfl rfl rfl rfl rfl
  | task ht => exact h.task ht
  | takeResult hk => exact h.congr rfl rfl rfl rfl rfl rfl rfl

theorem Bookkeeping.moves (hm : Moves env s s') (h : Bookkeeping s) : Bookkeeping s' := by
  induction hm with
  | refl => exact h
  | tail _ hs ih => exact ih.move hs

theorem bookkeeping (h : Reachable (SecAggServer.step env) (create G) s) : Bookkeeping s :=
  invariant_of_moves bookkeeping_create (fun _ _ => Bookkeeping.move) h

theorem Bookkeeping.alive (h : Bookkeeping s) :
    s.numberOfAliveClients=tally countsAlive s.clientStatus := by
  have hcard : Fintype.card G.ClientId=G.numNodes := Fintype.card_fin _
  have hc : (Fintype.card G.ClientId : ℤ)-tally ServerState.failedBefore s.clientStatus -
      tally ServerState.failedAfter s.clientStatus=tally countsAlive s.clientStatus := by
    refine tally_complement fun i => ?_
    cases s.clientStatus i <;> rfl
  have ha:=h.failedAfter
  rw [numberOfAliveClients,← hc,hcard,← h.failedBefore]
  omega

def isRound (kind : SecAggServerStateKind) : Bool := (receivedStatus kind).isSome

def isPending (kind : SecAggServerStateKind) (status : ClientStatus) : Bool :=
  !status.isDead && decide (receivedStatus kind≠some status)

theorem pending_status (hk : isRound kind=true) (ha : allowed kind st=true) :
    (countsAlive st).toInt-(countsReady kind st).toInt=(isPending kind st).toInt := by
  cases kind <;> cases st <;> revert ha hk <;> decide

theorem Bookkeeping.pending (h : Bookkeeping s) (hk : isRound s.kind=true) :
    s.numberOfPendingClients=tally (isPending s.kind) s.clientStatus := by
  have hd : s.numberOfPendingClients=s.numberOfAliveClients-s.readyForNextRound := by
    unfold numberOfPendingClients
    revert hk
    cases s.kind <;> intro hk <;> first | rfl | cases hk
  rw [hd,h.alive,h.ready]
  exact tally_sub fun i => pending_status hk (h.allowed i)

def inputAccepted : ClientStatus → Bool
  | .maskedInputResponseReceived
  | .deadAfterMaskedInputResponseReceived
  | .unmaskingResponseReceived
  | .deadAfterUnmaskingResponseReceived => true
  | _ => false

/-- The states after round 2 of a run that has not aborted. -/
def inputsFixed (kind : SecAggServerStateKind) : Bool :=
  kind=.r3Unmasking || kind=.prngRunning || kind=.completed

theorem included_status (hk : inputsFixed kind=true) (ha : allowed kind st=true) :
    (failedBefore st).toInt+false.toInt+(inputAccepted st).toInt=1 := by
  cases kind <;> cases st <;> revert ha hk <;> decide

theorem Bookkeeping.included (h : Bookkeeping s) (hk : inputsFixed s.kind=true) :
    s.numberOfIncludedInputs=tally inputAccepted s.clientStatus := by
  have hd : s.numberOfIncludedInputs=G.numNodes-s.failedBeforeSendingMaskedInput := by
    unfold numberOfIncludedInputs
    revert hk
    cases s.kind <;> intro hk <;> first | rfl | cases hk
  have hcard : Fintype.card G.ClientId=G.numNodes := Fintype.card_fin _
  have hn : tally (fun _ => false) s.clientStatus=0 := tally_eq_zero fun _ => rfl
  have hc : (Fintype.card G.ClientId : ℤ)-tally ServerState.failedBefore s.clientStatus -
      tally (fun _ => false) s.clientStatus=tally inputAccepted s.clientStatus :=
    tally_complement fun i => included_status hk (h.allowed i)
  rw [hd,h.failedBefore,← hc,hcard,hn]
  omega

theorem Bookkeeping.alive_after (h : Bookkeeping s) (hl : LeavesRound s s') :
    s'.numberOfAliveClients=s.readyForNextRound := by
  obtain ⟨recv,hr,hs⟩:=hl.received
  rw [(h.next hl).alive,hl.clientStatus,h.ready]
  exact tally_congr fun i => (settled_status hr (h.allowed i) (hs i)).2.2

end ServerState
end Fcp.SecAgg

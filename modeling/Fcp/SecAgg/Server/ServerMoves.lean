import Fcp.SecAgg.Server.RoundTransitions

/-!
# What a step of the server can do

A step is taken apart into moves: a client is dropped, a message is accepted, a round is left.
-/

namespace Fcp.SecAgg.ServerState

open SecAggServer
variable {G : SharingGraph} (env : ServerEnv G)

def expectedStatus : SecAggServerStateKind → Option ClientStatus
  | .r0AdvertiseKeys => some .readyToStart
  | .r1ShareKeys => some .advertiseKeysReceived
  | .r2MaskedInputCollection => some .shareKeysReceived
  | .r3Unmasking => some .maskedInputResponseReceived
  | _ => none

def roundHandler (s : ServerState G) (client : G.ClientId)
    (message : ClientToServerWrapperMessage) : Option (Checked (StatusOr (ProtocolImpl G))) :=
  match s.kind, message with
  | .r0AdvertiseKeys, .advertiseKeys keys => some (.ok (s.impl.handleAdvertiseKeys client keys))
  | .r1ShareKeys, .shareKeysResponse shares => some (s.impl.handleShareKeysResponse client shares)
  | .r2MaskedInputCollection, .maskedInputResponse vectors =>
    some (s.impl.handleMaskedInputCollectionResponse env vectors)
  | .r3Unmasking, .unmaskingResponse shares => some (s.impl.handleUnmaskingResponse client shares)
  | _, _ => none

def invalidCode : SecAggServerStateKind → ClientDropReason
  | .r0AdvertiseKeys => .invalidPublicKey
  | .r1ShareKeys => .invalidShareKeysResponse
  | .r2MaskedInputCollection => .invalidMaskedInput
  | _ => .invalidUnmaskingResponse

def isInvalidCode : ClientDropReason → Bool
  | .invalidPublicKey
  | .invalidShareKeysResponse
  | .invalidMaskedInput
  | .invalidUnmaskingResponse => true
  | _ => false

inductive MessageOutcome (s : ServerState G) (client : G.ClientId)
    (message : ClientToServerWrapperMessage) : ServerState G → Prop
  | ignored (hd : (s.clientStatus client).isDead=true) : MessageOutcome s client message s
  | dropped (reason : String) (reasonCode : ClientDropReason) (notify : Bool)
      (hd : (s.clientStatus client).isDead=false) (hcode : isInvalidCode reasonCode=false)
      (hnone : expectedStatus s.kind=some (s.clientStatus client) →
        s.roundHandler env client message=none) :
      MessageOutcome s client message (s.dropClient env client reason reasonCode notify)
  | rejected (status : Status) (he : expectedStatus s.kind=some (s.clientStatus client))
      (h : s.roundHandler env client message=some (.ok (.error status))) :
      MessageOutcome s client message
        (s.dropClient env client status.message (invalidCode s.kind) true)
  | accepted (received : ClientStatus) (impl : ProtocolImpl G)
      (he : expectedStatus s.kind=some (s.clientStatus client))
      (hr : receivedStatus s.kind=some received)
      (h : s.roundHandler env client message=some (.ok (.ok impl))) :
      MessageOutcome s client message (s.recordMessage client received impl)

section
variable {env} {s s' : ServerState G} {c : G.ClientId} {msg : ClientToServerWrapperMessage}
  {code : ClientDropReason}

theorem MessageOutcome.of_abortClient (hs : s.isTerminal=false) {reason : String} {notify : Bool}
    (hc : isInvalidCode code=false)
    (hn : expectedStatus s.kind=some (s.clientStatus c) → s.roundHandler env c msg=none)
    (h : s.abortClient env c reason code notify=.ok s') :
    MessageOutcome env s c msg s' := by
  rw [abortClient_eq env hs,Except.ok.injEq] at h
  subst h
  cases hd : (s.clientStatus c).isDead with
  | true => simpa using MessageOutcome.ignored hd
  | false => simpa using MessageOutcome.dropped reason code notify hd hc hn

theorem isTerminal_of_expected {st : ClientStatus}
    (he : expectedStatus s.kind=some st) : s.isTerminal=false := by
  refine not_terminal_iff.mpr ⟨?_,?_⟩ <;> intro hk <;> rw [hk] at he <;> cases he

theorem isDead_of_expected {kind : SecAggServerStateKind} {st : ClientStatus}
    (h : expectedStatus kind=some st) : st.isDead=false := by
  cases kind <;> cases h <;> rfl

theorem handleRoundMessage_outcome {expected recv : ClientStatus}
    {abortReason unexpectedReason : String} {unexpectedCode : ClientDropReason}
    {accept : Option (Checked (StatusOr (ProtocolImpl G)))}
    (he : expectedStatus s.kind=some expected) (hr : receivedStatus s.kind=some recv)
    (hc : isInvalidCode unexpectedCode=false)
    (ha : accept=s.roundHandler env c msg)
    (h : s.handleRoundMessage env c msg abortReason expected recv unexpectedReason
      unexpectedCode (invalidCode s.kind) accept=.ok s') :
    MessageOutcome env s c msg s' := by
  have hs:=isTerminal_of_expected he
  unfold handleRoundMessage at h
  split at h
  · exact .of_abortClient hs rfl (fun _ => by unfold roundHandler; cases s.kind <;> rfl) h
  · split at h
    next hst =>
      refine .of_abortClient hs hc (fun hst' => absurd ?_ hst) h
      exact Option.some.inj (hst'.symm.trans he)
    next hst =>
      rw [not_not] at hst
      split at h
      · exact .of_abortClient hs rfl (fun _ => ha.symm) h
      next handled =>
        rw [bind_eq_ok] at h
        obtain ⟨r,rfl,h⟩:=h
        cases r with
        | error st =>
          have hd : (s.clientStatus c).isDead=false := by
            rw [hst]
            exact isDead_of_expected he
          simp only [abortClient_eq env hs,hd,Bool.false_eq_true,if_false,Except.ok.injEq] at h
          subst h
          exact .rejected st (hst ▸ he) ha.symm
        | ok impl =>
          cases h
          exact .accepted recv impl (hst ▸ he) hr ha.symm

theorem handleMessage_outcome (hs : s.isTerminal=false) (h : s.handleMessage env c msg=.ok s') :
    MessageOutcome env s c msg s' := by
  unfold handleMessage at h
  split at h <;> rename_i hk
  iterate 4
    · refine handleRoundMessage_outcome (by rw [hk]; rfl) (by rw [hk]; rfl) rfl ?_
        (by rw [hk]; exact h)
      unfold roundHandler
      rw [hk]
      cases msg <;> rfl
  · have hn : expectedStatus s.kind=some (s.clientStatus c) → s.roundHandler env c msg=none := by
      rw [hk]
      intro he
      cases he
    unfold prngHandleMessage at h
    split at h <;> exact .of_abortClient hs rfl hn h
  · exact absurd hk (not_terminal_iff.mp hs).1
  · exact absurd hk (not_terminal_iff.mp hs).2

end

/-- A round is left once nobody is silent and enough clients have answered. -/
inductive NextRound : ServerState G → ServerState G → Prop
  | toR1 {s : ServerState G} (hk : s.kind=.r0AdvertiseKeys)
      (hset : s.Settled .advertiseKeysReceived)
      (hready : env.minimumNumberOfClientsToProceed ≤ s.readyForNextRound) :
      NextRound s (s.leaveR0 env)
  | toR2 {s : ServerState G} (hk : s.kind=.r1ShareKeys) (hset : s.Settled .shareKeysReceived)
      (hready : env.minimumNumberOfClientsToProceed ≤ s.readyForNextRound) :
      NextRound s (s.leaveR1 env)
  | toR3 {s : ServerState G} {impl : ProtocolImpl G} (hk : s.kind=.r2MaskedInputCollection)
      (hset : s.Settled .maskedInputResponseReceived)
      (hready : env.minimumNumberOfClientsToProceed ≤ s.readyForNextRound)
      (hidle : s.impl.accumulatorIsIdle=true)
      (h : s.impl.finalizeMaskedInputCollection env=.ok impl) : NextRound s (s.leaveR2 impl)
  | toPrng {s s' : ServerState G} (hk : s.kind=.r3Unmasking)
      (hset : s.Settled .unmaskingResponseReceived)
      (hready : env.minimumNumberOfClientsToProceed ≤ s.messagesReceivedInThisRound)
      (h : (s.enter .prngRunning).enterState env=.ok s') : NextRound s s'

/-- What `ProceedToNextRound` can do when it does not refuse. -/
inductive ProceedOutcome (s : ServerState G) : ServerState G → Prop
  | tooManyAborted (hs : s.isTerminal=false) (hneeds : s.needsToAbort=true) :
      ProceedOutcome s s.tooManyClientsAborted
  | next {t s' : ServerState G} (received : ClientStatus) (reasonCode : ClientDropReason)
      (hneeds : s.needsToAbort=false) (hr : receivedStatus s.kind=some received)
      (hdrops : DropsSilent env received reasonCode s t) (hnext : NextRound env t s') :
      ProceedOutcome s s'
  | completed (status : Status) (hk : s.kind=.prngRunning)
      (h : s.completionStatus=some status) (hc : status.code=.ok) :
      ProceedOutcome s (s.enter .completed)
  | failed (status : Status) (hk : s.kind=.prngRunning)
      (h : s.completionStatus=some status) (hc : status.code≠.ok) :
      ProceedOutcome s (s.abortState status.message)

section
variable {env} {s s' : ServerState G} {next : ServerState G → Checked (ServerState G)}

theorem proceedFromRound_eq_ok {t : ServerState G} (h : s.proceedFromRound env next=.ok (.ok t)) :
    s.isReadyForNextRound env=true ∧ (s.needsToAbort=true ∧ t=s.tooManyClientsAborted ∨
        s.needsToAbort=false ∧ next s=.ok t) := by
  unfold proceedFromRound at h
  cases hr : s.isReadyForNextRound env with
  | false => simp [hr] at h
  | true =>
    refine ⟨rfl,?_⟩
    cases hn : s.needsToAbort with
    | true =>
      simp only [hr,hn,Bool.not_true,Bool.false_eq_true,if_true,if_false,Except.ok.injEq] at h
      exact .inl ⟨rfl,h.symm⟩
    | false =>
      simp only [hr,hn,Bool.not_true,Bool.false_eq_true,if_false,bind_eq_ok,
        pure_eq_ok,Except.ok.injEq] at h
      obtain ⟨u,hu,rfl⟩:=h
      exact .inr ⟨rfl,hu⟩

theorem enterState_of_ne (hk : s.kind≠.prngRunning) : s.enterState env=.ok s := if_neg hk

variable {recv : ClientStatus}

theorem isTerminal_of_received (hr : receivedStatus s.kind=some recv) : s.isTerminal=false := by
  refine not_terminal_iff.mpr ⟨?_,?_⟩ <;> intro hk <;> rw [hk] at hr <;> cases hr

variable {u : ServerState G}

section
variable (he : u.enterState env=.ok s')
include he

theorem proceedFromRound_outcome (code : ClientDropReason) (hr : receivedStatus s.kind=some recv)
    (hnext : s.isReadyForNextRound env=true → s.needsToAbort=false → next s=.ok u →
      u.enterState env=.ok s' → ∃ t,DropsSilent env recv code s t ∧ NextRound env t s')
    (h : s.proceedFromRound env next=.ok (.ok u)) : ProceedOutcome env s s' := by
  obtain ⟨hready,⟨hneeds,rfl⟩ | ⟨hneeds,hu⟩⟩:=proceedFromRound_eq_ok h
  · rw [enterState_of_ne (by simp [tooManyClientsAborted,abortState,enter]),Except.ok.injEq] at he
    subst he
    exact .tooManyAborted (isTerminal_of_received hr) hneeds
  · obtain ⟨t,hd,hn⟩:=hnext hready hneeds hu he
    exact .next recv code hneeds hr hd hn

theorem proceed_r0 (hk : s.kind=.r0AdvertiseKeys)
    (h : s.proceedFromRound env (r0Next env)=.ok (.ok u)) : ProceedOutcome env s s' := by
  have hr : receivedStatus s.kind=some .advertiseKeysReceived := by rw [hk]; rfl
  refine proceedFromRound_outcome he .noAdvertiseKeys hr ?_ h
  intro hready hn hu he
  obtain ⟨t,hd,hs,hnext⟩:=r0Next_eq env hk
  rw [hnext,Except.ok.injEq] at hu
  subst hu
  rw [enterState_of_ne (by simp [leaveR0,enter]),Except.ok.injEq] at he
  subst he
  refine ⟨t,hd,.toR1 (hd.kind_eq.trans hk) hs ?_⟩
  rw [hd.ready_eq hr]
  simpa [isReadyForNextRound,hk,hn] using hready

theorem proceed_r1 (hk : s.kind=.r1ShareKeys)
    (h : s.proceedFromRound env (r1Next env)=.ok (.ok u)) : ProceedOutcome env s s' := by
  have hr : receivedStatus s.kind=some .shareKeysReceived := by rw [hk]; rfl
  refine proceedFromRound_outcome he .noShareKeys hr ?_ h
  intro hready hn hu he
  obtain ⟨t,hd,hs,hnext⟩:=r1Next_eq env hk
  rw [hnext,Except.ok.injEq] at hu
  subst hu
  rw [enterState_of_ne (by simp [leaveR1,enter]),Except.ok.injEq] at he
  subst he
  refine ⟨t,hd,.toR2 (hd.kind_eq.trans hk) hs ?_⟩
  rw [hd.ready_eq hr]
  simpa [isReadyForNextRound,hk,hn] using hready

theorem proceed_r2 (hk : s.kind=.r2MaskedInputCollection)
    (h : s.proceedFromRound env (r2Next env)=.ok (.ok u)) : ProceedOutcome env s s' := by
  have hr : receivedStatus s.kind=some .maskedInputResponseReceived := by rw [hk]; rfl
  refine proceedFromRound_outcome he .noMaskedInput hr ?_ h
  intro hready hn hu he
  obtain ⟨t,hd,hs,hnext⟩:=r2Next_eq env hk
  rw [hnext,bind_eq_ok] at hu
  obtain ⟨impl,hf,hu⟩:=hu
  cases hu
  rw [enterState_of_ne (by simp [leaveR2,enter]),Except.ok.injEq] at he
  subst he
  have hready' : s.impl.accumulatorIsIdle=true ∧
      env.minimumNumberOfClientsToProceed ≤ s.readyForNextRound := by
    simpa [isReadyForNextRound,hk,hn] using hready
  refine ⟨t,hd,.toR3 (hd.kind_eq.trans hk) hs ?_ ?_ hf⟩
  · rw [hd.ready_eq hr]
    exact hready'.2
  · rw [hd.impl_eq hr]
    exact hready'.1

theorem proceed_r3 (hk : s.kind=.r3Unmasking)
    (h : s.proceedFromRound env (r3Next env)=.ok (.ok u)) : ProceedOutcome env s s' := by
  have hr : receivedStatus s.kind=some .unmaskingResponseReceived := by rw [hk]; rfl
  refine proceedFromRound_outcome he .earlySuccess hr ?_ h
  intro hready hn hu he
  obtain ⟨t,hd,hs,hnext⟩:=r3Next_eq env hk
  rw [hnext,Except.ok.injEq] at hu
  subst hu
  refine ⟨t,hd,.toPrng (hd.kind_eq.trans hk) hs ?_ he⟩
  rw [hd.messages_eq]
  simpa [isReadyForNextRound,hk,hn] using hready

end

variable {st : Status}

theorem errorIfAbortedOrCompleted_code
    (h : errorIfAbortedOrCompleted s=.error st) : st.code≠.ok := by
  unfold errorIfAbortedOrCompleted at h
  split at h
  · cases h
    decide
  · split at h
    · cases h
      decide
    · cases h

theorem proceedFromRound_code (h : s.proceedFromRound env next=.ok (.error st)) : st.code≠.ok := by
  unfold proceedFromRound at h
  split at h
  · cases h
    decide
  · split at h
    · cases h
    · obtain ⟨t,-,⟨⟩⟩:=bind_eq_ok.mp h

theorem proceedToNextRound_code (h : s.proceedToNextRound env=.ok (.error st)) : st.code≠.ok := by
  unfold proceedToNextRound at h
  split at h
  iterate 4 exact proceedFromRound_code h
  · split at h
    · cases h
      decide
    · split at h <;> cases h
  · cases h
    decide
  · cases h
    decide

theorem proceedToNextRound_outcome (h : SecAggServer.proceedToNextRound env s=.ok (s',st)) :
    s'=s ∧ st.code≠.ok ∨ st.code=.ok ∧ ProceedOutcome env s s' := by
  unfold SecAggServer.proceedToNextRound at h
  split at h
  next herror =>
    cases h
    exact .inl ⟨rfl,errorIfAbortedOrCompleted_code herror⟩
  · rw [bind_eq_ok] at h
    obtain ⟨r,hp,h⟩:=h
    cases r with
    | error st =>
      cases h
      exact .inl ⟨rfl,proceedToNextRound_code hp⟩
    | ok u =>
      obtain ⟨next,he,⟨⟩⟩:=bind_eq_ok.mp h
      refine .inr ⟨rfl,?_⟩
      unfold proceedToNextRound at hp
      split at hp <;> rename_i hk
      · exact proceed_r0 he hk hp
      · exact proceed_r1 he hk hp
      · exact proceed_r2 he hk hp
      · exact proceed_r3 he hk hp
      · split at hp
        · cases hp
        next st hs =>
          split at hp <;> rename_i hc
          · cases hp
            rw [enterState_of_ne (by simp [enter]),Except.ok.injEq] at he
            subst he
            exact .completed st hk hs hc
          · cases hp
            rw [enterState_of_ne (by simp [abortState,enter]),Except.ok.injEq] at he
            subst he
            exact .failed st hk hs hc
      · cases hp
      · cases hp

end

inductive Task : ServerState G → ServerState G → Prop
  | collect {s : ServerState G} {impl : ProtocolImpl G} (hk : s.kind=.r2MaskedInputCollection)
      (h : s.impl.runQueueTask=.ok impl ∨ ∃ i,s.impl.accumulateMaskedInput i=.ok impl) :
      Task s { s with impl := impl }
  | prng {s : ServerState G} {accumulator next : Accumulator ProtocolImpl.PrngWorkItems}
      (hrun : s.prngRun=some accumulator)
      (h : (∃ i fuel,s.impl.runPrngTask env accumulator i fuel=.ok next) ∨
        ∃ i,accumulator.accumulate i=.ok next) :
      Task s { s with prngRun := some next }
  | finish {s : ServerState G} {accumulator : Accumulator ProtocolImpl.PrngWorkItems}
      {impl : ProtocolImpl G} (hrun : s.prngRun=some accumulator)
      (hidle : accumulator.hasUnobservedWork=true ∧ accumulator.isIdle=true)
      (h : s.impl.setResult accumulator.value=.ok impl) :
      Task s { s with impl := impl, prngRun := none, completionStatus := some .okStatus }

inductive Move : ServerState G → ServerState G → Prop
  | drop {s : ServerState G} (client : G.ClientId) (reason : String)
      (reasonCode : ClientDropReason) (notify : Bool) (hs : s.isTerminal=false)
      (hd : (s.clientStatus client).isDead=false) :
      Move s (s.dropClient env client reason reasonCode notify)
  | accept {s : ServerState G} (client : G.ClientId) (message : ClientToServerWrapperMessage)
      (received : ClientStatus) (impl : ProtocolImpl G)
      (he : expectedStatus s.kind=some (s.clientStatus client))
      (hr : receivedStatus s.kind=some received)
      (h : s.roundHandler env client message=some (.ok (.ok impl))) :
      Move s (s.recordMessage client received impl)
  | next {s s' : ServerState G} (h : NextRound env s s') : Move s s'
  | abort {s : ServerState G} (reason : String) (hs : s.isTerminal=false) :
      Move s ((s.sendBroadcast (.abort reason false)).abortState reason)
  | complete {s : ServerState G} (status : Status) (hk : s.kind=.prngRunning)
      (h : s.completionStatus=some status) (hc : status.code=.ok) :
      Move s (s.enter .completed)
  | fail {s : ServerState G} (status : Status) (hk : s.kind=.prngRunning)
      (h : s.completionStatus=some status) (hc : status.code≠.ok) :
      Move s (s.abortState status.message)
  | task {s s' : ServerState G} (h : Task env s s') : Move s s'
  | takeResult {s : ServerState G} (hk : s.kind=.completed) :
      Move s { s with impl := { s.impl with result := none } }

abbrev Moves : ServerState G → ServerState G → Prop := Relation.ReflTransGen (Move env)

section
variable {env} {s s' : ServerState G}

theorem DropsSilent.moves {recv : ClientStatus}
    (h : DropsSilent env recv code s s') : Moves env s s' := by
  induction h with
  | refl => exact .refl
  | tail _ hstep ih =>
    cases hstep with
    | drop i reason hs hd hr => exact ih.tail (.drop i reason code true hs hd)

theorem MessageOutcome.moves {c : G.ClientId} {msg : ClientToServerWrapperMessage}
    (hs : s.isTerminal=false) (h : MessageOutcome env s c msg s') :
    Moves env s s' := by
  cases h with
  | ignored => exact .refl
  | dropped reason code notify hd => exact .single (.drop c reason code notify hs hd)
  | rejected st he => exact .single (.drop c st.message _ true hs (isDead_of_expected he))
  | accepted recv impl he hr h => exact .single (.accept c msg recv impl he hr h)

theorem ProceedOutcome.moves (h : ProceedOutcome env s s') : Moves env s s' := by
  cases h with
  | tooManyAborted hs => exact .single (.abort "Too many clients aborted." hs)
  | next recv code hneeds hr hd hn => exact hd.moves.tail (.next hn)
  | completed st hk h hc => exact .single (.complete st hk h hc)
  | failed st hk h hc => exact .single (.fail st hk h hc)

theorem errorIfAbortedOrCompleted_eq_ok
    (h : errorIfAbortedOrCompleted s=.ok ()) : s.isTerminal=false := by
  unfold errorIfAbortedOrCompleted at h
  unfold isTerminal
  split at h
  · cases h
  · split at h
    · cases h
    · simp_all

variable {clientId : ℕ}

theorem validateClientId_eq_ok {c : G.ClientId}
    (h : validateClientId G clientId=.ok c) : c.val=clientId := by
  unfold validateClientId at h
  split at h
  · cases h
    rfl
  · cases h

theorem receiveMessage_outcome {msg : ClientToServerWrapperMessage} {st : Status}
    (h : receiveMessage env s clientId msg=.ok (s',st)) :
    s'=s ∧ (s.isTerminal=true ∨ G.numNodes≤clientId) ∨
      ∃ c : G.ClientId,c.val=clientId ∧ s.isTerminal=false ∧ MessageOutcome env s c msg s' := by
  unfold receiveMessage at h
  split at h
  next he =>
    cases h
    refine .inl ⟨rfl,.inl ?_⟩
    unfold errorIfAbortedOrCompleted at he
    unfold isTerminal
    split at he
    · simp [*]
    · split at he
      · simp [*]
      · cases he
  next he =>
    cases h
    refine .inl ⟨rfl,.inr ?_⟩
    unfold validateClientId at he
    split at he
    · cases he
    · omega
  next c hok hc =>
    obtain ⟨t,ht,⟨⟩⟩:=bind_eq_ok.mp h
    have hs:=errorIfAbortedOrCompleted_eq_ok hok
    exact .inr ⟨c,validateClientId_eq_ok hc,hs,handleMessage_outcome hs ht⟩

theorem abortClient_moves {reason : ClientAbortReason} {st : Status}
    (h : SecAggServer.abortClient env s clientId reason=.ok (s',st)) :
    s'=s ∨ ∃ (c : G.ClientId) (msg : String) (code : ClientDropReason)
      (notify : Bool),s.isTerminal=false ∧ (s.clientStatus c).isDead=false ∧
        s'=s.dropClient env c msg code notify := by
  unfold SecAggServer.abortClient at h
  split at h
  · cases h
    exact .inl rfl
  · cases h
    exact .inl rfl
  next c hok _ =>
    have hs:=errorIfAbortedOrCompleted_eq_ok hok
    obtain ⟨t,ht,⟨⟩⟩:=bind_eq_ok.mp h
    rw [abortClient_eq env hs,Except.ok.injEq] at ht
    subst ht
    cases hd : (s.clientStatus c).isDead with
    | true => exact .inl (by simp)
    | false => exact .inr ⟨c,_,_,_,hs,hd,if_neg Bool.false_ne_true⟩

variable {e : SecAggServer.Event}

theorem runTask_task (h : runTask env s e=.ok s') : s'=s ∨ Task env s s' := by
  unfold runTask at h
  split at h
  · split at h
    next hk =>
      obtain ⟨impl,hi,⟨⟩⟩:=bind_eq_ok.mp h
      exact .inr (.collect hk (.inl hi))
    · cases h
      exact .inl rfl
  · split at h
    next hk =>
      obtain ⟨impl,hi,⟨⟩⟩:=bind_eq_ok.mp h
      exact .inr (.collect hk (.inr ⟨_,hi⟩))
    · cases h
      exact .inl rfl
  · split at h
    · cases h
      exact .inl rfl
    next hr =>
      obtain ⟨next,hn,⟨⟩⟩:=bind_eq_ok.mp h
      exact .inr (.prng hr (.inl ⟨_,_,hn⟩))
  · split at h
    · cases h
      exact .inl rfl
    next hr =>
      obtain ⟨next,hn,⟨⟩⟩:=bind_eq_ok.mp h
      exact .inr (.prng hr (.inr ⟨_,hn⟩))
  · unfold prngFinished at h
    split at h
    · cases h
      exact .inl rfl
    next hr =>
      split at h
      next hidle =>
        obtain ⟨impl,hi,⟨⟩⟩:=bind_eq_ok.mp h
        exact .inr (.finish hr (by simpa using hidle) hi)
      · cases h
        exact .inl rfl
  · cases h
    exact .inl rfl

theorem abort_eq_ok {reason : Option String} {st : Status}
    (h : SecAggServer.abort s reason=.ok (s',st)) :
    s'=s ∨ s.isTerminal=false ∧
      ∃ text,s'=(s.sendBroadcast (.abort text false)).abortState text := by
  unfold SecAggServer.abort at h
  split at h
  · cases h
    exact .inl rfl
  next hok =>
    have hs:=errorIfAbortedOrCompleted_eq_ok hok
    obtain ⟨t,ht,⟨⟩⟩:=bind_eq_ok.mp h
    simp only [ServerState.abort,hs,Bool.not_false,fcpCheck_true,ok_bind,pure_eq_ok] at ht
    exact .inr ⟨hs,_,ht.symm⟩

theorem result_cases (s : ServerState G) : (result s).1=s ∨ s.kind=.completed ∧
    (result s).1={ s with impl := { s.impl with result := none } } := by
  unfold result
  split
  next hk =>
    split
    · exact .inl rfl
    · exact .inr ⟨by simpa [isCompletedSuccessfully] using hk,rfl⟩
  · exact .inl rfl

/-- What an event can do. -/
inductive StepOutcome (env : ServerEnv G) (s : ServerState G) :
    SecAggServer.Event → ServerState G → Prop
  | same {e : SecAggServer.Event} : StepOutcome env s e s
  | message {c : G.ClientId} {msg : ClientToServerWrapperMessage} {s' : ServerState G}
      (hs : s.isTerminal=false) (h : MessageOutcome env s c msg s') :
      StepOutcome env s (.receiveMessage c msg) s'
  | drop {e : SecAggServer.Event} {c : G.ClientId} {reason : String} {code : ClientDropReason}
      {notify : Bool} (hs : s.isTerminal=false) (hd : (s.clientStatus c).isDead=false) :
      StepOutcome env s e (s.dropClient env c reason code notify)
  | proceed {e : SecAggServer.Event} {s' : ServerState G} (h : ProceedOutcome env s s') :
      StepOutcome env s e s'
  | abort {e : SecAggServer.Event} (text : String) (hs : s.isTerminal=false) :
      StepOutcome env s e ((s.sendBroadcast (.abort text false)).abortState text)
  | takeResult {e : SecAggServer.Event} (hk : s.kind=.completed) :
      StepOutcome env s e { s with impl := { s.impl with result := none } }
  | task {e : SecAggServer.Event} {s' : ServerState G} (h : Task env s s') : StepOutcome env s e s'

theorem step_outcome (h : SecAggServer.step env s e=.ok s') : StepOutcome env s e s' := by
  unfold SecAggServer.step at h
  split at h
  · obtain ⟨⟨t,st⟩,ht,⟨⟩⟩:=bind_eq_ok.mp h
    rcases receiveMessage_outcome ht with ⟨rfl,-⟩ | ⟨c,rfl,hs,ho⟩
    · exact .same
    · exact .message hs ho
  · obtain ⟨⟨t,st⟩,ht,⟨⟩⟩:=bind_eq_ok.mp h
    rcases abortClient_moves ht with rfl | ⟨c,msg,code,notify,hs,hd,rfl⟩
    · exact .same
    · exact .drop hs hd
  · obtain ⟨⟨t,st⟩,ht,⟨⟩⟩:=bind_eq_ok.mp h
    rcases proceedToNextRound_outcome ht with ⟨rfl,-⟩ | ⟨-,ho⟩
    · exact .same
    · exact .proceed ho
  · obtain ⟨⟨t,st⟩,ht,⟨⟩⟩:=bind_eq_ok.mp h
    rcases abort_eq_ok ht with rfl | ⟨hs,text,rfl⟩
    · exact .same
    · exact .abort text hs
  · cases h
    rcases result_cases s with hr | ⟨hk,hr⟩
    · rw [hr]
      exact .same
    · rw [hr]
      exact .takeResult hk
  · rcases runTask_task h with rfl | htask
    · exact .same
    · exact .task htask

theorem step_moves (h : SecAggServer.step env s e=.ok s') : Moves env s s' := by
  cases step_outcome h with
  | same => exact .refl
  | message hs ho => exact ho.moves hs
  | drop hs hd => exact .single (.drop _ _ _ _ hs hd)
  | proceed ho => exact ho.moves
  | abort text hs => exact .single (.abort text hs)
  | takeResult hk => exact .single (.takeResult hk)
  | task ht => exact .single (.task ht)

theorem invariant_of_moves {P : ServerState G → Prop} (hi : P (create G))
    (hmove : ∀ s s',Move env s s' → P s → P s')
    (h : Reachable (step env) (create G) s) : P s := by
  refine h.invariant hi ?_
  intro t t' e ht hs
  have hmoves:=step_moves hs
  clear hs
  induction hmoves with
  | refl => exact ht
  | tail _ hm ih => exact hmove _ _ hm ih

end

end Fcp.SecAgg.ServerState

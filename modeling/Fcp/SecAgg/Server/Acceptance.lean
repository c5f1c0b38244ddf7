import Fcp.SecAgg.Server.Bookkeeping

/-!
# Messages accepted in a run

The history of a run says whose messages were accepted in which round, and the statuses agree with
it.
-/

namespace Fcp.SecAgg.ServerState

open SecAggServer
variable {G : SharingGraph} (env : ServerEnv G)

def Accepts (kind : SecAggServerStateKind) (client : G.ClientId)
    (entry : ServerState G × SecAggServer.Event) : Prop :=
  entry.1.kind=kind ∧ expectedStatus kind=some (entry.1.clientStatus client) ∧
    ∃ message impl,entry.2=.receiveMessage client message ∧
      entry.1.roundHandler env client message=some (.ok (.ok impl))

variable (history : List (ServerState G × SecAggServer.Event))

def AcceptedIn
    (kind : SecAggServerStateKind) (client : G.ClientId) : Prop :=
  ∃ entry∈history,Accepts env kind client entry

abbrev ServerRun (s : ServerState G) : Prop := Run (step env) (create G) history s

variable {env} {s s' : ServerState G} {e : SecAggServer.Event}
  {hist : List (ServerState G × SecAggServer.Event)}

inductive StatusChange (env : ServerEnv G) (s s' : ServerState G) (event : SecAggServer.Event)
    (client : G.ClientId) : Prop
  | same (h : s'.clientStatus client=s.clientStatus client)
  | dropped (hs : s.isTerminal=false) (hd : (s.clientStatus client).isDead=false)
      (h : s'.clientStatus client=deadStatus s.kind (s.clientStatus client))
  | accepted (received : ClientStatus) (hr : receivedStatus s.kind=some received)
      (ha : Accepts env s.kind client (s,event)) (h : s'.clientStatus client=received)

variable {code : ClientDropReason}

theorem StatusChange.drop {i c : G.ClientId} {reason : String} {notify : Bool}
    (hs : s.isTerminal=false) (hd : (s.clientStatus i).isDead=false) :
    StatusChange env s (s.dropClient env i reason code notify) e c := by
  by_cases hi : c=i
  · subst hi
    exact .dropped hs hd (by rw [dropClient_clientStatus,Function.update_self])
  · exact .same (by rw [dropClient_clientStatus,Function.update_of_ne hi])

variable {recv : ClientStatus}

theorem DropsSilent.statusChange {t : ServerState G} (h : DropsSilent env recv code s t)
    (e : SecAggServer.Event) (c : G.ClientId) : StatusChange env s t e c := by
  induction h with
  | refl => exact .same rfl
  | @tail u _ hp hstep ih =>
    cases hstep with
    | drop i reason hu hd hr =>
      by_cases hi : c=i
      · subst hi
        have hsame:=DropsSilent.status_of_alive hp hd
        have hk:=DropsSilent.kind_eq hp
        refine .dropped (isTerminal_congr hk ▸ hu) (hsame ▸ hd) ?_
        rw [dropClient_clientStatus,Function.update_self,hk,hsame]
      · have hstep : (u.dropClient env i reason code true).clientStatus c=u.clientStatus c := by
          rw [dropClient_clientStatus,Function.update_of_ne hi]
        cases ih with
        | same h => exact .same (hstep.trans h)
        | dropped hs hd h => exact .dropped hs hd (hstep.trans h)
        | accepted recv hr ha h => exact .accepted recv hr ha (hstep.trans h)

theorem MessageOutcome.statusChange {i c : G.ClientId} {msg : ClientToServerWrapperMessage}
    (hs : s.isTerminal=false) (h : MessageOutcome env s i msg s') :
    StatusChange env s s' (.receiveMessage i msg) c := by
  cases h with
  | ignored => exact .same rfl
  | dropped reason code notify hd => exact .drop hs hd
  | rejected st he => exact .drop hs (isDead_of_expected he)
  | accepted recv impl he hr h =>
    have hst : (s.recordMessage i recv impl).clientStatus =
        Function.update s.clientStatus i recv := by
      rw [← roundHandler_clientStatus h]
      rfl
    by_cases hi : c=i
    · subst hi
      refine .accepted recv hr ⟨rfl,he,msg,impl,rfl,h⟩ ?_
      rw [hst,Function.update_self]
    · exact .same (by rw [hst,Function.update_of_ne hi])

variable {c : G.ClientId}

theorem ProceedOutcome.statusChange (h : ProceedOutcome env s s') : StatusChange env s s' e c := by
  cases h with
  | tooManyAborted | completed | failed => exact .same rfl
  | next recv code hneeds hr hdrops hn =>
    have hst:=hn.leaves.clientStatus
    cases hdrops.statusChange e c with
    | same h => exact .same (hst ▸ h)
    | dropped hs hd h => exact .dropped hs hd (hst ▸ h)
    | accepted recv hr ha h => exact .accepted recv hr ha (hst ▸ h)

theorem step_statusChange (h : step env s e=.ok s') : StatusChange env s s' e c := by
  cases step_outcome h with
  | same | abort | takeResult => exact .same rfl
  | message hs ho => exact ho.statusChange hs
  | drop hs hd => exact .drop hs hd
  | proceed ho => exact ho.statusChange
  | task ht => exact .same (congrFun ht.clientStatus_eq c)

def answered : SecAggServerStateKind → ClientStatus → Bool
  | .r0AdvertiseKeys, status =>
    status≠.readyToStart && status≠.deadBeforeSendingAnything
  | .r1ShareKeys, .shareKeysReceived
  | .r1ShareKeys, .deadAfterShareKeysReceived => true
  | .r1ShareKeys, status
  | .r2MaskedInputCollection, status => inputAccepted status
  | .r3Unmasking, status =>
    status=.unmaskingResponseReceived || status=.deadAfterUnmaskingResponseReceived
  | _, _ => false

variable {st : ClientStatus}

theorem answered_deadStatus {kind round : SecAggServerStateKind}
    (hk : kind≠.completed ∧ kind≠.aborted) (ha : allowed kind st=true)
    (hd : st.isDead=false) (h : answered round (deadStatus kind st)=true) :
    answered round st=true := by
  revert hk ha hd h
  cases kind <;> cases round <;> cases st <;> decide

theorem answered_received {kind round : SecAggServerStateKind}
    (he : expectedStatus kind=some st) (hr : receivedStatus kind=some recv)
    (h : answered round recv=true) : answered round st=true ∨ kind=round := by
  revert h
  cases kind <;> cases he <;> cases hr <;> cases round <;> decide

variable {kind : SecAggServerStateKind}

theorem acceptedIn_append {entry : ServerState G × SecAggServer.Event} :
    AcceptedIn env (hist++[entry]) kind c ↔
      AcceptedIn env hist kind c ∨ Accepts env kind c entry := by
  simp only [AcceptedIn,List.mem_append,List.mem_singleton]
  constructor
  · rintro ⟨e,he | rfl,h⟩
    · exact .inl ⟨e,he,h⟩
    · exact .inr h
  · rintro (⟨e,he,h⟩ | h)
    · exact ⟨e,.inl he,h⟩
    · exact ⟨entry,.inr rfl,h⟩

theorem acceptedIn_of_answered (h : ServerRun env hist s)
    (ha : answered kind (s.clientStatus c)=true) : AcceptedIn env hist kind c := by
  induction h with
  | nil =>
    cases kind <;> cases ha
  | @snoc hist s s' e hrun hstep ih =>
    rw [acceptedIn_append]
    have hb:=bookkeeping hrun.reachable
    cases step_statusChange hstep with
    | same h => exact .inl (ih (h ▸ ha))
    | dropped hs hd h =>
      refine .inl (ih ?_)
      exact answered_deadStatus (not_terminal_iff.mp hs) (hb.allowed c) hd (h ▸ ha)
    | accepted recv hr haccepted h =>
      rcases answered_received haccepted.2.1 hr (h ▸ ha) with hp | rfl
      · exact .inl (ih hp)
      · exact .inr haccepted

theorem Accepts.step_eq (ha : Accepts env kind c (s,e)) (h : step env s e=.ok s') :
    ∃ msg recv impl,e=.receiveMessage c msg ∧ receivedStatus kind=some recv ∧
      s.roundHandler env c msg=some (.ok (.ok impl)) ∧
      s'=s.recordMessage c recv impl := by
  obtain ⟨rfl,he,msg,impl,rfl,haccepted⟩:=ha
  dsimp only at he haccepted
  obtain ⟨⟨t,st⟩,ht,⟨⟩⟩:=bind_eq_ok.mp h
  rcases receiveMessage_outcome ht with ⟨-,hterminal | hid⟩ | ⟨i,hi,hs,ho⟩
  · rw [isTerminal_of_expected he] at hterminal
    cases hterminal
  · exact absurd c.isLt (not_lt.mpr hid)
  · cases Fin.ext hi
    cases ho with
    | ignored hd =>
      rw [isDead_of_expected he] at hd
      cases hd
    | dropped reason code notify hd hc hn =>
      rw [hn he] at haccepted
      cases haccepted
    | rejected st he' hrejected =>
      cases haccepted.symm.trans hrejected
    | accepted recv impl' he' hr haccept => exact ⟨msg,recv,impl',rfl,hr,haccept,rfl⟩

theorem inputAccepted_deadStatus (hk : kind≠.completed ∧ kind≠.aborted)
    (ha : allowed kind st=true) (hd : st.isDead=false) :
    inputAccepted (deadStatus kind st)=inputAccepted st := by
  revert hk ha hd
  cases kind <;> cases st <;> decide

theorem inputAccepted_received (he : expectedStatus kind=some st)
    (hr : receivedStatus kind=some recv) (hk : kind≠.r2MaskedInputCollection) :
    inputAccepted recv=inputAccepted st := by
  revert hk
  cases kind <;> cases he <;> cases hr <;> decide

theorem StatusChange.inputAccepted_eq (h : StatusChange env s s' e c)
    (hb : Bookkeeping s) (haccepted : ¬ Accepts env .r2MaskedInputCollection c (s,e)) :
    inputAccepted (s'.clientStatus c)=inputAccepted (s.clientStatus c) := by
  cases h with
  | same h => rw [h]
  | dropped hs hd h =>
    rw [h]
    exact inputAccepted_deadStatus (not_terminal_iff.mp hs) (hb.allowed c) hd
  | accepted recv hr ha h =>
    rw [h]
    refine inputAccepted_received ha.2.1 hr fun hk => haccepted ?_
    rw [← hk]
    exact ha

theorem inputAccepted_iff (h : ServerRun env hist s) (c : G.ClientId) :
    inputAccepted (s.clientStatus c)=true ↔ AcceptedIn env hist .r2MaskedInputCollection c := by
  refine ⟨fun ha => acceptedIn_of_answered h ha,?_⟩
  induction h with
  | nil =>
    rintro ⟨entry,he,-⟩
    cases he
  | @snoc hist s s' e hrun hs ih =>
    rw [acceptedIn_append]
    by_cases haccepted : Accepts env .r2MaskedInputCollection c (s,e)
    · intro _
      obtain ⟨-,recv,impl,-,hr,-,rfl⟩:=haccepted.step_eq hs
      cases hr
      simp [recordMessage,clientStatus,inputAccepted]
    · rintro (hp | hn)
      · rw [(step_statusChange hs).inputAccepted_eq (bookkeeping hrun.reachable) haccepted]
        exact ih hp
      · exact absurd hn haccepted

theorem Move.kind_of_aborted (hm : Move env s s') (h : s.kind=.aborted) : s'.kind=.aborted := by
  cases hm with
  | next hn =>
    obtain ⟨recv,hr,-⟩:=hn.leaves.received
    rw [h] at hr
    cases hr
  | complete st hk => exact absurd (hk.symm.trans h) (by decide)
  | task ht => cases ht <;> exact h
  | abort | fail => rfl
  | drop | accept | takeResult => exact h

theorem inputsFixed_nextKind (h : inputsFixed kind=true) : inputsFixed (nextKind kind)=true := by
  revert h
  cases kind <;> decide

theorem Move.inputsFixed_kind (hm : Move env s s') (h : inputsFixed s.kind=true) :
    s'.kind=.aborted ∨ inputsFixed s'.kind=true := by
  cases hm with
  | next hn =>
    rw [hn.leaves.kind]
    exact .inr (inputsFixed_nextKind h)
  | task ht => cases ht <;> exact .inr h
  | abort | fail => exact .inl rfl
  | complete => exact .inr rfl
  | drop | accept | takeResult => exact .inr h

theorem inputsFixed_step (h : step env s e=.ok s')
    (hk : inputsFixed s.kind=true) : s'.kind=.aborted ∨ inputsFixed s'.kind=true := by
  have hmoves:=step_moves h
  clear h
  induction hmoves with
  | refl => exact .inr hk
  | tail _ hm ih =>
    rcases ih with ih | ih
    · exact .inl (hm.kind_of_aborted ih)
    · exact hm.inputsFixed_kind ih

theorem included_step (hb : Bookkeeping s) (hb' : Bookkeeping s')
    (h : step env s e=.ok s') (hk : inputsFixed s.kind=true)
    (hk' : s'.kind≠.aborted) : s'.numberOfIncludedInputs=s.numberOfIncludedInputs := by
  have hf:=(inputsFixed_step h hk).resolve_left hk'
  rw [hb'.included hf,hb.included hk]
  simp only [tally]
  congr 3
  funext c
  rw [(step_statusChange h).inputAccepted_eq hb]
  intro ha
  have hr2:=ha.1
  rw [hr2] at hk
  cases hk

structure Enough (env : ServerEnv G) (s : ServerState G) : Prop where
  book : Bookkeeping s
  needs : s.needsToAbort=true → s.numberOfAliveClients<env.minimumNumberOfClientsToProceed
  included : inputsFixed s.kind=true →
    env.minimumNumberOfClientsToProceed≤tally inputAccepted s.clientStatus

theorem enough_create : Enough env (create G) where
  book := bookkeeping_create
  needs h := by cases h
  included h := by cases h

theorem lacksClients_lt (hb : Bookkeeping s) (h : lacksClients env s st=true) :
    s.numberOfAliveClients<env.minimumNumberOfClientsToProceed := by
  unfold lacksClients at h
  split at h
  · exact of_decide_eq_true h
  · exact of_decide_eq_true h
  · exact of_decide_eq_true h
  next hk =>
    have hp : s.numberOfPendingClients=s.numberOfAliveClients-s.readyForNextRound := by
      rw [numberOfPendingClients,hk]
    have hlt:=of_decide_eq_true (Bool.and_elim_right h)
    have hm:=hb.messages hk
    omega
  · cases h

theorem countsAlive_of_alive (hd : st.isDead=false) : countsAlive st=true := by
  revert hd
  cases st <;> decide

theorem Enough.drop (h : Enough env s) {reason : String} {notify : Bool}
    (hs : s.isTerminal=false) (hd : (s.clientStatus c).isDead=false) :
    Enough env (s.dropClient env c reason code notify) := by
  have hb : Bookkeeping (s.dropClient env c reason code notify) := h.book.drop hs hd
  refine ⟨hb,?_,?_⟩
  · intro hn
    have hor : (s.needsToAbort || lacksClients env (s.dropClient env c reason code notify)
          (s.clientStatus c))=true := hn
    rcases Bool.or_eq_true_iff.mp hor with hn | hl
    · have hle : (s.dropClient env c reason code notify).numberOfAliveClients ≤
          s.numberOfAliveClients := by
        rw [hb.alive,h.book.alive,dropClient_clientStatus,tally_update,countsAlive_of_alive hd]
        cases countsAlive (deadStatus s.kind (s.clientStatus c)) <;> simp
      exact lt_of_le_of_lt hle (h.needs hn)
    · exact lacksClients_lt hb hl
  · intro hk
    rw [dropClient_clientStatus,tally_update,
      inputAccepted_deadStatus (not_terminal_iff.mp hs) (h.book.allowed c) hd]
    have := h.included hk
    omega

theorem Enough.accept (h : Enough env s) {impl : ProtocolImpl G}
    (he : expectedStatus s.kind=some (s.clientStatus c))
    (hr : receivedStatus s.kind=some recv) (hst : impl.clientStatus=s.clientStatus) :
    Enough env (s.recordMessage c recv impl) := by
  refine ⟨h.book.accept he hr hst,h.needs,?_⟩
  intro hk
  have hr3 : s.kind≠.r2MaskedInputCollection := by
    intro hr2
    have hf : inputsFixed s.kind=true := hk
    rw [hr2] at hf
    cases hf
  have hs : (s.recordMessage c recv impl).clientStatus=Function.update s.clientStatus c recv := by
    rw [← hst]
    rfl
  rw [hs,tally_update,inputAccepted_received he hr hr3]
  have := h.included hk
  omega

theorem NextRound.enough (h : NextRound env s s') (hb : Bookkeeping s) :
    env.minimumNumberOfClientsToProceed ≤ s.readyForNextRound := by
  cases h with
  | toR1 hk hs hr | toR2 hk hs hr | toR3 hk hs hr => exact hr
  | toPrng hk hs hr => exact hb.messages hk ▸ hr

theorem inputsFixed_of_next (h : inputsFixed (nextKind kind)=true) :
    inputsFixed kind=true ∨ kind=.r2MaskedInputCollection := by
  revert h
  cases kind <;> decide

theorem Enough.next (h : Enough env s) (hnext : NextRound env s s') : Enough env s' := by
  have hl:=hnext.leaves
  refine ⟨h.book.next hl,?_,?_⟩
  · intro hn
    rw [hl.needsToAbort] at hn
    cases hn
  · intro hk
    rw [hl.kind] at hk
    rw [hl.clientStatus]
    rcases inputsFixed_of_next hk with hf | hr2
    · exact h.included hf
    · refine (hnext.enough h.book).trans ?_
      rw [h.book.ready,hr2]
      refine tally_mono fun i => ?_
      cases s.clientStatus i <;> decide

theorem Enough.task (h : Enough env s) (ht : Task env s s') : Enough env s' := by
  have hb:=h.book.task ht
  have hst:=ht.clientStatus_eq
  cases ht with
  | collect | finish => exact ⟨hb,h.needs,fun hk => by rw [hst]; exact h.included hk⟩
  | prng => exact ⟨hb,h.needs,h.included⟩

theorem Enough.move (hm : Move env s s') (h : Enough env s) : Enough env s' := by
  have hb:=h.book.move hm
  cases hm with
  | drop c reason code notify hs hd => exact h.drop hs hd
  | accept c msg recv impl he hr ha => exact h.accept he hr (roundHandler_clientStatus ha)
  | next hnext => exact h.next hnext
  | abort reason hs => exact ⟨hb,fun hn => (by cases hn),fun hk => (by cases hk)⟩
  | complete st hk hstarted hc =>
    refine ⟨hb,fun hn => (by cases hn),fun _ => h.included ?_⟩
    rw [hk]
    rfl
  | fail st hk hstarted hc => exact ⟨hb,fun hn => (by cases hn),fun hk => (by cases hk)⟩
  | task ht => exact h.task ht
  | takeResult hk => exact ⟨hb,h.needs,h.included⟩

theorem enough (h : Reachable (step env) (create G) s) : Enough env s :=
  invariant_of_moves enough_create (fun _ _ => Enough.move) h

theorem proceed_alive (hb : Bookkeeping s) {st : Status} (hk : isRound s.kind=true)
    (h : SecAggServer.proceedToNextRound env s=.ok (s',st)) (hok : st.code=.ok)
    (hk' : s'.kind≠.aborted) :
    s'.numberOfAliveClients=s.readyForNextRound ∧
      env.minimumNumberOfClientsToProceed ≤ s.readyForNextRound := by
  rcases proceedToNextRound_outcome h with ⟨-,hc⟩ | ⟨-,ho⟩
  · exact absurd hok hc
  · cases ho with
    | tooManyAborted | failed => exact absurd rfl hk'
    | next recv code hneeds hr hd hn =>
      have ht:=hb.moves hd.moves
      rw [ht.alive_after hn.leaves,← hd.ready_eq hr]
      exact ⟨rfl,hn.enough ht⟩
    | completed st hp =>
      rw [hp] at hk
      cases hk

theorem pending_of_not_round (hk : isRound s.kind=false) : s.numberOfPendingClients=0 := by
  unfold numberOfPendingClients
  revert hk
  cases s.kind <;> intro hk <;> first | rfl | cases hk

theorem countsReady_of_not_round (hk : isRound kind=false) : countsReady kind st=false := by
  revert hk
  cases kind <;> cases st <;> decide

theorem answered_of_countsReady (h : countsReady kind st=true) : answered kind st=true ∧
      (kind≠.r3Unmasking → st.isDead=false) := by
  revert h
  cases kind <;> cases st <;> decide

theorem Bookkeeping.ready_le_alive (h : Bookkeeping s) :
    s.readyForNextRound ≤ s.numberOfAliveClients := by
  rw [h.ready,h.alive]
  refine tally_mono fun i => ?_
  cases s.kind <;> cases s.clientStatus i <;> decide

/-- The counters in every state of every run. The two numbers about the current round are
about rounds 0 to 3 only: elsewhere no message is expected and both are zero. -/
theorem counters_of_run (h : ServerRun env hist s) :
    s.failedBeforeSendingMaskedInput=tally failedBefore s.clientStatus ∧
    s.failedAfterSendingMaskedInput+s.terminatedWithoutUnmasking =
      tally failedAfter s.clientStatus ∧
    s.numberOfPendingClients =
      (if isRound s.kind then tally (isPending s.kind) s.clientStatus else 0) ∧
    (isRound s.kind=true → ∀ s' st,
      SecAggServer.proceedToNextRound env s=.ok (s',st) → st.code=.ok →
        s'.kind≠.aborted → s.readyForNextRound=s'.numberOfAliveClients) ∧
    (isRound s.kind=false → s.readyForNextRound=0) ∧
    (inputsFixed s.kind=true → s.numberOfIncludedInputs =
        {c | AcceptedIn env hist .r2MaskedInputCollection c}.ncard ∧
      ∀ e s',SecAggServer.step env s e=.ok s' → s'.kind≠.aborted →
        s'.numberOfIncludedInputs=s.numberOfIncludedInputs) := by
  have hb:=bookkeeping h.reachable
  refine ⟨hb.failedBefore,hb.failedAfter,?_,?_,?_,?_⟩
  · cases hk : isRound s.kind with
    | true => exact hb.pending hk
    | false => exact pending_of_not_round hk
  · intro hk s' st hp hok hk'
    exact (proceed_alive hb hk hp hok hk').1.symm
  · intro hk
    rw [hb.ready]
    exact tally_eq_zero fun i => countsReady_of_not_round hk
  · intro hk
    refine ⟨?_,?_⟩
    · rw [hb.included hk]
      exact tally_eq_ncard (inputAccepted_iff h)
    · intro e s' hs hk'
      exact included_step hb (bookkeeping (h.snoc hs).reachable) hs hk hk'

def pairEvents : List SecAggServer.Event :=
  let key := List.replicate EcdhPublicKey.kSize 1
  let share := .prfSkShare (List.replicate 36 0)
  [.receiveMessage 0 (.advertiseKeys ⟨key,key⟩),.receiveMessage 1 (.advertiseKeys ⟨key,key⟩),
    .proceedToNextRound,
    .receiveMessage 0 (.shareKeysResponse [[],[1]]),
    .receiveMessage 1 (.shareKeysResponse [[1],[]]),
    .proceedToNextRound,
    .receiveMessage 0 (.maskedInputResponse ∅),.receiveMessage 1 (.maskedInputResponse ∅),
    .proceedToNextRound,
    .receiveMessage 0 (.unmaskingResponse [share,share]),
    .receiveMessage 1 (.unmaskingResponse [share,share]),
    .proceedToNextRound,.runPrngTask 0 1,.accumulatePrng 0,.prngFinished]

theorem counters_of_run_pair : ∃ hist s,ServerRun (.pair []) hist s ∧ s.kind=.r3Unmasking ∧
      s.numberOfIncludedInputs =
        {c | AcceptedIn (.pair []) hist .r2MaskedInputCollection c}.ncard := by
  obtain ⟨hist,s,hr,hk⟩:=exists_run (SecAggServer.step (.pair []))
    (create .pair) (pairEvents.take 9) (P := fun s => s.kind=.r3Unmasking) (by decide +kernel)
  refine ⟨hist,s,hr,hk,?_⟩
  exact ((counters_of_run hr).2.2.2.2.2 (by rw [hk]; rfl)).1

theorem proceed_of_finished (hk : s.kind=.prngRunning) (hs : s.completionStatus=some .okStatus) :
    SecAggServer.proceedToNextRound env s=.ok (s.enter .completed,.okStatus) := by
  have he : SecAggServer.errorIfAbortedOrCompleted s=.ok () := by
    simp [SecAggServer.errorIfAbortedOrCompleted,isAborted,isCompletedSuccessfully,hk]
  have hp : s.proceedToNextRound env=.ok (.ok (s.enter .completed)) := by
    unfold proceedToNextRound
    rw [hk,hs]
    rfl
  unfold SecAggServer.proceedToNextRound
  rw [he,hp]
  rfl

/-- In the PRNG state nobody counts as ready, and yet the session completes with two clients. -/
theorem ready_ne_alive_of_prng : ∃ hist s s',ServerRun (.pair []) hist s ∧ s.kind=.prngRunning ∧
      SecAggServer.proceedToNextRound (.pair []) s=.ok (s',.okStatus) ∧
      s'.kind=.completed ∧ s.readyForNextRound=0 ∧ s'.numberOfAliveClients=2 := by
  obtain ⟨hist,s,hrun,hk,hr,ha,hs⟩:=exists_run (SecAggServer.step (.pair []))
    (create .pair) pairEvents (P := fun s => s.kind=.prngRunning ∧ s.readyForNextRound=0 ∧
      s.numberOfAliveClients=2 ∧ s.completionStatus=some .okStatus) (by decide +kernel)
  exact ⟨hist,s,s.enter .completed,hrun,hk,proceed_of_finished hk hs,rfl,hr,ha⟩

/-- No round is left and no session completes with too few clients, and a session is marked to
abort only when it has too few. -/
theorem enough_clients_of_run (h : ServerRun env hist s) : (isRound s.kind=true → ∀ s' st,
      SecAggServer.proceedToNextRound env s=.ok (s',st) → st.code=.ok → s'.kind≠.aborted →
        env.minimumNumberOfClientsToProceed ≤
          {c | AcceptedIn env hist s.kind c ∧
            (s.kind≠.r3Unmasking → (s.clientStatus c).isDead=false)}.ncard ∧
        env.minimumNumberOfClientsToProceed ≤ s'.numberOfAliveClients) ∧
    (s.needsToAbort=true → s.readyForNextRound<env.minimumNumberOfClientsToProceed ∧
      (s.kind=.r3Unmasking → s.messagesReceivedInThisRound<env.minimumNumberOfClientsToProceed)) ∧
    (s.kind=.completed → env.minimumNumberOfClientsToProceed ≤
        {c | AcceptedIn env hist .r2MaskedInputCollection c}.ncard) := by
  have he:=enough h.reachable
  refine ⟨?_,?_,?_⟩
  · intro hk s' st hp hok hk'
    obtain ⟨ha,hr⟩:=proceed_alive he.book hk hp hok hk'
    refine ⟨hr.trans ?_,ha ▸ hr⟩
    rw [he.book.ready]
    refine tally_le_ncard fun c hc => ?_
    obtain ⟨hanswered,ha⟩:=answered_of_countsReady hc
    exact ⟨acceptedIn_of_answered h hanswered,ha⟩
  · intro hn
    have hlt:=lt_of_le_of_lt he.book.ready_le_alive (he.needs hn)
    exact ⟨hlt,fun hk => he.book.messages hk ▸ hlt⟩
  · intro hk
    refine (he.included (by rw [hk]; rfl)).trans ?_
    exact tally_le_ncard fun c => (inputAccepted_iff h c).mp

theorem enough_clients_of_run_pair : ∃ hist s,ServerRun (.pair []) hist s ∧ s.kind=.completed ∧
      2≤{c | AcceptedIn (.pair []) hist .r2MaskedInputCollection c}.ncard := by
  obtain ⟨hist,s,hr,hk⟩:=exists_run (SecAggServer.step (.pair []))
    (create .pair) (pairEvents++[.proceedToNextRound]) (P := fun s => s.kind=.completed)
    (by decide +kernel)
  have hle : (2 : ℤ)≤_ := (enough_clients_of_run hr).2.2 hk
  exact ⟨hist,s,hr,hk,by exact_mod_cast hle⟩

end Fcp.SecAgg.ServerState

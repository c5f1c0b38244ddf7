import Fcp.SecAgg.Server.Acceptance

/-!
# Key shares on their way from client to client

In round 1 the server keeps the ciphertexts of a response under the clients they are meant for, and
takes them back when their sender is dropped.
-/

namespace Fcp.SecAgg

open SharingGraph ProtocolImpl SecAggServer

namespace ProtocolImpl
variable {G : SharingGraph} {c receiver : G.ClientId} {share : G.Slot → Bytes}
  {old : G.ClientId → G.Slot → Bytes} {j : G.Slot}

theorem routed_eq {i : G.Slot} (hi : neighbor c i=receiver) (hj : neighbor receiver j=c) :
    routed c share old receiver j=share i := by
  unfold routed
  rw [neighborIndex_eq_some.mpr hi]
  exact if_pos hj

theorem routed_of_ne (hj : neighbor receiver j≠c) :
    routed c share old receiver j=old receiver j := by
  unfold routed
  split
  · rfl
  · exact if_neg hj

theorem exists_neighbor_back (receiver : G.ClientId) (j : G.Slot) :
    ∃ i,neighbor (neighbor receiver j) i=receiver := by
  rw [← areNeighbors_iff,areNeighbors_comm]
  exact areNeighbors_neighbor receiver j

theorem handleShareKeysResponse_eq_ok {m impl : ProtocolImpl G} {shares : List Bytes}
    (h : m.handleShareKeysResponse c shares=.ok (.ok impl)) :
    shares.length=G.degree ∧ (∀ i,checkKeyShare m c shares i=.ok ()) ∧ impl={ m with
        encryptedShares := routed c (fun i => shares.getD i []) m.encryptedShares } := by
  unfold handleShareKeysResponse at h
  split at h
  · cases h
  next hl =>
    split at h
    · cases h
    next hchecks =>
      rw [routeShares_eq,ok_bind] at h
      cases h
      refine ⟨not_not.mp hl,fun i => ?_,rfl⟩
      obtain ⟨_,-,hc⟩:=exists_of_mapM_eq_ok hchecks (List.mem_finRange i)
      exact hc

end ProtocolImpl

namespace ServerState
variable {G : SharingGraph} {env : ServerEnv G} {s s' : ServerState G}
  {e : SecAggServer.Event} {hist : List (ServerState G × SecAggServer.Event)}

def Quiet (env : ServerEnv G) (s s' : ServerState G) : Prop := Move env s s' ∧ ∀ client,
    s'.clientStatus client=s.clientStatus client ∨ (s'.clientStatus client).isDead=true

abbrev QuietMoves (env : ServerEnv G) : ServerState G → ServerState G → Prop :=
  Relation.ReflTransGen (Quiet env)

variable {code : ClientDropReason} {reason : String} {notify : Bool} {st : ClientStatus}
  {m : ProtocolImpl G} {kind : SecAggServerStateKind}

theorem quiet_drop {i : G.ClientId} (hs : s.isTerminal=false)
    (hd : (s.clientStatus i).isDead=false) :
    Quiet env s (s.dropClient env i reason code notify) := by
  refine ⟨.drop i reason code notify hs hd,fun c => ?_⟩
  rw [dropClient_clientStatus]
  by_cases hi : c=i
  · subst hi
    rw [Function.update_self]
    exact .inr (isDead_deadStatus (not_terminal_iff.mp hs) _)
  · rw [Function.update_of_ne hi]
    exact .inl rfl

variable {recv : ClientStatus}

theorem DropsSilent.quiet (h : DropsSilent env recv code s s') : QuietMoves env s s' := by
  induction h with
  | refl => exact .refl
  | tail _ hstep ih =>
    cases hstep with
    | drop i reason hs hd hr => exact ih.tail (quiet_drop hs hd)

theorem quiet_of_status_eq (hm : Move env s s') (h : s'.clientStatus=s.clientStatus) :
    QuietMoves env s s' :=
  .single ⟨hm,fun c => .inl (congrFun h c)⟩

theorem ProceedOutcome.quiet (h : ProceedOutcome env s s') : QuietMoves env s s' := by
  cases h with
  | tooManyAborted hs => exact quiet_of_status_eq (.abort "Too many clients aborted." hs) rfl
  | next recv code hneeds hr hd hn =>
    exact hd.quiet.trans (quiet_of_status_eq (.next hn) hn.leaves.clientStatus)
  | completed st hk h hc => exact quiet_of_status_eq (.complete st hk h hc) rfl
  | failed st hk h hc => exact quiet_of_status_eq (.fail st hk h hc) rfl

theorem quiet_of_step (h : step env s e=.ok s')
    (ha : ∀ c,¬ Accepts env s.kind c (s,e)) : QuietMoves env s s' := by
  cases step_outcome h with
  | same => exact .refl
  | message hs ho =>
    cases ho with
    | ignored => exact .refl
    | dropped reason code notify hd => exact .single (quiet_drop hs hd)
    | rejected st he => exact .single (quiet_drop hs (isDead_of_expected he))
    | accepted recv impl he hr hh => exact absurd ⟨rfl,he,_,impl,rfl,hh⟩ (ha _)
  | drop hs hd => exact .single (quiet_drop hs hd)
  | proceed ho => exact ho.quiet
  | abort text hs => exact quiet_of_status_eq (.abort text hs) rfl
  | takeResult hk => exact quiet_of_status_eq (.takeResult hk) rfl
  | task ht => exact quiet_of_status_eq (.task ht) ht.clientStatus_eq

def KeySharesOf (env : ServerEnv G) (history : List (ServerState G × SecAggServer.Event))
    (client : G.ClientId) (shares : List Bytes) : Prop :=
  ∃ s₀,(s₀,.receiveMessage client (.shareKeysResponse shares))∈history ∧
    Accepts env .r1ShareKeys client (s₀,.receiveMessage client (.shareKeysResponse shares))

def beforeShares (status : ClientStatus) : Bool :=
  decide (status=.readyToStart ∨ status=.advertiseKeysReceived)

structure SharesRouted (env : ServerEnv G) (history : List (ServerState G × SecAggServer.Event))
    (s : ServerState G) : Prop where
  answered : ∀ sender shares,KeySharesOf env history sender shares →
    beforeShares (s.clientStatus sender)=false
  unique : ∀ sender shares shares',KeySharesOf env history sender shares →
    KeySharesOf env history sender shares' → shares'=shares
  stored : s.kind=.r1ShareKeys → ∀ sender shares,KeySharesOf env history sender shares →
    s.clientStatus sender=.shareKeysReceived → ∀ receiver i j,
      neighbor sender i=receiver → neighbor receiver j=sender →
        s.impl.encryptedShares receiver j=shares.getD i []
  empty : s.kind=.r0AdvertiseKeys ∨ s.kind=.r1ShareKeys → ∀ receiver j,
    s.clientStatus (neighbor receiver j)≠.shareKeysReceived → s.impl.encryptedShares receiver j=[]

variable {shares : List Bytes}

theorem keySharesOf_append {entry : ServerState G × SecAggServer.Event} {c : G.ClientId} :
    KeySharesOf env (hist++[entry]) c shares ↔ KeySharesOf env hist c shares ∨
      entry.2=.receiveMessage c (.shareKeysResponse shares) ∧ Accepts env .r1ShareKeys c entry := by
  simp only [KeySharesOf,List.mem_append,List.mem_singleton]
  constructor
  · rintro ⟨s₀,ho | rfl,ha⟩
    · exact .inl ⟨s₀,ho,ha⟩
    · exact .inr ⟨rfl,ha⟩
  · rintro (⟨s₀,ho,ha⟩ | ⟨he,ha⟩)
    · exact ⟨s₀,.inl ho,ha⟩
    · exact ⟨entry.1,.inr (by rw [← he]),by rwa [← he]⟩

theorem keySharesOf_append_of_not {c : G.ClientId} (h : ∀ c,¬ Accepts env .r1ShareKeys c (s,e)) :
    KeySharesOf env (hist++[(s,e)]) c shares ↔ KeySharesOf env hist c shares := by
  rw [keySharesOf_append]
  exact or_iff_left fun hl => h c hl.2

theorem not_keySharesOf_nil {c : G.ClientId} : ¬ KeySharesOf env [] c shares := by
  rintro ⟨s₀,hm,-⟩
  cases hm

theorem sharesRouted_create : SharesRouted env [] (create G) where
  answered _ _ h := absurd h not_keySharesOf_nil
  unique _ _ _ h := absurd h not_keySharesOf_nil
  stored _ _ _ h := absurd h not_keySharesOf_nil
  empty _ _ _ _ := rfl

theorem dropImpl_encryptedShares (kind : SecAggServerStateKind) (m : ProtocolImpl G)
    (c : G.ClientId) : (dropImpl kind m c).encryptedShares =
      if kind=.r1ShareKeys ∧ m.clientStatus c=.shareKeysReceived then
        routed c (fun _ => []) m.encryptedShares
      else m.encryptedShares := by
  show (eraseImpl kind m c).encryptedShares=_
  unfold eraseImpl
  split
  · split <;> rfl
  · split
    next hr =>
      rw [if_pos ⟨rfl,hr⟩]
      rfl
    next hr => rw [if_neg fun h => hr h.2]
  next hk => rw [if_neg fun h => hk h.1]

theorem beforeShares_of_dead (h : st.isDead=true) : beforeShares st=false := by
  cases st <;> first | rfl | cases h

theorem not_received_r0 (hb : Bookkeeping s) (hk : s.kind=.r0AdvertiseKeys)
    (c : G.ClientId) : s.clientStatus c≠.shareKeysReceived := by
  intro hr
  have ha:=hb.allowed c
  rw [hk,hr] at ha
  cases ha

section

variable (h : SharesRouted env hist s)
include h

theorem SharesRouted.drop (hb : Bookkeeping s) {c : G.ClientId} (hs : s.isTerminal=false) :
    SharesRouted env hist (s.dropClient env c reason code notify) := by
  have hstatus:=dropClient_clientStatus env c s reason code notify
  have hd : (deadStatus s.kind (s.clientStatus c)).isDead=true :=
    isDead_deadStatus (not_terminal_iff.mp hs) _
  have ho : ∀ {j : G.Slot} {receiver : G.ClientId},neighbor receiver j≠c →
      (s.dropClient env c reason code notify).impl.encryptedShares receiver j =
        s.impl.encryptedShares receiver j := by
    intro j receiver hne
    rw [dropClient_impl,dropImpl_encryptedShares]
    split
    · exact routed_of_ne hne
    · rfl
  constructor
  · intro sender shares hshares
    rw [hstatus]
    by_cases hsender : sender=c
    · rw [hsender,Function.update_self]
      exact beforeShares_of_dead hd
    · rw [Function.update_of_ne hsender]
      exact h.answered sender shares hshares
  · exact h.unique
  · intro hk sender shares hshares hr receiver i j hi hj
    have hsender : sender≠c := by
      intro heq
      rw [hstatus,heq,Function.update_self] at hr
      rw [hr] at hd
      cases hd
    rw [hstatus,Function.update_of_ne hsender] at hr
    rw [ho (hj ▸ hsender)]
    exact h.stored hk sender shares hshares hr receiver i j hi hj
  · intro hk receiver j hn
    by_cases hsender : neighbor receiver j=c
    · rw [dropClient_impl,dropImpl_encryptedShares]
      by_cases hr : s.clientStatus c=.shareKeysReceived
      · have hk1 : s.kind=.r1ShareKeys := hk.resolve_left fun hk0 => not_received_r0 hb hk0 c hr
        obtain ⟨i,hi⟩:=exists_neighbor_back receiver j
        rw [if_pos ⟨hk1,hr⟩,routed_eq (hsender ▸ hi) hsender]
      · rw [if_neg fun hboth => hr hboth.2]
        exact h.empty hk receiver j (hsender ▸ hr)
    · rw [hstatus,Function.update_of_ne hsender] at hn
      rw [ho hsender]
      exact h.empty hk receiver j hn

theorem SharesRouted.later
    (hstatus : s'.clientStatus=s.clientStatus) (hk0 : s'.kind≠.r0AdvertiseKeys)
    (hk1 : s'.kind≠.r1ShareKeys) : SharesRouted env hist s' where
  answered sender shares hs := by
    rw [hstatus]
    exact h.answered sender shares hs
  unique := h.unique
  stored hk := absurd hk hk1
  empty hk := absurd hk (not_or.mpr ⟨hk0,hk1⟩)

theorem SharesRouted.congr (hkind : s'.kind=s.kind) (hstatus : s'.clientStatus=s.clientStatus)
    (hshares : s'.impl.encryptedShares=s.impl.encryptedShares) :
    SharesRouted env hist s' where
  answered sender shares hs := by
    rw [hstatus]
    exact h.answered sender shares hs
  unique := h.unique
  stored hk := by
    rw [hstatus,hshares]
    exact h.stored (hkind ▸ hk)
  empty hk := by
    rw [hstatus,hshares]
    exact h.empty (hkind ▸ hk)

end

theorem setResult_encryptedShares {impl : ProtocolImpl G} {value : SecAggUnpackedVectorMap}
    (h : m.setResult value=.ok impl) : impl.encryptedShares=m.encryptedShares := by
  obtain ⟨items,-,h⟩:=bind_eq_ok.mp h
  obtain ⟨_,-,⟨⟩⟩:=bind_eq_ok.mp h
  rfl

theorem SharesRouted.task (h : SharesRouted env hist s) (ht : Task env s s') :
    SharesRouted env hist s' := by
  have hs:=ht.clientStatus_eq
  cases ht with
  | collect hk => exact h.later hs (by simp [hk]) (by simp [hk])
  | prng => exact h.congr rfl rfl rfl
  | finish _ _ hr => exact h.congr rfl hs (setResult_encryptedShares hr)

theorem SharesRouted.next (h : SharesRouted env hist s) (hb : Bookkeeping s)
    (hn : NextRound env s s') : SharesRouted env hist s' := by
  have hl:=hn.leaves
  cases hn with
  | toR1 hk =>
    refine ⟨h.answered,h.unique,fun _ sender _ _ hr => ?_,fun _ => h.empty (.inl hk)⟩
    exact absurd hr (not_received_r0 hb hk sender)
  | toR2 hk | toR3 hk | toPrng hk =>
    have hkind:=hl.kind
    rw [hk] at hkind
    exact h.later hl.clientStatus (by rw [hkind]; decide) (by rw [hkind]; decide)

theorem received_is_new (he : expectedStatus kind=some st) (hr : receivedStatus kind=some recv) :
    ¬ (recv=st ∨ recv.isDead=true) := by
  cases kind <;> cases he <;> cases hr <;> decide

theorem SharesRouted.quiet (h : SharesRouted env hist s) (hb : Bookkeeping s)
    (hq : Quiet env s s') : SharesRouted env hist s' := by
  obtain ⟨hm,hstatuses⟩:=hq
  cases hm with
  | drop c reason code notify hs => exact h.drop hb hs
  | accept c msg recv impl he hr =>
    have hnew:=hstatuses c
    have hreceived : (s.recordMessage c recv impl).clientStatus c=recv := Function.update_self ..
    rw [hreceived] at hnew
    exact absurd hnew (received_is_new he hr)
  | next hn => exact h.next hb hn
  | abort | complete | fail => exact h.later rfl nofun nofun
  | task ht => exact h.task ht
  | takeResult => exact h.congr rfl rfl rfl

theorem SharesRouted.quietMoves (h : SharesRouted env hist s) (hb : Bookkeeping s)
    (hq : QuietMoves env s s') : SharesRouted env hist s' := by
  suffices hboth : Bookkeeping s' ∧ SharesRouted env hist s' from hboth.2
  induction hq with
  | refl => exact ⟨hb,h⟩
  | tail _ hs ih => exact ⟨ih.1.move hs.1,ih.2.quiet ih.1 hs⟩

theorem beforeShares_received
    (he : expectedStatus kind=some st) (hr : receivedStatus kind=some recv)
    (h : beforeShares st=false) : beforeShares recv=false := by
  revert h
  cases kind <;> cases he <;> cases hr <;> decide

variable {msg : ClientToServerWrapperMessage} {impl : ProtocolImpl G}

theorem recordMessage_clientStatus {c : G.ClientId} (recv : ClientStatus)
    (h : s.roundHandler env c msg=some (.ok (.ok impl))) :
    (s.recordMessage c recv impl).clientStatus=Function.update s.clientStatus c recv := by
  rw [← roundHandler_clientStatus h]
  rfl

theorem SharesRouted.acceptShares (h : SharesRouted env hist s) {c : G.ClientId}
    (hk : s.kind=.r1ShareKeys) (he : s.clientStatus c=.advertiseKeysReceived)
    (hh : s.impl.handleShareKeysResponse c shares=.ok (.ok impl)) :
    SharesRouted env
      (hist++[(s,.receiveMessage c (.shareKeysResponse shares))])
      (s.recordMessage c .shareKeysReceived impl) := by
  obtain ⟨-,-,himpl⟩:=handleShareKeysResponse_eq_ok hh
  have hround : s.roundHandler env c (.shareKeysResponse shares)=some (.ok (.ok impl)) := by
    unfold roundHandler
    rw [hk,← hh]
  have hs : (s.recordMessage c .shareKeysReceived impl).clientStatus =
      Function.update s.clientStatus c .shareKeysReceived :=
    recordMessage_clientStatus _ hround
  have hstored : (s.recordMessage c .shareKeysReceived impl).impl.encryptedShares =
      routed c (fun i => shares.getD i []) s.impl.encryptedShares := by
    rw [himpl]
    rfl
  -- The sender is new: it has not answered before.
  have hnew : ∀ sh,¬ KeySharesOf env hist c sh := by
    intro sh hsh
    have ha:=h.answered c sh hsh
    rw [he] at ha
    cases ha
  have hc : ∀ {sender sh},KeySharesOf env
      (hist++[(s,.receiveMessage c (.shareKeysResponse shares))]) sender sh →
      sender≠c ∧ KeySharesOf env hist sender sh ∨ sender=c ∧ sh=shares := by
    intro sender sh hsh
    rw [keySharesOf_append] at hsh
    obtain ho | ⟨hevent,-⟩:=hsh
    · refine .inl ⟨?_,ho⟩
      rintro rfl
      exact hnew sh ho
    · simp only [SecAggServer.Event.receiveMessage.injEq,
        ClientToServerWrapperMessage.shareKeysResponse.injEq] at hevent
      exact .inr ⟨(Fin.ext hevent.1).symm,hevent.2.symm⟩
  constructor
  · intro sender sh hsh
    rw [hs]
    obtain ⟨hne,ho⟩ | ⟨rfl,-⟩:=hc hsh
    · rw [Function.update_of_ne hne]
      exact h.answered sender sh ho
    · rw [Function.update_self]
      rfl
  · intro sender sh sh' hsh hsh'
    obtain ⟨hne,ho⟩ | ⟨rfl,rfl⟩:=hc hsh
    · obtain ⟨-,ho'⟩ | ⟨heq,-⟩:=hc hsh'
      · exact h.unique sender sh sh' ho ho'
      · exact absurd heq hne
    · obtain ⟨hne,-⟩ | ⟨-,heq⟩:=hc hsh'
      · exact absurd rfl hne
      · exact heq
  · intro _ sender sh hsh hr receiver i j hi hj
    rw [hstored]
    obtain ⟨hne,ho⟩ | ⟨rfl,rfl⟩:=hc hsh
    · rw [hs,Function.update_of_ne hne] at hr
      rw [routed_of_ne (hj ▸ hne)]
      exact h.stored hk sender sh ho hr receiver i j hi hj
    · rw [routed_eq hi hj]
  · intro _ receiver j hn
    have hne : neighbor receiver j≠c := by
      intro heq
      rw [hs,heq,Function.update_self] at hn
      exact hn rfl
    rw [hs,Function.update_of_ne hne] at hn
    rw [hstored,routed_of_ne hne]
    exact h.empty (.inr hk) receiver j hn

theorem roundHandler_r1 {c : G.ClientId} (hk : s.kind=.r1ShareKeys)
    (h : s.roundHandler env c msg=some (.ok (.ok impl))) :
    ∃ shares,msg=.shareKeysResponse shares ∧
      s.impl.handleShareKeysResponse c shares=.ok (.ok impl) := by
  unfold roundHandler at h
  rw [hk] at h
  cases msg with
  | shareKeysResponse shares => exact ⟨shares,rfl,Option.some.inj h⟩
  | _ => cases h

theorem roundHandler_r0 {c : G.ClientId} (hk : s.kind=.r0AdvertiseKeys)
    (h : s.roundHandler env c msg=some (.ok (.ok impl))) :
    impl.encryptedShares=s.impl.encryptedShares := by
  unfold roundHandler at h
  rw [hk] at h
  cases msg with
  | advertiseKeys keys =>
    simp only [handleAdvertiseKeys] at h
    split at h <;> cases h
    rfl
  | _ => cases h

theorem SharesRouted.acceptOther (h : SharesRouted env hist s) (hb : Bookkeeping s)
    {c : G.ClientId} (hk : s.kind≠.r1ShareKeys)
    (he : expectedStatus s.kind=some (s.clientStatus c))
    (hr : receivedStatus s.kind=some recv)
    (hh : s.roundHandler env c msg=some (.ok (.ok impl))) :
    SharesRouted env hist (s.recordMessage c recv impl) := by
  have hstatus:=recordMessage_clientStatus recv hh
  constructor
  · intro sender shares hshares
    have ha:=h.answered sender shares hshares
    rw [hstatus]
    by_cases hs : sender=c
    · rw [hs] at ha ⊢
      rw [Function.update_self]
      exact beforeShares_received he hr ha
    · rw [Function.update_of_ne hs]
      exact ha
  · exact h.unique
  · exact fun hk1 => absurd hk1 hk
  · intro hkinds receiver j _
    have hk0 : s.kind=.r0AdvertiseKeys := hkinds.resolve_right hk
    have hkept : (s.recordMessage c recv impl).impl.encryptedShares=s.impl.encryptedShares := by
      have hkept:=roundHandler_r0 hk0 hh
      exact hkept
    rw [hkept]
    exact h.empty (.inl hk0) receiver j (not_received_r0 hb hk0 _)

theorem SharesRouted.append (h : SharesRouted env hist s')
    (hn : ∀ c,¬ Accepts env .r1ShareKeys c (s,e)) :
    SharesRouted env (hist++[(s,e)]) s' := by
  constructor
  · intro sender shares hs
    exact h.answered sender shares ((keySharesOf_append_of_not hn).mp hs)
  · intro sender shares shares' hs hs'
    exact h.unique sender shares shares' ((keySharesOf_append_of_not hn).mp hs)
      ((keySharesOf_append_of_not hn).mp hs')
  · intro hk sender shares hs
    exact h.stored hk sender shares ((keySharesOf_append_of_not hn).mp hs)
  · exact h.empty

theorem sharesRouted (hrun : ServerRun env hist s) : SharesRouted env hist s := by
  induction hrun with
  | nil => exact sharesRouted_create
  | @snoc hist s s' e hrun hs ih =>
    have hb:=bookkeeping hrun.reachable
    by_cases ha : ∃ c,Accepts env s.kind c (s,e)
    · obtain ⟨c,ha⟩:=ha
      have he:=ha.2.1
      obtain ⟨msg,recv,impl,rfl,hr,hh,rfl⟩:=ha.step_eq hs
      by_cases hk : s.kind=.r1ShareKeys
      · obtain ⟨shares,rfl,hshares⟩:=roundHandler_r1 hk hh
        rw [hk] at he hr
        cases hr
        exact ih.acceptShares hk (Option.some.inj he).symm hshares
      · exact (ih.acceptOther hb hk he hr hh).append fun _ ho => hk ho.1
    · rw [not_exists] at ha
      refine (ih.quietMoves hb (quiet_of_step hs ha)).append fun c ho => ?_
      have hk : s.kind=.r1ShareKeys := ho.1
      exact ha c (hk ▸ ho)

theorem DropsSilent.sent_eq (h : DropsSilent env recv code s s') {c : G.ClientId}
    (hc : s.clientStatus c=recv) : s'.sent c=s.sent c := by
  induction h with
  | refl => rfl
  | @tail u _ hp hstep ih =>
    cases hstep with
    | drop i reason hs hd hr =>
      have hne : c≠i := by
        rintro rfl
        exact hr ((DropsSilent.status_eq hp (.inr hc)).trans hc)
      rw [← ih]
      simp [dropClient,dropEffect,dropCounts,Function.update_of_ne hne]

theorem proceed_r1_eq (hk : s.kind=.r1ShareKeys) (hs : step env s .proceedToNextRound=.ok s')
    (hk' : s'.kind=.r2MaskedInputCollection) :
    ∃ t code,DropsSilent env .shareKeysReceived code s t ∧ s'=t.leaveR1 env := by
  obtain ⟨⟨t,st⟩,ht,⟨⟩⟩:=bind_eq_ok.mp hs
  rcases proceedToNextRound_outcome ht with ⟨rfl,-⟩ | ⟨-,ho⟩
  · rw [hk] at hk'
    cases hk'
  · cases ho with
    | tooManyAborted | completed | failed => cases hk'
    | @next t _ recv code hneeds hr hd hn =>
      rw [hk] at hr
      cases hr
      have hkt : t.kind=.r1ShareKeys := hd.kind_eq.trans hk
      cases hn with
      | toR2 => exact ⟨t,code,hd,rfl⟩
      | toR1 hk0 | toR3 hk0 | toPrng hk0 =>
        rw [hkt] at hk0
        cases hk0

theorem KeySharesOf.valid {c : G.ClientId} (h : KeySharesOf env hist c shares) :
    shares.length=G.degree ∧ ∀ i : G.Slot,neighbor c i=c → shares.getD i []=[] := by
  obtain ⟨s₀,-,hk,-,msg,impl,he,hh⟩:=h
  cases he
  obtain ⟨_,heq,hr⟩:=roundHandler_r1 hk hh
  cases heq
  obtain ⟨hl,hc,-⟩:=handleShareKeysResponse_eq_ok hr
  exact ⟨hl,fun i ho => by simpa [checkKeyShare,ho] using hc i⟩

theorem exists_keySharesOf (hr : ServerRun env hist s) {c : G.ClientId}
    (h : s.clientStatus c=.shareKeysReceived) :
    ∃ shares,KeySharesOf env hist c shares := by
  have haccepted : AcceptedIn env hist .r1ShareKeys c := acceptedIn_of_answered hr (by rw [h]; rfl)
  obtain ⟨⟨s₀,e⟩,hm,ha⟩:=haccepted
  obtain ⟨hk,he,msg,impl,hevent,hh⟩:=ha
  obtain ⟨shares,rfl,-⟩:=roundHandler_r1 hk hh
  cases hevent
  exact ⟨shares,s₀,hm,hk,he,_,impl,rfl,hh⟩

/-- When round 1 ends, a client that is left receives from each neighbor that is left what that
neighbor sent for it, and nothing from itself and from the others. -/
theorem masked_input_requests_of_run (hrun : ServerRun env hist s) (hk : s.kind=.r1ShareKeys)
    (hstep : step env s .proceedToNextRound=.ok s')
    (hk' : s'.kind=.r2MaskedInputCollection) (c : G.ClientId)
    (hc : s'.clientStatus c=.shareKeysReceived) :
    ∃ request,s'.sent c=s.sent c++[.maskedInputRequest request] ∧
      request.length=G.degree ∧ ∀ j : G.Slot,(neighbor c j≠c →
          s'.clientStatus (neighbor c j)=.shareKeysReceived →
          ∃ shares,∃ i : G.Slot,neighbor (neighbor c j) i=c ∧
            KeySharesOf env hist (neighbor c j) shares ∧
            (∀ shares',KeySharesOf env hist (neighbor c j) shares' → shares'=shares) ∧
            request[(j : ℕ)]?=shares[(i : ℕ)]?) ∧
        (neighbor c j=c ∨ s'.clientStatus (neighbor c j)≠.shareKeysReceived →
          request[(j : ℕ)]?=some []) := by
  obtain ⟨t,code,hd,rfl⟩:=proceed_r1_eq hk hstep hk'
  have hr:=sharesRouted hrun
  have hstatus : (t.leaveR1 env).clientStatus=t.clientStatus :=
    setupMaskedInputCollection_clientStatus
  rw [hstatus] at hc ⊢
  have ha : ∀ other,t.clientStatus other=.shareKeysReceived →
      s.clientStatus other=.shareKeysReceived := by
    intro other ho
    rw [← hd.status_of_alive (by rw [ho]; rfl),ho]
  have hs : t.impl.encryptedShares=s.impl.encryptedShares := by rw [hd.impl_eq (by rw [hk]; rfl)]
  have hg : ∀ j : G.Slot,(t.impl.prepareMaskedInputCollectionRequestForClient
      c)[(j : ℕ)]?=some (s.impl.encryptedShares c j) := by
    intro j
    simp [prepareMaskedInputCollectionRequestForClient,hs]
  refine ⟨t.impl.prepareMaskedInputCollectionRequestForClient c,?_,?_,fun j => ⟨?_,?_⟩⟩
  · rw [← hd.sent_eq (ha c hc)]
    simp [leaveR1,sendEach,enter,hc]
  · simp [prepareMaskedInputCollectionRequestForClient]
  · intro _ hn
    obtain ⟨shares,hsent⟩:=exists_keySharesOf hrun (ha _ hn)
    obtain ⟨i,hi⟩:=exists_neighbor_back c j
    refine ⟨shares,i,hi,hsent,fun shares' => hr.unique _ _ _ hsent,?_⟩
    have hlt : (i : ℕ)<shares.length := by
      rw [hsent.valid.1]
      exact i.isLt
    rw [hg,hr.stored hk _ shares hsent (ha _ hn) c i j hi rfl,
      List.getD_eq_getElem _ _ hlt,List.getElem?_eq_getElem hlt]
  · intro he
    rw [hg]
    obtain hown | hgone:=he
    · obtain ⟨shares,hsent⟩:=exists_keySharesOf hrun (ha c hc)
      rw [hr.stored hk c shares hsent (ha c hc) c j j hown hown,hsent.valid.2 j hown]
    · rw [hr.empty (.inr hk) c j fun hreceived => hgone ?_]
      rw [hd.status_eq (.inr hreceived),hreceived]

theorem masked_input_requests_of_run_pair : ∃ hist s s',ServerRun (.pair []) hist s ∧
      step (.pair []) s .proceedToNextRound=.ok s' ∧
      ∀ c : pair.ClientId,s'.clientStatus c=.shareKeysReceived ∧
        ∃ request,s'.sent c=s.sent c++[.maskedInputRequest request] ∧
          request[(ownIndex c : ℕ)]?=some [] := by
  obtain ⟨hist,s,hr,hk,s',hstep,hk',hs⟩:=exists_run (step (.pair []))
    (create .pair) (pairEvents.take 5) (P := fun s => s.kind=.r1ShareKeys ∧
      ∃ s',step (.pair []) s .proceedToNextRound=.ok s' ∧
        s'.kind=.r2MaskedInputCollection ∧ ∀ c,s'.clientStatus c=.shareKeysReceived)
    (by decide +kernel)
  refine ⟨hist,s,s',hr,hstep,fun c => ⟨hs c,?_⟩⟩
  obtain ⟨request,hsent,-,hslots⟩:=masked_input_requests_of_run hr hk hstep hk' c (hs c)
  exact ⟨request,hsent,(hslots _).2 (.inl (neighbor_ownIndex c))⟩

end ServerState
end Fcp.SecAgg

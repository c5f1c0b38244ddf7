import Fcp.SecAgg.Server.Acceptance

/-!
# Unmasking responses

`HandleUnmaskingResponse` reads one entry of the message for every neighbor without looking at how
many there are. The rows that it writes to exist since round 3 began.
-/

namespace Fcp.SecAgg

open List ProtocolImpl SecAggServer
namespace ProtocolImpl
variable {G : SharingGraph} {m : ProtocolImpl G} {c : G.ClientId}
  {shares : List NoiseOrPrfKeyShare}

def rightKind : ClientMask → NoiseOrPrfKeyShare → Bool
  | .pairwiseMask, .noiseSkShare _ => true
  | .selfMask, .prfSkShare _ => true
  | .noMask, .notSet => true
  | _, _ => false

variable {mask : ClientMask} {share : NoiseOrPrfKeyShare}

theorem checkUnmaskingShare_right (h : rightKind mask share=true) :
    checkUnmaskingShare mask share=.ok () := by
  cases mask <;> cases share <;> first | rfl | cases h

theorem checkUnmaskingShare_wrong (h : rightKind mask share=false) :
    ∃ st,checkUnmaskingShare mask share=.error st := by
  cases mask <;> cases share <;> first | exact ⟨_,rfl⟩ | cases h

def neighborMask (m : ProtocolImpl G) (client : G.ClientId) (i : G.Slot) : ClientMask :=
  clientMaskType (m.clientStatus (SharingGraph.neighbor client i))

variable {i : G.Slot} {slots : List G.Slot}

theorem checkUnmaskingShares_right (hi : shares[i.val]?=some share)
    (hr : rightKind (m.neighborMask c i) share=true) :
    checkUnmaskingShares m c shares (i::slots)=checkUnmaskingShares m c shares slots := by
  have hc:=checkUnmaskingShare_right hr
  rw [neighborMask] at hc
  simp [checkUnmaskingShares,elementAt,hi,hc]

theorem checkUnmaskingShares_wrong (hi : shares[i.val]?=some share)
    (hr : rightKind (m.neighborMask c i) share=false) :
    ∃ st,checkUnmaskingShares m c shares (i::slots)=.ok (.error st) := by
  obtain ⟨st,hc⟩:=checkUnmaskingShare_wrong hr
  rw [neighborMask] at hc
  exact ⟨st,by simp [checkUnmaskingShares,elementAt,hi,hc,pure,Except.pure]⟩

def HasWrongEntry (m : ProtocolImpl G) (client : G.ClientId) (shares : List NoiseOrPrfKeyShare) :
    Prop :=
  ∃ (i : G.Slot) (share : NoiseOrPrfKeyShare),shares[i.val]?=some share ∧
    rightKind (m.neighborMask client i) share=false

theorem checkUnmaskingShares_of_wrong (hs : slots.Pairwise (·<·)) (hi : i∈slots)
    (hshare : shares[i.val]?=some share)
    (hr : rightKind (m.neighborMask c i) share=false) :
    ∃ st,checkUnmaskingShares m c shares slots=.ok (.error st) := by
  induction slots with
  | nil => cases hi
  | cons j slots ih =>
    obtain ⟨hj,hs⟩:=pairwise_cons.mp hs
    rcases mem_cons.mp hi with rfl | hi
    · exact checkUnmaskingShares_wrong hshare hr
    · have hlt : j.val<shares.length := by
        have h1 : j.val < i.val := hj i hi
        have h2:=(List.getElem?_eq_some_iff.mp hshare).1
        omega
      have hj':=getElem?_eq_getElem hlt
      cases hright : rightKind (m.neighborMask c j) shares[j.val] with
      | true =>
        rw [checkUnmaskingShares_right hj' hright]
        exact ih hs hi
      | false => exact checkUnmaskingShares_wrong hj' hright

theorem checkUnmaskingShares_of_short (hi : i∈slots) (hs : shares[i.val]?=none)
    (hright : ¬ m.HasWrongEntry c shares) :
    checkUnmaskingShares m c shares slots=.error .outOfRange := by
  induction slots with
  | nil => cases hi
  | cons j slots ih =>
    cases hj : shares[j.val]? with
    | none => simp [checkUnmaskingShares,elementAt,hj]
    | some share =>
      cases hr : rightKind (m.neighborMask c j) share with
      | false => exact absurd ⟨j,share,hj,hr⟩ hright
      | true =>
        rw [checkUnmaskingShares_right hj hr]
        refine ih ((mem_cons.mp hi).resolve_left ?_)
        rintro rfl
        cases hj.symm.trans hs

theorem checkUnmaskingShares_of_right
    (h : ∀ i∈slots,∃ share,shares[i.val]?=some share ∧ rightKind (m.neighborMask c i) share=true) :
    checkUnmaskingShares m c shares slots=.ok (.ok ()) := by
  induction slots with
  | nil => rfl
  | cons j slots ih =>
    obtain ⟨share,hj,hr⟩:=h j (mem_cons_self ..)
    rw [checkUnmaskingShares_right hj hr]
    exact ih fun i hi => h i (mem_cons_of_mem _ hi)

/-- A table has a row of `degree` slots for every client of the mask class, and no other row. -/
def HasRows (status : G.ClientId → ClientStatus) (mask : ClientMask) (table : SharesTable G) :
    Prop :=
  ∀ i,(table i).map List.length = if clientMaskType (status i)=mask then some G.degree else none

variable {st : G.ClientId → ClientStatus} {table : SharesTable G}
  {tables : SharesTable G × SharesTable G}

theorem hasRows_congr {status' : G.ClientId → ClientStatus}
    (h : ∀ i,clientMaskType (status' i)=clientMaskType (st i))
    (hr : HasRows st mask table) : HasRows status' mask table := by
  intro i
  rw [h i]
  exact hr i

theorem writeShare_eq_ok (hr : HasRows st mask table) {neighborId : G.ClientId}
    (hm : clientMaskType (st neighborId)=mask) (index : G.Slot) (data : ShamirShare) :
    ∃ row,table neighborId=some row ∧ row.length=G.degree ∧ writeShare table neighborId index data =
        .ok (Function.update table neighborId (some (row.set index data))) ∧
      HasRows st mask (Function.update table neighborId (some (row.set index data))) := by
  have hrow:=hr neighborId
  rw [if_pos hm] at hrow
  obtain ⟨row,ht,hl⟩:=Option.map_eq_some_iff.mp hrow
  refine ⟨row,ht,hl,?_,?_⟩
  · simp [writeShare,ht,hl]
  · intro i
    by_cases hi : i=neighborId
    · subst hi
      rw [Function.update_self,if_pos hm]
      simp [hl]
    · rw [Function.update_of_ne hi]
      exact hr i

def TablesShaped (status : G.ClientId → ClientStatus) (tables : SharesTable G × SharesTable G) :
    Prop :=
  HasRows status .pairwiseMask tables.1 ∧ HasRows status .selfMask tables.2

theorem recordUnmaskingShare_eq_ok
    (h : TablesShaped m.clientStatus tables) (hi : shares[i.val]?=some share)
    (hr : rightKind (m.neighborMask c i) share=true) :
    ∃ tables',recordUnmaskingShare c shares tables i=.ok tables' ∧
      TablesShaped m.clientStatus tables' := by
  obtain ⟨index,hindex,-⟩:=getNeighborIndexOrDie_neighbor c i
  have hread:=elementAt_eq_ok.mpr hi
  simp only [recordUnmaskingShare,hindex,hread,ok_bind]
  cases share with
  | notSet => exact ⟨tables,rfl,h⟩
  | noiseSkShare data =>
    have hm : m.neighborMask c i=.pairwiseMask := by
      revert hr
      cases m.neighborMask c i <;> simp [rightKind]
    obtain ⟨row,-,-,hw,hrow⟩:=writeShare_eq_ok h.1 hm index data
    dsimp only
    rw [hw]
    exact ⟨_,rfl,hrow,h.2⟩
  | prfSkShare data =>
    have hm : m.neighborMask c i=.selfMask := by
      revert hr
      cases m.neighborMask c i <;> simp [rightKind]
    obtain ⟨row,-,-,hw,hrow⟩:=writeShare_eq_ok h.2 hm index data
    dsimp only
    rw [hw]
    exact ⟨_,rfl,h.1,hrow⟩

theorem recordUnmaskingShares_eq_ok (h : TablesShaped m.clientStatus tables)
    (hright : ∀ i∈slots,∃ share,shares[i.val]?=some share ∧
      rightKind (m.neighborMask c i) share=true) :
    ∃ tables',slots.foldlM (recordUnmaskingShare c shares) tables=.ok tables' ∧
      TablesShaped m.clientStatus tables' := by
  induction slots generalizing tables with
  | nil => exact ⟨tables,rfl,h⟩
  | cons i slots ih =>
    obtain ⟨share,hi,hr⟩:=hright i (mem_cons_self ..)
    obtain ⟨tables',hrecord,h'⟩:=recordUnmaskingShare_eq_ok h hi hr
    rw [foldlM_cons,hrecord,ok_bind]
    exact ih h' fun j hj => hright j (mem_cons_of_mem _ hj)

def HasTables (m : ProtocolImpl G) : Prop :=
  ∃ pairwise self,m.pairwiseShamirShareTable=some pairwise ∧
    m.selfShamirShareTable=some self ∧ TablesShaped m.clientStatus (pairwise,self)

theorem HasTables.congr {m' : ProtocolImpl G} (h : HasTables m)
    (hp : m'.pairwiseShamirShareTable=m.pairwiseShamirShareTable)
    (hq : m'.selfShamirShareTable=m.selfShamirShareTable)
    (hst : ∀ i,clientMaskType (m'.clientStatus i)=clientMaskType (m.clientStatus i)) :
    HasTables m' := by
  obtain ⟨pairwise,self,hpairwise,hs,hr⟩:=h
  exact ⟨pairwise,self,hp.trans hpairwise,hq.trans hs,hasRows_congr hst hr.1,hasRows_congr hst hr.2⟩

theorem hasTables_setUp (m : ProtocolImpl G) : HasTables m.setUpShamirSharesTables := by
  refine ⟨_,_,rfl,rfl,?_,?_⟩
  · intro i
    dsimp only [setUpShamirSharesTables]
    split <;> simp [*]
  · intro i
    dsimp only [setUpShamirSharesTables]
    split <;> simp [*]

section

variable (h : HasTables m)
include h

theorem handleUnmaskingResponse_of_right (hl : G.degree ≤ shares.length)
    (hright : ¬ m.HasWrongEntry c shares) :
    ∃ impl,m.handleUnmaskingResponse c shares=.ok (.ok impl) ∧ HasTables impl := by
  obtain ⟨pairwise,self,hp,hs,hrow⟩:=h
  have he : ∀ i∈List.finRange G.degree,∃ share,shares[i.val]?=some share ∧
      rightKind (m.neighborMask c i) share=true := by
    intro i _
    have hi:=getElem?_eq_getElem (lt_of_lt_of_le i.isLt hl)
    refine ⟨_,hi,?_⟩
    by_contra hr
    exact hright ⟨i,_,hi,Bool.eq_false_iff.mpr hr⟩
  obtain ⟨tables',hrecord,hr'⟩:=recordUnmaskingShares_eq_ok hrow he
  refine ⟨{ m with
    pairwiseShamirShareTable := some tables'.1
    selfShamirShareTable := some tables'.2 },?_,tables'.1,tables'.2,rfl,rfl,hr'⟩
  rw [handleUnmaskingResponse,hp,hs]
  dsimp only
  rw [checkUnmaskingShares_of_right he]
  dsimp only [ok_bind]
  rw [hrecord]
  rfl

theorem handleUnmaskingResponse_of_wrong (hw : m.HasWrongEntry c shares) :
    ∃ st,m.handleUnmaskingResponse c shares=.ok (.error st) := by
  obtain ⟨pairwise,self,hp,hs,-⟩:=h
  obtain ⟨i,share,hi,hr⟩:=hw
  obtain ⟨st,hc⟩:=checkUnmaskingShares_of_wrong
    (pairwise_lt_finRange G.degree) (mem_finRange i) hi hr
  refine ⟨st,?_⟩
  rw [handleUnmaskingResponse,hp,hs]
  dsimp only
  rw [hc]
  rfl

theorem handleUnmaskingResponse_of_short (hl : shares.length<G.degree)
    (hr : ¬ m.HasWrongEntry c shares) :
    m.handleUnmaskingResponse c shares=.error .outOfRange := by
  obtain ⟨pairwise,self,hp,hs,-⟩:=h
  rw [handleUnmaskingResponse,hp,hs]
  dsimp only
  rw [checkUnmaskingShares_of_short (mem_finRange ⟨shares.length,hl⟩)
    (getElem?_eq_none (le_refl _)) hr]
  rfl

theorem HasTables.accept {impl : ProtocolImpl G}
    (ha : m.handleUnmaskingResponse c shares=.ok (.ok impl)) : HasTables impl := by
  by_cases hw : m.HasWrongEntry c shares
  · obtain ⟨st,he⟩:=handleUnmaskingResponse_of_wrong h hw
    cases he.symm.trans ha
  · by_cases hl : G.degree ≤ shares.length
    · obtain ⟨impl',hi,ht⟩:=handleUnmaskingResponse_of_right h hl hw
      cases hi.symm.trans ha
      exact ht
    · rw [handleUnmaskingResponse_of_short h (by omega) hw] at ha
      cases ha

end

end ProtocolImpl

namespace ServerState
variable {G : SharingGraph} {env : ServerEnv G} {s s' : ServerState G}
  {kind : SecAggServerStateKind} {st recv : ClientStatus}

theorem clientMaskType_deadStatus
    (hk : inputsFixed kind=true) (hk' : kind≠.completed) (ha : allowed kind st=true)
    (hd : st.isDead=false) :
    clientMaskType (deadStatus kind st)=clientMaskType st := by
  revert hk hk' ha hd
  cases kind <;> cases st <;> decide

theorem clientMaskType_received (hk : inputsFixed kind=true) (he : expectedStatus kind=some st)
    (hr : receivedStatus kind=some recv) :
    clientMaskType recv=clientMaskType st := by
  revert hk
  cases kind <;> cases he <;> cases hr <;> decide

/-- Once the inputs are fixed the tables are there, with a row for every client of each mask
class: no client changes its class any more. -/
structure TablesKept (s : ServerState G) : Prop where
  book : Bookkeeping s
  tables : inputsFixed s.kind=true → s.impl.HasTables

section

variable (h : TablesKept s)
include h

theorem TablesKept.drop {c : G.ClientId} {reason : String}
    {code : ClientDropReason} {notify : Bool} (hs : s.isTerminal=false)
    (hd : (s.clientStatus c).isDead=false) :
    TablesKept (s.dropClient env c reason code notify) := by
  refine ⟨h.book.drop hs hd,fun hk => ?_⟩
  have hk' : inputsFixed s.kind=true := hk
  have himpl : dropImpl s.kind s.impl c =
      s.impl.setClientStatus c (deadStatus s.kind (s.impl.clientStatus c)) := by
    rw [dropImpl]
    congr 1
    unfold eraseImpl
    split <;> rename_i hkind
    · rw [hkind] at hk'
      cases hk'
    · rw [hkind] at hk'
      cases hk'
    · rfl
  rw [dropClient_impl,himpl]
  refine (h.tables hk').congr rfl rfl fun i => ?_
  rw [clientStatus_setClientStatus]
  by_cases hi : i=c
  · subst hi
    rw [Function.update_self]
    exact clientMaskType_deadStatus hk' (not_terminal_iff.mp hs).1 (h.book.allowed i) hd
  · rw [Function.update_of_ne hi]

theorem TablesKept.accept {c : G.ClientId}
    {msg : ClientToServerWrapperMessage} {impl : ProtocolImpl G}
    (he : expectedStatus s.kind=some (s.clientStatus c))
    (hr : receivedStatus s.kind=some recv)
    (ha : s.roundHandler env c msg=some (.ok (.ok impl))) :
    TablesKept (s.recordMessage c recv impl) := by
  have hst:=roundHandler_clientStatus ha
  refine ⟨h.book.accept he hr hst,fun hk => ?_⟩
  have hk' : inputsFixed s.kind=true := hk
  have ht : impl.HasTables := by
    unfold roundHandler at ha
    split at ha <;> rename_i hkind
    · rw [hkind] at hk'
      cases hk'
    · rw [hkind] at hk'
      cases hk'
    · rw [hkind] at hk'
      cases hk'
    · exact (h.tables hk').accept (Option.some.inj ha)
    · cases ha
  refine ht.congr rfl rfl fun i => ?_
  by_cases hi : i=c
  · subst hi
    simp only [recordMessage,clientStatus_setClientStatus,Function.update_self]
    rw [clientMaskType_received hk' he hr,hst]
  · simp [recordMessage,hi]

theorem TablesKept.next (hn : NextRound env s s') : TablesKept s' := by
  refine ⟨h.book.next hn.leaves,fun hk => ?_⟩
  cases hn with
  | toR1 | toR2 => cases hk
  | toR3 hr2 hs hr hi hf => exact hasTables_setUp _
  | toPrng hr3 hs hr he =>
    have ht:=h.tables (by rw [hr3]; rfl)
    rcases enterState_eq_ok rfl he with ⟨st,-,rfl⟩ | ⟨items,maskedInput,-,-,rfl⟩
    · exact ht
    · exact ht.congr rfl rfl fun i => rfl

theorem TablesKept.task (ht : Task env s s') : TablesKept s' := by
  refine ⟨h.book.task ht,fun hk => ?_⟩
  cases ht with
  | collect hr2 =>
    have hk':=hk
    rw [hr2] at hk'
    cases hk'
  | prng => exact h.tables hk
  | finish hr hidle hi =>
    obtain ⟨items,-,hi⟩:=bind_eq_ok.mp hi
    obtain ⟨_,-,⟨⟩⟩:=bind_eq_ok.mp hi
    exact (h.tables hk).congr rfl rfl fun i => rfl

end

theorem TablesKept.move (hm : Move env s s') (h : TablesKept s) : TablesKept s' := by
  have hb:=h.book.move hm
  cases hm with
  | drop c reason code notify hs hd => exact h.drop hs hd
  | accept c msg recv impl he hr ha => exact h.accept he hr ha
  | next hn => exact h.next hn
  | abort | fail => exact ⟨hb,fun hk => (by cases hk)⟩
  | complete st hk => exact ⟨hb,fun _ => h.tables (by rw [hk]; rfl)⟩
  | task ht => exact h.task ht
  | takeResult => exact ⟨hb,fun hk => (h.tables hk).congr rfl rfl fun i => rfl⟩

theorem tablesKept (h : Reachable (step env) (create G) s) : TablesKept s :=
  invariant_of_moves ⟨bookkeeping_create,fun hk => (by cases hk)⟩ (fun _ _ => TablesKept.move) h

/-- The response is recorded, or its sender is dropped for it; a sender from which no response
is expected is dropped for that, unless it is dead already. -/
def ResponseHandled (env : ServerEnv G) (s : ServerState G) (client : G.ClientId)
    (shares : List NoiseOrPrfKeyShare) : Prop :=
  ∃ s',s.handleMessage env client (.unmaskingResponse shares)=.ok s' ∧
    if s.clientStatus client=.maskedInputResponseReceived then
      (∃ impl,s.impl.handleUnmaskingResponse client shares=.ok (.ok impl) ∧
        s'=s.recordMessage client .unmaskingResponseReceived impl) ∨
      ∃ reason,s'=s.dropClient env client reason .invalidUnmaskingResponse true
    else if (s.clientStatus client).isDead then s'=s
    else ∃ reason,s'=s.dropClient env client reason .unmaskingResponseUnexpected true

variable (env) in
theorem r3_handleMessage (hk : s.kind=.r3Unmasking) (c : G.ClientId)
    (shares : List NoiseOrPrfKeyShare) (he : s.clientStatus c=.maskedInputResponseReceived) :
    s.handleMessage env c (.unmaskingResponse shares) =
      (s.impl.handleUnmaskingResponse c shares >>= fun
        | .error st => .ok (s.dropClient env c st.message .invalidUnmaskingResponse true)
        | .ok impl => .ok (s.recordMessage c .unmaskingResponseReceived impl)) := by
  have hs : s.isTerminal=false := not_terminal_iff.mpr (by simp [hk])
  have hd : (s.clientStatus c).isDead=false := by rw [he]; rfl
  simp only [handleMessage,hk,r3HandleMessage,handleRoundMessage,he,ne_eq,not_true_eq_false,
    if_false]
  congr 1
  funext r
  cases r with
  | error st => simp [abortClient_eq env hs,hd]
  | ok impl => rfl

variable (env) in
theorem r3_unexpected (hk : s.kind=.r3Unmasking) (c : G.ClientId)
    (shares : List NoiseOrPrfKeyShare) (he : s.clientStatus c≠.maskedInputResponseReceived) :
    ∃ reason,s.handleMessage env c (.unmaskingResponse shares) =
      .ok (if (s.clientStatus c).isDead then s
        else s.dropClient env c reason .unmaskingResponseUnexpected true) := by
  have hs : s.isTerminal=false := not_terminal_iff.mpr (by simp [hk])
  have hd : s.handleMessage env c (.unmaskingResponse shares)=s.abortClient env c
      ("Not expecting an UnmaskingResponse from this client - either the " ++
        "client already aborted or one such message was already received.")
      .unmaskingResponseUnexpected true := by
    simp only [handleMessage,hk,r3HandleMessage,handleRoundMessage,he,ne_eq,
      not_false_eq_true,if_true]
  exact ⟨_,hd.trans (abortClient_eq env hs c _ _ _)⟩

/-- In round 3 a response is handled if and only if none is awaited, or it has an entry for
every neighbor, or one of the entries it has is of the wrong kind; otherwise the server reads an
entry that does not exist. -/
theorem responseHandled_iff (h : Reachable (step env) (create G) s)
    (hk : s.kind=.r3Unmasking) (c : G.ClientId) (shares : List NoiseOrPrfKeyShare) :
    ResponseHandled env s c shares ↔
      s.clientStatus c≠.maskedInputResponseReceived ∨ G.degree ≤ shares.length ∨
        ∃ (i : G.Slot) (share : NoiseOrPrfKeyShare),shares[i.val]?=some share ∧ rightKind
            (clientMaskType (s.clientStatus (SharingGraph.neighbor c i))) share=false := by
  have ht:=(tablesKept h).tables (by rw [hk]; rfl)
  by_cases he : s.clientStatus c=.maskedInputResponseReceived
  · have hh:=r3_handleMessage env hk c shares he
    by_cases hw : s.impl.HasWrongEntry c shares
    · obtain ⟨st,herror⟩:=handleUnmaskingResponse_of_wrong ht hw
      rw [herror,ok_bind] at hh
      refine iff_of_true ⟨_,hh,?_⟩ (.inr (.inr hw))
      rw [if_pos he]
      exact .inr ⟨_,rfl⟩
    · by_cases hl : G.degree ≤ shares.length
      · obtain ⟨impl,hi,-⟩:=handleUnmaskingResponse_of_right ht hl hw
        rw [hi,ok_bind] at hh
        refine iff_of_true ⟨_,hh,?_⟩ (.inr (.inl hl))
        rw [if_pos he]
        exact .inl ⟨impl,hi,rfl⟩
      · rw [handleUnmaskingResponse_of_short ht (by omega) hw,error_bind] at hh
        refine iff_of_false ?_ ?_
        · rintro ⟨s',hs',-⟩
          cases hh.symm.trans hs'
        · rintro (hne | hle | hw')
          · exact hne he
          · exact hl hle
          · exact hw hw'
  · refine iff_of_true ?_ (.inl he)
    obtain ⟨reason,hh⟩:=r3_unexpected env hk c shares he
    refine ⟨_,hh,?_⟩
    rw [if_neg he]
    split
    · rfl
    · exact ⟨reason,rfl⟩

theorem responseHandled_iff_pair : ∃ s,Reachable (step (.pair [])) (create .pair) s ∧
      ResponseHandled (.pair []) s (0 : Fin 2) [.prfSkShare [],.notSet] := by
  obtain ⟨history,s,hr,ht⟩:=exists_run (step (.pair []))
    (create .pair) (pairEvents.take 9) (P := fun s => s.kind=.r3Unmasking) (by decide +kernel)
  refine ⟨s,hr.reachable,?_⟩
  exact (responseHandled_iff hr.reachable ht _ _).mpr (.inr (.inl (le_refl 2)))

/-- An awaited client answers with no entry at all. -/
theorem empty_response_not_handled :
    ∃ s,Reachable (step (.pair [])) (create .pair) s ∧ s.kind=.r3Unmasking ∧
      s.clientStatus (0 : Fin 2)=.maskedInputResponseReceived ∧
      s.handleMessage (.pair []) (0 : Fin 2) (.unmaskingResponse [])=.error .outOfRange ∧
      ¬ ResponseHandled (.pair []) s (0 : Fin 2) [] := by
  obtain ⟨history,s,hrun,hk,he⟩:=exists_run (step (.pair []))
    (create .pair) (pairEvents.take 9) (P := fun s => s.kind=.r3Unmasking ∧
      s.clientStatus (0 : Fin 2)=.maskedInputResponseReceived) (by decide +kernel)
  have ht:=(tablesKept hrun.reachable).tables (by rw [hk]; rfl)
  have hr : ¬ s.impl.HasWrongEntry (0 : Fin 2) [] := by
    rintro ⟨i,share,hi,-⟩
    cases hi
  have hread : s.handleMessage (.pair []) (0 : Fin 2) (.unmaskingResponse []) =
      .error .outOfRange := by
    rw [r3_handleMessage _ hk _ _ he,handleUnmaskingResponse_of_short ht (by decide) hr,error_bind]
  refine ⟨s,hrun.reachable,hk,he,hread,?_⟩
  rintro ⟨s',hs',-⟩
  cases hread.symm.trans hs'

end ServerState
end Fcp.SecAgg

import Fcp.SecAgg.Shared.ShamirChecks
import Fcp.SecAgg.Server.UnmaskingSafety

/-!
# Key reconstruction

The sizes of the shares of round 3 are not looked at before they meet fatal checks. Hash maps may be
walked in any order, and the ECDH library may accept or refuse whatever key comes out.
-/

namespace Fcp.SecAgg

open List SecAggServer
namespace ProtocolImpl
open ShamirSecretSharing
variable {G : SharingGraph} (threshold : ℕ) (v : G.ClientId) (l : List G.ClientId)

def PairwiseRowSafe (row : List ShamirShare) : Prop :=
  1<threshold ∧ threshold≤row.length ∧ SizesAgree 9 (chosen threshold row)

def SelfRowSafe (row : List ShamirShare) : Prop :=
  1<threshold ∧ threshold≤row.length ∧ AesKey.KeySizesAgree (chosen threshold row)

def RowsInt (table : SharesTable G) : Prop := ∀ i,((table i).getD []).length<2^31

theorem HasRows.rowsInt {st : G.ClientId → ClientStatus} {mask : ClientMask}
    {table : SharesTable G} (h : HasRows st mask table) : RowsInt table := by
  intro i
  have hi:=h i
  cases ht : table i with
  | none => simp
  | some row =>
    rw [ht] at hi
    split at hi
    · rw [Option.map_some,Option.some.injEq] at hi
      simpa [hi] using G.degree_lt
    · cases hi

variable {row : List ShamirShare}

theorem pairwise_reconstruct_isOk {o : ShamirSecretSharing} (ho : o.Valid) (hn : row.length<2^31) :
    (∃ r,o.reconstruct G.threshold row EcdhPrivateKey.kSize=.ok r) ↔
      PairwiseRowSafe G.threshold row :=
  reconstruct_isOk ho hn (by decide) AesKey.maxNumSubsecrets_kSize (by decide)

section
variable {env : ServerEnv G} {table : SharesTable G} (hint : RowsInt table)
include hint

variable {o : ShamirSecretSharing} {keys : ClientMap G EcdhKeyAgreement} {order : List G.ClientId}

theorem reconstructPairwiseKeys_isOk (ho : o.Valid)
    (hs : ∀ i∈order,PairwiseRowSafe G.threshold ((table i).getD [])) :
    ∃ r,reconstructPairwiseKeys env table o keys order=.ok r ∧
      ((∃ i∈order,Short G.threshold ((table i).getD [])) → ∃ st,r=.error st) := by
  induction order generalizing o keys with
  | nil => exact ⟨_,rfl,fun ⟨i,hi,_⟩ => (by cases hi)⟩
  | cons i order ih =>
    obtain ⟨⟨o',r⟩,hr⟩:=(pairwise_reconstruct_isOk ho (hint i)).mpr (hs i (mem_cons_self ..))
    have hresult:=reconstruct_result hr
    rw [reconstructPairwiseKeys,hr,ok_bind]
    cases r with
    | error st => exact ⟨_,rfl,fun _ => ⟨st,rfl⟩⟩
    | ok key =>
      dsimp only
      cases EcdhKeyAgreement.createFromPrivateKey env.crypto key with
      | error st => exact ⟨_,rfl,fun _ => ⟨_,rfl⟩⟩
      | ok agreement =>
        obtain ⟨r,hrest,hshort⟩:=ih (reconstruct_valid ho (hint i) hr)
          (fun j hj => hs j (mem_cons_of_mem _ hj))
        refine ⟨r,hrest,?_⟩
        rintro ⟨j,hj,hjshort⟩
        rcases mem_cons.mp hj with rfl | hj
        · rcases hresult with ⟨-,st,hstatus⟩ | ⟨hf,-⟩
          · cases hstatus
          · exact absurd hjshort hf
        · exact hshort ⟨j,hj,hjshort⟩

theorem reconstructPairwiseKeys_complete (hc : ∀ key,env.crypto.validPrivateKey key=true)
    (ho : o.Valid) (hs : ∀ i∈order,PairwiseRowSafe G.threshold ((table i).getD []))
    (hf : ∀ i∈order,¬ Short G.threshold ((table i).getD [])) :
    ∃ agreements,reconstructPairwiseKeys env table o keys order=.ok (.ok agreements) := by
  induction order generalizing o keys with
  | nil => exact ⟨_,rfl⟩
  | cons i order ih =>
    obtain ⟨⟨o',r⟩,hr⟩:=(pairwise_reconstruct_isOk ho (hint i)).mpr (hs i (mem_cons_self ..))
    have hresult:=reconstruct_result hr
    obtain ⟨-,key,rfl,hl⟩:=hresult.resolve_left fun h => hf i (mem_cons_self ..) h.1
    have hcreate : EcdhKeyAgreement.createFromPrivateKey env.crypto key=.ok key := by
      simp [EcdhKeyAgreement.createFromPrivateKey,hl,hc]
    rw [reconstructPairwiseKeys,hr,ok_bind]
    dsimp only
    rw [hcreate]
    exact ih (reconstruct_valid ho (hint i) hr) (fun j hj => hs j (mem_cons_of_mem _ hj))
      fun j hj => hf j (mem_cons_of_mem _ hj)

theorem reconstructPairwiseKeys_crash (ho : o.Valid) {i : G.ClientId}
    (hi : ¬ PairwiseRowSafe G.threshold ((table i).getD [])) :
    ¬ ∃ r,reconstructPairwiseKeys env table o keys (i::order)=.ok r := by
  rintro ⟨r,hr⟩
  rw [reconstructPairwiseKeys] at hr
  obtain ⟨r',hr',-⟩:=bind_eq_ok.mp hr
  exact hi ((pairwise_reconstruct_isOk ho (hint i)).mp ⟨r',hr'⟩)

theorem reconstructSelfKeys_isOk {keys : ClientMap G AesKey}
    (hs : ∀ i∈order,SelfRowSafe G.threshold ((table i).getD [])) :
    ∃ r,reconstructSelfKeys table keys order=.ok r := by
  induction order generalizing keys with
  | nil => exact ⟨_,rfl⟩
  | cons i order ih =>
    obtain ⟨r,hr⟩:=(AesKey.createFromShares_isOk (hint i)).mpr (hs i (mem_cons_self ..))
    rw [reconstructSelfKeys,hr,ok_bind]
    cases r with
    | error st => exact ⟨_,rfl⟩
    | ok key => exact ih fun j hj => hs j (mem_cons_of_mem _ hj)

theorem reconstructSelfKeys_crash {keys : ClientMap G AesKey} {i : G.ClientId}
    (hi : ¬ SelfRowSafe G.threshold ((table i).getD [])) :
    ¬ ∃ r,reconstructSelfKeys table keys (i::order)=.ok r := by
  rintro ⟨r,hr⟩
  rw [reconstructSelfKeys] at hr
  obtain ⟨r',hr',-⟩:=bind_eq_ok.mp hr
  exact hi ((AesKey.createFromShares_isOk (hint i)).mp ⟨r',hr'⟩)

end

def moveToFront : List G.ClientId :=
  if v∈l then v::l.erase v else l

theorem moveToFront_perm : (moveToFront v l).Perm l := by
  unfold moveToFront
  split
  · exact (perm_cons_erase ‹_›).symm
  · exact .refl l

theorem moveToFront_eq {v : G.ClientId} {l : List G.ClientId} (h : v∈l) :
    moveToFront v l=v::l.erase v := if_pos h

def envFrom : ServerEnv G where
  crypto := Crypto.toy
  minimumNumberOfClientsToProceed := 0
  inputVectorSpecs := []
  asyncRound2 := false
  pairwiseTableOrder := moveToFront v
  selfTableOrder := moveToFront v
  keyAgreementOrder := id
  pairwiseTableOrder_perm := moveToFront_perm v
  selfTableOrder_perm := moveToFront_perm v
  keyAgreementOrder_perm _ := .refl _

variable {i : G.ClientId}

theorem mem_presentKeys {α : Type} {table : ClientMap G α} :
    i∈presentKeys table ↔ ∃ x,table i=some x := by
  simp [presentKeys,Option.isSome_iff_exists]

variable {P : List ShamirShare → Prop}

theorem forall_presentKeys {table : SharesTable G} :
    (∀ i∈presentKeys table,P ((table i).getD [])) ↔ ∀ i row,table i=some row → P row := by
  constructor
  · intro h i row hi
    simpa [hi] using h i (mem_presentKeys.mpr ⟨row,hi⟩)
  · intro h i hi
    obtain ⟨row,hr⟩:=mem_presentKeys.mp hi
    simpa [hr] using h i row hr

theorem forall_order {table : SharesTable G} {order : List G.ClientId}
    (h : order.Perm (presentKeys table))
    (hP : ∀ i row,table i=some row → P row) : ∀ i∈order,P ((table i).getD []) :=
  fun i hi => forall_presentKeys.mpr hP i (h.mem_iff.mp hi)

variable {m : ProtocolImpl G} {pairwise self : SharesTable G}

section

variable (hpair : m.pairwiseShamirShareTable=some pairwise)
include hpair

section

variable (hself : m.selfShamirShareTable=some self)
include hself

/-- If a run with `i` first does not crash, the row of `i` is safe. -/
theorem pairwiseRowSafe_of_isOk (hp : RowsInt pairwise)
    (hi : pairwise i=some row) (h : ∃ r,m.handleShamirReconstruction (envFrom i)=.ok r) :
    PairwiseRowSafe G.threshold row := by
  by_contra hu
  obtain ⟨r,hr⟩:=h
  simp only [handleShamirReconstruction,hpair,hself] at hr
  obtain ⟨r',hr',-⟩:=bind_eq_ok.mp hr
  have hf : (envFrom i).pairwiseTableOrder (presentKeys pairwise) =
      i::(presentKeys pairwise).erase i := moveToFront_eq (mem_presentKeys.mpr ⟨row,hi⟩)
  rw [hf] at hr'
  exact reconstructPairwiseKeys_crash hp valid_create (by simpa [hi] using hu) ⟨r',hr'⟩

theorem selfRowSafe_of_isOk (hp : RowsInt pairwise) (hq : RowsInt self)
    (hs : ∀ i row,pairwise i=some row → PairwiseRowSafe G.threshold row)
    (hfull : ∀ i row,pairwise i=some row → ¬ Short G.threshold row) (hi : self i=some row)
    (h : ∃ r,m.handleShamirReconstruction (envFrom i)=.ok r) : SelfRowSafe G.threshold row := by
  by_contra hu
  obtain ⟨r,hr⟩:=h
  have hperm:=(envFrom i).pairwiseTableOrder_perm (presentKeys pairwise)
  obtain ⟨agreements,ha⟩:=reconstructPairwiseKeys_complete hp
    (fun _ => rfl : ∀ key,(envFrom i).crypto.validPrivateKey key=true) valid_create
    (forall_order hperm hs) (forall_order hperm hfull)
  simp only [handleShamirReconstruction,hpair,hself] at hr
  rw [ha,ok_bind] at hr
  obtain ⟨r',hr',-⟩:=bind_eq_ok.mp hr
  have hf : (envFrom i).selfTableOrder (presentKeys self) =
      i::(presentKeys self).erase i := moveToFront_eq (mem_presentKeys.mpr ⟨row,hi⟩)
  rw [hf] at hr'
  exact reconstructSelfKeys_crash hq (by simpa [hi] using hu) ⟨r',hr'⟩

theorem handleShamirReconstruction_isOk (hp : RowsInt pairwise) (hq : RowsInt self)
    (hs : ∀ i row,pairwise i=some row → PairwiseRowSafe G.threshold row)
    (hor : (∃ i row,pairwise i=some row ∧ Short G.threshold row) ∨
      ∀ i row,self i=some row → SelfRowSafe G.threshold row) (env : ServerEnv G) :
    ∃ r,m.handleShamirReconstruction env=.ok r := by
  have hperm:=env.pairwiseTableOrder_perm (presentKeys pairwise)
  obtain ⟨r,hr,hshort⟩:=reconstructPairwiseKeys_isOk hp valid_create (forall_order hperm hs)
  simp only [handleShamirReconstruction,hpair,hself]
  rw [hr,ok_bind]
  cases r with
  | error st => exact ⟨_,rfl⟩
  | ok agreements =>
    rcases hor with ⟨i,row,hi,hrow⟩ | hselfSafe
    · obtain ⟨st,hstatus⟩:=hshort ⟨i,hperm.mem_iff.mpr (mem_presentKeys.mpr ⟨row,hi⟩),
        by simpa [hi] using hrow⟩
      cases hstatus
    · obtain ⟨r,hr⟩:=reconstructSelfKeys_isOk hq
        (forall_order (env.selfTableOrder_perm (presentKeys self)) hselfSafe)
      dsimp only
      rw [hr,ok_bind]
      cases r with
      | error _ | ok _ => exact ⟨_,rfl⟩

end

end

end ProtocolImpl

namespace ServerState
open ProtocolImpl
variable {G : SharingGraph} {env : ServerEnv G} {s : ServerState G}

/-- In round 3 the tables decide whether reconstruction can crash: it cannot, whatever the order
of the hash maps and whatever keys the ECDH library accepts, if and only if the shares that take
part in every pairwise row have the size of at most nine subsecrets, all the same, and either some
pairwise row has too few shares (the session is then aborted first) or those of every self row
are there and have all size 36 or all size 20. With a threshold of one every row is fatal. -/
theorem reconstruction_safe_iff (h : Reachable (step env) (create G) s) (hk : s.kind=.r3Unmasking) :
    ∃ pairwise self,s.impl.pairwiseShamirShareTable=some pairwise ∧
      s.impl.selfShamirShareTable=some self ∧
      ((∀ env' : ServerEnv G,∃ r,s.impl.handleShamirReconstruction env'=.ok r) ↔
        (∀ i row,pairwise i=some row → PairwiseRowSafe G.threshold row) ∧
        ((∃ i row,pairwise i=some row ∧ ShamirSecretSharing.Short G.threshold row) ∨
          ∀ i row,self i=some row → SelfRowSafe G.threshold row)) := by
  obtain ⟨pairwise,self,hpair,hself,hr⟩:=(tablesKept h).tables (by rw [hk]; rfl)
  refine ⟨pairwise,self,hpair,hself,?_⟩
  constructor
  · intro ha
    have hsafe : ∀ i row,pairwise i=some row → PairwiseRowSafe G.threshold row :=
      fun i row hi => pairwiseRowSafe_of_isOk hpair hself hr.1.rowsInt hi (ha (envFrom i))
    refine ⟨hsafe,?_⟩
    by_cases hs : ∃ i row,pairwise i=some row ∧ ShamirSecretSharing.Short G.threshold row
    · exact .inl hs
    · refine .inr fun i row hi => ?_
      exact selfRowSafe_of_isOk hpair hself hr.1.rowsInt hr.2.rowsInt hsafe
        (fun j row hj hrow => hs ⟨j,row,hj,hrow⟩) hi (ha (envFrom i))
  · rintro ⟨hsafe,hor⟩
    exact handleShamirReconstruction_isOk hpair hself hr.1.rowsInt hr.2.rowsInt hsafe hor

theorem selfRowSafe_replicate : SelfRowSafe 2 (List.replicate 2 (List.replicate 36 0)) := by
  refine ⟨by decide,by decide,by decide,.inl fun share hs => ?_⟩
  have hm : share∈List.replicate 2 (List.replicate 36 0) := hs
  rw [eq_of_mem_replicate hm]
  rfl

theorem reconstruction_safe_iff_pair :
    ∃ s,Reachable (step (.pair [])) (create .pair) s ∧ s.kind=.r3Unmasking ∧
      ∀ env',∃ r,s.impl.handleShamirReconstruction env'=.ok r := by
  obtain ⟨history,s,hr,hk,hpair,hself⟩:=exists_run (step (.pair []))
    (create .pair) (pairEvents.take 11) (P := fun s => s.kind=.r3Unmasking ∧
      s.impl.pairwiseShamirShareTable.map (fun t => (List.finRange _).map t) =
        some (List.replicate 2 none) ∧
      s.impl.selfShamirShareTable.map (fun t => (List.finRange _).map t) =
        some (List.replicate 2 (some (List.replicate 2 (List.replicate 36 0)))))
    (by decide +kernel)
  obtain ⟨pairwise,self,hp,hq,hiff⟩:=reconstruction_safe_iff hr.reachable hk
  rw [hp,Option.map_some,Option.some.injEq] at hpair
  rw [hq,Option.map_some,Option.some.injEq] at hself
  refine ⟨s,hr.reachable,hk,hiff.mpr ⟨?_,.inr ?_⟩⟩
  · intro i row hi
    have hm:=mem_map_of_mem (f := pairwise) (mem_finRange i)
    rw [hpair,hi] at hm
    cases eq_of_mem_replicate hm
  · intro i row hi
    have hm:=mem_map_of_mem (f := self) (mem_finRange i)
    rw [hself,hi] at hm
    cases eq_of_mem_replicate hm
    exact selfRowSafe_replicate

/-- Both clients answer with shares of one byte: the server is ready for the next round, and
ends the process when it gets there. -/
theorem one_byte_shares_crash :
    ∃ s,Reachable (step (.pair [])) (create .pair) s ∧ s.kind=.r3Unmasking ∧
      s.isReadyForNextRound (.pair [])=true ∧ s.needsToAbort=false ∧
      s.impl.handleShamirReconstruction (.pair [])=.error .check ∧
      step (.pair []) s .proceedToNextRound=.error .check := by
  obtain ⟨history,s,hrun,hk,hr,hn,hc,hs⟩:=exists_run (step (.pair []))
    (create .pair) (pairEvents.take 9 ++
      [.receiveMessage 0 (.unmaskingResponse [.prfSkShare [0],.prfSkShare [0]]),
        .receiveMessage 1 (.unmaskingResponse [.prfSkShare [0],.prfSkShare [0]])])
    (P := fun s => s.kind=.r3Unmasking ∧ s.isReadyForNextRound (.pair [])=true ∧
      s.needsToAbort=false ∧
      faultOf (s.impl.handleShamirReconstruction (.pair []))=some .check ∧
      faultOf (step (.pair []) s .proceedToNextRound)=some .check)
    (by decide +kernel)
  exact ⟨s,hrun.reachable,hk,hr,hn,eq_error_of_faultOf hc,eq_error_of_faultOf hs⟩

end ServerState
end Fcp.SecAgg

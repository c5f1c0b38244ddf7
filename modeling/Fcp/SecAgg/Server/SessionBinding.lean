import Fcp.SecAgg.Server.ProtocolImpl

/-!
# Public keys bound by the session id (shared/compute_session_id.cc)

The digest is fed a size and a key twice for each client, but the second size is that of the first
key again, so that an `enc_pk` is not delimited.
-/

namespace Fcp.SecAgg

open ProtocolImpl (sessionIdInput)
open List

def sessionIdInputs (pairsOfPublicKeys : List PairOfPublicKeys) : Bytes :=
  pairsOfPublicKeys.flatMap sessionIdInput

theorem ProtocolImpl.sessionId_computeSessionId {G : SharingGraph} (c : Crypto)
    (m : ProtocolImpl G) : (m.computeSessionId c).sessionId =
      some (c.sha256 (sessionIdInputs ((List.finRange G.numNodes).map m.pairsOfPublicKeys))) := by
  rw [ProtocolImpl.computeSessionId,sessionIdInputs,flatMap_map]

@[simp] theorem sessionIdInputs_cons (keys : PairOfPublicKeys) (rest : List PairOfPublicKeys) :
    sessionIdInputs (keys::rest)=sessionIdInput keys++sessionIdInputs rest := by
  rw [sessionIdInputs,flatMap_cons,sessionIdInputs]

@[simp] theorem length_sessionIdInput (keys : PairOfPublicKeys) :
    (sessionIdInput keys).length=8+keys.noisePk.length+keys.encPk.length := by
  simp [sessionIdInput]
  omega

theorem sessionIdInput_append (keys : PairOfPublicKeys) (rest : Bytes) :
    sessionIdInput keys++rest=sessionIdInput ⟨keys.noisePk,keys.encPk++rest⟩ := by
  simp [sessionIdInput]

theorem sessionIdInputs_eq_nil {pairs : List PairOfPublicKeys} (h : sessionIdInputs pairs=[]) :
    pairs=[] := by
  cases pairs with
  | nil => rfl
  | cons keys rest =>
    have hl:=congrArg List.length h
    simp at hl

/-- The bytes of a request that is not too long determine its first `noise_pk` and what is fed
after the second size. -/
theorem noisePk_of_input_eq {keys keys' : PairOfPublicKeys} {rest rest' : Bytes}
    (h : sessionIdInput keys++rest=sessionIdInput keys'++rest')
    (hs : (sessionIdInput keys++rest).length<2^32) :
    keys.noisePk=keys'.noisePk ∧ keys.encPk++rest=keys'.encPk++rest' := by
  have hs':=hs
  rw [h] at hs'
  simp only [length_append,length_sessionIdInput] at hs hs'
  simp only [sessionIdInput,append_assoc] at h
  obtain ⟨hstart,ht⟩:=append_inj h rfl
  have hw:=u32_eq_of_intToByteString_eq hstart
  rw [u32_of_lt (by omega),u32_of_lt (by omega)] at hw
  obtain ⟨hn,ha⟩:=append_inj ht hw
  exact ⟨hn,(append_inj ha rfl).2⟩

theorem sessionIdInputs_injective_of_same_size {pairs pairs' : List PairOfPublicKeys}
    (hs : ∀ keys∈pairs,keys.encPk.length=keys.noisePk.length)
    (hs' : ∀ keys∈pairs',keys.encPk.length=keys.noisePk.length)
    (hsize : (sessionIdInputs pairs).length<2^32)
    (h : sessionIdInputs pairs=sessionIdInputs pairs') : pairs=pairs' := by
  induction pairs generalizing pairs' with
  | nil => exact (sessionIdInputs_eq_nil h.symm).symm
  | cons keys rest ih =>
    cases pairs' with
    | nil => exact sessionIdInputs_eq_nil h
    | cons keys' rest' =>
      rw [forall_mem_cons] at hs hs'
      rw [sessionIdInputs_cons] at hsize
      rw [sessionIdInputs_cons,sessionIdInputs_cons] at h
      obtain ⟨hn,ha⟩:=noisePk_of_input_eq h hsize
      have hl : keys.encPk.length=keys'.encPk.length := by rw [hs.1,hs'.1,hn]
      obtain ⟨he,hr⟩:=append_inj ha hl
      have hk : keys=keys' := by
        cases keys
        cases keys'
        rw [PairOfPublicKeys.mk.injEq]
        exact ⟨hn,he⟩
      rw [hk,ih hs.2 hs'.2 (by simp at hsize; omega) hr]

/-- No other list of pairs is fed as the same bytes. -/
def Bound (pairs : List PairOfPublicKeys) : Prop :=
  ∀ pairs',pairs'≠pairs → sessionIdInputs pairs'≠sessionIdInputs pairs

def EndsInPair (bytes : Bytes) : Prop := ∃ keys,sessionIdInput keys <:+ bytes

theorem not_bound_of_two (keys second : PairOfPublicKeys) (rest : List PairOfPublicKeys) :
    ¬ Bound (keys::second::rest) := by
  intro hb
  apply hb (⟨keys.noisePk,keys.encPk++sessionIdInput second⟩::rest)
  · intro heq
    have hl:=congrArg List.length heq
    simp at hl
  · rw [sessionIdInputs_cons,sessionIdInputs_cons,sessionIdInputs_cons,
      ← sessionIdInput_append,append_assoc]

variable {keys : PairOfPublicKeys}

theorem not_bound_of_endsInPair (h : EndsInPair keys.encPk) : ¬ Bound [keys] := by
  intro hb
  obtain ⟨last,before,he⟩:=h
  apply hb [⟨keys.noisePk,before⟩,last]
  · intro heq
    have hl:=congrArg List.length heq
    simp at hl
  · have hj:=sessionIdInput_append ⟨keys.noisePk,before⟩ (sessionIdInput last)
    rw [he] at hj
    simpa [sessionIdInputs] using hj

theorem endsInPair_of_cons (before : Bytes) (keys : PairOfPublicKeys)
    (rest : List PairOfPublicKeys) :
    EndsInPair (before++sessionIdInputs (keys::rest)) := by
  induction rest generalizing before keys with
  | nil => exact ⟨keys,before,by simp [sessionIdInputs]⟩
  | cons next rest ih =>
    rw [sessionIdInputs_cons,← append_assoc]
    exact ih (before++sessionIdInput keys) next

theorem bound_nil : Bound [] := fun _ hne h => hne (sessionIdInputs_eq_nil h)

theorem bound_singleton (hend : ¬ EndsInPair keys.encPk)
    (hs : (sessionIdInputs [keys]).length<2^32) : Bound [keys] := by
  intro pairs' hne h
  cases pairs' with
  | nil => exact cons_ne_nil _ _ (sessionIdInputs_eq_nil h.symm)
  | cons keys' rest =>
    rw [sessionIdInputs_cons] at hs
    rw [sessionIdInputs_cons,sessionIdInputs_cons] at h
    obtain ⟨hn,ha⟩:=noisePk_of_input_eq h.symm hs
    have he : keys.encPk=keys'.encPk++sessionIdInputs rest := by simpa [sessionIdInputs] using ha
    cases rest with
    | nil =>
      apply hne
      cases keys
      cases keys'
      simp_all [sessionIdInputs]
    | cons next rest =>
      apply hend
      rw [he]
      exact endsInPair_of_cons _ _ _

theorem bound_iff (pairs : List PairOfPublicKeys) (hs : (sessionIdInputs pairs).length<2^31) :
    Bound pairs ↔ pairs=[] ∨ ∃ keys,pairs=[keys] ∧ ¬ EndsInPair keys.encPk := by
  constructor
  · intro hb
    match pairs with
    | [] => exact .inl rfl
    | [keys] => exact .inr ⟨keys,rfl,fun he => not_bound_of_endsInPair he hb⟩
    | keys::second::rest => exact absurd hb (not_bound_of_two keys second rest)
  · intro h
    rcases h with rfl | ⟨keys,rfl,he⟩
    · exact bound_nil
    · exact bound_singleton he (by omega)

theorem bound_iff_shortKeys : Bound [⟨[1],[2]⟩] := by
  apply (bound_iff [⟨[1],[2]⟩] (by decide)).mpr
  refine .inr ⟨_,rfl,fun ⟨keys,hs⟩ => ?_⟩
  have hl:=hs.length_le
  simp at hl
  omega

/-- Two clients with empty keys, and one client whose `enc_pk` is eight zero bytes. -/
theorem emptyKeys_collide :
    sessionIdInputs [⟨[],[]⟩,⟨[],[]⟩]=sessionIdInputs [⟨[],List.replicate 8 0⟩] ∧
      ([⟨[],[]⟩,⟨[],[]⟩] : List PairOfPublicKeys)≠[⟨[],List.replicate 8 0⟩] := by
  decide

end Fcp.SecAgg

import Fcp.SecAgg.Client.NeighborStates
import Fcp.SecAgg.Server.ProtocolImpl

/-!
# Keys that the server forwards and the sizes that clients read

`HandleAdvertiseKeys` takes anything that may end in an uncompressed key and forwards it unchanged.
A client takes compressed keys only.
-/

namespace Fcp.SecAgg

open EcdhPublicKey (kSize kUncompressedSize)

open ProtocolImpl

theorem publicKeySizesValid_iff (keys : PairOfPublicKeys) :
    publicKeySizesValid keys=true ↔ keys.encPk.length=keys.noisePk.length ∧
        (keys.noisePk.length=kSize ∨ kUncompressedSize≤keys.noisePk.length) := by
  have hlt : kSize<kUncompressedSize := by decide
  simp only [publicKeySizesValid,Bool.not_eq_true',Bool.or_eq_false_iff,
    Bool.and_eq_false_iff,decide_eq_false_iff_not,not_not,not_lt]
  omega

namespace ProtocolImpl

variable {G : SharingGraph} {m m' : ProtocolImpl G} {c : G.ClientId} {keys : PairOfPublicKeys}

theorem handleAdvertiseKeys_valid (h : m.handleAdvertiseKeys c keys=.ok m') :
    publicKeySizesValid keys=true ∧ m'.pairsOfPublicKeys c=keys := by
  unfold handleAdvertiseKeys at h
  split at h
  next hv =>
    cases h
    exact ⟨hv,Function.update_self ..⟩
  · cases h

end ProtocolImpl

def ClientEnv.AgreesWith (env : ClientEnv) (keys : PairOfPublicKeys) : Prop :=
  (env.crypto.sharedSecret env.encPrivateKey keys.encPk).isSome=true ∧
    (env.crypto.sharedSecret env.prngPrivateKey keys.noisePk).isSome=true

theorem computeSharedSecret_of_isSome {c : Crypto} {key : EcdhKeyAgreement} {otherKey : Bytes}
    (hsize : otherKey.length=kSize) (hsome : (c.sharedSecret key otherKey).isSome=true) :
    ∃ secret,EcdhKeyAgreement.computeSharedSecret c key otherKey=.ok secret := by
  obtain ⟨secret,hs⟩:=Option.isSome_iff_exists.mp hsome
  refine ⟨secret,?_⟩
  unfold EcdhKeyAgreement.computeSharedSecret
  rw [if_neg (fun h => h.1 hsize),hs]

variable {env : ClientEnv}

theorem readPublicKeys_of_size {keys : PairOfPublicKeys} (he : keys.encPk.length=kSize)
    (hn : keys.noisePk.length=kSize) (ha : env.AgreesWith keys) :
    ∃ nb,readPublicKeys env keys=.ok nb := by
  unfold readPublicKeys
  split
  · exact ⟨_,rfl⟩
  · rw [if_neg (by simp [he,hn])]
    split
    · exact ⟨_,rfl⟩
    · obtain ⟨encKey,hencKey⟩:=computeSharedSecret_of_isSome he ha.1
      obtain ⟨prngKey,hp⟩:=computeSharedSecret_of_isSome hn ha.2
      rw [hencKey,hp]
      exact ⟨_,rfl⟩

theorem readPublicKeys_size {keys : PairOfPublicKeys} {nb : NeighborKeys}
    (h : readPublicKeys env keys=.ok nb) :
    keys.missing=true ∨ keys.encPk.length=kSize ∧ keys.noisePk.length=kSize := by
  unfold readPublicKeys at h
  split at h
  next hm => exact .inl hm
  · split at h
    · cases h
    next hs => exact .inr (by omega)

def PassesAt (env : ClientEnv) (pairs : List PairOfPublicKeys) (slot : ℕ) : Prop :=
  ∃ keys neighbor,pairs[slot]?=some keys ∧ readPublicKeys env keys=.ok neighbor

/-- Keys that the server took, in a request that it prepares while it has them, pass the checks of
the neighbor exactly if they are compressed. -/
theorem forwardedKeys_pass_iff {G : SharingGraph} {m m' later : ProtocolImpl G}
    {c receiver : G.ClientId} {keys : PairOfPublicKeys} (slot : G.Slot) {env : ClientEnv}
    (ha : m.handleAdvertiseKeys c keys=.ok m')
    (hkept : later.pairsOfPublicKeys c=m'.pairsOfPublicKeys c)
    (hslot : SharingGraph.neighbor receiver slot=c)
    (hagree : keys.noisePk.length=kSize → env.AgreesWith keys) :
    PassesAt env (later.prepareShareKeysRequestForClient receiver) slot ↔
      keys.noisePk.length=kSize := by
  obtain ⟨hv,hk⟩:=handleAdvertiseKeys_valid ha
  obtain ⟨hsame,hsize⟩:=(publicKeySizesValid_iff keys).mp hv
  have hat : (later.prepareShareKeysRequestForClient receiver)[slot.val]?=some keys := by
    simp [prepareShareKeysRequestForClient,hslot,hkept,hk]
  constructor
  · rintro ⟨keys',neighbor,hk',hr⟩
    obtain rfl : keys=keys' := Option.some.inj (hat.symm.trans hk')
    obtain hm | hs:=readPublicKeys_size hr
    · -- the server takes no empty key
      have hp : 0<keys.noisePk.length := by
        have : 0<kSize := by decide
        have : 0<kUncompressedSize := by decide
        omega
      simp only [PairOfPublicKeys.missing,Bool.or_eq_true,List.isEmpty_iff_length_eq_zero] at hm
      omega
    · exact hs.2
  · intro hc
    obtain ⟨neighbor,hr⟩:=readPublicKeys_of_size (hsame.trans hc) hc (hagree hc)
    exact ⟨keys,neighbor,hat,hr⟩

theorem forwardedKeys_pass_iff_toy :
    ∃ m',(ProtocolImpl.create SharingGraph.pair).handleAdvertiseKeys (0 : Fin 2)
        (ClientEnv.toy 1 []).ownKeys=.ok m' ∧
      (PassesAt (ClientEnv.toy 2 []) (m'.prepareShareKeysRequestForClient (1 : Fin 2)) 0 ↔
        (ClientEnv.toy 1 []).ownKeys.noisePk.length=kSize) :=
  ⟨_,rfl,forwardedKeys_pass_iff (G := SharingGraph.pair) (0 : Fin 2) rfl rfl rfl fun _ => ⟨rfl,rfl⟩⟩

/-- A client with uncompressed keys is admitted, and its neighbor answers the request that it
gets by an abort. -/
theorem uncompressedKeys_abort_neighbor :
    ∃ m' m'',(ProtocolImpl.create SharingGraph.pair).handleAdvertiseKeys (0 : Fin 2)
        ⟨List.replicate 65 4,List.replicate 65 4⟩=.ok m' ∧
      m'.handleAdvertiseKeys (1 : Fin 2) (ClientEnv.toy 1 []).ownKeys=.ok m'' ∧
      (ClientState.r1ShareKeys none).handleMessage (ClientEnv.toy 1 []) ⟨"",none⟩ 0
          (.shareKeysRequest ⟨m''.prepareShareKeysRequestForClient (1 : Fin 2),
            List.replicate 32 0⟩) =
        .ok (.ok (ClientState.abortAndNotifyServer "Invalid public key in request from server.")) :=
  ⟨_,_,rfl,rfl,rfl⟩

end Fcp.SecAgg

import Fcp.SecAgg.Server.Reconstruction
import Fcp.SecAgg.Shared.MaskSamples
import Fcp.SecAgg.Shared.VectorMaps

/-!
# Masks as signed sums of samples

A map of masks stands for the samples of the keys to add minus those of the keys to subtract. In the
packed variants the position of an element must fit `int`.
-/

namespace Fcp.SecAgg

open SecAggVector (getBitWidth)
open List InputVectorSpecification
open ProtocolImpl (prngBatches prngGenerators kPrngBatchSize)

variable {c : Crypto} {fuel : ℕ} {specs : List InputVectorSpecification} {sid : Bytes}
  {add sub : List AesKey} {addImpl subtractImpl : ℕ → ℕ → ℕ → ℕ} {V : Type}

variable {add' sub' : List AesKey}

theorem maskSum_perm (ha : add'.Perm add) (hs : sub'.Perm sub) :
    maskSum c sid add' sub'=maskSum c sid add sub := by
  funext spec i
  rw [maskSum,maskSum,(ha.map _).sum_eq,(hs.map _).sum_eq]

def PositionsFit (specs : List InputVectorSpecification) : Prop :=
  ∀ spec∈specs,(spec.length-1)*getBitWidth spec.modulus<2^31

instance : Decidable (PositionsFit specs) := List.decidableBAll _ _

theorem ofSpan_vectorOf {f : InputVectorSpecification → ℕ → ℤ} {spec : InputVectorSpecification}
    (hf : (spec.length-1)*getBitWidth spec.modulus<2^31) :
    ∃ v,SecAggVector.ofSpan (vectorOf f spec).elements spec.modulus=.ok v ∧
      v.unpack=vectorOf f spec := by
  have hp : 0<spec.modulus := Nat.lt_of_succ_lt spec.modulus_valid.1
  have hl : (vectorOf f spec).elements.length=spec.length := length_residues
  have hr : ∀ x∈(vectorOf f spec).elements,x<spec.modulus := fun x hx => lt_of_mem_residues hp hx
  obtain ⟨v,hv,hm,-,hd⟩:=SecAggVector.ofSpan_eq spec.modulus_valid hr (by rwa [hl])
  exact ⟨v,hv,congrArg₂ SecAggUnpackedVector.mk hd hm⟩

section
variable (ha : Moves addImpl 1) (hsub : Moves subtractImpl (-1)) (hf : kStreamBytes≤fuel)
  (hs : ∀ spec∈specs,∀ key∈add++sub,HasSamples c sid spec key)
include ha hsub hf hs

theorem mapOfMasksImpl_eq (mk : List ℕ → ℕ → Checked V) :
    mapOfMasksImpl c fuel addImpl subtractImpl mk add sub specs sid=(do
      let items ← specs.mapM fun spec => do
        return (spec.name,← mk (vectorOf (maskSum c sid add sub) spec).elements spec.modulus)
      return NameMap.ofEntries items) := by
  unfold mapOfMasksImpl
  rw [mapM_congr (g := fun spec => do
    return (spec.name,← mk (vectorOf (maskSum c sid add sub) spec).elements spec.modulus))]
  intro spec hspec
  rw [maskVector_eq ha hsub hf (hs spec hspec),ok_bind]
  rfl

theorem mapOfMasksImpl_represents {R : InputVectorSpecification → V → Prop}
    {mk : List ℕ → ℕ → Checked V}
    (hmk : ∀ spec∈specs,∃ v,mk (vectorOf (maskSum c sid add sub) spec).elements
      spec.modulus=.ok v ∧ R spec v) :
    ∃ m,mapOfMasksImpl c fuel addImpl subtractImpl mk add sub specs sid=.ok m ∧
      Represents specs R m := by
  rw [mapOfMasksImpl_eq ha hsub hf hs]
  have hentries : ∀ spec∈specs,∃ e : String × V,(do
      return (spec.name,← mk (vectorOf (maskSum c sid add sub) spec).elements spec.modulus)) =
          (.ok e : Checked (String × V)) ∧ e.1=spec.name ∧ R spec e.2 := by
    intro spec hspec
    obtain ⟨v,hv,hR⟩:=hmk spec hspec
    exact ⟨(spec.name,v),by rw [hv]; rfl,rfl,hR⟩
  obtain ⟨es,he⟩:=exists_forall₂ hentries
  refine ⟨NameMap.ofEntries es,?_,fun name => ?_⟩
  · rw [mapM_eq_ok.mpr (he.imp fun _ _ h => h.1)]
    rfl
  · exact NameMap.rel_lookup_ofEntries (he.imp fun _ _ h => h.2) name

theorem mapOfMasksImpl_perm (mk : List ℕ → ℕ → Checked V) (hadd : add'.Perm add)
    (hsub' : sub'.Perm sub) :
    mapOfMasksImpl c fuel addImpl subtractImpl mk add' sub' specs sid =
      mapOfMasksImpl c fuel addImpl subtractImpl mk add sub specs sid := by
  have hs' : ∀ spec∈specs,∀ key∈add'++sub',HasSamples c sid spec key :=
    fun spec hspec key hk => hs spec hspec key ((hadd.append hsub').mem_iff.mp hk)
  rw [mapOfMasksImpl_eq ha hsub hf hs',mapOfMasksImpl_eq ha hsub hf hs,maskSum_perm hadd hsub']

omit ha hsub in
theorem unpackedMapOfMasks_eq : ∃ m,unpackedMapOfMasks c fuel add sub specs sid=.ok m ∧
      StandsFor specs (maskSum c sid add sub) m :=
  mapOfMasksImpl_represents moves_addModOpt moves_subtractModOpt hf hs fun _ _ => ⟨_,rfl,rfl⟩

theorem packedMapOfMasks_eq (hfit : PositionsFit specs) :
    ∃ m,mapOfMasksImpl c fuel addImpl subtractImpl SecAggVector.ofSpan add sub specs sid =
      .ok m ∧ PackedFor specs (maskSum c sid add sub) m :=
  mapOfMasksImpl_represents ha hsub hf hs fun spec hspec => ofSpan_vectorOf (hfit spec hspec)

omit ha hsub in
theorem positionsFit_of_mapOfMasks {m : SecAggVectorMap}
    (h : mapOfMasks c fuel add sub specs sid=.ok m) : PositionsFit specs := by
  intro spec hspec
  rw [mapOfMasks,mapOfMasksImpl_eq moves_addMod moves_subtractMod hf hs,bind_eq_ok] at h
  obtain ⟨items,hi,-⟩:=h
  obtain ⟨e,-,he⟩:=exists_of_mapM_eq_ok hi hspec
  rw [bind_eq_ok] at he
  obtain ⟨v,hv,-⟩:=he
  have hb:=SecAggVector.bits_lt_of_ofSpan hv
  rwa [show (vectorOf (maskSum c sid add sub) spec).elements.length=spec.length from
    length_residues] at hb

end

theorem flatten_prngBatches {n : ℕ} {keys : List AesKey} (hn : keys.length≤n) :
    (prngBatches n keys).flatten=keys := by
  induction n generalizing keys with
  | zero =>
    rw [eq_nil_of_length_eq_zero (Nat.le_zero.mp hn)]
    rfl
  | succ n ih =>
    rw [prngBatches]
    split
    next he =>
      rw [List.isEmpty_iff.mp he]
      rfl
    next he =>
      have hr : (keys.drop kPrngBatchSize).length≤n := by
        rw [length_drop,kPrngBatchSize]
        omega
      rw [flatten_cons,ih hr,take_append_drop]

theorem sum_prngGenerators (spec : InputVectorSpecification) (i : ℕ) :
    ((prngGenerators ⟨add,sub⟩).map fun items => maskSum c sid items.prngKeysToAdd
      items.prngKeysToSubtract spec i).sum=maskSum c sid add sub spec i := by
  have hb (keys : List AesKey) : ((prngBatches keys.length keys).map fun batch =>
      (batch.map fun key => (sample c sid spec key i : ℤ)).sum).sum =
        (keys.map fun key => (sample c sid spec key i : ℤ)).sum := by
    conv_rhs =>
      rw [← flatten_prngBatches (Nat.le_refl keys.length),map_flatten,sum_flatten,map_map]
    rfl
  simp only [prngGenerators,map_append,sum_append,map_map,Function.comp_def,
    maskSum,map_nil,sum_nil,sub_zero,zero_sub]
  rw [hb,sub_eq_add_neg,← hb sub,sum_neg,map_map]
  rfl

theorem mem_of_mem_prngGenerators {items : ProtocolImpl.PrngWorkItems}
    (h : items∈prngGenerators ⟨add,sub⟩) {key : AesKey}
    (hk : key∈items.prngKeysToAdd++items.prngKeysToSubtract) : key∈add++sub := by
  have hbatch {keys batch : List AesKey} (hb : batch∈prngBatches keys.length keys)
      (hk : key∈batch) : key∈keys := by
    rw [← flatten_prngBatches (Nat.le_refl keys.length)]
    exact mem_flatten_of_mem hb hk
  rw [prngGenerators,mem_append,mem_map,mem_map] at h
  obtain ⟨batch,hb,rfl⟩ | ⟨batch,hb,rfl⟩:=h
  · rw [append_nil] at hk
    exact mem_append_left _ (hbatch hb hk)
  · exact mem_append_right _ (hbatch hb hk)

theorem foldlM_batches {M : Type} {combine : M → M → Checked M}
    {Rep : (InputVectorSpecification → ℕ → ℤ) → M → Prop}
    (hc : ∀ f g a b,Rep f a → Rep g b →
      ∃ r,combine a b=.ok r ∧ Rep (fun spec i => f spec i+g spec i) r)
    {run : ProtocolImpl.PrngWorkItems → Checked M}
    (hrun : ∀ items∈prngGenerators ⟨add,sub⟩, ∃ m,run items=.ok m ∧
      Rep (maskSum c sid items.prngKeysToAdd items.prngKeysToSubtract) m) :
    ∃ partials,(prngGenerators ⟨add,sub⟩).mapM run=.ok partials ∧ ∀ order,order.Perm partials →
        (∀ f init,Rep f init → ∃ r,order.foldlM combine init=.ok r ∧
          Rep (fun spec i => f spec i+maskSum c sid add sub spec i) r) ∧
        ∀ first rest,order=first::rest → ∃ r,rest.foldlM combine first=.ok r ∧
          Rep (maskSum c sid add sub) r := by
  obtain ⟨partials,hp⟩:=exists_forall₂ hrun
  refine ⟨partials,mapM_eq_ok.mpr (hp.imp fun _ _ h => h.1),fun order ho => ?_⟩
  obtain ⟨gens,hg,hperm⟩:=perm_comp_forall₂ ho (hp.imp fun _ _ h => h.2).flip
  have hs (spec : InputVectorSpecification) (i : ℕ) : (gens.map fun items =>
      maskSum c sid items.prngKeysToAdd items.prngKeysToSubtract spec i).sum =
        maskSum c sid add sub spec i := by
    rw [(hperm.map _).sum_eq,sum_prngGenerators]
  refine ⟨fun f init hi => ?_,?_⟩
  · obtain ⟨r,hr,hrep⟩:=foldlM_combine hc hg hi
    simp only [hs] at hrep
    exact ⟨r,hr,hrep⟩
  · rintro first rest rfl
    cases hg with
    | @cons _ gen _ gens hf hrest =>
      obtain ⟨r,hr,hrep⟩:=foldlM_combine hc hrest hf
      simp only [map_cons,sum_cons] at hs
      simp only [hs] at hrep
      exact ⟨r,hr,hrep⟩

structure MasksAreSums (c : Crypto) (fuel : ℕ) (add sub : List AesKey)
    (specs : List InputVectorSpecification) (sessionId : Bytes) : Prop where
  packed : ∃ m,mapOfMasks c fuel add sub specs sessionId=.ok m ∧
    PackedFor specs (maskSum c sessionId add sub) m
  packedV3 : ∃ m,mapOfMasksV3 c fuel add sub specs sessionId=.ok m ∧
    PackedFor specs (maskSum c sessionId add sub) m
  unpacked : ∃ m,unpackedMapOfMasks c fuel add sub specs sessionId=.ok m ∧
    StandsFor specs (maskSum c sessionId add sub) m
  reduced : ∀ spec,∀ x∈(vectorOf (maskSum c sessionId add sub) spec).elements,x<spec.modulus
  packed_swap : ∃ m,mapOfMasks c fuel sub add specs sessionId=.ok m ∧
    PackedFor specs (fun spec i => -maskSum c sessionId add sub spec i) m
  packedV3_swap : ∃ m,mapOfMasksV3 c fuel sub add specs sessionId=.ok m ∧
    PackedFor specs (fun spec i => -maskSum c sessionId add sub spec i) m
  unpacked_swap : ∃ m,unpackedMapOfMasks c fuel sub add specs sessionId=.ok m ∧
    StandsFor specs (fun spec i => -maskSum c sessionId add sub spec i) m
  order : ∀ add' sub',add'.Perm add → sub'.Perm sub →
    mapOfMasks c fuel add' sub' specs sessionId=mapOfMasks c fuel add sub specs sessionId ∧
    mapOfMasksV3 c fuel add' sub' specs sessionId=mapOfMasksV3 c fuel add sub specs sessionId ∧
    unpackedMapOfMasks c fuel add' sub' specs sessionId =
      unpackedMapOfMasks c fuel add sub specs sessionId
  batches : ∃ partials,((prngGenerators ⟨add,sub⟩).mapM fun items => unpackedMapOfMasks c fuel
      items.prngKeysToAdd items.prngKeysToSubtract specs sessionId)=.ok partials ∧
    ∀ order,order.Perm partials → (∀ f init,StandsFor specs f init →
        ∃ r,order.foldlM SecAggUnpackedVectorMap.addMaps init=.ok r ∧
          StandsFor specs (fun spec i => f spec i+maskSum c sessionId add sub spec i) r) ∧
      ∀ first rest,order=first::rest → ∃ r,rest.foldlM SecAggUnpackedVectorMap.addMaps first=.ok r ∧
          StandsFor specs (maskSum c sessionId add sub) r
  packed_batches : ∃ partials,((prngGenerators ⟨add,sub⟩).mapM fun items => mapOfMasks c fuel
      items.prngKeysToAdd items.prngKeysToSubtract specs sessionId)=.ok partials ∧
    ∀ order,order.Perm partials →
      (∀ f init,PackedFor specs f init → ∃ r,order.foldlM addMaps init=.ok r ∧
        PackedFor specs (fun spec i => f spec i+maskSum c sessionId add sub spec i) r) ∧
      ∀ first rest,order=first::rest → ∃ r,rest.foldlM addMaps first=.ok r ∧
        PackedFor specs (maskSum c sessionId add sub) r

/-- The masks are the signed sums of the keys' samples exactly when the packed vectors can be
addressed. -/
theorem masksAreSums_iff (c : Crypto) (fuel : ℕ) (add sub : List AesKey)
    (specs : List InputVectorSpecification) (sid : Bytes) (hf : kStreamBytes≤fuel)
    (hs : ∀ spec∈specs,isPowerOfTwo spec.modulus=false → ∀ key∈add++sub,
      HasSamples c sid spec key) :
    MasksAreSums c fuel add sub specs sid ↔ PositionsFit specs := by
  have ha : ∀ spec∈specs,∀ key∈add++sub,HasSamples c sid spec key := by
    intro spec hspec key hk
    cases hp : isPowerOfTwo spec.modulus with
    | true => exact hasSamples_of_isPowerOfTwo c sid key hp
    | false => exact hs spec hspec hp key hk
  constructor
  · intro h
    obtain ⟨m,hm,-⟩:=h.packed
    exact positionsFit_of_mapOfMasks hf ha hm
  · intro hfit
    have hswap : ∀ spec∈specs,∀ key∈sub++add,HasSamples c sid spec key :=
      fun spec hspec key hk => ha spec hspec key (mem_append.mpr
        (mem_append.mp hk).symm)
    have hb : ∀ items∈prngGenerators ⟨add,sub⟩, ∀ spec∈specs,
        ∀ key∈items.prngKeysToAdd++items.prngKeysToSubtract,HasSamples c sid spec key :=
      fun items hi spec hspec key hk =>
        ha spec hspec key (mem_of_mem_prngGenerators hi hk)
    have hn : (fun spec i => -maskSum c sid add sub spec i) =
        maskSum c sid sub add := funext₂ fun _ _ => neg_sub _ _
    exact {
      packed := packedMapOfMasks_eq moves_addMod moves_subtractMod hf ha hfit
      packedV3 := packedMapOfMasks_eq moves_addModOpt moves_subtractModOpt hf ha hfit
      unpacked := unpackedMapOfMasks_eq hf ha
      reduced := fun spec x hx =>
        lt_of_mem_residues (Nat.lt_of_succ_lt spec.modulus_valid.1) hx
      packed_swap := hn ▸ packedMapOfMasks_eq moves_addMod moves_subtractMod hf hswap hfit
      packedV3_swap := hn ▸ packedMapOfMasks_eq moves_addModOpt moves_subtractModOpt hf hswap hfit
      unpacked_swap := hn ▸ unpackedMapOfMasks_eq hf hswap
      order := fun add' sub' hadd hsub =>
        ⟨mapOfMasksImpl_perm moves_addMod moves_subtractMod hf ha _ hadd hsub,
          mapOfMasksImpl_perm moves_addModOpt moves_subtractModOpt hf ha _ hadd hsub,
          mapOfMasksImpl_perm moves_addModOpt moves_subtractModOpt hf ha _ hadd hsub⟩
      batches := foldlM_batches (fun _ _ _ _ => StandsFor.addMaps) fun items hi =>
        unpackedMapOfMasks_eq hf (hb items hi)
      packed_batches := foldlM_batches (fun _ _ _ _ => PackedFor.addMaps hfit)
        fun items hi => packedMapOfMasks_eq moves_addMod moves_subtractMod hf
          (hb items hi) hfit }

def InputVectorSpecification.small : List InputVectorSpecification :=
  [⟨"a",2,3,by decide,by decide⟩,⟨"b",1,16,by decide,by decide⟩]

def InputVectorSpecification.huge : InputVectorSpecification := ⟨"a",2^29+1,16,by decide,by decide⟩

theorem masksAreSums_iff_small : MasksAreSums Crypto.toy kStreamBytes [[1],[2]] [[3]] small [] := by
  refine (masksAreSums_iff Crypto.toy kStreamBytes [[1],[2]] [[3]]
    small [] (Nat.le_refl _) ?_).mpr (by decide)
  have hc : ∀ spec∈small,∀ key∈[[1],[2]]++[[3]],
      spec.length≤Nat.count ((PrngBuffer.ofKey Crypto.toy [] spec key).Keeps
        (rejectionThreshold spec.modulus)) 16 := by
    decide +kernel
  intro spec hs _ key hk
  have hm:=(numOutputs_ofKey Crypto.toy [] spec key).1
  exact le_trans (hc spec hs key hk) (Nat.count_monotone _ (by omega))

/-- The packed variants do not return the vector that the unpacked one does. -/
theorem packed_masks_overflow : (∃ m,unpackedMapOfMasks Crypto.toy kStreamBytes [] [] [huge] [] =
      .ok m) ∧
    ∀ m,mapOfMasks Crypto.toy kStreamBytes [] [] [huge] []≠.ok m := by
  have hs : ∀ spec∈[huge],∀ key∈([]++[] : List AesKey),
      HasSamples Crypto.toy [] spec key := fun _ _ _ hk => absurd hk not_mem_nil
  constructor
  · obtain ⟨m,hm,-⟩:=unpackedMapOfMasks_eq (Nat.le_refl kStreamBytes) hs
    exact ⟨m,hm⟩
  · intro m hm
    have hf:=positionsFit_of_mapOfMasks (Nat.le_refl kStreamBytes) hs hm
    exact absurd (hf _ mem_cons_self) (by decide)

end Fcp.SecAgg

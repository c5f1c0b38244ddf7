import Fcp.Lib.Residues
import Fcp.SecAgg.Shared.VectorCodec
import Fcp.SecAgg.Shared.MapOfMasks

/-!
# Sums of vector maps

A map of a session has a vector for every name in the list of specifications, and is described by
the integers its vectors stand for.
-/

namespace Fcp.SecAgg

open SecAggUnpackedVector

def vectorOf (f : InputVectorSpecification → ℕ → ℤ) (spec : InputVectorSpecification) :
    SecAggUnpackedVector :=
  ⟨residues spec.modulus spec.length (f spec),spec.modulus⟩

def SecAggVector.unpack (v : SecAggVector) : SecAggUnpackedVector := ⟨v.decode,v.modulus⟩

def Represents {V : Type} (specs : List InputVectorSpecification)
    (R : InputVectorSpecification → V → Prop) (m : NameMap V) : Prop :=
  ∀ name,Option.Rel R (specs.find? fun spec => spec.name=name) (m.lookup name)

def StandsFor (specs : List InputVectorSpecification) (f : InputVectorSpecification → ℕ → ℤ)
    (m : SecAggUnpackedVectorMap) : Prop :=
  Represents specs (fun spec v => v=vectorOf f spec) m

def PackedFor (specs : List InputVectorSpecification) (f : InputVectorSpecification → ℕ → ℤ)
    (m : SecAggVectorMap) : Prop :=
  Represents specs (fun spec v => v.unpack=vectorOf f spec) m

variable {specs : List InputVectorSpecification} {f g : InputVectorSpecification → ℕ → ℤ}

section Maps
variable {V W : Type} {R : InputVectorSpecification → V → Prop}
  {S : InputVectorSpecification → W → Prop} {m : NameMap V}

theorem Represents.exists_spec (h : Represents specs R m) {name : String} {v : V}
    (hv : m.lookup name=some v) :
    ∃ spec,specs.find? (fun spec => spec.name=name)=some spec ∧ R spec v := by
  have hr:=h name
  rw [hv] at hr
  generalize specs.find? (fun spec => spec.name=name)=found at hr ⊢
  cases hr with
  | some hR => exact ⟨_,rfl,hR⟩

theorem Represents.exists_vector (h : Represents specs R m) {name : String}
    {spec : InputVectorSpecification}
    (hs : specs.find? (fun spec => spec.name=name)=some spec) :
    ∃ v,m.lookup name=some v ∧ R spec v := by
  have hr:=h name
  rw [hs] at hr
  generalize m.lookup name=found at hr ⊢
  cases hr with
  | some hR => exact ⟨_,rfl,hR⟩

theorem Represents.mapM {U : Type} {T : InputVectorSpecification → U → Prop} {a : NameMap V}
    {b : NameMap W} (ha : Represents specs R a) (hb : Represents specs S b)
    {k : String × V → Checked (String × U)}
    (hk : ∀ spec∈specs,∀ name v w,R spec v → S spec w → b.lookup name=some w →
      ∃ u,k (name,v)=.ok (name,u) ∧ T spec u) :
    ∃ r,(do
      let es ← a.items.mapM k
      return NameMap.ofEntries es)=(.ok r : Checked (NameMap U)) ∧ Represents specs T r := by
  have hentry : ∀ name v,a.lookup name=some v → ∃ u,k (name,v)=.ok (name,u) ∧
      ∃ spec,specs.find? (fun spec => spec.name=name)=some spec ∧ T spec u := by
    intro name v hv
    obtain ⟨spec,hs,hR⟩:=ha.exists_spec hv
    obtain ⟨w,hw,hS⟩:=hb.exists_vector hs
    obtain ⟨u,hu,hT⟩:=hk spec (List.mem_of_find?_eq_some hs) name v w hR hS hw
    exact ⟨u,hu,spec,hs,hT⟩
  obtain ⟨es,he,hr⟩:=NameMap.rel_lookup_mapM hentry
  refine ⟨NameMap.ofEntries es,by rw [he]; rfl,fun name => ?_⟩
  have hn:=hr name
  generalize (NameMap.ofEntries es).lookup name=found at hn ⊢
  have hd:=ha name
  generalize a.lookup name=before at hn hd
  cases hn with
  | none =>
    generalize specs.find? (fun spec => spec.name=name)=first at hd ⊢
    cases hd
    exact .none
  | some hT =>
    obtain ⟨spec,hs,hT⟩:=hT
    rw [hs]
    exact .some hT

theorem Represents.isSome_lookup (h : Represents specs R m) (name : String) :
    (m.lookup name).isSome=(specs.find? fun spec => spec.name=name).isSome := by
  have hr:=h name
  generalize m.lookup name=found at hr ⊢
  generalize specs.find? (fun spec => spec.name=name)=first at hr ⊢
  cases hr <;> rfl

end Maps

theorem foldlM_combine {M N γ : Type} {combine : M → N → Checked M}
    {Rep : (InputVectorSpecification → ℕ → ℤ) → M → Prop}
    {Rep' : (InputVectorSpecification → ℕ → ℤ) → N → Prop}
    (hc : ∀ f g a b,Rep f a → Rep' g b →
      ∃ r,combine a b=.ok r ∧ Rep (fun spec i => f spec i+g spec i) r)
    {part : γ → InputVectorSpecification → ℕ → ℤ} {maps : List N} {gens : List γ}
    (hmap : List.Forall₂ (fun m gen => Rep' (part gen) m) maps gens) {init : M}
    (hi : Rep f init) :
    ∃ r,maps.foldlM combine init=.ok r ∧
      Rep (fun spec i => f spec i+(gens.map fun gen => part gen spec i).sum) r := by
  induction hmap generalizing f init with
  | nil => exact ⟨init,rfl,by simpa using hi⟩
  | @cons m gen maps gens hm _ ih =>
    obtain ⟨next,hn,hrep⟩:=hc _ _ _ _ hi hm
    obtain ⟨r,hr,hs⟩:=ih hrep
    refine ⟨r,?_,?_⟩
    · rw [List.foldlM_cons,hn,ok_bind,hr]
    · simpa [add_assoc] using hs

theorem StandsFor.lookup_eq {a b : SecAggUnpackedVectorMap} (ha : StandsFor specs f a)
    (hb : StandsFor specs f b) (name : String) : a.lookup name=b.lookup name := by
  have hr:=ha name
  have hr':=hb name
  generalize a.lookup name=x at hr ⊢
  generalize b.lookup name=y at hr' ⊢
  generalize specs.find? (fun spec => spec.name=name)=found at hr hr'
  cases hr with
  | none =>
    cases hr'
    rfl
  | some hx =>
    cases hr' with
    | some hy => rw [hx,hy]

theorem zipWith_addModOpt (spec : InputVectorSpecification) (f g : ℕ → ℤ) :
    List.zipWith (fun x y => addModOpt x y spec.modulus) (residues spec.modulus spec.length f)
      (residues spec.modulus spec.length g) =
        residues spec.modulus spec.length fun i => f i+g i := by
  refine zipWith_residues fun x y => ?_
  have hm:=spec.modulus_valid
  have hp : 0<spec.modulus := Nat.lt_of_succ_lt hm.1
  have hmax : spec.modulus≤2^63 := le_trans hm.2 (by decide)
  rw [addModOpt_eq (toNat_emod_lt hp x) (toNat_emod_lt hp y) hmax,toNat_emod_add hp]

theorem addUnpacked_vectorOf (spec : InputVectorSpecification) :
    (vectorOf f spec).addUnpacked (vectorOf g spec) =
      .ok (vectorOf (fun spec i => f spec i+g spec i) spec) := by
  have hl : (vectorOf f spec).elements.length≤(vectorOf g spec).elements.length := by
    simp [vectorOf]
  unfold addUnpacked
  rw [if_pos hl]
  simp only [vectorOf,zipWith_addModOpt]

theorem StandsFor.addMaps {a b : SecAggUnpackedVectorMap} (ha : StandsFor specs f a)
    (hb : StandsFor specs g b) :
    ∃ r,SecAggUnpackedVectorMap.addMaps a b=.ok r ∧
      StandsFor specs (fun spec i => f spec i+g spec i) r := by
  unfold SecAggUnpackedVectorMap.addMaps
  refine Represents.mapM ha hb ?_
  rintro spec-name v w rfl rfl hw
  refine ⟨_,?_,rfl⟩
  dsimp only
  rw [NameMap.atOrDie,hw,ok_bind,addUnpacked_vectorOf]
  rfl

variable {spec : InputVectorSpecification} {v : SecAggVector}

theorem unpack_eq_vectorOf (hv : v.unpack=vectorOf f spec) :
    v.decode=residues spec.modulus spec.length (f spec) ∧ v.modulus=spec.modulus ∧
      v.numElements=spec.length := by
  have hd : v.decode=residues spec.modulus spec.length (f spec) := congrArg elements hv
  refine ⟨hd,congrArg modulus hv,?_⟩
  rw [← SecAggVector.length_decode,hd,length_residues]

theorem add_vectorOf (hv : v.unpack=vectorOf g spec) :
    (vectorOf f spec).add v=.ok (vectorOf (fun spec i => f spec i+g spec i) spec) := by
  obtain ⟨hd,hm,hn⟩:=unpack_eq_vectorOf hv
  have hs : (vectorOf f spec).elements.length=v.numElements := by
    rw [hn]
    exact length_residues
  unfold add
  rw [decide_eq_true hs,fcpCheck_true,ok_bind,
    decide_eq_true (show (vectorOf f spec).modulus=v.modulus from hm.symm),fcpCheck_true,
    ok_bind,hd]
  simp only [vectorOf,zipWith_addModOpt]
  rfl

variable {a : SecAggUnpackedVectorMap}

theorem StandsFor.add {b : SecAggVectorMap} (ha : StandsFor specs f a) (hb : PackedFor specs g b) :
    ∃ r,SecAggUnpackedVectorMap.add a b=.ok r ∧
      StandsFor specs (fun spec i => f spec i+g spec i) r := by
  have hs : a.items.length=b.items.length := NameMap.length_items_eq fun name => by
    rw [Represents.isSome_lookup ha,Represents.isSome_lookup hb]
  unfold SecAggUnpackedVectorMap.add
  rw [decide_eq_true hs,fcpCheck_true,ok_bind]
  refine Represents.mapM ha hb ?_
  rintro spec-name v w rfl hw hl
  refine ⟨_,?_,rfl⟩
  dsimp only
  rw [hl]
  dsimp only
  rw [add_vectorOf hw]
  rfl

def valuesOf (m : SecAggVectorMap) (spec : InputVectorSpecification) (i : ℕ) : ℤ :=
  ((m.lookup spec.name).elim 0 fun v => v.decode.getD i 0 : ℕ)

theorem packedFor_valuesOf {m : SecAggVectorMap} (h : Represents specs
    (fun spec v => v.modulus=spec.modulus ∧ v.numElements=spec.length) m) :
    PackedFor specs (valuesOf m) m := by
  intro name
  have hr:=h name
  cases hl : m.lookup name with
  | none =>
    rw [hl] at hr
    generalize specs.find? (fun spec => spec.name=name)=found at hr ⊢
    cases hr
    exact .none
  | some v =>
    obtain ⟨spec,hs,hm,hn⟩:=Represents.exists_spec h hl
    have hname : spec.name=name := by simpa using List.find?_some hs
    rw [hs]
    refine .some (congrArg₂ mk ?_ hm)
    have hv : valuesOf m spec = fun i => (v.decode.getD i 0 : ℤ) := by
      funext i
      rw [valuesOf,hname,hl]
      rfl
    rw [hv,← hm,← hn,← SecAggVector.length_decode,residues_getD fun x hx => v.lt_of_mem_decode hx]

theorem addVectors_eq {w : SecAggVector}
    (hi : (spec.length-1)*SecAggVector.getBitWidth spec.modulus<2^31)
    (hv : v.unpack=vectorOf f spec) (hw : w.unpack=vectorOf g spec) :
    ∃ r,addVectors v w=.ok r ∧ r.unpack=vectorOf (fun spec i => f spec i+g spec i) spec := by
  have hm:=spec.modulus_valid
  have hp : 0<spec.modulus := Nat.lt_of_succ_lt hm.1
  have hmax : spec.modulus≤2^62 := hm.2
  obtain ⟨hvdecode,hvmod,hvnum⟩:=unpack_eq_vectorOf hv
  obtain ⟨hwdecode,hwmod,hwnum⟩:=unpack_eq_vectorOf hw
  have hs : List.zipWith (fun x y => u64 (x+y)%spec.modulus) v.decode w.decode =
      residues spec.modulus spec.length fun i => f spec i+g spec i := by
    rw [hvdecode,hwdecode]
    refine zipWith_residues fun x y => ?_
    have hx:=toNat_emod_lt hp x
    have hy:=toNat_emod_lt hp y
    rw [u64_of_lt (by omega),toNat_emod_add hp]
  have hr : ∀ x∈residues spec.modulus spec.length (fun i => f spec i+g spec i),
      x<spec.modulus := fun x hx => lt_of_mem_residues hp hx
  have hl : (residues spec.modulus spec.length fun i => f spec i+g spec i).length =
    spec.length := length_residues
  obtain ⟨c,r,hf,hc,hrmod,hrnum,hb⟩:=SecAggVector.coder_eq hm
    (fun x hx => lt_of_lt_of_le (hr x hx) (SecAggVector.getBitWidth_bounds hm).2.2)
    (by rwa [hl])
  refine ⟨r,?_,?_⟩
  · unfold addVectors SecAggVector.bitWidth
    rw [hvmod,hwmod,hvnum,hwnum,decide_eq_true rfl,decide_eq_true rfl,Bool.and_self,
      fcpCheck_true,ok_bind]
    dsimp only
    rw [hs]
    rw [hl] at hf
    rw [hf,ok_bind,hc]
  · have hd : r.decode=residues spec.modulus spec.length fun i => f spec i+g spec i := by
      unfold SecAggVector.decode
      rw [hb,hrmod,hrnum]
      exact SecAggVector.decode_packed hm hr (by rwa [hl])
    exact congrArg₂ mk hd hrmod

theorem PackedFor.addMaps {a b : SecAggVectorMap}
    (hi : ∀ spec∈specs,(spec.length-1)*SecAggVector.getBitWidth spec.modulus<2^31)
    (ha : PackedFor specs f a) (hb : PackedFor specs g b) :
    ∃ r,SecAgg.addMaps a b=.ok r ∧ PackedFor specs (fun spec i => f spec i+g spec i) r := by
  unfold SecAgg.addMaps
  refine Represents.mapM ha hb ?_
  intro spec hs name v w hv hw hl
  obtain ⟨r,hadd,hr⟩:=addVectors_eq (hi spec hs) hv hw
  refine ⟨r,?_,hr⟩
  dsimp only
  rw [NameMap.atOrDie,hl,ok_bind,hadd]
  rfl

end Fcp.SecAgg

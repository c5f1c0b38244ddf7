import Fcp.Aggregation.FaithfulCombiner
import Fcp.Aggregation.TensorProto
import Mathlib.Algebra.BigOperators.Group.List.Lemmas
import Mathlib.Data.BitVec

/-!
# Sizes of tensors from messages

The sizes of strings are added and the dimensions of a shape multiplied modulo `2^64`, so that a
message can pass with views beyond its content or with fewer elements than its shape promises.
-/

namespace Fcp.Aggregation

open List StoredTensor

section Strings

def totalSize (views : List StringView) : ℕ := (views.map StringView.size).sum

/-- What the first pass has read. The views follow each other up to any limit that their total size
does not exceed; if it does, one of them goes beyond the limit. -/
structure Read (start num : ℕ) (stream : Bytes) (views : List StringView) (total : ℕ)
    (rest : Bytes) : Prop where
  length : views.length=num
  total : total=(start+totalSize views)%2^64
  rest : rest.length ≤ stream.length
  within : start+totalSize views<2^64 → ∀ view∈views,
    start≤view.position ∧ view.position+view.size ≤ start+totalSize views
  beyond : ∀ limit<2^64,start≤limit → limit<start+totalSize views →
    ∃ view∈views,view.position≤limit ∧ limit<view.position+view.size

variable {num : ℕ} {t : StoredTensor}

theorem read_of_readSizes {i start : ℕ} {stream : Bytes} {views : List StringView} {total : ℕ}
    {rest : Bytes} (h : readSizes i start num stream=.ok (views,total,rest))
    (hs : start<2^64) : Read start num stream views total rest := by
  induction num generalizing i start stream views with
  | zero =>
    cases h
    refine ⟨rfl,?_,Nat.le_refl _,nofun,fun limit _ hle hlt => absurd hlt (Nat.not_lt.mpr hle)⟩
    exact (Nat.mod_eq_of_lt hs).symm
  | succ num ih =>
    rw [readSizes] at h
    split at h
    · cases h
    next size stream' hread =>
      obtain ⟨⟨views',total',rest'⟩,hr,⟨⟩⟩:=bind_eq_ok.mp h
      have hv:=ih hr (Nat.mod_lt _ (by decide))
      have hsum : totalSize (⟨start,size⟩::views')=size+totalSize views' := rfl
      constructor
      · rw [length_cons,hv.length]
      · rw [hv.total,hsum,Nat.mod_add_mod,Nat.add_assoc]
      · exact Nat.le_of_lt (Nat.lt_of_le_of_lt hv.rest (readVarint64_length hread))
      · rw [hsum]
        intro hlt view hview
        have hn : (start+size)%2^64=start+size := Nat.mod_eq_of_lt (by omega)
        obtain rfl | hview:=mem_cons.mp hview
        · exact ⟨Nat.le_refl _,by show start+size≤_; omega⟩
        · have hw:=hv.within (by rw [hn]; omega) view hview
          rw [hn] at hw
          omega
      · rw [hsum]
        intro limit hl hle hlt
        by_cases hf : limit<start+size
        · exact ⟨⟨start,size⟩,mem_cons_self,hle,hf⟩
        · have hn : (start+size)%2^64=start+size := Nat.mod_eq_of_lt (by omega)
          obtain ⟨view,hview,hb⟩:=hv.beyond limit hl (by rw [hn]; omega) (by rw [hn]; omega)
          exact ⟨view,mem_cons_of_mem _ hview,hb⟩

def sizeTable (content : Bytes) (num : ℕ) : Option ℕ :=
  match readSizes 0 0 num (inputStream content) with
  | .error _ => none
  | .ok (_,_,rest) => some ((inputStream content).length-rest.length)

def Inside (proto : TensorProto) (t : StoredTensor) : Prop :=
  ∃ address views table,t.data=.strings address proto.content views ∧
    views.length=numElements t.shape ∧
    sizeTable proto.content (numElements t.shape)=some table ∧
    ∀ view∈views,table≤view.position ∧ view.position+view.size≤proto.content.length

def ReadsInside (proto : TensorProto) (r : Checked (StatusOr StoredTensor)) : Prop :=
  ∃ result,r=.ok result ∧ ∀ t,result=.ok t → Inside proto t

/-- If the strings fit into the content after wrap-around, they do. -/
def SizesFit (content : Bytes) (num : ℕ) : Prop :=
  ∀ views total rest,readSizes 0 0 num (inputStream content)=.ok (views,total,rest) →
    ((inputStream content).length-rest.length+totalSize views)%2^64≤content.length →
    (inputStream content).length-rest.length+totalSize views≤content.length

theorem length_inputStream_le (body : Bytes) : (inputStream body).length≤body.length := by
  rw [inputStream,length_take]
  exact Nat.min_le_right _ _

theorem mem_shiftViews {off : ℕ} {views : List StringView} {view : StringView} :
    view∈shiftViews off views ↔ ∃ view'∈views,view=⟨(view'.position+off)%2^64,view'.size⟩ := by
  rw [shiftViews,mem_map]
  constructor
  · rintro ⟨view',hv,rfl⟩
    exact ⟨view',hv,rfl⟩
  · rintro ⟨view',hv,rfl⟩
    exact ⟨view',hv,rfl⟩

section Views

variable {P : Placement} {proto : TensorProto} {shape : List ℕ} {views : List StringView}
  {total : ℕ} {rest : Bytes}

def stringTensor (P : Placement) (proto : TensorProto) (shape : List ℕ) (views : List StringView)
    (rest : Bytes) : StoredTensor :=
  ⟨.string,shape,.strings (P.viewsAddress (numElements shape)) proto.content
    (shiftViews ((inputStream proto.content).length-rest.length) views)⟩

theorem sizeTable_eq
    (hread : readSizes 0 0 num (inputStream proto.content)=.ok (views,total,rest)) :
    sizeTable proto.content num=some ((inputStream proto.content).length-rest.length) := by
  rw [sizeTable,hread]

variable (hread : readSizes 0 0 (numElements shape) (inputStream proto.content) =
  .ok (views,total,rest))

include hread

theorem inside_of_fits (hf : (inputStream proto.content).length-rest.length+totalSize views ≤
      proto.content.length) :
    Inside proto (stringTensor P proto shape views rest) := by
  have hr:=read_of_readSizes hread (by decide)
  have hlt:=proto.content_lt
  refine ⟨_,_,_,rfl,?_,sizeTable_eq hread,?_⟩
  · rw [shiftViews,length_map,hr.length]
    rfl
  · intro view hv
    obtain ⟨view',hv',rfl⟩:=mem_shiftViews.mp hv
    have hw:=hr.within (by omega) view' hv'
    have hp : (view'.position+((inputStream proto.content).length-rest.length)) %
        2^64=view'.position+((inputStream proto.content).length-rest.length) :=
      Nat.mod_eq_of_lt (by omega)
    show _≤_%2^64 ∧ _%2^64+view'.size≤_
    rw [hp]
    omega

theorem not_inside_of_beyond
    (hb : proto.content.length<(inputStream proto.content).length-rest.length+totalSize views) :
    ¬ Inside proto (stringTensor P proto shape views rest) := by
  rintro ⟨address,views',table,hd,-,-,hi⟩
  cases hd
  have hr:=read_of_readSizes hread (by decide)
  have hlt:=proto.content_lt
  have hstream:=length_inputStream_le proto.content
  obtain ⟨view,hv,hp,hs⟩:=hr.beyond
    (proto.content.length-((inputStream proto.content).length-rest.length)) (by omega)
    (Nat.zero_le _) (by omega)
  have he:=(hi _ (mem_shiftViews.mpr ⟨view,hv,rfl⟩)).2
  have hm : (view.position+((inputStream proto.content).length-rest.length))%2^64 =
      view.position+((inputStream proto.content).length-rest.length) :=
    Nat.mod_eq_of_lt (by omega)
  change (view.position+_)%2^64+view.size≤_ at he
  rw [hm] at he
  omega

theorem create_stringTensor (hn : numElements shape<2^59) (hv : views≠[]) :
    create .string shape (stringTensor P proto shape views rest).data =
      .ok (.ok (stringTensor P proto shape views rest)) := by
  have hr:=read_of_readSizes hread (by decide)
  have hs : (stringTensor P proto shape views rest).data.byteSize=numElements shape*16 := by
    show (shiftViews _ views).length*16=_
    rw [shiftViews,length_map,hr.length]
  have hp : 0<numElements shape := by
    rw [← hr.length]
    exact length_pos_iff.mpr hv
  refine create_eq_ok.mpr ⟨rfl,nofun,?_,?_,?_,?_⟩
  · rw [hs]
    omega
  · rw [hs]
    exact Nat.mul_mod_left _ _
  · exact P.viewsAligned _
  · rw [hs]
    show _=numElements shape*16%2^64
    rw [Nat.mod_eq_of_lt (by omega)]

theorem sizesFit_iff : SizesFit proto.content (numElements shape) ↔
    (((inputStream proto.content).length-rest.length+totalSize views)%2^64≤proto.content.length →
      (inputStream proto.content).length-rest.length+totalSize views≤proto.content.length) := by
  constructor
  · exact fun h => h views _ rest hread
  · intro h views' total' rest' hr'
    cases hread.symm.trans hr'
    exact h

end Views

/-- A message with strings is read without leaving it just if the table of sizes does not wrap
around and the promised number of strings can be allocated at all. -/
theorem strings_inside_iff (P : Placement) {proto : TensorProto} (hd : proto.dtype=.string) :
    ReadsInside proto (fromProto P proto) ∧ ReadsInside proto (fromMovedProto P proto).1 ↔
    ∀ shape,TensorShape.fromProto proto.shape=.ok shape →
      numElements shape<2^59 ∧ SizesFit proto.content (numElements shape) := by
  rw [fromMovedProto_fst,and_self,fromProto,ofContent,hd]
  cases hs : TensorShape.fromProto proto.shape with
  | error status =>
    refine ⟨fun _ _ hs => ?_,fun _ => ⟨_,rfl,fun _ ht => ?_⟩⟩
    · cases hs
    · cases ht
  | ok shape =>
    simp only [Except.ok.injEq,forall_eq',decodeContent,initializeStrings]
    by_cases hn : 2^59≤numElements shape
    · rw [if_pos hn]
      constructor
      · rintro ⟨result,hresult,-⟩
        cases hresult
      · rintro ⟨hlt,-⟩
        omega
    rw [if_neg hn]
    have hlt : numElements shape<2^59 := by omega
    cases hread : readSizes 0 0 (numElements shape) (inputStream proto.content) with
    | error i =>
      refine ⟨fun _ => ⟨hlt,?_⟩,fun _ => ⟨_,rfl,fun _ ht => (by cases ht)⟩⟩
      intro views total rest hv
      cases hread.symm.trans hv
    | ok read =>
      obtain ⟨views,total,rest⟩:=read
      have hr:=read_of_readSizes hread (by decide)
      have htotal : ((inputStream proto.content).length-rest.length+total)%2^64 =
          ((inputStream proto.content).length-rest.length+totalSize views)%2^64 := by
        rw [hr.total,Nat.zero_add,Nat.add_mod_mod]
      rw [sizesFit_iff hread]
      simp only [htotal]
      by_cases hc : proto.content.length <
          ((inputStream proto.content).length-rest.length+totalSize views)%2^64
      · rw [if_pos hc]
        exact ⟨fun _ => ⟨hlt,fun hle => by omega⟩,fun _ => ⟨_,rfl,fun _ ht => (by cases ht)⟩⟩
      rw [if_neg hc]
      show ReadsInside proto (create .string shape
        (stringTensor P proto shape views rest).data) ↔ _
      constructor
      · rintro ⟨result,hresult,hi⟩
        refine ⟨hlt,fun _ => ?_⟩
        by_contra hb
        -- the sizes add up to something, so there is a view
        have hv : views≠[] := by
          rintro rfl
          have hstream:=length_inputStream_le proto.content
          exact hb (by simp only [totalSize,map_nil,sum_nil]; omega)
        rw [create_stringTensor hread hlt hv] at hresult
        cases hresult
        exact not_inside_of_beyond hread (Nat.not_le.mp hb) (hi _ rfl)
      · rintro ⟨-,hf⟩
        obtain ⟨result,hresult⟩:=exists_create .string shape
          (stringTensor P proto shape views rest).data
        refine ⟨result,hresult,?_⟩
        rintro t rfl
        obtain ⟨rfl,-⟩:=create_eq_ok.mp hresult
        exact inside_of_fits hread (hf (Nat.not_lt.mp hc))

def zeroPlacement : Placement := ⟨fun _ => 0,fun _ => 0,fun _ => rfl⟩

def twoStrings : TensorProto := ⟨.string,[2],[1,0,97,1,2],by decide⟩

theorem strings_inside_two : ReadsInside twoStrings (fromProto zeroPlacement twoStrings) ∧
      ReadsInside twoStrings (fromMovedProto zeroPlacement twoStrings).1 := by
  apply (strings_inside_iff zeroPlacement rfl).mpr
  intro shape hs
  cases hs
  refine ⟨by decide,?_⟩
  intro views total rest hread _
  cases hread
  decide

def wrappedSizes : TensorProto := ⟨.string,[2],[255,255,255,255,255,255,255,255,255,1,1],by decide⟩

/-- The first string starts at the end of the message and has `2^64 - 1` bytes. -/
theorem string_beyond_message : fromProto zeroPlacement wrappedSizes=.ok (.ok ⟨.string,[2],
      .strings 0 wrappedSizes.content [⟨11,2^64-1⟩,⟨10,1⟩]⟩) ∧
    ¬ ReadsInside wrappedSizes (fromProto zeroPlacement wrappedSizes) := by
  have hread : fromProto zeroPlacement wrappedSizes=.ok (.ok ⟨.string,[2],
      .strings 0 wrappedSizes.content [⟨11,2^64-1⟩,⟨10,1⟩]⟩) := by decide +kernel
  refine ⟨hread,?_⟩
  rintro ⟨result,hr,hi⟩
  cases hread.symm.trans hr
  obtain ⟨address,views,table,hd,-,-,hv⟩:=hi _ rfl
  cases hd
  have he:=(hv _ mem_cons_self).2
  exact absurd he (by decide)

end Strings

section Dimensions

structure Exact (t : StoredTensor) : Prop where
  byteSize : t.data.byteSize=t.shape.prod*t.dtype.valueSize
  elements : numElements t.shape*t.dtype.valueSize≤t.data.byteSize
  dimensions : ∀ dim∈t.shape,dim*t.dtype.valueSize≤t.data.byteSize

def Accepted (t : StoredTensor) : Prop := create t.dtype t.shape t.data=.ok (.ok t) ∨
    ∃ P proto,fromProto P proto=.ok (.ok t) ∨ (fromMovedProto P proto).1=.ok (.ok t)

theorem valid_of_fromProto {P : Placement} {proto : TensorProto}
    (h : fromProto P proto=.ok (.ok t)) : t.Valid := by
  unfold fromProto ofContent at h
  split at h
  · cases h
  · obtain ⟨data,-,hc⟩:=bind_eq_ok.mp h
    cases data with
    | error st => cases hc
    | ok data => exact (create_eq_ok.mp hc).2

theorem Accepted.valid (h : Accepted t) : t.Valid := by
  obtain hc | ⟨P,proto,hp | hp⟩:=h
  · exact (create_eq_ok.mp hc).2
  · exact valid_of_fromProto hp
  · rw [fromMovedProto_fst] at hp
    exact valid_of_fromProto hp

theorem dim_le_prod {shape : List ℕ} (hp : shape.prod≠0) {dim : ℕ} (hd : dim∈shape) :
    dim ≤ shape.prod :=
  Nat.le_of_dvd (Nat.pos_of_ne_zero hp) (dvd_prod hd)

/-- A tensor that is accepted has all its elements just if their bytes can be counted without
wrap-around. -/
theorem exact_iff {t : StoredTensor} (h : Accepted t) :
    Exact t ↔ t.shape.prod*t.dtype.valueSize<2^64 := by
  have hv:=h.valid
  have hb : t.data.byteSize=t.shape.prod*t.dtype.valueSize%2^64 := by
    rw [hv.consistent,numElements_eq,Nat.mod_mul_mod]
  constructor
  · intro he
    rw [← he.byteSize,hb]
    exact Nat.mod_lt _ (by decide)
  · intro hlt
    have he : t.data.byteSize=t.shape.prod*t.dtype.valueSize := by rw [hb,Nat.mod_eq_of_lt hlt]
    have hp : t.shape.prod≠0 := by
      intro hz
      rw [hz,Nat.zero_mul] at he
      exact hv.nonempty he
    refine ⟨he,?_,?_⟩
    · rw [he,numElements_eq]
      exact Nat.mul_le_mul_right _ (Nat.mod_le _ _)
    · intro dim hd
      rw [he]
      exact Nat.mul_le_mul_right _ (dim_le_prod hp hd)

theorem exact_rows : Exact ⟨.int32,[2,3],.numeric 0 (List.replicate 24 0)⟩ :=
  (exact_iff (.inl (by decide))).mpr (by decide)

def wrappedShape : TensorProto := ⟨.int64,[2^61+1],[1,2,3,4,5,6,7,8],by decide⟩

/-- The message is accepted, and a combiner of keys that iterates over its elements leaves the
data. -/
theorem elements_beyond_data : (∃ t,fromProto zeroPlacement wrappedShape=.ok (.ok t) ∧ ¬ Exact t ∧
      t.typed=.ok ⟨.int64,[2^61+1],[(0x0807060504030201 : BitVec 64)]⟩) ∧
    faultOf (CompositeKeyCombiner.accumulate CompositeKeyCombiner.nextAddress
      ⟨[.int64],[],[],[],0⟩
      [⟨.int64,[2^61+1],[(0x0807060504030201 : BitVec 64)]⟩])=some .outOfRange := by
  constructor
  · refine ⟨⟨.int64,[2^61+1],.numeric 0 wrappedShape.content⟩,by decide +kernel,?_,rfl⟩
    intro he
    exact absurd he.byteSize (by decide)
  · decide +kernel

end Dimensions

end Fcp.Aggregation

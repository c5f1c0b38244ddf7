import Fcp.Aggregation.TensorSafety

/-!
# Tensors through messages

A tensor that is serialised and read back has its data type, its shape and its elements, as long as
its dimensions are values of `int64`.
-/

namespace Fcp.Aggregation

open List StoredTensor

section Numbers

variable {size : ℕ}

theorem readNumbers_flatMap {α : Type} (hs : 0<size) (f : α → Bytes)
    (hf : ∀ a,(f a).length=size) (data : List α) :
    readNumbers size (data.flatMap f)=data.map fun a => littleEndian (f a) := by
  induction data with
  | nil =>
    rw [readNumbers,flatMap_nil,length_nil,Nat.zero_div]
    rfl
  | cons a data ih =>
    have hc : (f a++data.flatMap f).length/size=(data.flatMap f).length/size+1 := by
      rw [length_append,hf,Nat.add_comm,Nat.add_div_right _ hs]
    rw [flatMap_cons,readNumbers,hc,range_succ_eq_map,map_cons,map_map,map_cons,← ih,readNumbers]
    congr 1
    · rw [Nat.zero_mul,drop_zero,take_left' (hf a)]
    · apply map_congr_left
      intro i _
      show littleEndian (((f a++data.flatMap f).drop ((i+1)*size)).take size)=_
      rw [Nat.succ_mul,Nat.add_comm,← drop_drop,drop_left' (hf a)]

theorem length_flatMap_of_length {α : Type} (f : α → Bytes) (hf : ∀ a,(f a).length=size)
    (data : List α) : (data.flatMap f).length=data.length*size := by
  induction data with
  | nil => rw [flatMap_nil,length_nil,length_nil,Nat.zero_mul]
  | cons a data ih => rw [flatMap_cons,length_append,ih,hf,length_cons,Nat.succ_mul,Nat.add_comm]

theorem readNumbers_toLittleEndian {w size : ℕ} (hw : w=8*size) (hs : 0<size)
    (data : List (BitVec w)) :
    (readNumbers size (data.flatMap fun x => toLittleEndian size x.toNat)).map (BitVec.ofNat w) =
      data := by
  rw [readNumbers_flatMap hs (fun x : BitVec w => toLittleEndian size x.toNat)
    (fun _ => length_toLittleEndian _ _),map_map]
  conv_rhs => rw [← map_id data]
  apply map_congr_left
  intro x _
  show BitVec.ofNat w (littleEndian (toLittleEndian size x.toNat))=x
  rw [littleEndian_toLittleEndian,← hw,Nat.mod_eq_of_lt x.isLt,BitVec.ofNat_toNat,
    BitVec.setWidth_eq]

end Numbers

section Strings

def sizesOf (values : List Bytes) : Bytes := values.flatMap fun value => writeVarint64 value.length

def viewsFrom : ℕ → List Bytes → List StringView
  | _, [] => []
  | start, value::values => ⟨start,value.length⟩::viewsFrom (start+value.length) values

variable {vs : List Bytes}

theorem readSizes_sizesOf {start : ℕ} (i : ℕ) (rest : Bytes) (hf : start+vs.flatten.length<2^64) :
    readSizes i start vs.length (sizesOf vs++rest) =
      .ok (viewsFrom start vs,start+vs.flatten.length,rest) := by
  induction vs generalizing i start with
  | nil => rfl
  | cons value vs ih =>
    rw [flatten_cons,length_append] at hf
    have hr : readVarint64 (sizesOf (value::vs)++rest)=some (value.length,sizesOf vs++rest) := by
      rw [sizesOf,flatMap_cons,append_assoc]
      exact readVarint64_writeVarint64 (by omega) _
    have hs : (start+value.length)%2^64=start+value.length := Nat.mod_eq_of_lt (by omega)
    rw [length_cons,readSizes,hr]
    simp only [hs]
    rw [ih (i+1) (by omega),ok_bind,flatten_cons,length_append,Nat.add_assoc]
    rfl

theorem length_viewsFrom (start : ℕ) (vs : List Bytes) : (viewsFrom start vs).length=vs.length := by
  induction vs generalizing start with
  | nil => rfl
  | cons value vs ih => rw [viewsFrom,length_cons,ih,length_cons]

theorem mapM_readView {start off : ℕ} (before : Bytes)
    (hb : before.length=start+off) (hf : (before++vs.flatten).length<2^64) :
    (shiftViews off (viewsFrom start vs)).mapM (readView (before++vs.flatten))=.ok vs := by
  induction vs generalizing start before with
  | nil => rfl
  | cons value vs ih =>
    rw [flatten_cons,← append_assoc] at hf ⊢
    have hl : (before++value++vs.flatten).length=start+off+value.length+vs.flatten.length := by
      rw [length_append,length_append,hb]
    have hp : (start+off)%2^64=before.length := by
      rw [hb]
      exact Nat.mod_eq_of_lt (by omega)
    have hv : readView (before++value++vs.flatten) ⟨(start+off)%2^64,value.length⟩=.ok value := by
      rw [readView,hp,if_pos (by show before.length+value.length≤_; omega)]
      simp
    have hb' : (before++value).length=start+value.length+off := by
      rw [length_append,hb]
      omega
    have hr:=ih (before++value) hb' hf
    rw [viewsFrom,shiftViews,map_cons,mapM_cons,hv,ok_bind,← shiftViews,hr]
    rfl

theorem inputStream_eq {body : Bytes} (h : body.length<2^31) : inputStream body=body := by
  have hn : (BitVec.ofNat 32 body.length).toNat=body.length := by
    rw [BitVec.toNat_ofNat]
    exact Nat.mod_eq_of_lt (by omega)
  have hi : (BitVec.ofNat 32 body.length).toInt=body.length := by
    rw [BitVec.toInt_eq_toNat_of_lt (by rw [hn]; omega),hn]
  rw [inputStream,hi,Int.toNat_natCast,take_length]

theorem firstElements_self {α : Type} (vs : List α) : firstElements vs.length vs=.ok vs := by
  induction vs with
  | nil => rfl
  | cons value vs ih => rw [length_cons,firstElements,ih,ok_bind]

theorem mapM_writeRaw (h : vs.flatten.length<2^31) : vs.mapM writeRaw=.ok vs := by
  induction vs with
  | nil => rfl
  | cons value vs ih =>
    rw [flatten_cons,length_append] at h
    rw [mapM_cons,ih (by omega),writeRaw,if_pos (by omega)]
    rfl

end Strings

section Shapes

theorem toInt_neg_iff {dim : ℕ} (hd : dim<2^64) : (BitVec.ofNat 64 dim).toInt<0 ↔ 2^63≤dim := by
  have hn : (BitVec.ofNat 64 dim).toNat=dim := by
    rw [BitVec.toNat_ofNat]
    exact Nat.mod_eq_of_lt hd
  rw [BitVec.toInt_eq_toNat_cond,hn]
  split <;> omega

theorem shape_fromProto_toProto {shape : List ℕ} (hdims : ∀ dim∈shape,dim<2^64) :
    (∀ dim∈shape,dim<2^63) ∧ TensorShape.fromProto (TensorShape.toProto shape)=.ok shape ∨
      ¬ (∀ dim∈shape,dim<2^63) ∧
        ∃ st,TensorShape.fromProto (TensorShape.toProto shape)=.error st := by
  unfold TensorShape.fromProto TensorShape.toProto
  by_cases hs : ∀ dim∈shape,dim<2^63
  · left
    refine ⟨hs,?_⟩
    have hn : ¬ ((shape.map (BitVec.ofNat 64)).any fun dim =>
      decide (dim.toInt<0))=true := by
      rw [any_eq_true]
      rintro ⟨x,hx,hneg⟩
      obtain ⟨dim,hd,rfl⟩:=mem_map.mp hx
      have hl:=(toInt_neg_iff (hdims dim hd)).mp (of_decide_eq_true hneg)
      have hlt:=hs dim hd
      omega
    rw [if_neg hn,map_map]
    congr 1
    conv_rhs => rw [← map_id shape]
    apply map_congr_left
    intro dim hd
    show (BitVec.ofNat 64 dim).toNat=dim
    rw [BitVec.toNat_ofNat]
    exact Nat.mod_eq_of_lt (hdims dim hd)
  · right
    refine ⟨hs,?_⟩
    have hsome : ((shape.map (BitVec.ofNat 64)).any fun dim => decide (dim.toInt<0))=true := by
      push Not at hs
      obtain ⟨dim,hd,hl⟩:=hs
      rw [any_eq_true]
      exact ⟨_,mem_map_of_mem hd,decide_eq_true ((toInt_neg_iff (hdims dim hd)).mpr hl)⟩
    rw [if_pos hsome]
    exact ⟨_,rfl⟩

end Shapes

section RoundTrip

variable {t : TypedTensor}

def encodedSize (t : TypedTensor) : ℕ :=
  match t with
  | ⟨.string,shape,values⟩ =>
    ((List.range (numElements shape)).map fun i =>
      (writeVarint64 (values.getD i []).length).length+(values.getD i []).length).sum
  | t => t.byteSize

variable (P : Placement)

/-- The tensor comes back from a copy of its content, and from the content itself. -/
def RoundTrips (copied moved : Placement) (t : TypedTensor) : Prop := ∃ proto,t.toProto=.ok proto ∧
    (∃ s,fromProto copied proto=.ok (.ok s) ∧ s.typed=.ok t) ∧
    ∃ s,(fromMovedProto moved proto).1=.ok (.ok s) ∧ s.typed=.ok t

/-- Numbers are read where the content is. -/
def Aligned (t : TypedTensor) : Prop :=
  t.dtype=.string ∨ ∀ content,encodeContent t (numElements t.shape)=.ok content →
    P.contentAddress content%t.dtype.valueSize=0

structure Encodes (P : Placement) (t : TypedTensor) (content : Bytes) (data : TensorData) :
    Prop where
  encoded : encodeContent t (numElements t.shape)=.ok content
  decoded : decodeContent P t.dtype content (numElements t.shape)=.ok (.ok data)
  valid : data.address%t.dtype.valueSize=0 → StoredTensor.Valid ⟨t.dtype,t.shape,data⟩
  aligned : data.address%t.dtype.valueSize=0 ↔ Aligned P t
  typed : typed ⟨t.dtype,t.shape,data⟩=.ok t

theorem valid_numeric {d : DataType} {shape : List ℕ} {data : List (Element d)}
    (h : (⟨d,shape,data⟩ : TypedTensor).checkValid.code=.ok) {body : Bytes}
    (hl : body.length=data.length*d.valueSize) (ha : P.contentAddress body%d.valueSize=0) :
    StoredTensor.Valid ⟨d,shape,.numeric (P.contentAddress body) body⟩ := by
  obtain ⟨hd,hn,hc⟩:=TypedTensor.checkValid_eq_ok.mp h
  refine ⟨hd,?_,?_,ha,?_⟩
  · show body.length≠0
    rw [hl]
    exact hn
  · show body.length%d.valueSize=0
    rw [hl]
    exact Nat.mul_mod_left _ _
  · show body.length=_
    rw [hl]
    exact hc

theorem aligned_numeric {body : Bytes} (hs : t.dtype≠.string)
    (he : encodeContent t (numElements t.shape)=.ok body) :
    P.contentAddress body%t.dtype.valueSize=0 ↔ Aligned P t := by
  constructor
  · intro ha
    refine .inr fun content hc => ?_
    cases he.symm.trans hc
    exact ha
  · rintro (h | hall)
    · exact absurd h hs
    · exact hall body he

theorem length_numberBytes {d : DataType} (hs : d≠.string) (x : Element d) :
    (numberBytes d x).length=d.valueSize := by
  cases d with
  | invalid => exact Empty.elim x
  | string => exact (hs rfl).elim
  | float | int32 | double | int64 => exact length_toLittleEndian _ _

theorem encodes_numbers (hs : t.dtype≠.string) (h : t.checkValid.code=.ok) :
    ∃ body data,body.length=t.byteSize ∧ Encodes P t body data := by
  obtain ⟨dtype,shape,data⟩:=t
  have hl:=length_flatMap_of_length (numberBytes dtype) (length_numberBytes hs) data
  cases dtype with
  | invalid => exact ((TypedTensor.checkValid_eq_ok.mp h).1 rfl).elim
  | string => exact (hs rfl).elim
  | float | int32 =>
    refine ⟨_,_,hl,rfl,rfl,valid_numeric P h hl,aligned_numeric P hs rfl,?_⟩
    have hd:=@readNumbers_toLittleEndian 32 4 rfl (by decide) data
    exact congrArg (fun data => Except.ok (TypedTensor.mk _ shape data)) hd
  | double | int64 =>
    refine ⟨_,_,hl,rfl,rfl,valid_numeric P h hl,aligned_numeric P hs rfl,?_⟩
    have hd:=@readNumbers_toLittleEndian 64 8 rfl (by decide) data
    exact congrArg (fun data => Except.ok (TypedTensor.mk _ shape data)) hd

theorem sum_getD {vs : List Bytes} : ((List.range vs.length).map fun i =>
      (writeVarint64 (vs.getD i []).length).length+(vs.getD i []).length).sum =
        (sizesOf vs++vs.flatten).length := by
  have hm : (List.range vs.length).map (fun i =>
      (writeVarint64 (vs.getD i []).length).length+(vs.getD i []).length) =
        vs.map fun value => (writeVarint64 value.length).length+value.length := by
    apply ext_getElem
    · simp
    · intro i _ hi
      simp at hi
      simp [hi]
  rw [hm,length_append,sizesOf,length_flatMap,length_flatten,sum_map_add]

theorem encodes_strings {shape : List ℕ} {vs : List Bytes}
    (h : (⟨.string,shape,vs⟩ : TypedTensor).checkValid.code=.ok)
    (hs : encodedSize ⟨.string,shape,vs⟩<2^31) :
    ∃ body data,body.length<2^31 ∧ Encodes P ⟨.string,shape,vs⟩ body data := by
  obtain ⟨-,hn,hc⟩:=TypedTensor.checkValid_eq_ok.mp h
  change vs.length*16≠0 at hn
  change vs.length*16=numElements shape*16%2^64 at hc
  -- each promised string takes a byte of the content
  have hnum : numElements shape<2^31 := by
    refine Nat.lt_of_le_of_lt ?_ hs
    have hone : ∀ size∈(List.range (numElements shape)).map (fun i =>
        (writeVarint64 (vs.getD i []).length).length+(vs.getD i []).length),
        1 ≤ size := by
      intro size hm
      obtain ⟨i,-,rfl⟩:=mem_map.mp hm
      have hp:=length_pos_of_ne_nil (writeVarint64_ne_nil (vs.getD i []).length)
      omega
    have hsum:=length_le_sum_of_one_le _ hone
    rw [length_map,length_range] at hsum
    exact hsum
  have hl : numElements shape=vs.length := by
    rw [Nat.mod_eq_of_lt (by omega)] at hc
    omega
  have hcontent : (sizesOf vs++vs.flatten).length<2^31 := by
    rw [← sum_getD,← hl]
    exact hs
  have hf : vs.flatten.length<2^31 := by
    rw [length_append] at hcontent
    omega
  refine ⟨_,.strings (P.viewsAddress vs.length) (sizesOf vs++vs.flatten)
    (shiftViews (sizesOf vs).length (viewsFrom 0 vs)),hcontent,?_,?_,fun _ => ?_,
    iff_of_true (P.viewsAligned _) (.inl rfl),?_⟩
  · show encodeStrings vs (numElements shape)=_
    rw [hl,encodeStrings,firstElements_self,ok_bind,mapM_writeRaw hf,ok_bind]
    rfl
  · show initializeStrings P _ (numElements shape)=_
    have hr:=@readSizes_sizesOf vs 0 0 vs.flatten (by omega)
    rw [hl,initializeStrings,if_neg (by omega),inputStream_eq hcontent,hr]
    have ho : (sizesOf vs++vs.flatten).length-vs.flatten.length=(sizesOf vs).length := by
      rw [length_append,Nat.add_sub_cancel]
    have hfit : ((sizesOf vs).length+(0+vs.flatten.length))%2^64 =
        (sizesOf vs++vs.flatten).length := by
      rw [Nat.zero_add,← length_append,Nat.mod_eq_of_lt (by omega)]
    simp only [ho,hfit,lt_irrefl,if_false]
  · have hb : (shiftViews (sizesOf vs).length (viewsFrom 0 vs)).length *
        DataType.string.valueSize=vs.length*16 := by
      rw [shiftViews,length_map,length_viewsFrom]
      rfl
    refine ⟨fun hi => (by cases hi),?_,?_,P.viewsAligned _,?_⟩
    · show _*DataType.string.valueSize≠0
      rw [hb]
      exact hn
    · show _*DataType.string.valueSize%_=0
      exact Nat.mul_mod_left _ _
    · show _*DataType.string.valueSize=_
      rw [hb]
      exact hc
  · have hr:=@mapM_readView vs 0 (sizesOf vs).length (sizesOf vs) (Nat.zero_add _).symm (by omega)
    show (do
      let vs ← (shiftViews (sizesOf vs).length (viewsFrom 0 vs)).mapM
        (readView (sizesOf vs++vs.flatten))
      Except.ok (TypedTensor.mk .string shape vs))=_
    rw [hr,ok_bind]

theorem exists_encodes (h : t.checkValid.code=.ok) (hsize : encodedSize t<2^31) :
    ∃ body data,body.length<2^31 ∧ Encodes P t body data := by
  by_cases hs : t.dtype=.string
  · obtain ⟨dtype,shape,vs⟩:=t
    cases hs
    exact encodes_strings P h hsize
  · have hb : encodedSize t=t.byteSize := by
      obtain ⟨dtype,shape,vs⟩:=t
      cases dtype with
      | string => exact (hs rfl).elim
      | _ => rfl
    obtain ⟨body,data,hl,he⟩:=encodes_numbers P hs h
    exact ⟨body,data,by omega,he⟩

theorem dim_lt_of_checkValid (h : t.checkValid.code=.ok) (hcount : t.shape.prod<2^64) :
    ∀ dim∈t.shape,dim<2^64 := by
  obtain ⟨-,hn,hc⟩:=TypedTensor.checkValid_eq_ok.mp h
  have hp : t.shape.prod≠0 := by
    intro hz
    rw [numElements_eq,hz,Nat.zero_mod,Nat.zero_mul,Nat.zero_mod] at hc
    exact hn hc
  intro dim hd
  exact Nat.lt_of_le_of_lt (dim_le_prod hp hd) hcount

theorem reads_iff {P : Placement} {content : Bytes} {data : TensorData}
    (he : Encodes P t content data) (hd : ∀ dim∈t.shape,dim<2^64)
    (hc : content.length<2^63) :
    (∃ s,fromProto P ⟨t.dtype,TensorShape.toProto t.shape,content,hc⟩ =
      .ok (.ok s) ∧ s.typed=.ok t) ↔ (∀ dim∈t.shape,dim<2^63) ∧ Aligned P t := by
  rw [← he.aligned,fromProto,ofContent]
  obtain ⟨hsmall,hshape⟩ | ⟨hl,status,hshape⟩:=shape_fromProto_toProto hd
  · simp only [hshape]
    rw [he.decoded,ok_bind]
    constructor
    · rintro ⟨s,hs,-⟩
      obtain ⟨rfl,hv⟩:=create_eq_ok.mp hs
      exact ⟨hsmall,hv.aligned⟩
    · rintro ⟨-,ha⟩
      exact ⟨_,create_eq_ok.mpr ⟨rfl,he.valid ha⟩,he.typed⟩
  · simp only [hshape]
    refine iff_of_false ?_ fun h => hl h.1
    rintro ⟨s,⟨⟩,-⟩

/-- A valid tensor whose elements can be counted and whose content is below `2^31` bytes comes
back just if its dimensions are values of `int64` and its numbers are aligned in the content. -/
theorem roundTrips_iff (copied moved : Placement) (h : t.checkValid.code=.ok)
    (hcount : t.shape.prod<2^64) (hsize : encodedSize t<2^31) :
    RoundTrips copied moved t ↔ (∀ dim∈t.shape,dim<2^63) ∧ Aligned copied t ∧ Aligned moved t := by
  have hd:=dim_lt_of_checkValid h hcount
  obtain ⟨content,data,hl,he⟩:=exists_encodes copied h hsize
  obtain ⟨content',data',-,he'⟩:=exists_encodes moved h hsize
  cases he.encoded.symm.trans he'.encoded
  have hcontent : content.length<2^63 := by omega
  have hp : t.toProto=.ok ⟨t.dtype,TensorShape.toProto t.shape,content,hcontent⟩ := by
    rw [TypedTensor.toProto,he.encoded,ok_bind,dif_pos hcontent]
  have hcopy:=reads_iff he hd hcontent
  have hmove:=reads_iff he' hd hcontent
  rw [← fromMovedProto_fst] at hmove
  constructor
  · rintro ⟨proto,hto,hc,hm⟩
    cases hp.symm.trans hto
    exact ⟨(hcopy.mp hc).1,(hcopy.mp hc).2,(hmove.mp hm).2⟩
  · rintro ⟨hs,hc,hm⟩
    exact ⟨_,hp,hcopy.mpr ⟨hs,hc⟩,hmove.mpr ⟨hs,hm⟩⟩

theorem roundTrips_two_numbers : RoundTrips ⟨fun _ => 4,fun _ => 0,fun _ => rfl⟩ zeroPlacement
      ⟨.int32,[2,1],[(7 : BitVec 32),(-1 : BitVec 32)]⟩ :=
  (roundTrips_iff _ _ (by decide) (by decide) (by decide)).mpr
    ⟨by decide,.inr fun _ _ => Nat.mod_self 4,.inr fun _ _ => rfl⟩

def oneOfMany : TypedTensor := ⟨.int32,[2^63+1],[(7 : BitVec 32)]⟩

/-- The dimension is negative in the message, which is refused. -/
theorem oneOfMany_refused : oneOfMany.checkValid.code=.ok ∧ oneOfMany.shape.prod<2^64 ∧
      encodedSize oneOfMany<2^31 ∧
      (∃ proto status,oneOfMany.toProto=.ok proto ∧
        fromProto zeroPlacement proto=.ok (.error status) ∧
        status.code=.invalidArgument) ∧
      ¬ RoundTrips zeroPlacement zeroPlacement oneOfMany := by
  have hc : ([7,0,0,0] : Bytes).length<2^63 := by decide
  have he : encodeContent oneOfMany (numElements [2^63+1])=.ok [7,0,0,0] := by decide
  have hp : oneOfMany.toProto=.ok ⟨.int32,TensorShape.toProto [2^63+1],[7,0,0,0],hc⟩ := by
    rw [TypedTensor.toProto]
    show (do
      let content ← encodeContent oneOfMany (numElements [2^63+1])
      _)=_
    rw [he,ok_bind]
    exact dif_pos hc
  have hs : TensorShape.fromProto (TensorShape.toProto [2^63+1]) =
      .error ⟨.invalidArgument,_⟩ := if_pos (by decide)
  obtain ⟨status,hf,hcode⟩ : ∃ status : Status,fromProto zeroPlacement
      ⟨.int32,TensorShape.toProto [2^63+1],[7,0,0,0],hc⟩=.ok (.error status) ∧
        status.code=.invalidArgument := by
    rw [fromProto,ofContent]
    simp only [hs]
    exact ⟨_,rfl,rfl⟩
  refine ⟨by decide,by decide,by decide,⟨_,status,hp,hf,hcode⟩,?_⟩
  rintro ⟨proto,hto,⟨s,hok,-⟩,-⟩
  cases hp.symm.trans hto
  cases hf.symm.trans hok

end RoundTrip

end Fcp.Aggregation

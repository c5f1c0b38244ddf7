import Fcp.Aggregation.TypedTensor
import Fcp.Lib.KeyedFold

/-!
# Aggregation into groups (core/one_dim_grouping_aggregator.h)

The stored vector is grown to one more than the largest ordinal before the subclass adds the values.
Ordinals are `int64_t`, and compared with the size of the vector as `size_t`.
-/

namespace Fcp.Aggregation

open List

/-- The memory of the process: `maxSize` is the largest vector that can be allocated. -/
structure VectorMemory (d : DataType) where
  maxSize : ℕ
  maxSize_lt : maxSize*d.valueSize<2^63

/-- What a subclass gives to the aggregator: how a value is combined into an entry, and the
entry of an ordinal that was not seen yet. -/
structure Grouping (d : DataType) where
  aggregateValue : Element d → Element d → Element d
  getDefaultValue : Element d
  assoc : ∀ a b c,aggregateValue (aggregateValue a b) c=aggregateValue a (aggregateValue b c)
  comm : ∀ a b,aggregateValue a b=aggregateValue b a
  default_left : ∀ a,aggregateValue getDefaultValue a=a

structure OneDimGroupingAggregator (d : DataType) where
  dataVector : Option (List (Element d))
  numInputs : ℕ

/-- The argument of `MergeWith` as its `dynamic_cast` sees it. `grouping` is an aggregator of any
subclass over the same element type, the subclass of the receiver or another one: the entries of
either are combined by the receiver's `aggregateValue`. `different` is every other aggregator. -/
inductive MergeArgument (d : DataType) where
  | grouping (other : OneDimGroupingAggregator d)
  | different

variable {d : DataType}

namespace Grouping

def resize (g : Grouping d) (m : VectorMemory d) (v : List (Element d)) (n : ℕ) :
    Checked (List (Element d)) :=
  if n ≤ m.maxSize then .ok (v.take n++List.replicate (n-v.length) g.getDefaultValue)
  else .error .outOfMemory

def aggregateAt (g : Grouping d) (v : List (Element d)) (i : ℕ) (value : Element d) :
    Checked (List (Element d)) := do
  let old ← elementAt v i
  return v.set i (g.aggregateValue old value)

-- The index of `data()` is a `size_t`, so a negative ordinal is an index beyond every vector.
def aggregateVectorByOrdinals (g : Grouping d) :
    List (Element d) → List (BitVec 64) → List (Element d) → Checked (List (Element d))
  | v, [], _ => .ok v
  | _, _::_, [] => .error .check
  | v, o::ordinals, value::values => do
    let v ← g.aggregateAt v o.toNat value
    g.aggregateVectorByOrdinals v ordinals values

def aggregateVector (g : Grouping d) (v values : List (Element d)) : Checked (List (Element d)) :=
  values.zipIdx.foldlM (fun v p => g.aggregateAt v p.2 p.1) v

end Grouping

def finalSize : ℕ → List (BitVec 64) → Checked ℕ
  | size, [] => .ok size
  | size, o::ordinals =>
    if size≤o.toNat then
      if o.toInt=2^63-1 then .error .signedOverflow else finalSize (o+1).toNat ordinals
    else finalSize size ordinals

namespace OneDimGroupingAggregator

def create : OneDimGroupingAggregator d := ⟨some [],0⟩

def consumedStatus : Status :=
  ⟨.failedPrecondition,"GroupingAggregator::CheckValid: Output has already been consumed."⟩

def differentStatus (d : DataType) : Status := ⟨.invalidArgument,
    "GroupingAggregator::MergeOutputTensors: Can only merge with another " ++
      "GroupingAggregator operating on the same dtype "++toString d.number⟩

def numDimensions (t : TypedTensor) : ℤ := (BitVec.ofNat 32 t.shape.length).toInt

def checkInputs (d : DataType) (ordinals tensor : TypedTensor) : Status :=
  if ordinals.dtype≠.int64 then
    ⟨.invalidArgument,
      "GroupingAggregator::AggregateTensors: dtype mismatch for tensor 0. Expected DT_INT64."⟩
  else if tensor.dtype≠d then
    ⟨.invalidArgument,"GroupingAggregator::AggregateTensors: dtype mismatch for tensor 1"⟩
  else if ordinals.shape≠tensor.shape then
    ⟨.invalidArgument,"GroupingAggregator::AggregateTensors: tensor shape mismatch. " ++
        "Shape of both tensors must be the same."⟩
  else if numDimensions tensor>1 then
    ⟨.invalidArgument,
      "GroupingAggregator::AggregateTensors: Only 1 dimensional tensors supported. " ++
        "Input tensor has "++toString (numDimensions tensor)++" dimensions."⟩
  else .okStatus

def aggregateTensors (g : Grouping d) (m : VectorMemory d) (a : OneDimGroupingAggregator d)
    (v : List (Element d)) (tensors : List TypedTensor) :
    Checked (Status × OneDimGroupingAggregator d) :=
  match tensors with
  | [ordinals,tensor] =>
    if (checkInputs d ordinals tensor).code≠.ok then .ok (checkInputs d ordinals tensor,a)
    else do
      let numInputs ← intAdd a.numInputs 1
      let valueVector ← tensor.asAggVector d
      let ordinalsVector ← ordinals.asAggVector .int64
      let size ← finalSize v.length ordinalsVector
      let v ← g.resize m v size
      let v ← g.aggregateVectorByOrdinals v ordinalsVector valueVector
      return (.okStatus,⟨some v,numInputs⟩)
  | _ => .error .check

def accumulate (g : Grouping d) (m : VectorMemory d) (a : OneDimGroupingAggregator d)
    (tensors : List TypedTensor) : Checked (Status × OneDimGroupingAggregator d) :=
  match a.dataVector with
  | none => .ok (consumedStatus,a)
  | some v => a.aggregateTensors g m v tensors

/-- `TakeOutputs` of an aggregator with the data vector `v`; `value()` ends the process when the
tensor cannot be created. -/
def takeOutputs (a : OneDimGroupingAggregator d) (v : List (Element d)) :
    Checked (List TypedTensor × OneDimGroupingAggregator d) :=
  if v=[] then .ok ([],{ a with dataVector := none })
  else
    match TypedTensor.create d [v.length] v with
    | .error _ => .error .check
    | .ok tensor => .ok ([tensor],{ a with dataVector := none })

def mergeOutputs (g : Grouping d) (m : VectorMemory d) (v : List (Element d))
    (outputs : List TypedTensor) : Checked (List (Element d)) :=
  match outputs with
  | [output] => do
    let otherVector ← output.asAggVector d
    let v ← if otherVector.length>v.length then g.resize m v otherVector.length else .ok v
    g.aggregateVector v otherVector
  | outputs => do
    fcpCheck outputs.isEmpty
    return v

def mergeWith (g : Grouping d) (m : VectorMemory d) (a : OneDimGroupingAggregator d)
    (other : MergeArgument d) : Checked (Status × OneDimGroupingAggregator d × MergeArgument d) :=
  match a.dataVector, other with
  | none, _ => .ok (consumedStatus,a,other)
  | some _, .different => .ok (differentStatus d,a,other)
  | some v, .grouping b =>
    match b.dataVector with
    | none => .ok (consumedStatus,a,other)
    | some w => do
      let (outputs,rest) ← b.takeOutputs w
      let v ← mergeOutputs g m v outputs
      let numInputs ← intAdd a.numInputs b.numInputs
      return (.okStatus,⟨some v,numInputs⟩,.grouping rest)

end OneDimGroupingAggregator

namespace Grouping

variable (g : Grouping d)

include g in
theorem supported : d≠.invalid := by
  intro h
  subst h
  exact Empty.elim g.getDefaultValue

theorem default_right (a : Element d) : g.aggregateValue a g.getDefaultValue=a := by
  rw [g.comm,g.default_left]

include g in
theorem maxSize_lt_pow (m : VectorMemory d) : m.maxSize<2^61 := by
  have hs:=m.maxSize_lt
  have hd:=g.supported
  cases d with
  | invalid => exact absurd rfl hd
  | float | double | int32 | string | int64 => simp only [DataType.valueSize] at hs; omega

abbrev Stores (v : List (Element d)) (pairs : List (ℕ × Element d)) : Prop :=
  Groups g.aggregateValue g.getDefaultValue v pairs

variable {g} {m : VectorMemory d} {v w vs : List (Element d)} {pairs : List (ℕ × Element d)}
  {n i : ℕ} {value : Element d}

theorem resize_eq_ok : g.resize m v n=.ok w ↔
      n ≤ m.maxSize ∧ w=v.take n++List.replicate (n-v.length) g.getDefaultValue :=
  ite_eq_ok

theorem getD_grown (hn : v.length≤n) (k : ℕ) :
    (v.take n++List.replicate (n-v.length) g.getDefaultValue).getD k g.getDefaultValue =
      v.getD k g.getDefaultValue := by
  rw [take_of_length_le hn,getD_eq_getElem?_getD,getD_eq_getElem?_getD,getElem?_append]
  split
  · rfl
  next hk =>
    rw [getElem?_eq_none (Nat.le_of_not_lt hk),getElem?_replicate]
    split <;> rfl

theorem aggregateAt_eq_ok : g.aggregateAt v i value=.ok w ↔ i<v.length ∧
      w=v.set i (g.aggregateValue (v.getD i g.getDefaultValue) value) := by
  unfold aggregateAt
  simp only [bind_eq_ok,elementAt_eq_ok,pure_eq_ok]
  constructor
  · intro ⟨old,ho,hw⟩
    obtain ⟨hi,rfl⟩:=List.getElem?_eq_some_iff.mp ho
    exact ⟨hi,by simp [← hw,hi]⟩
  · intro ⟨hi,hw⟩
    exact ⟨v[i],getElem?_eq_getElem hi,by simp [hw,hi]⟩

theorem getD_aggregateAt (h : g.aggregateAt v i value=.ok w) (k : ℕ) : w.getD k g.getDefaultValue =
      if i=k then g.aggregateValue (v.getD k g.getDefaultValue) value
      else v.getD k g.getDefaultValue := by
  obtain ⟨hi,rfl⟩:=aggregateAt_eq_ok.mp h
  rw [getD_eq_getElem?_getD,getElem?_set]
  by_cases hk : i=k
  · subst hk
    simp [hi]
  · simp [hk]

variable {ords : List (BitVec 64)}

theorem length_of_aggregateVectorByOrdinals (h : g.aggregateVectorByOrdinals v ords vs=.ok w) :
    w.length=v.length ∧ ∀ o∈ords,o.toNat<v.length := by
  induction ords generalizing v vs with
  | nil =>
    have hw : v=w := by simpa [aggregateVectorByOrdinals] using h
    simp [hw]
  | cons o ords ih =>
    cases vs with
    | nil => cases h
    | cons value vs =>
      obtain ⟨v',hv',hw⟩:=bind_eq_ok.mp h
      obtain ⟨hi,hs⟩:=aggregateAt_eq_ok.mp hv'
      have hv'length : v'.length=v.length := by rw [hs,length_set]
      obtain ⟨hwlength,hr⟩:=ih hw
      refine ⟨hwlength.trans hv'length,?_⟩
      intro o' ho'
      rcases mem_cons.mp ho' with rfl | hm
      · exact hi
      · exact hv'length ▸ hr o' hm

theorem getD_aggregateVectorByOrdinals (hl : ords.length=vs.length)
    (he : ∀ k,v.getD k g.getDefaultValue=keyedFold g.aggregateValue g.getDefaultValue pairs k)
    (h : g.aggregateVectorByOrdinals v ords vs=.ok w) (k : ℕ) :
    w.getD k g.getDefaultValue=keyedFold g.aggregateValue g.getDefaultValue
      (pairs++(ords.map BitVec.toNat).zip vs) k := by
  induction ords generalizing v vs pairs with
  | nil =>
    have hw : v=w := by simpa [aggregateVectorByOrdinals] using h
    subst hw
    simpa using he k
  | cons o ords ih =>
    cases vs with
    | nil => simp at hl
    | cons value vs =>
      obtain ⟨v',hv',hw⟩:=bind_eq_ok.mp h
      have he' : ∀ k,v'.getD k g.getDefaultValue =
          keyedFold g.aggregateValue g.getDefaultValue (pairs++[(o.toNat,value)]) k := by
        intro k
        rw [getD_aggregateAt hv',keyedFold_concat,he]
      have hr:=ih (by simpa using hl) he' hw
      simpa using hr

theorem exists_aggregateVectorByOrdinals (hl : ords.length=vs.length)
    (hin : ∀ o∈ords,o.toNat<v.length) :
    ∃ w,g.aggregateVectorByOrdinals v ords vs=.ok w := by
  induction ords generalizing v vs with
  | nil => exact ⟨v,by simp [aggregateVectorByOrdinals]⟩
  | cons o ords ih =>
    cases vs with
    | nil => simp at hl
    | cons value vs =>
      have hv' : g.aggregateAt v o.toNat value=.ok _ := aggregateAt_eq_ok.mpr ⟨hin o (by simp),rfl⟩
      have hin' : ∀ o'∈ords,o'.toNat <
          (v.set o.toNat (g.aggregateValue (v.getD o.toNat g.getDefaultValue) value)).length := by
        intro o' ho'
        rw [length_set]
        exact hin o' (by simp [ho'])
      obtain ⟨w,hw⟩:=ih (by simpa using hl) hin'
      exact ⟨w,bind_eq_ok.mpr ⟨_,hv',hw⟩⟩

theorem exists_aggregateFrom (n : ℕ) (hl : n+vs.length≤v.length) :
    ∃ w,(vs.zipIdx n).foldlM (fun v p => g.aggregateAt v p.2 p.1) v=.ok w ∧
      w.length=v.length ∧ ∀ k,w.getD k g.getDefaultValue =
        if n≤k then g.aggregateValue (v.getD k g.getDefaultValue)
          (vs.getD (k-n) g.getDefaultValue)
        else v.getD k g.getDefaultValue := by
  induction vs generalizing n v with
  | nil =>
    refine ⟨v,rfl,rfl,fun k => ?_⟩
    simp [g.default_right]
  | cons value vs ih =>
    rw [length_cons] at hl
    have hv' : g.aggregateAt v n value=.ok _ := aggregateAt_eq_ok.mpr ⟨by omega,rfl⟩
    have hl' : n+1+vs.length ≤
        (v.set n (g.aggregateValue (v.getD n g.getDefaultValue) value)).length := by
      rw [length_set]
      omega
    obtain ⟨w,hw,hwlength,he⟩:=ih (n+1) hl'
    refine ⟨w,?_,by rw [hwlength,length_set],fun k => ?_⟩
    · rw [zipIdx_cons,foldlM_cons]
      exact bind_eq_ok.mpr ⟨_,hv',hw⟩
    · rw [he,getD_aggregateAt hv']
      rcases Nat.lt_trichotomy k n with hk | rfl | hk
      · simp [Nat.not_le.mpr hk,Nat.not_le.mpr (Nat.lt_succ_of_lt hk),Nat.ne_of_gt hk]
      · rw [if_neg (Nat.not_succ_le_self k),if_pos rfl,if_pos (Nat.le_refl k),Nat.sub_self]
        rfl
      · obtain ⟨m,rfl⟩ : ∃ m,k=n+1+m := ⟨k-n-1,by omega⟩
        have hs : n+1+m-n=m+1 := by omega
        simp [hs,show n≤n+1+m by omega,show n≠n+1+m by omega]

variable (g) in
theorem exists_aggregateVector (hl : vs.length≤v.length) :
    ∃ w,g.aggregateVector v vs=.ok w ∧ w.length=v.length ∧
      ∀ k,w.getD k g.getDefaultValue=g.aggregateValue (v.getD k g.getDefaultValue)
        (vs.getD k g.getDefaultValue) := by
  have hz : 0+vs.length≤v.length := by omega
  obtain ⟨w,hw,hwlength,he⟩:=exists_aggregateFrom (g := g) 0 hz
  exact ⟨w,hw,hwlength,fun k => by simpa using he k⟩

end Grouping

theorem finalSize_eq (size : ℕ) {ords : List (BitVec 64)} (h : ∀ o∈ords,o.toNat<2^61) :
    finalSize size ords=.ok (max size (extent (ords.map BitVec.toNat))) := by
  induction ords generalizing size with
  | nil => simp [finalSize]
  | cons o ords ih =>
    have ho : o.toNat<2^61 := h o (by simp)
    have hr : ∀ o'∈ords,o'.toNat<2^61 := fun o' ho' => h o' (by simp [ho'])
    rw [finalSize]
    split
    next hle =>
      have hi : o.toInt≠2^63-1 := by
        rw [BitVec.toInt_eq_toNat_of_lt (by omega)]
        omega
      have hs : (o+1).toNat=o.toNat+1 := by
        rw [BitVec.toNat_add]
        exact Nat.mod_eq_of_lt (by simp; omega)
      rw [if_neg hi,ih _ hr,hs,map_cons,extent_cons]
      congr 1
      omega
    next hlt =>
      rw [ih _ hr,map_cons,extent_cons]
      congr 1
      omega

end Fcp.Aggregation

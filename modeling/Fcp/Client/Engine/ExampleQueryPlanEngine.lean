import Fcp.Base.Monitoring
import Mathlib.Data.List.AList

/-!
# Checkpoints of example queries (client/engine/example_query_plan_engine.cc)

Of several outputs over one vector one is written. The branch for bytes writes as many elements as
there are bytes values, but from the strings, which are not set. A checkpoint is the slices that the
writer was given; what TensorFlow answers is an input.
-/

namespace Fcp.Client.Engine

open List

inductive DataType where
  | unspecified | int32 | int64 | bool | float | double | bytes | string
  deriving DecidableEq

structure OutputVectorSpec where
  vectorName : String
  dataType : DataType

abbrev ExampleQuery := AList fun _ : String => OutputVectorSpec

/-- Floating-point values are their bits. -/
inductive Values where
  | int32Values (value : List ℤ)
  | int64Values (value : List ℤ)
  | boolValues (value : List Bool)
  | floatValues (value : List UInt32)
  | doubleValues (value : List UInt64)
  | stringValues (value : List Bytes)
  | bytesValues (value : List Bytes)
  | notSet
  deriving DecidableEq

abbrev ExampleQueryResult := AList fun _ : String => Values

inductive Tensor where
  | int32 (elements : List ℤ)
  | int64 (elements : List ℤ)
  | bool (elements : List Bool)
  | float (elements : List UInt32)
  | double (elements : List UInt64)
  | string (elements : List Bytes)
  deriving DecidableEq

/-- The answers of a `TensorSliceWriter`: to each `Add`, and to `Finish`. -/
structure SliceWriter where
  added : ℕ → Status
  finished : Status

abbrev Checkpoint := List (String × Tensor)

inductive Stop where
  | status (status : Status)
  | outOfBounds
  deriving DecidableEq

structure Output where
  name : String
  dataType : DataType
  values : Option Values
  deriving DecidableEq

def getOutputVectorSpecs (exampleQuery : ExampleQuery) :
    AList fun _ : String => String × OutputVectorSpec :=
  exampleQuery.entries.foldl (fun map e => map.insert e.2.vectorName (e.1,e.2)) ∅

def checkOutputVectorDataType (declared expected : DataType) : Except Stop Unit :=
  if declared≠expected then
    .error (.status ⟨.failedPrecondition,"Unexpected data type in the example query"⟩)
  else .ok ()

/-- The elements that `WriteSlice` reads behind `data`. -/
def readSlice {α : Type} (declared expected : DataType) (tensor : List α → Tensor) (size : ℕ)
    (data : List α) : Except Stop Tensor := do
  checkOutputVectorDataType declared expected
  if data.length<size then .error .outOfBounds else .ok (tensor (data.take size))

def Values.strings : Values → List Bytes
  | .stringValues value => value
  | _ => []

def outputTensor (d : Output) : Except Stop Tensor :=
  match d.values with
  | none => .error (.status ⟨.dataLoss,"Expected value not found in the example query result"⟩)
  | some (.int32Values value) => readSlice d.dataType .int32 .int32 value.length value
  | some (.int64Values value) => readSlice d.dataType .int64 .int64 value.length value
  | some (.stringValues value) => readSlice d.dataType .string .string value.length value
  | some (.boolValues value) => readSlice d.dataType .bool .bool value.length value
  | some (.floatValues value) => readSlice d.dataType .float .float value.length value
  | some (.doubleValues value) => readSlice d.dataType .double .double value.length value
  | some (.bytesValues value) => readSlice d.dataType .bytes .string value.length
      (Values.bytesValues value).strings
  | some .notSet =>
    .error (.status ⟨.dataLoss,"Unexpected data type in the example query result"⟩)

variable (tf : SliceWriter)

def writeSlice (slices : Checkpoint) (name : String) (tensor : Tensor) : Except Stop Checkpoint :=
  if (tf.added slices.length).isOk then .ok (slices++[(name,tensor)])
  else .error (.status (tf.added slices.length))

def writeOutput (slices : Checkpoint) (d : Output) : Except Stop Checkpoint := do
  writeSlice tf slices d.name (← outputTensor d)

variable (queries : List (ExampleQuery × ExampleQueryResult))

def written : List Output :=
  queries.flatMap fun q => (getOutputVectorSpecs q.1).entries.map fun e =>
    ⟨e.2.1,e.2.2.dataType,q.2.lookup e.1⟩

def writeCheckpoint : Except Stop Checkpoint := do
  let slices ← (written queries).foldlM (writeOutput tf) []
  if tf.finished.isOk then .ok slices else .error (.status tf.finished)

def declared : List Output := queries.flatMap fun q => q.1.entries.map fun e =>
    ⟨e.1,e.2.dataType,q.2.lookup e.2.vectorName⟩

def Values.tensor : Values → Option (DataType × Tensor)
  | .int32Values value => some (.int32,.int32 value)
  | .int64Values value => some (.int64,.int64 value)
  | .boolValues value => some (.bool,.bool value)
  | .floatValues value => some (.float,.float value)
  | .doubleValues value => some (.double,.double value)
  | .stringValues value => some (.string,.string value)
  | .bytesValues value => some (.bytes,.string value)
  | .notSet => none

/-- The vector is there, has the declared type and the elements of the tensor. -/
def Output.Fits (d : Output) (tensor : Tensor) : Prop :=
  ∃ values,d.values=some values ∧ values.tensor=some (d.dataType,tensor)

def Output.Overread (d : Output) : Prop :=
  d.dataType=.bytes ∧ ∃ value≠[],d.values=some (.bytesValues value)

/-- The property: a checkpoint has each declared output once, with its vector; nothing is read
outside of the values; and a vector that is missing or of another type is an error. -/
structure Faithful : Prop where
  exact : ∀ slices,writeCheckpoint tf queries=.ok slices → ∀ d∈declared queries,
    ∃ tensor,d.Fits tensor ∧ slices.filter (·.1=d.name)=[(d.name,tensor)]
  inside : writeCheckpoint tf queries≠.error .outOfBounds
  refused : (∃ d∈declared queries,∀ tensor,¬ d.Fits tensor) →
    ∃ status,writeCheckpoint tf queries=.error (.status status)

/-- Writing these outputs, after `n` others, ends with an error: a vector is missing or of another
type, or the writer refuses a slice. -/
def Fails (n : ℕ) (outputs : List Output) : Prop :=
  (∃ k∈outputs,∀ tensor,¬ k.Fits tensor) ∨ ∃ i<outputs.length,(tf.added (n+i)).isOk=false

/-- The condition, as far as no error ends the writing before: no bytes are written, and each
declared output is the only one that is written under its name, with its own vector. -/
structure Undisturbed : Prop where
  bytes : ∀ before k after,written queries=before++k::after → k.Overread → Fails tf 0 before
  only : ¬ Fails tf 0 (written queries) → tf.finished.isOk → ∀ d∈declared queries,∃ k tensor,
    (written queries).filter (·.name=d.name)=[k] ∧ k.Fits tensor ∧ d.Fits tensor

variable {tf queries} {d k : Output} {t : Tensor} {slices slices' : Checkpoint} {n : ℕ}

theorem readSlice_all {α : Type} (type expected : DataType) (make : List α → Tensor)
    (value : List α) : readSlice type expected make value.length value=.ok t ↔
      expected=type ∧ make value=t := by
  rw [readSlice,take_length,checkOutputVectorDataType]
  by_cases h : type=expected <;> simp [h,eq_comm]

theorem outputTensor_eq_ok : outputTensor d=.ok t ↔ d.Fits t ∧ ¬ d.Overread := by
  obtain ⟨name,type,_ | vs⟩:=d
  · simp [outputTensor,Output.Fits]
  · cases vs with
    | bytesValues value =>
      by_cases h : type=.bytes <;> cases value <;>
        simp [outputTensor,readSlice,checkOutputVectorDataType,Values.strings,Output.Fits,
          Output.Overread,Values.tensor,h,eq_comm]
    | _ => simp [outputTensor,readSlice_all,Output.Fits,Output.Overread,Values.tensor]

theorem outputTensor_eq_outOfBounds : outputTensor d=.error .outOfBounds ↔ d.Overread := by
  obtain ⟨name,type,_ | vs⟩:=d
  · simp [outputTensor,Output.Overread]
  · cases vs <;> simp only [outputTensor,readSlice,checkOutputVectorDataType,Output.Overread]
    case notSet => simp
    all_goals split_ifs <;> simp_all [Values.strings,length_pos_iff]

theorem Output.Fits.unique {t' : Tensor} (h : d.Fits t) (h' : d.Fits t') : t=t' := by
  obtain ⟨vs,hvs,ht⟩:=h
  obtain ⟨vs',hvs',ht'⟩:=h'
  cases hvs.symm.trans hvs'
  cases ht.symm.trans ht'
  rfl

variable {outputs : List Output}

theorem fails_cons : Fails tf n (k::outputs) ↔
    (∀ t,¬ k.Fits t) ∨ (tf.added n).isOk=false ∨ Fails tf (n+1) outputs := by
  have hindex : (∃ i<(k::outputs).length,(tf.added (n+i)).isOk=false) ↔
      (tf.added n).isOk=false ∨ ∃ i<outputs.length,(tf.added (n+1+i)).isOk=false := by
    constructor
    · rintro ⟨_ | i,hi,ha⟩
      · exact .inl ha
      · exact .inr ⟨i,Nat.lt_of_succ_lt_succ hi,by rwa [Nat.add_right_comm]⟩
    · rintro (ha | ⟨i,hi,ha⟩)
      · exact ⟨0,Nat.zero_lt_succ _,ha⟩
      · exact ⟨i+1,Nat.succ_lt_succ hi,by rwa [Nat.add_right_comm] at ha⟩
  rw [Fails,Fails,hindex,exists_mem_cons_iff,or_assoc]
  exact or_congr_right or_left_comm

/-- The outcomes of writing outputs: all slices, an error, or a read outside of the values. -/
theorem writeOutputs_cases : (∃ new,outputs.foldlM (writeOutput tf) slices=.ok (slices++new) ∧
        ¬ Fails tf slices.length outputs ∧ (∀ k∈outputs,¬ k.Overread) ∧
        Forall₂ (fun d s => s.1=d.name ∧ d.Fits s.2) outputs new) ∨
      (∃ status,outputs.foldlM (writeOutput tf) slices=.error (.status status) ∧
        Fails tf slices.length outputs ∧ ∀ before k after,outputs=before++k::after → k.Overread →
          Fails tf slices.length before) ∨
      outputs.foldlM (writeOutput tf) slices=.error .outOfBounds ∧ ∃ before k after,
        outputs=before++k::after ∧ k.Overread ∧ ¬ Fails tf slices.length before := by
  induction outputs generalizing slices with
  | nil => exact .inl ⟨[],by simp [pure,Except.pure],by simp [Fails],nofun,.nil⟩
  | cons k outputs ih =>
    rw [foldlM_cons,writeOutput]
    cases ht : outputTensor k with
    | error stop =>
      refine .inr ?_
      cases stop with
      | outOfBounds =>
        exact .inr ⟨rfl,[],k,outputs,rfl,outputTensor_eq_outOfBounds.mp ht,by simp [Fails]⟩
      | status status =>
        have ho : ¬ k.Overread := fun h => by
          rw [outputTensor_eq_outOfBounds.mpr h] at ht
          cases ht
        have hf (t : Tensor) : ¬ k.Fits t := fun h => by
          rw [outputTensor_eq_ok.mpr ⟨h,ho⟩] at ht
          cases ht
        refine .inl ⟨status,rfl,fails_cons.mpr (.inl hf),fun before d after heq hd => ?_⟩
        cases before with
        | nil =>
          cases heq
          exact absurd hd ho
        | cons _ before =>
          cases heq
          exact fails_cons.mpr (.inl hf)
    | ok t =>
      obtain ⟨hf,ho⟩:=outputTensor_eq_ok.mp ht
      rw [ok_bind,writeSlice]
      split
      next ha =>
        rw [ok_bind]
        have hc {l : List Output} : Fails tf slices.length (k::l) ↔
            Fails tf (slices++[(k.name,t)]).length l := by
          rw [fails_cons,length_append,length_singleton,ha]
          simp only [Bool.true_eq_false,false_or,or_iff_right_iff_imp]
          exact fun h => absurd hf (h t)
        rcases @ih (slices++[(k.name,t)]) with ⟨new,heq,hn,ho',hall⟩ |
          ⟨status,heq,hfail,hb⟩ | ⟨heq,before,d,after,rfl,hd,hn⟩
        · rw [append_assoc] at heq
          exact .inl ⟨_,heq,mt hc.mp hn,forall_mem_cons.mpr ⟨ho,ho'⟩,.cons ⟨rfl,hf⟩ hall⟩
        · refine .inr (.inl ⟨status,heq,hc.mpr hfail,fun before d after hs hd => ?_⟩)
          cases before with
          | nil =>
            cases hs
            exact absurd hd ho
          | cons _ before =>
            cases hs
            exact hc.mpr (hb before d after rfl hd)
        · exact .inr (.inr ⟨heq,k::before,d,after,rfl,hd,mt hc.mp hn⟩)
      next ha =>
        rw [Bool.not_eq_true] at ha
        refine .inr (.inl ⟨_,rfl,fails_cons.mpr (.inr (.inl ha)),fun before d after heq hd => ?_⟩)
        cases before with
        | nil =>
          cases heq
          exact absurd hd ho
        | cons _ before =>
          cases heq
          exact fails_cons.mpr (.inr (.inl ha))

theorem filter_written {new : Checkpoint}
    (h : Forall₂ (fun d s => s.1=d.name ∧ d.Fits s.2) outputs new) (name : String) :
    Forall₂ (fun d s => s.1=d.name ∧ d.Fits s.2) (outputs.filter (·.name=name))
      (new.filter (·.1=name)) := by
  refine rel_filter ?_ h
  rintro d s ⟨hn,-⟩
  simp only [hn]

def queryOf (outputs : List (String × OutputVectorSpec)) (vectors : List (String × Values)) :
    ExampleQuery × ExampleQueryResult :=
  (outputs.foldr (fun e query => query.insert e.1 e.2) ∅,
    vectors.foldr (fun e result => result.insert e.1 e.2) ∅)

end Fcp.Client.Engine

import Fcp.Aggregation.OneDimGroupingAggregator

/-!
# What a grouping aggregator stores

The stored vector is the vector of the folds of everything that was accepted, and merging is the
same as accumulating the two histories one after the other.
-/

namespace Fcp.Aggregation

open List Grouping

variable {d : DataType}

def pairsOf (d : DataType) (ordinals tensor : TypedTensor) : List (ℕ × Element d) :=
  ((ordinalsOf ordinals).map BitVec.toNat).zip (tensor.elements d)

namespace OneDimGroupingAggregator

/-- The aggregators that calls have produced, with all pairs they have accepted; what is merged into
one has been built by the same subclass. -/
inductive Built (g : Grouping d) (m : VectorMemory d) :
    OneDimGroupingAggregator d → List (ℕ × Element d) → Prop where
  | create : Built g m .create []
  | accumulate {a a' : OneDimGroupingAggregator d} {pairs : List (ℕ × Element d)}
      {ordinals tensor : InputTensor} {status : Status} :
      Built g m a pairs →
      a.accumulate g m [ordinals.tensor,tensor.tensor]=.ok (status,a') → status.code=.ok →
      Built g m a' (pairs++pairsOf d ordinals.tensor tensor.tensor)
  | accumulate_refused {a a' : OneDimGroupingAggregator d} {pairs : List (ℕ × Element d)}
      {ordinals tensor : InputTensor} {status : Status} :
      Built g m a pairs →
      a.accumulate g m [ordinals.tensor,tensor.tensor]=.ok (status,a') → status.code≠.ok →
      Built g m a' pairs
  | merge {a a' b : OneDimGroupingAggregator d} {pairs pairs' : List (ℕ × Element d)}
      {status : Status} {rest : MergeArgument d} :
      Built g m a pairs → Built g m b pairs' →
      a.mergeWith g m (.grouping b)=.ok (status,a',rest) → status.code=.ok →
      Built g m a' (pairs++pairs')
  | merge_refused {a a' : OneDimGroupingAggregator d} {pairs : List (ℕ × Element d)}
      {other rest : MergeArgument d} {status : Status} :
      Built g m a pairs → a.mergeWith g m other=.ok (status,a',rest) → status.code≠.ok →
      Built g m a' pairs

def Holds (g : Grouping d) (m : VectorMemory d) (a : OneDimGroupingAggregator d)
    (pairs : List (ℕ × Element d)) : Prop :=
  ∃ v,a.dataVector=some v ∧ v.length ≤ m.maxSize ∧ g.Stores v pairs

/-- The condition under which a call to `Accumulate` returns: once the tensors have passed the
checks, no ordinal is negative or too large for a vector, and the number of inputs still fits
into an `int`. -/
def Fits (m : VectorMemory d) (a : OneDimGroupingAggregator d) (ordinals tensor : TypedTensor) :
    Prop :=
  (checkInputs d ordinals tensor).code=.ok →
    (∀ o∈ordinalsOf ordinals,0≤o.toInt ∧ o.toInt < m.maxSize) ∧ a.numInputs+1<2^31

structure AccumulateCorrect (g : Grouping d) (a : OneDimGroupingAggregator d)
    (pairs : List (ℕ × Element d)) (ordinals tensor : TypedTensor) (status : Status)
    (a' : OneDimGroupingAggregator d) : Prop where
  refused : status.code≠.ok → a'=a
  accepted : status.code=.ok → ∃ v w,a.dataVector=some v ∧ a'.dataVector=some w ∧
    w.length=max v.length (extent ((ordinalsOf ordinals).map BitVec.toNat)) ∧
    g.Stores w (pairs++pairsOf d ordinals tensor)

structure MergeCorrect (g : Grouping d) (m : VectorMemory d) (a : OneDimGroupingAggregator d)
    (pairs : List (ℕ × Element d)) (status : Status) (a' : OneDimGroupingAggregator d) :
    Prop where
  accepted : status.code=.ok
  stored : ∃ v w,a.dataVector=some v ∧ a'.dataVector=some w ∧ v.length≤w.length ∧ g.Stores w pairs
  same_vector : ∀ {c : OneDimGroupingAggregator d} {pairs' : List (ℕ × Element d)},
    Built g m c pairs' → pairs'.Perm pairs → c.dataVector=a'.dataVector

variable {g : Grouping d} {m : VectorMemory d} {a a' b : OneDimGroupingAggregator d}
  {pairs pairs' : List (ℕ × Element d)} {st : Status} {ords t : InputTensor}

theorem checkInputs_eq_ok {ords t : TypedTensor} :
    (checkInputs d ords t).code=.ok ↔ ords.dtype=.int64 ∧ t.dtype=d ∧
      ords.shape=t.shape ∧ numDimensions t≤1 := by
  unfold checkInputs
  split
  · simp_all
  · split
    · simp_all
    · split
      · simp_all
      · split
        · simp_all
        · simp_all [Status.okStatus]

theorem length_ordinalsOf (g : Grouping d) (h : (checkInputs d ords.tensor t.tensor).code=.ok) :
    (ordinalsOf ords.tensor).length=(t.tensor.elements d).length := by
  obtain ⟨ho,ht,hs,-⟩:=checkInputs_eq_ok.mp h
  have hv:=ht ▸ g.supported
  calc (ordinalsOf ords.tensor).length
      = ords.tensor.data.length := TypedTensor.length_elements ho
    _=t.tensor.data.length := InputTensor.length_data_eq ho hv hs
    _=(t.tensor.elements d).length := (TypedTensor.length_elements ht).symm

theorem map_fst_pairsOf (g : Grouping d) (h : (checkInputs d ords.tensor t.tensor).code=.ok) :
    (pairsOf d ords.tensor t.tensor).map Prod.fst=(ordinalsOf ords.tensor).map BitVec.toNat := by
  apply map_fst_zip
  rw [length_map,length_ordinalsOf g h]

variable {v : List (Element d)}

theorem accumulate_eq_refused {ords t : TypedTensor} (hv : a.dataVector=some v)
    (h : (checkInputs d ords t).code≠.ok) :
    a.accumulate g m [ords,t]=.ok (checkInputs d ords t,a) := by
  simp [accumulate,hv,aggregateTensors,h]

variable {r : Status × OneDimGroupingAggregator d} {o : BitVec 64} {rest other : MergeArgument d}

theorem accumulate_eq_ok {ords t : TypedTensor}
    (hv : a.dataVector=some v) (h : (checkInputs d ords t).code=.ok) :
    a.accumulate g m [ords,t]=.ok r ↔ a.numInputs+1<2^31 ∧
      ∃ size v' w,finalSize v.length (ordinalsOf ords)=.ok size ∧ g.resize m v size=.ok v' ∧
        g.aggregateVectorByOrdinals v' (ordinalsOf ords) (t.elements d)=.ok w ∧
        r=(.okStatus,⟨some w,a.numInputs+1⟩) := by
  obtain ⟨ho,ht,-,-⟩:=checkInputs_eq_ok.mp h
  simp only [accumulate,hv,aggregateTensors,h,ne_eq,not_true_eq_false,if_false,
    TypedTensor.asAggVector_elements ho,TypedTensor.asAggVector_elements ht,
    ok_bind,bind_eq_ok,intAdd_eq_ok,pure_eq_ok,ordinalsOf]
  constructor
  · intro ⟨n,⟨hn,hsum⟩,size,hs,v',hv',w,hw,hr⟩
    exact ⟨hn,size,v',w,hs,hv',hw,by rw [← hr,hsum]⟩
  · intro ⟨hn,size,v',w,hs,hv',hw,hr⟩
    exact ⟨_,⟨hn,rfl⟩,size,hs,v',hv',w,hw,hr.symm⟩

theorem toNat_lt_maxSize (g : Grouping d) (h : 0≤o.toInt ∧ o.toInt < m.maxSize) :
    o.toNat < m.maxSize := by
  have hs:=g.maxSize_lt_pow m
  rw [BitVec.toInt_eq_toNat_cond] at h
  split at h
  · omega
  · have hlt:=o.isLt
    omega

theorem toInt_lt_maxSize (g : Grouping d) (h : o.toNat < m.maxSize) :
    0≤o.toInt ∧ o.toInt < m.maxSize := by
  have hs:=g.maxSize_lt_pow m
  rw [BitVec.toInt_eq_toNat_of_lt (by omega)]
  omega

theorem Holds.accumulate (h : Holds g m a pairs)
    (hc : (checkInputs d ords.tensor t.tensor).code=.ok)
    (hf : Fits m a ords.tensor t.tensor) :
    ∃ a',a.accumulate g m [ords.tensor,t.tensor]=.ok (.okStatus,a') ∧
      Holds g m a' (pairs++pairsOf d ords.tensor t.tensor) ∧
      AccumulateCorrect g a pairs ords.tensor t.tensor .okStatus a' := by
  obtain ⟨v,hv,hm,hstores⟩:=h
  obtain ⟨hordinals,hi⟩:=hf hc
  have hlt : ∀ o∈ordinalsOf ords.tensor,o.toNat < m.maxSize :=
    fun o ho => toNat_lt_maxSize g (hordinals o ho)
  have hextent : extent ((ordinalsOf ords.tensor).map BitVec.toNat) ≤ m.maxSize := by
    apply extent_le
    intro k hk
    obtain ⟨o,ho,rfl⟩:=mem_map.mp hk
    exact hlt o ho
  have hs:=finalSize_eq v.length fun o ho =>
    Nat.lt_trans (hlt o ho) (g.maxSize_lt_pow m)
  generalize hn : max v.length (extent ((ordinalsOf ords.tensor).map BitVec.toNat))=n
    at hs
  have hg : v.length≤n := by omega
  obtain ⟨v',hv'⟩ : ∃ v',v'=v.take n++List.replicate (n-v.length) g.getDefaultValue := ⟨_,rfl⟩
  have hl' : v'.length=n := by
    rw [hv',length_append,length_replicate,length_take]
    omega
  have hin : ∀ o∈ordinalsOf ords.tensor,o.toNat<v'.length := by
    intro o ho
    have hextent':=lt_extent (mem_map_of_mem (f := BitVec.toNat) ho)
    omega
  have he' : ∀ k,v'.getD k g.getDefaultValue =
      keyedFold g.aggregateValue g.getDefaultValue pairs k := by
    intro k
    rw [hv',getD_grown hg,hstores.getD_eq]
  obtain ⟨w,hw⟩:=exists_aggregateVectorByOrdinals (length_ordinalsOf g hc) hin
  have hwlength:=(length_of_aggregateVectorByOrdinals hw).1
  have he:=getD_aggregateVectorByOrdinals (length_ordinalsOf g hc) he' hw
  have hw' : g.Stores w (pairs++pairsOf d ords.tensor t.tensor) := by
    refine ⟨?_,he⟩
    rw [map_append,extent_append,map_fst_pairsOf g hc,← hstores.length_eq]
    omega
  refine ⟨⟨some w,a.numInputs+1⟩,?_,⟨w,rfl,by omega,hw'⟩,?_⟩
  · rw [accumulate_eq_ok hv hc]
    exact ⟨hi,n,v',w,hs,resize_eq_ok.mpr ⟨by omega,hv'⟩,hw,rfl⟩
  · exact ⟨fun hne => absurd rfl hne,fun _ => ⟨v,w,hv,rfl,by omega,hw'⟩⟩

theorem fits_of_accumulate (h : Holds g m a pairs)
    (hr : a.accumulate g m [ords.tensor,t.tensor]=.ok r) :
    Fits m a ords.tensor t.tensor := by
  intro hc
  obtain ⟨v,hv,-,-⟩:=h
  obtain ⟨hi,size,v',w,-,hv',hw,-⟩:=(accumulate_eq_ok hv hc).mp hr
  obtain ⟨hs,rfl⟩:=resize_eq_ok.mp hv'
  refine ⟨fun o ho => toInt_lt_maxSize g ?_,hi⟩
  have hlt:=(length_of_aggregateVectorByOrdinals hw).2 o ho
  rw [length_append,length_replicate,length_take] at hlt
  omega

theorem takeOutputs_eq (g : Grouping d) (hm : v.length ≤ m.maxSize) :
    b.takeOutputs v=.ok (if v=[] then [] else [⟨d,[v.length],v⟩],
      { b with dataVector := none }) := by
  unfold takeOutputs
  split
  · rfl
  next hne =>
    have hs:=Nat.lt_of_le_of_lt (Nat.mul_le_mul_right _ hm) m.maxSize_lt
    rw [TypedTensor.create_vector g.supported hne hs]

theorem exists_mergeOutputs {w : List (Element d)} (hv : g.Stores v pairs)
    (hw : g.Stores w pairs') (hm : w.length ≤ m.maxSize) :
    ∃ u,mergeOutputs g m v (if w=[] then [] else [⟨d,[w.length],w⟩])=.ok u ∧
      u.length=max v.length w.length ∧ g.Stores u (pairs++pairs') := by
  by_cases he : w=[]
  · subst he
    refine ⟨v,rfl,by simp,?_,?_⟩
    · rw [map_append,extent_append,← hv.length_eq,← hw.length_eq]
      simp
    · intro k
      rw [keyedFold_append g.assoc g.default_left g.default_right,← hw.getD_eq,hv.getD_eq]
      exact (g.default_right _).symm
  · obtain ⟨v',hv'⟩ : ∃ v',v'=v.take (max v.length w.length) ++
        List.replicate (max v.length w.length-v.length) g.getDefaultValue := ⟨_,rfl⟩
    have hr : (if w.length>v.length then g.resize m v w.length else .ok v)=.ok v' := by
      split
      next hlt => exact resize_eq_ok.mpr ⟨hm,by rw [hv',Nat.max_eq_right (by omega)]⟩
      next hle =>
        rw [hv',Nat.max_eq_left (by omega)]
        simp
    have hl' : v'.length=max v.length w.length := by
      rw [hv',length_append,length_replicate,length_take]
      omega
    have hf : w.length≤v'.length := by omega
    obtain ⟨u,hu,hulength,hentries⟩:=g.exists_aggregateVector hf
    refine ⟨u,?_,hulength.trans hl',?_,?_⟩
    · rw [if_neg he]
      simp only [mergeOutputs,TypedTensor.asAggVector_mk,ok_bind]
      split at hr
      next hlt =>
        rw [if_pos hlt,hr]
        exact hu
      next hle =>
        rw [if_neg hle,Except.ok.inj hr]
        exact hu
    · rw [map_append,extent_append,← hv.length_eq,← hw.length_eq,hulength,hl']
    · intro k
      rw [hentries,hv',getD_grown (by omega),hv.getD_eq,hw.getD_eq,
        keyedFold_append g.assoc g.default_left g.default_right]

theorem exists_mergeWith (ha : Holds g m a pairs) (hb : Holds g m b pairs') :
    ∃ v w,a.dataVector=some v ∧ v.length≤w.length ∧ w.length ≤ m.maxSize ∧
      g.Stores w (pairs++pairs') ∧
      a.mergeWith g m (.grouping b)=(do
        let numInputs ← intAdd a.numInputs b.numInputs
        return (.okStatus,⟨some w,numInputs⟩,.grouping { b with dataVector := none })) := by
  obtain ⟨v,hv,hvmax,hvstores⟩:=ha
  obtain ⟨w,hw,hwmax,hwstores⟩:=hb
  obtain ⟨u,hu,hulength,hustores⟩:=exists_mergeOutputs hvstores hwstores hwmax
  refine ⟨v,u,hv,by omega,by omega,hustores,?_⟩
  simp only [mergeWith,hv,hw,takeOutputs_eq g hwmax,ok_bind,hu]

theorem Holds.mergeWith (ha : Holds g m a pairs) (hb : Holds g m b pairs')
    (h : a.mergeWith g m (.grouping b)=.ok (st,a',rest)) :
    Holds g m a' (pairs++pairs') := by
  obtain ⟨v,w,-,-,hm,hs,heq⟩:=exists_mergeWith ha hb
  rw [heq] at h
  obtain ⟨n,-,hr⟩:=bind_eq_ok.mp h
  cases pure_eq_ok.mp hr
  exact ⟨w,rfl,hm,hs⟩

theorem eq_of_merge_refused (h : a.mergeWith g m other=.ok (st,a',rest)) (hs : st.code≠.ok) :
    a'=a := by
  unfold OneDimGroupingAggregator.mergeWith at h
  split at h
  · cases h
    rfl
  · cases h
    rfl
  · split at h
    · cases h
      rfl
    · obtain ⟨⟨outputs,left⟩,-,h⟩:=bind_eq_ok.mp h
      obtain ⟨v,-,h⟩:=bind_eq_ok.mp h
      obtain ⟨n,-,h⟩:=bind_eq_ok.mp h
      cases pure_eq_ok.mp h
      exact absurd rfl hs

theorem eq_of_accumulate_refused (ha : Holds g m a pairs)
    (h : a.accumulate g m [ords.tensor,t.tensor]=.ok (st,a'))
    (hs : st.code≠.ok) : a'=a := by
  obtain ⟨v,hv,-,-⟩:=ha
  by_cases hc : (checkInputs d ords.tensor t.tensor).code=.ok
  · obtain ⟨-,-,-,w,-,-,-,hr⟩:=(accumulate_eq_ok hv hc).mp h
    cases hr
    exact absurd rfl hs
  · rw [accumulate_eq_refused hv hc] at h
    cases h
    rfl

theorem Built.holds (h : Built g m a pairs) : Holds g m a pairs := by
  induction h with
  | create => exact ⟨[],rfl,Nat.zero_le _,.nil⟩
  | @accumulate a a' pairs ords t st _ hr hs ih =>
    have hc : (checkInputs d ords.tensor t.tensor).code=.ok := by
      by_contra hne
      obtain ⟨v,hv,-,-⟩:=ih
      rw [accumulate_eq_refused hv hne] at hr
      cases hr
      exact hne hs
    obtain ⟨a'',hr'',hh,-⟩:=ih.accumulate hc (fits_of_accumulate ih hr)
    rw [hr] at hr''
    cases hr''
    exact hh
  | accumulate_refused _ hr hs ih => exact eq_of_accumulate_refused ih hr hs ▸ ih
  | merge _ _ hr _ iha ihb => exact iha.mergeWith ihb hr
  | merge_refused _ hr hs ih => exact eq_of_merge_refused hr hs ▸ ih

theorem accumulate_iff (h : Holds g m a pairs) :
    (∃ st a',a.accumulate g m [ords.tensor,t.tensor]=.ok (st,a') ∧
      AccumulateCorrect g a pairs ords.tensor t.tensor st a') ↔
    Fits m a ords.tensor t.tensor := by
  constructor
  · intro ⟨st,a',hr,_⟩
    exact fits_of_accumulate h hr
  · intro hf
    by_cases hc : (checkInputs d ords.tensor t.tensor).code=.ok
    · obtain ⟨a',hr,-,hcorrect⟩:=h.accumulate hc hf
      exact ⟨.okStatus,a',hr,hcorrect⟩
    · obtain ⟨v,hv,-,-⟩:=h
      exact ⟨_,a,accumulate_eq_refused hv hc,fun _ => rfl,fun hok => absurd hok hc⟩

theorem mergeWith_iff (ha : Built g m a pairs) (hb : Built g m b pairs') :
    (∃ st a' rest,a.mergeWith g m (.grouping b)=.ok (st,a',rest) ∧
      MergeCorrect g m a (pairs++pairs') st a') ↔ a.numInputs+b.numInputs<2^31 := by
  obtain ⟨v,w,hv,hl,-,hs,heq⟩:=exists_mergeWith ha.holds hb.holds
  constructor
  · intro ⟨st,a',rest,hr,_⟩
    rw [heq] at hr
    obtain ⟨n,hn,-⟩:=bind_eq_ok.mp hr
    exact (intAdd_eq_ok.mp hn).1
  · intro hlt
    refine ⟨.okStatus,⟨some w,a.numInputs+b.numInputs⟩,
      .grouping { b with dataVector := none },?_,rfl,
      ⟨v,w,hv,rfl,hl,hs⟩,?_⟩
    · rw [heq,intAdd_eq_ok.mpr ⟨hlt,rfl⟩]
      rfl
    · intro c pairs'' hc hp
      obtain ⟨u,hu,-,hustores⟩:=hc.holds
      rw [hu,hustores.eq_of_perm g.assoc g.comm hs hp]

theorem mergeWith_refused (ha : Holds g m a pairs)
    (ho : ∀ b,other=.grouping b → b.dataVector=none) :
    ∃ st,st.code≠.ok ∧ a.mergeWith g m other=.ok (st,a,other) := by
  obtain ⟨v,hv,-,-⟩:=ha
  cases other with
  | different => exact ⟨differentStatus d,by simp [differentStatus],by simp only [mergeWith,hv]⟩
  | grouping b => exact ⟨consumedStatus,by decide,by simp only [mergeWith,hv,ho b rfl]⟩

/-- For every aggregator that a sequence of calls has produced: the stored vector holds the folds
of what was accepted; `Accumulate` returns, with an error and nothing changed or with the folds
extended, exactly when no ordinal of an accepted call is negative or too large; `MergeWith` gives
the folds of both histories exactly when the numbers of inputs can be added. -/
theorem grouping_correct_iff (h : Built g m a pairs) :
    (∃ v,a.dataVector=some v ∧ g.Stores v pairs) ∧
    (∀ ords t : InputTensor,(∃ st a',a.accumulate g m [ords.tensor,t.tensor]=.ok (st,a') ∧
        AccumulateCorrect g a pairs ords.tensor t.tensor st a') ↔
      Fits m a ords.tensor t.tensor) ∧
    (∀ b pairs',Built g m b pairs' → ((∃ st a' rest,
        a.mergeWith g m (.grouping b)=.ok (st,a',rest) ∧ MergeCorrect g m a (pairs++pairs') st a') ↔
      a.numInputs+b.numInputs<2^31)) ∧
    ∀ other : MergeArgument d,(∀ b,other=.grouping b → b.dataVector=none) →
      ∃ st,st.code≠.ok ∧ a.mergeWith g m other=.ok (st,a,other) := by
  refine ⟨?_,fun _ _ => accumulate_iff h.holds,fun _ _ hb => mergeWith_iff h hb,
    fun _ ho => mergeWith_refused h.holds ho⟩
  obtain ⟨v,hv,-,hs⟩:=h.holds
  exact ⟨v,hv,hs⟩

def sumGrouping : Grouping .int32 where
  aggregateValue := fun (a b : BitVec 32) => a+b
  getDefaultValue := (0 : BitVec 32)
  assoc := BitVec.add_assoc
  comm := BitVec.add_comm
  default_left := BitVec.zero_add

def smallMemory : VectorMemory .int32 := ⟨1024,by decide⟩

def oneOrdinal (o : BitVec 64) : InputTensor where
  tensor := ⟨.int64,[1],[o]⟩
  valid := .inr ⟨rfl,show 1*8<2^63 by decide⟩

def oneValue (x : BitVec 32) : InputTensor where
  tensor := ⟨.int32,[1],[x]⟩
  valid := .inr ⟨rfl,show 1*4<2^63 by decide⟩

theorem built_one_group :
    Built sumGrouping smallMemory ⟨some [(7 : BitVec 32)],1⟩ [(0,(7 : BitVec 32))] :=
  have ha : accumulate sumGrouping smallMemory .create
      [(oneOrdinal 0).tensor,(oneValue 7).tensor]=.ok (.okStatus,⟨some [(7 : BitVec 32)],1⟩) := rfl
  .accumulate .create ha rfl

theorem grouping_correct_one_group : ∃ st a',
    accumulate sumGrouping smallMemory ⟨some [(7 : BitVec 32)],1⟩
      [(oneOrdinal 2).tensor,(oneValue 5).tensor]=.ok (st,a') ∧
      AccumulateCorrect sumGrouping ⟨some [(7 : BitVec 32)],1⟩ [(0,(7 : BitVec 32))]
        (oneOrdinal 2).tensor (oneValue 5).tensor st a' :=
  have hordinals : ∀ o∈ordinalsOf (oneOrdinal 2).tensor,
      0≤o.toInt ∧ o.toInt<smallMemory.maxSize := by
    intro o ho
    have ht : o=2 := mem_singleton.mp ho
    subst ht
    exact ⟨by decide,by decide⟩
  ((grouping_correct_iff built_one_group).2.1 (oneOrdinal 2) (oneValue 5)).mpr
    fun _ => ⟨hordinals,show 1+1<2^31 by decide⟩

/-- The ordinal -1 is at least the size 1 as a `size_t`, and one more than it is 0: the stored
vector is cut down to nothing, and the value goes to an entry outside of it. -/
theorem negative_ordinal_out_of_range :
    Built sumGrouping smallMemory ⟨some [(7 : BitVec 32)],1⟩ [(0,(7 : BitVec 32))] ∧
    finalSize 1 [-1]=.ok 0 ∧
    accumulate sumGrouping smallMemory ⟨some [(7 : BitVec 32)],1⟩
      [(oneOrdinal (-1)).tensor,(oneValue 5).tensor]=.error .outOfRange :=
  ⟨built_one_group,rfl,rfl⟩

end OneDimGroupingAggregator

end Fcp.Aggregation

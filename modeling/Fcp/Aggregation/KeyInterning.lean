import Fcp.Aggregation.KeyEncoding
import Fcp.Lib.KeyedFold

/-!
# The combiner numbers tuples

The ordinal of a position is the place of its tuple in the order of first appearance. The one way
out is a call with more positions than an `int` counts.
-/

namespace Fcp.Aggregation

open List

namespace CompositeKeyCombiner

variable {A : Allocator} {c c' : CompositeKeyCombiner} {keys : List (List Cell)}
  {row : List Cell} {key : Bytes} {dtypes : List DataType}

structure Represents (c : CompositeKeyCombiner) (dtypes : List DataType)
    (keys : List (List Cell)) : Prop where
  dtypes_eq : c.dtypes=dtypes
  pool : PoolOk c.internPool
  keyed : List.Forall₂ (fun node row => keyOf c.internPool row=some node.key)
    c.compositeKeys keys
  ordinals : c.compositeKeys.map KeyNode.ordinal=List.range keys.length
  views : c.keyVec=c.compositeKeys.map KeyNode.address
  nodup : c.keyVec.Nodup
  next : c.compositeKeyNext=keys.length
  typed : ∀ row∈keys,row.map Sigma.fst=dtypes
  bound : keys.length<2^59

section

variable (h : Represents c dtypes keys)
include h

theorem Represents.grown (hg : PoolGrown c c') : Represents c' dtypes keys := by
  have hk:=h.keyed.imp fun _ _ hkey => hg.keyOf_eq hkey
  have hp:=hg.pool
  obtain ⟨new,rfl⟩:=hg.grown
  exact ⟨h.dtypes_eq,hp,hk,h.ordinals,h.views,h.nodup,h.next,h.typed,h.bound⟩

theorem Represents.getElem?_ordinal {node : KeyNode}
    (hn : node∈c.compositeKeys) (hk : keyOf c.internPool row=some node.key)
    (ht : row.map Sigma.fst=dtypes) : keys[node.ordinal]?=some row := by
  obtain ⟨i,hi⟩:=getElem?_of_mem hn
  obtain ⟨row',hr',hk'⟩:=forall₂_getElem_left h.keyed hi
  have ho : (List.range keys.length)[i]?=some node.ordinal := by
    rw [← h.ordinals,getElem?_map,hi]
    rfl
  obtain ⟨hlt,hi'⟩:=List.getElem?_eq_some_iff.mp ho
  have htype:=ht.trans (h.typed row' (mem_of_getElem? hr')).symm
  rw [← hi',getElem_range,hr',keyOf_injective h.pool htype hk hk']

theorem Represents.exists_node (hr : row∈keys)
    (hk : keyOf c.internPool row=some key) : ∃ node∈c.compositeKeys,node.key=key := by
  obtain ⟨i,hi⟩:=getElem?_of_mem hr
  obtain ⟨node,hn,hk'⟩:=forall₂_getElem_right h.keyed hi
  exact ⟨node,mem_of_getElem? hn,Option.some.inj (hk'.symm.trans hk)⟩

theorem Represents.insertKey
    (hk : keyOf c.internPool row=some key) (ht : row.map Sigma.fst=dtypes) {o : ℕ}
    (hr : c.insertKey A key=.ok (o,c')) :
    Represents c' dtypes (insertNew keys row) ∧ (insertNew keys row)[o]?=some row := by
  unfold CompositeKeyCombiner.insertKey at hr
  split at hr
  next node hfin =>
    cases hr
    have hn : node.key=key := by simpa using find?_some hfin
    have hplace:=h.getElem?_ordinal (mem_of_find?_eq_some hfin) (hn ▸ hk) ht
    rw [insertNew_of_mem (mem_of_getElem? hplace)]
    exact ⟨h,hplace⟩
  next hfin =>
    have hnew : row∉keys := by
      intro hrow
      obtain ⟨node,hn,heq⟩:=h.exists_node hrow hk
      exact find?_eq_none.mp hfin node hn (by simp [heq])
    split at hr
    · cases hr
    next p hp =>
      obtain ⟨next,hnext,hr⟩:=bind_eq_ok.mp hr
      cases pure_eq_ok.mp hr
      have hlen:=h.keyed.length_eq
      have hf : p∉c.keyVec := fun hm =>
        A.fresh hp (mem_append_right _ (h.views ▸ hm))
      have hbound : keys.length+1<2^59 := by
        have hl:=A.bound hp
        rw [live,length_append,length_map,length_map] at hl
        omega
      rw [insertNew_of_notMem hnew,h.next]
      refine ⟨⟨h.dtypes_eq,h.pool,?_,?_,?_,?_,?_,?_,?_⟩,?_⟩
      · exact rel_append h.keyed (.cons hk .nil)
      · rw [map_append,h.ordinals,length_append,length_singleton,range_succ]
        rfl
      · rw [map_append,h.views]
        rfl
      · refine nodup_append.mpr ⟨h.nodup,by simp,?_⟩
        intro a ha b hb hab
        have hb' : b=p := by simpa using hb
        exact hf (hb' ▸ hab ▸ ha)
      · obtain ⟨-,rfl⟩:=ite_eq_ok.mp hnext
        rw [length_append,length_singleton,h.next]
      · intro row' hrow'
        rcases mem_append.mp hrow' with ho | hrow
        · exact h.typed row' ho
        · rw [mem_singleton.mp hrow]
          exact ht
      · rwa [length_append,length_singleton]
      · simp

theorem Represents.succeeds_insertKey : Succeeds (c.insertKey A key) := by
  unfold CompositeKeyCombiner.insertKey
  split
  · exact succeeds_ok _
  · split
    · intro fault hf
      cases hf
      rfl
    · have hb:=h.bound
      have hn:=h.next
      rw [int64Add,if_pos (by omega)]
      exact succeeds_ok _

end

def rowsFrom (tensors : List TypedTensor) (i n : ℕ) : List (List Cell) :=
  (List.range' i n).filterMap fun i => rowOf i tensors

variable {ts : List TypedTensor} {i : ℕ}

theorem rowsFrom_succ (h : rowOf i ts=some row) (n : ℕ) :
    rowsFrom ts i (n+1)=row::rowsFrom ts (i+1) n := by
  rw [rowsFrom,range'_succ,filterMap_cons,h]
  rfl

theorem map_fst_rowOf (h : rowOf i ts=some row) : row.map Sigma.fst=ts.map TypedTensor.dtype := by
  induction ts generalizing row with
  | nil =>
    cases h
    rfl
  | cons t ts ih =>
    simp only [rowOf,Option.bind_eq_bind,Option.bind_eq_some_iff,Option.pure_def,
      Option.some.injEq] at h
    obtain ⟨x,-,row',hr',rfl⟩:=h
    rw [map_cons,map_cons,ih hr']

variable {n : ℕ} {hist : List (List Cell)}

theorem Represents.accumulateLoop {ords : List ℕ} (h : Represents c dtypes (firstAppearances hist))
    (ht : ts.map TypedTensor.dtype=dtypes)
    (hr : accumulateLoop A ts n i c=.ok (ords,c')) :
    Represents c' dtypes (firstAppearances (hist++rowsFrom ts i n)) ∧ List.Forall₂ (fun row o =>
        (firstAppearances (hist++rowsFrom ts i n))[o]?=some row)
        (rowsFrom ts i n) ords ∧
      ords.length=n ∧ (0<n → i+n<2^31) := by
  induction n generalizing i c hist ords with
  | zero =>
    cases hr
    simpa [rowsFrom] using h
  | succ n ih =>
    obtain ⟨⟨key,c₁⟩,hc,hr⟩:=bind_eq_ok.mp hr
    obtain ⟨⟨o,c₂⟩,hi,hr⟩:=bind_eq_ok.mp hr
    obtain ⟨i',hi',hr⟩:=bind_eq_ok.mp hr
    obtain ⟨⟨rest,c₃⟩,hrest,hr⟩:=bind_eq_ok.mp hr
    cases pure_eq_ok.mp hr
    obtain ⟨hlt,rfl⟩:=intAdd_eq_ok.mp hi'
    obtain ⟨row,hrow,hg,hk⟩:=poolGrown_copyRow h.pool hc
    have hrowtyped : row.map Sigma.fst=dtypes := (map_fst_rowOf hrow).trans ht
    obtain ⟨hs,hp⟩:=(h.grown hg).insertKey hk hrowtyped hi
    rw [← firstAppearances_concat] at hs hp
    obtain ⟨hrep,hplace,hl,hb⟩:=ih hs hrest
    have ha : hist++[row]++rowsFrom ts (i+1) n=hist++rowsFrom ts i (n+1) := by
      rw [rowsFrom_succ hrow,append_assoc]
      rfl
    rw [ha] at hrep hplace
    refine ⟨hrep,?_,by rw [length_cons,hl],fun _ => by omega⟩
    rw [rowsFrom_succ hrow]
    refine .cons ?_ (by rwa [rowsFrom_succ hrow] at hplace)
    have hstay:=getElem?_firstAppearances_append hp (rowsFrom ts (i+1) n)
    rwa [ha,rowsFrom_succ hrow] at hstay

theorem Represents.succeeds_accumulateLoop (h : Represents c dtypes (firstAppearances hist))
    (htyped : ts.map TypedTensor.dtype=dtypes) (hl : ts.length<2^31)
    (hd : ∀ t∈ts,i+n≤t.data.length) (hn : i+n<2^31) :
    Succeeds (CompositeKeyCombiner.accumulateLoop A ts n i c) := by
  induction n generalizing i c hist with
  | zero => exact succeeds_ok _
  | succ n ih =>
    have hrow:=succeeds_copyRow (A := A) (c := c) (j := 0)
      (fun t ht => show i<t.data.length by have hle:=hd t ht; omega) (by omega)
    refine succeeds_bind hrow fun ⟨key,c₁⟩ hc => ?_
    obtain ⟨row,hr,hg,hk⟩:=poolGrown_copyRow h.pool hc
    refine succeeds_bind (h.grown hg).succeeds_insertKey fun ⟨o,c₂⟩ hi => ?_
    refine succeeds_bind (succeeds_intAdd (by omega)) fun i' hi' => ?_
    obtain ⟨-,rfl⟩:=intAdd_eq_ok.mp hi'
    obtain ⟨hs,-⟩:=(h.grown hg).insertKey hk ((map_fst_rowOf hr).trans htyped) hi
    rw [← firstAppearances_concat] at hs
    refine succeeds_bind (ih hs (fun t ht => ?_) (by omega)) fun _ _ => succeeds_ok _
    have hle:=hd t ht
    omega

end CompositeKeyCombiner

end Fcp.Aggregation

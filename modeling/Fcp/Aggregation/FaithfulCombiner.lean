import Fcp.Aggregation.KeyInterning

/-!
# The combiner is a faithful interner

The calls to `Accumulate` and what `GetOutputKeys` returns after them.
-/

namespace Fcp.Aggregation

open List InputTensor TypedTensor

namespace CompositeKeyCombiner

variable {A : Allocator} {c c' : CompositeKeyCombiner} {keys rows : List (List Cell)}
  {dtypes : List DataType} {ts : List TypedTensor}

theorem checkTensors_eq_ok {shape : Option (List ℕ)} {i : ℕ} {pairs : List (DataType × TypedTensor)}
    {s : List ℕ} (h : checkTensors shape i pairs=.ok (.ok (some s))) :
    (∀ p∈pairs,p.2.shape=s ∧ p.1=p.2.dtype) ∧ (shape=none ∨ shape=some s) := by
  induction pairs generalizing shape i with
  | nil =>
    have hs : shape=some s := by simpa [checkTensors] using h
    exact ⟨by simp,.inr hs⟩
  | cons p pairs ih =>
    obtain ⟨expected,t⟩:=p
    rw [checkTensors] at h
    split at h
    · cases h
    next hs =>
      split at h
      · cases h
      next hd =>
        obtain ⟨i',-,h⟩:=bind_eq_ok.mp h
        obtain ⟨hr,hsome⟩:=ih h
        have hts : t.shape=s := by simpa using hsome
        refine ⟨?_,?_⟩
        · intro p hp
          rcases mem_cons.mp hp with rfl | hm
          · exact ⟨hts,not_not.mp hd⟩
          · exact hr p hm
        · cases shape with
          | none => exact .inl rfl
          | some s' =>
            have hs' : s'=t.shape := not_not.mp hs
            exact .inr (by rw [hs',hts])

theorem exists_checkTensors (shape : Option (List ℕ)) (i : ℕ)
    (pairs : List (DataType × TypedTensor)) (hl : i+pairs.length<2^31)
    (hsome : pairs=[] → shape≠none) :
    (∃ st,checkTensors shape i pairs=.ok (.error st)) ∨
      ∃ s,checkTensors shape i pairs=.ok (.ok (some s)) := by
  induction pairs generalizing shape i with
  | nil =>
    obtain ⟨s,hs⟩:=Option.ne_none_iff_exists'.mp (hsome rfl)
    exact .inr ⟨s,by rw [hs]; rfl⟩
  | cons p pairs ih =>
    obtain ⟨expected,t⟩:=p
    rw [length_cons] at hl
    rw [checkTensors]
    split
    · exact .inl ⟨_,rfl⟩
    · split
      · exact .inl ⟨_,rfl⟩
      · rw [intAdd_eq_ok.mpr ⟨by omega,rfl⟩]
        exact ih _ _ (by omega) (by simp)

variable {shape : List ℕ}

theorem checkValidAndGetShape_eq_ok (h : c.checkValidAndGetShape ts=.ok (.ok shape)) :
    ts≠[] ∧ ts.map dtype=c.dtypes ∧ ∀ t∈ts,t.shape=shape := by
  unfold checkValidAndGetShape at h
  split at h
  · cases h
  next hne =>
    split at h
    · cases h
    next hl =>
      have hl:=not_not.mp hl
      obtain ⟨r,hr,h⟩:=bind_eq_ok.mp h
      split at h
      · cases h
      · cases h
      · cases pure_eq_ok.mp h
        obtain ⟨ha,-⟩:=checkTensors_eq_ok hr
        refine ⟨fun hn => hne (by rw [hn]; rfl),?_,?_⟩
        · apply ext_getElem (by rw [length_map,hl])
          intro i hi hi'
          rw [length_map] at hi
          have hm : (c.dtypes[i],ts[i])∈c.dtypes.zip ts := by
            have hz : i<(c.dtypes.zip ts).length := by
              rw [length_zip]
              omega
            have hg:=getElem_mem hz
            rwa [getElem_zip] at hg
          rw [getElem_map]
          exact (ha _ hm).2.symm
        · intro t ht
          obtain ⟨i,hi,rfl⟩:=getElem_of_mem ht
          have hz : i<(c.dtypes.zip ts).length := by
            rw [length_zip]
            omega
          have hg:=getElem_mem hz
          rw [getElem_zip] at hg
          exact (ha _ hg).1

variable (ts) in
theorem exists_checkValidAndGetShape (hd : c.dtypes.length<2^31) :
    ∃ r,c.checkValidAndGetShape ts=.ok r := by
  unfold checkValidAndGetShape
  split
  · exact ⟨_,rfl⟩
  next hne =>
    split
    · exact ⟨_,rfl⟩
    next hl =>
      have hl:=not_not.mp hl
      have hz : (c.dtypes.zip ts).length=ts.length := by
        rw [length_zip]
        omega
      rcases exists_checkTensors none 0 (c.dtypes.zip ts)
          (by omega) (fun hn => absurd (hz ▸ congrArg List.length hn) hne) with
        ⟨st,hr⟩ | ⟨s,hr⟩
      · exact ⟨_,by rw [hr]; rfl⟩
      · exact ⟨_,by rw [hr]; rfl⟩

variable {keyIters : List Bytes} {ords : List ℕ} {r : StatusOr TypedTensor}

theorem readColumn {d : DataType} (hp : PoolOk c.internPool)
    (hk : List.Forall₂ (fun key row => keyOf c.internPool row=some key) keyIters rows)
    (ht : ∀ row∈rows,row.map Sigma.fst=d::dtypes) :
    ∃ data tails,keyIters.mapM (c.readElement d)=.ok data ∧
      List.Forall₂ (fun key row => keyOf c.internPool row=some key)
        (keyIters.map (List.drop 8)) tails ∧
      (∀ row∈tails,row.map Sigma.fst=dtypes) ∧ data.length=rows.length ∧
      rows=List.zipWith (fun x tail => ⟨d,x⟩::tail) data tails := by
  induction hk with
  | nil => exact ⟨[],[],rfl,.nil,by simp,rfl,rfl⟩
  | @cons key row keyIters rows hkey _ ih =>
    obtain ⟨data,tails,hr,hf,htails,hl,hz⟩:=ih fun row hrow => ht row (by simp [hrow])
    obtain ⟨⟨d',x⟩,tail,rfl⟩ : ∃ cell tail,row=cell::tail := by
      cases row with
      | nil => exact absurd (ht [] (by simp)) (by simp)
      | cons cell tail => exact ⟨cell,tail,rfl⟩
    obtain ⟨hd,htail⟩:=List.cons.inj (ht (⟨d',x⟩::tail) (by simp))
    obtain rfl : d'=d := hd
    obtain ⟨slot,rest,hs,hrest,rfl⟩:=keyOf_cons_eq_some.mp hkey
    refine ⟨x::data,tail::tails,?_,?_,?_,by simp [hl],by simp [hz]⟩
    · rw [mapM_cons,readElement_eq hp hs rest,hr]
      rfl
    · rw [map_cons]
      refine .cons ?_ hf
      rwa [← length_slotOf hs,drop_left]
    · intro row hrow
      rcases mem_cons.mp hrow with rfl | hm
      · exact htail
      · exact htails row hm

theorem exists_outputTensors (hp : PoolOk c.internPool)
    (hk : List.Forall₂ (fun key row => keyOf c.internPool row=some key) keyIters rows)
    (htyped : ∀ row∈rows,row.map Sigma.fst=dtypes)
    (hdtypes : ∀ d∈dtypes,d≠.invalid) (hne : rows≠[]) (hb : rows.length<2^59) :
    ∃ outs,c.outputTensors dtypes keyIters=.ok (.ok outs) ∧
      outs.map dtype=dtypes ∧ (∀ t∈outs,t.data.length=rows.length) ∧
      ∀ i row,rows[i]?=some row → rowOf i outs=some row := by
  induction dtypes generalizing keyIters rows with
  | nil =>
    refine ⟨[],rfl,rfl,by simp,fun i row hrow => ?_⟩
    have hn:=map_eq_nil_iff.mp (htyped row (mem_of_getElem? hrow))
    rw [hn]
    rfl
  | cons d dtypes ih =>
    obtain ⟨data,tails,hr,hf,htails,hl,hzip⟩:=readColumn hp hk htyped
    have hi:=hk.length_eq.trans hl.symm
    have hsame : tails.length=rows.length := by rw [← hf.length_eq,length_map,hk.length_eq]
    have hpos : rows.length≠0 := fun hz => hne (length_eq_zero_iff.mp hz)
    have hd : d≠.invalid := hdtypes d (by simp)
    have hdata : data≠[] := fun hn => hpos (by rw [← hl,hn]; rfl)
    have hs : data.length*d.valueSize<2^63 := by
      have hv : d.valueSize≤16 := by cases d <;> simp [DataType.valueSize]
      calc data.length*d.valueSize≤data.length*16 := Nat.mul_le_mul_left _ hv
        _<2^63 := by omega
    obtain ⟨outs,ho,hm,hlength,hrows⟩:=ih hf htails (fun d' hd' => hdtypes d' (by simp [hd']))
      (fun hn => hpos (by rw [← hsame,hn]; rfl)) (by omega)
    refine ⟨⟨d,[data.length],data⟩::outs,?_,by rw [map_cons,hm],?_,?_⟩
    · simp only [outputTensors,hr,ok_bind,hi,create_vector hd hdata hs,ho]
      rfl
    · intro t ht
      rcases mem_cons.mp ht with rfl | hmem
      · exact hl
      · rw [hlength t hmem,hsame]
    · intro i row hrow
      rw [hzip,getElem?_zipWith] at hrow
      cases hx : data[i]? with
      | none => simp [hx] at hrow
      | some x =>
        cases htail : tails[i]? with
        | none => simp [hx,htail] at hrow
        | some tail =>
          have heq : ⟨d,x⟩::tail=row := by simpa [hx,htail] using hrow
          simp [rowOf,hx,hrows i tail htail,heq]

/-- `GetOutputKeys` returns one tensor for each data type, and the elements at index `i` are the
tuple at place `i`. Without a tuple it returns no tensors. -/
structure OutputsKeys (c : CompositeKeyCombiner) (dtypes : List DataType)
    (keys : List (List Cell)) (outs : List TypedTensor) : Prop where
  returned : c.getOutputKeys=.ok (.ok outs)
  empty : keys=[] → outs=[]
  dtypes_eq : keys≠[] → outs.map dtype=dtypes
  length_eq : ∀ t∈outs,t.data.length=keys.length
  rows : keys≠[] → ∀ i row,keys[i]?=some row → rowOf i outs=some row

theorem Represents.mapM_keyAt (h : Represents c dtypes keys) :
    c.keyVec.mapM c.keyAt=.ok (c.compositeKeys.map KeyNode.key) := by
  rw [mapM_eq_ok,h.views,forall₂_map_left_iff,forall₂_map_right_iff,forall₂_same]
  intro node hnode
  have hn:=h.views ▸ h.nodup
  rw [keyAt,find?_of_nodup_map hn hnode]

theorem Represents.exists_outputs (h : Represents c dtypes keys)
    (hd : ∀ d∈dtypes,d≠.invalid) : ∃ outs,OutputsKeys c dtypes keys outs := by
  have hl : c.keyVec.length=keys.length := by rw [h.views,length_map,h.keyed.length_eq]
  by_cases he : keys=[]
  · have hv : c.keyVec=[] := length_eq_zero_iff.mp (by rw [hl,he]; rfl)
    exact ⟨[],by simp [getOutputKeys,hv],fun _ => rfl,fun hne => absurd he hne,
      by simp,fun hne => absurd he hne⟩
  · have hv : c.keyVec≠[] := by
      intro hn
      rw [hn] at hl
      exact he (length_eq_zero_iff.mp hl.symm)
    obtain ⟨outs,ho,hm,hlength,hr⟩:=exists_outputTensors h.pool
      (forall₂_map_left_iff.mpr h.keyed) h.typed hd he h.bound
    refine ⟨outs,?_,fun hn => absurd hn he,fun _ => hm,hlength,fun _ => hr⟩
    rw [getOutputKeys,if_neg hv,h.mapM_keyAt,h.dtypes_eq]
    exact ho

def rowsOf (tensors : List TypedTensor) : List (List Cell) :=
  rowsFrom tensors 0 ((tensors.head?.map fun t => t.data.length).getD 0)

inductive Accumulated (A : Allocator) (dtypes : List DataType) :
    CompositeKeyCombiner → List (List Cell × ℕ) → Prop where
  | create {c : CompositeKeyCombiner} : create dtypes=.ok c → Accumulated A dtypes c []
  | accumulate {c c' : CompositeKeyCombiner} {history : List (List Cell × ℕ)}
      {tensors : List InputTensor} {ordinals : TypedTensor} :
      Accumulated A dtypes c history →
      c.accumulate A (tensors.map tensor)=.ok (.ok ordinals,c') →
      Accumulated A dtypes c' (history ++
        (rowsOf (tensors.map tensor)).zip ((ordinalsOf ordinals).map BitVec.toNat))
  | refused {c c' : CompositeKeyCombiner} {history : List (List Cell × ℕ)}
      {tensors : List InputTensor} {status : Status} :
      Accumulated A dtypes c history →
      c.accumulate A (tensors.map tensor)=.ok (.error status,c') →
      Accumulated A dtypes c' history

/-- The condition on a call: once the tensors have passed the checks, their shape promises fewer
elements than an `int` counts. -/
def Countable (c : CompositeKeyCombiner) (tensors : List TypedTensor) : Prop :=
  ∀ shape,c.checkValidAndGetShape tensors=.ok (.ok shape) → numElements shape<2^31

structure Numbered (c : CompositeKeyCombiner) (dtypes : List DataType)
    (history : List (List Cell × ℕ)) : Prop where
  supported : ∀ d∈dtypes,d≠.invalid
  represents : Represents c dtypes (firstAppearances (history.map Prod.fst))
  placed : ∀ p∈history,(firstAppearances (history.map Prod.fst))[p.2]?=some p.1

theorem numbered_create (h : create dtypes=.ok c) : Numbered c dtypes [] := by
  obtain ⟨u,hc,hr⟩:=bind_eq_ok.mp h
  cases pure_eq_ok.mp hr
  have hs:=of_decide_eq_true (fcpCheck_eq_ok.mp hc)
  refine ⟨hs,?_,by simp⟩
  exact ⟨rfl,⟨nodup_nil,by simp⟩,.nil,rfl,rfl,nodup_nil,rfl,by simp,Nat.two_pow_pos 59⟩

theorem Numbered.length_data {hist : List (List Cell × ℕ)} {ts : List InputTensor}
    (h : Numbered c dtypes hist)
    (hcheck : c.checkValidAndGetShape (ts.map tensor)=.ok (.ok shape))
    (hc : numElements shape<2^31) :
    numElements shape≠0 ∧ ∀ t∈ts.map tensor,t.data.length=numElements shape := by
  obtain ⟨hne,hm,hs⟩:=checkValidAndGetShape_eq_ok hcheck
  have ha : ∀ t∈ts.map tensor,t.data.length=numElements shape ∧ t.data.length≠0 := by
    intro t ht
    have hd : t.dtype≠.invalid := by
      apply h.supported
      rw [← h.represents.dtypes_eq,← hm]
      exact mem_map_of_mem ht
    have hs':=hs t ht
    obtain ⟨t',-,rfl⟩:=mem_map.mp ht
    rw [← hs'] at hc ⊢
    exact length_data_of_lt hd hc
  refine ⟨?_,fun t ht => (ha t ht).1⟩
  obtain ⟨t,ht⟩:=exists_mem_of_ne_nil _ hne
  rw [← (ha t ht).1]
  exact (ha t ht).2

theorem rowsOf_eq {n : ℕ} (hne : ts≠[]) (h : ∀ t∈ts,t.data.length=n) :
    rowsOf ts=rowsFrom ts 0 n := by
  cases ts with
  | nil => exact absurd rfl hne
  | cons t ts =>
    show rowsFrom (t::ts) 0 t.data.length=_
    rw [h t (by simp)]

theorem map_toNat_ofNat (h : ∀ o∈ords,o<2^59) :
    (ords.map (BitVec.ofNat 64)).map BitVec.toNat=ords := by
  rw [map_map]
  calc ords.map (BitVec.toNat ∘ BitVec.ofNat 64)=ords.map id := by
        apply map_congr_left
        intro o ho
        have hlt:=h o ho
        show (BitVec.ofNat 64 o).toNat=o
        rw [BitVec.toNat_ofNat,Nat.mod_eq_of_lt (by omega)]
    _=ords := map_id ords

theorem create_ordinals (hl : ords.length=numElements shape)
    (hne : numElements shape≠0) (hc : numElements shape<2^31) :
    TypedTensor.create .int64 shape (ords.map (BitVec.ofNat 64)) =
      .ok ⟨.int64,shape,ords.map (BitVec.ofNat 64)⟩ := by
  have hs : (⟨.int64,shape,ords.map (BitVec.ofNat 64)⟩ : TypedTensor).byteSize =
      numElements shape*8 := by
    show (ords.map (BitVec.ofNat 64)).length*8=_
    rw [length_map,hl]
  have hv : (⟨.int64,shape,ords.map (BitVec.ofNat 64)⟩ : TypedTensor).checkValid.code=.ok := by
    rw [TypedTensor.checkValid_eq_ok,hs]
    refine ⟨by simp,by omega,?_⟩
    show numElements shape*8=numElements shape*8%2^64
    omega
  simp [TypedTensor.create,hv]

theorem accumulate_eq_ok (h : c.accumulate A ts=.ok (r,c')) :
    (∃ st,c.checkValidAndGetShape ts=.ok (.error st) ∧ r=.error st ∧ c'=c) ∨
    ∃ shape ords,c.checkValidAndGetShape ts=.ok (.ok shape) ∧
      accumulateLoop A ts (numElements shape) 0 c=.ok (ords,c') ∧
      r=TypedTensor.create .int64 shape (ords.map (BitVec.ofNat 64)) := by
  obtain ⟨checked,hc,h⟩:=bind_eq_ok.mp h
  cases checked with
  | error st =>
    cases pure_eq_ok.mp h
    exact .inl ⟨st,hc,rfl,rfl⟩
  | ok shape =>
    obtain ⟨⟨ords,c''⟩,hl,h⟩:=bind_eq_ok.mp h
    cases pure_eq_ok.mp h
    exact .inr ⟨shape,ords,hc,hl,rfl⟩

variable {hist : List (List Cell × ℕ)} {ins : List InputTensor}

/-- A call that returns was countable. It either refuses and changes nothing, or it numbers the
tuples of all positions. -/
theorem Numbered.accumulate (h : Numbered c dtypes hist)
    (hr : c.accumulate A (ins.map tensor)=.ok (r,c')) :
    Countable c (ins.map tensor) ∧ ((∃ st,r=.error st ∧ c'=c) ∨
        ∃ ords,r=.ok ords ∧ Numbered c' dtypes (hist++(rowsOf (ins.map tensor)).zip
            ((ordinalsOf ords).map BitVec.toNat))) := by
  rcases accumulate_eq_ok hr with ⟨st,hc,rfl,rfl⟩ |
    ⟨shape,ords,hc,hl,rfl⟩
  · refine ⟨fun shape hs => ?_,.inl ⟨st,rfl,rfl⟩⟩
    cases hc.symm.trans hs
  · obtain ⟨hne,hm,-⟩:=checkValidAndGetShape_eq_ok hc
    rw [h.represents.dtypes_eq] at hm
    obtain ⟨hrep,hplaces,hlen,hb⟩:=h.represents.accumulateLoop hm hl
    have hcount : numElements shape<2^31 := by omega
    obtain ⟨hpos,hd⟩:=h.length_data hc hcount
    refine ⟨fun shape' hs' => ?_,.inr ⟨_,create_ordinals hlen hpos hcount,?_⟩⟩
    · cases hc.symm.trans hs'
      exact hcount
    · have hsmall : ∀ o∈ords,o<2^59 := by
        intro o ho
        obtain ⟨i,hi⟩:=getElem?_of_mem ho
        obtain ⟨row,-,hrow⟩:=forall₂_getElem_right hplaces hi
        obtain ⟨hlt,-⟩:=List.getElem?_eq_some_iff.mp hrow
        have hk:=hrep.bound
        omega
      have hordinals : (ordinalsOf ⟨.int64,shape,ords.map (BitVec.ofNat 64)⟩).map
          BitVec.toNat=ords := map_toNat_ofNat hsmall
      rw [hordinals,rowsOf_eq hne hd]
      obtain ⟨hz,hplaced⟩:=forall₂_iff_zip.mp hplaces
      have hf : (hist++(rowsFrom (ins.map tensor) 0
          (numElements shape)).zip ords).map Prod.fst=hist.map Prod.fst ++
            rowsFrom (ins.map tensor) 0 (numElements shape) := by
        rw [map_append,map_fst_zip (Nat.le_of_eq hz)]
      refine ⟨h.supported,hf ▸ hrep,?_⟩
      rw [hf]
      intro p hp
      rcases mem_append.mp hp with hold | hn
      · exact getElem?_firstAppearances_append (h.placed p hold) _
      · exact hplaced hn

theorem Accumulated.numbered (h : Accumulated A dtypes c hist) : Numbered c dtypes hist := by
  induction h with
  | create hc => exact numbered_create hc
  | accumulate _ hr ih =>
    rcases (ih.accumulate hr).2 with ⟨st,hs,-⟩ | ⟨ords,ho,hn⟩
    · cases hs
    · cases ho
      exact hn
  | refused _ hr ih =>
    rcases (ih.accumulate hr).2 with ⟨st,-,rfl⟩ | ⟨ords,ho,-⟩
    · exact ih
    · cases ho

theorem Numbered.succeeds (h : Numbered c dtypes hist) (hd : dtypes.length<2^31)
    (hcount : Countable c (ins.map tensor)) :
    Succeeds (c.accumulate A (ins.map tensor)) := by
  have hd' : c.dtypes.length<2^31 := by rwa [h.represents.dtypes_eq]
  obtain ⟨checked,hc⟩:=exists_checkValidAndGetShape (ins.map tensor) hd'
  rw [CompositeKeyCombiner.accumulate,hc,ok_bind]
  cases checked with
  | error st => exact succeeds_ok _
  | ok shape =>
    have hlt:=hcount shape hc
    obtain ⟨-,hm,-⟩:=checkValidAndGetShape_eq_ok hc
    have hl : (ins.map tensor).length<2^31 := by
      have heq:=congrArg List.length hm
      rw [length_map] at heq
      omega
    rw [h.represents.dtypes_eq] at hm
    obtain ⟨-,hdata⟩:=h.length_data hc hlt
    refine succeeds_bind ?_ fun _ _ => succeeds_ok _
    apply h.represents.succeeds_accumulateLoop hm hl
    · intro t ht
      rw [hdata t ht]
      omega
    · omega

structure FaithfulInterner (c : CompositeKeyCombiner) (dtypes : List DataType)
    (history : List (List Cell × ℕ)) : Prop where
  same_ordinal : ∀ p∈history,∀ q∈history,p.2=q.2 ↔ p.1=q.1
  first_appearance : ∀ p∈history,(firstAppearances (history.map Prod.fst))[p.2]?=some p.1
  output : ∃ outs,OutputsKeys c dtypes (firstAppearances (history.map Prod.fst)) outs

/-- At every point of every sequence of calls that returned, the ordinals number the tuples in
the order of first appearance and the output keys are the tuples. A call that is refused changes
nothing. A call returns, memory permitting, when the number of positions fits into an `int`, and
only then. -/
theorem combiner_faithful (h : Accumulated A dtypes c hist) (hd : dtypes.length<2^31) :
    FaithfulInterner c dtypes hist ∧
    (∀ (ins : List InputTensor) status c',
      c.accumulate A (ins.map tensor)=.ok (.error status,c') → c'=c) ∧
    ∀ ins : List InputTensor,(Countable c (ins.map tensor) →
        Succeeds (c.accumulate A (ins.map tensor))) ∧
      ((∃ r,c.accumulate A (ins.map tensor)=.ok r) → Countable c (ins.map tensor)) := by
  have hn:=h.numbered
  refine ⟨⟨?_,hn.placed,hn.represents.exists_outputs hn.supported⟩,?_,?_⟩
  · intro p hp q hq
    exact getElem?_eq_iff (nodup_firstAppearances _) (hn.placed p hp) (hn.placed q hq)
  · intro ins status c' hr
    rcases (hn.accumulate hr).2 with ⟨-,-,hs⟩ | ⟨ords,ho,-⟩
    · exact hs
    · cases ho
  · intro ins
    refine ⟨hn.succeeds hd,?_⟩
    intro ⟨⟨r,c'⟩,hr⟩
    exact (hn.accumulate hr).1

def nextAddress : Allocator where
  alloc live :=
    if extent live<2^64 ∧ live.length+1<2^59 then some (extent live) else none
  fresh := by
    intro live p h hmem
    split at h
    · cases h
      exact Nat.lt_irrefl _ (lt_extent hmem)
    · cases h
  lt := by
    intro live p h
    split at h
    next hbounds =>
      cases h
      exact hbounds.1
    · cases h
  bound := by
    intro live p h
    split at h
    next hbounds =>
      exact hbounds.2
    · cases h

def twoStrings (s t : Bytes) : InputTensor where
  tensor := ⟨.string,[2],[s,t]⟩
  valid := .inr ⟨rfl,show 2*16<2^63 by decide⟩

def twoNumbers (x y : BitVec 32) : InputTensor where
  tensor := ⟨.int32,[2],[x,y]⟩
  valid := .inr ⟨rfl,show 2*4<2^63 by decide⟩

theorem accumulated_two_tuples : ∃ c,Accumulated nextAddress [.int32,.string] c
      [([⟨.int32,(1 : BitVec 32)⟩,⟨.string,([97] : Bytes)⟩],0),
        ([⟨.int32,(1 : BitVec 32)⟩,⟨.string,([98] : Bytes)⟩],1)] := by
  have hc : ∃ c',accumulate nextAddress ⟨[.int32,.string],[],[],[],0⟩
      ([twoNumbers 1 1,twoStrings [97] [98]].map tensor) =
      .ok (.ok ⟨.int64,[2],[(0 : BitVec 64),(1 : BitVec 64)]⟩,c') := ⟨_,rfl⟩
  obtain ⟨c',hc⟩:=hc
  exact ⟨c',.accumulate (.create rfl) hc⟩

theorem combiner_faithful_two_tuples : ∃ c,FaithfulInterner c [.int32,.string]
      [([⟨.int32,(1 : BitVec 32)⟩,⟨.string,([97] : Bytes)⟩],0),
        ([⟨.int32,(1 : BitVec 32)⟩,⟨.string,([98] : Bytes)⟩],1)] := by
  obtain ⟨c,hc⟩:=accumulated_two_tuples
  exact ⟨c,(combiner_faithful hc (by decide)).1⟩

def wrappingTensor : InputTensor where
  tensor := ⟨.int64,[2^61+1],[(5 : BitVec 64)]⟩
  valid := .inr ⟨rfl,show 1*8<2^63 by decide⟩

/-- The loop goes on behind the only element of the tensor. -/
theorem wrapping_tensor_out_of_range : ∃ c,Accumulated nextAddress [.int64] c [] ∧
      c.accumulate nextAddress [wrappingTensor.tensor]=.error .outOfRange :=
  ⟨_,.create rfl,rfl⟩

end CompositeKeyCombiner

end Fcp.Aggregation

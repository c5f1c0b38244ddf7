import Fcp.Aggregation.CompositeKeyCombiner
import Fcp.Lib.FirstAppearance

/-!
# Composite keys and the tuples they stand for

A key can be read back, so that tuples of the same data types with the same key are equal, and it
stays the key of its tuple while the pool of strings grows.
-/

namespace Fcp.Aggregation

open List CompositeKeyCombiner

def slotOf (pool : List Interned) : Cell → Option Bytes
  | ⟨.float,(x : BitVec 32)⟩ => some (numericSlot 4 x.toNat)
  | ⟨.double,(x : BitVec 64)⟩ => some (numericSlot 8 x.toNat)
  | ⟨.int32,(x : BitVec 32)⟩ => some (numericSlot 4 x.toNat)
  | ⟨.int64,(x : BitVec 64)⟩ => some (numericSlot 8 x.toNat)
  | ⟨.string,(content : Bytes)⟩ =>
    (pool.find? fun e => e.content=content).map fun e => toLittleEndian 8 e.address
  | ⟨.invalid,_⟩ => none

def keyOf (pool : List Interned) : List Cell → Option Bytes
  | [] => some []
  | cell::row => do
    let slot ← slotOf pool cell
    let key ← keyOf pool row
    return slot++key

def rowOf (i : ℕ) : List TypedTensor → Option (List Cell)
  | [] => some []
  | t::tensors => do
    let x ← t.data[i]?
    let row ← rowOf i tensors
    return ⟨t.dtype,x⟩::row

structure PoolOk (pool : List Interned) : Prop where
  nodup : (pool.map Interned.address).Nodup
  lt : ∀ e∈pool,e.address<2^64

variable {pool pool' : List Interned} {cell : Cell} {row row' : List Cell} {key slot : Bytes}

theorem keyOf_cons_eq_some : keyOf pool (cell::row)=some key ↔
      ∃ slot rest,slotOf pool cell=some slot ∧ keyOf pool row=some rest ∧ key=slot++rest := by
  simp only [keyOf,Option.bind_eq_bind,Option.bind_eq_some_iff,Option.pure_def,Option.some.injEq]
  constructor
  · intro ⟨slot,hs,rest,hr,hk⟩
    exact ⟨slot,rest,hs,hr,hk.symm⟩
  · intro ⟨slot,rest,hs,hr,hk⟩
    exact ⟨slot,hs,rest,hr,hk.symm⟩

theorem slotOf_append (h : slotOf pool cell=some slot) (new : List Interned) :
    slotOf (pool++new) cell=some slot := by
  obtain ⟨d,x⟩:=cell
  cases d with
  | string =>
    obtain ⟨e,he,hs⟩:=Option.map_eq_some_iff.mp h
    show ((pool++new).find? _).map _=some slot
    rw [find?_append,he]
    exact congrArg some hs
  | invalid => exact Empty.elim x
  | float | double | int32 | int64 => exact h

theorem keyOf_append (h : keyOf pool row=some key) (new : List Interned) :
    keyOf (pool++new) row=some key := by
  induction row generalizing key with
  | nil => exact h
  | cons cell row ih =>
    obtain ⟨slot,rest,hs,hr,rfl⟩:=keyOf_cons_eq_some.mp h
    exact keyOf_cons_eq_some.mpr ⟨slot,rest,slotOf_append hs new,ih hr,rfl⟩

variable {size n : ℕ}

@[simp] theorem length_numericSlot (h : size≤8) : (numericSlot size n).length=8 := by
  simp [numericSlot]
  omega

theorem length_slotOf (h : slotOf pool cell=some slot) : slot.length=8 := by
  obtain ⟨d,x⟩:=cell
  cases d with
  | string =>
    obtain ⟨e,-,rfl⟩:=Option.map_eq_some_iff.mp h
    exact length_toLittleEndian 8 _
  | invalid => exact Empty.elim x
  | float | double | int32 | int64 => exact Option.some.inj h ▸ length_numericSlot (by omega)

theorem readNumber_numericSlot (hs : size≤8) (rest : Bytes) :
    readNumber size (numericSlot size n++rest)=.ok (n%2^(8*size)) := by
  have hl : size≤(numericSlot size n++rest).length := by
    rw [length_append,length_numericSlot hs]
    omega
  have ht : (numericSlot size n++rest).take size=toLittleEndian size n := by
    rw [numericSlot,append_assoc]
    exact take_left' (length_toLittleEndian size n)
  rw [readNumber,if_pos hl,ht,littleEndian_toLittleEndian]

theorem ofNat_toNat_mod {w : ℕ} (x : BitVec w) : BitVec.ofNat w (x.toNat%2^w)=x := by
  rw [Nat.mod_eq_of_lt x.isLt,BitVec.ofNat_toNat,BitVec.setWidth_eq]

theorem readElement_eq {c : CompositeKeyCombiner} (hp : PoolOk c.internPool) {d : DataType}
    {x : Element d} (h : slotOf c.internPool ⟨d,x⟩=some slot) (rest : Bytes) :
    c.readElement d (slot++rest)=.ok x := by
  cases d with
  | string =>
    obtain ⟨e,he,rfl⟩:=Option.map_eq_some_iff.mp h
    have hm:=mem_of_find?_eq_some he
    have hc : e.content=x := by simpa using find?_some he
    have hr : readNumber 8 (toLittleEndian 8 e.address++rest)=.ok (e.address%2^64) := by
      have hs:=readNumber_numericSlot (n := e.address) (Nat.le_refl 8) rest
      simpa [numericSlot] using hs
    simp only [readElement,hr,ok_bind,Nat.mod_eq_of_lt (hp.lt e hm),find?_of_nodup_map hp.nodup hm]
    exact congrArg Except.ok hc
  | invalid => exact Empty.elim x
  | float | int32 =>
    obtain rfl:=Option.some.inj h
    simp only [readElement,readNumber_numericSlot (show 4≤8 by omega),ok_bind]
    exact congrArg Except.ok (ofNat_toNat_mod x)
  | double | int64 =>
    obtain rfl:=Option.some.inj h
    simp only [readElement,readNumber_numericSlot (Nat.le_refl 8),ok_bind]
    exact congrArg Except.ok (ofNat_toNat_mod x)

theorem keyOf_injective {c : CompositeKeyCombiner} (hp : PoolOk c.internPool)
    (ht : row.map Sigma.fst=row'.map Sigma.fst) (h : keyOf c.internPool row=some key)
    (h' : keyOf c.internPool row'=some key) : row=row' := by
  induction row generalizing row' key with
  | nil => exact (map_eq_nil_iff.mp ht.symm).symm
  | cons cell row ih =>
    obtain ⟨d,x⟩:=cell
    cases row' with
    | nil => simp at ht
    | cons cell' row' =>
      obtain ⟨d',x'⟩:=cell'
      obtain ⟨hd,hr⟩:=List.cons.inj ht
      obtain rfl : d=d' := hd
      obtain ⟨slot,rest,hs,hrow,rfl⟩:=keyOf_cons_eq_some.mp h
      obtain ⟨slot',rest',hs',hrow',heq⟩:=keyOf_cons_eq_some.mp h'
      obtain ⟨rfl,rfl⟩:=append_inj heq ((length_slotOf hs).trans (length_slotOf hs').symm)
      have hx : x=x' := Except.ok.inj
        ((readElement_eq hp hs rest).symm.trans (readElement_eq hp hs' rest))
      rw [hx,ih hr hrow hrow']

namespace CompositeKeyCombiner

variable {A : Allocator} {c c' : CompositeKeyCombiner}

structure PoolGrown (c c' : CompositeKeyCombiner) : Prop where
  pool : PoolOk c'.internPool
  grown : ∃ new,c'={ c with internPool := c.internPool++new }

theorem PoolGrown.trans {c'' : CompositeKeyCombiner} (h : PoolGrown c c')
    (h' : PoolGrown c' c'') : PoolGrown c c'' := by
  obtain ⟨new,rfl⟩:=h.grown
  obtain ⟨new',rfl⟩:=h'.grown
  exact ⟨h'.pool,new++new',by simp⟩

theorem PoolGrown.keyOf_eq (h : PoolGrown c c') (hk : keyOf c.internPool row=some key) :
    keyOf c'.internPool row=some key := by
  obtain ⟨new,rfl⟩:=h.grown
  exact keyOf_append hk new

theorem PoolGrown.slotOf_eq (h : PoolGrown c c') (hs : slotOf c.internPool cell=some slot) :
    slotOf c'.internPool cell=some slot := by
  obtain ⟨new,rfl⟩:=h.grown
  exact slotOf_append hs new

theorem poolGrown_intern (hpool : PoolOk c.internPool) {body : Bytes} {address : ℕ}
    (h : c.intern A body=.ok (address,c')) :
    PoolGrown c c' ∧ slotOf c'.internPool ⟨.string,body⟩=some (toLittleEndian 8 address) := by
  unfold intern at h
  split at h
  next e he =>
    cases h
    refine ⟨⟨hpool,[],by simp⟩,?_⟩
    show Option.map _ (List.find? _ _)=_
    rw [he]
    rfl
  next hn =>
    split at h
    · cases h
    next p hp =>
      cases h
      have hf : address∉c.internPool.map Interned.address := fun hm =>
        A.fresh hp (mem_append_left _ hm)
      refine ⟨⟨⟨?_,?_⟩,[⟨address,body⟩],rfl⟩,?_⟩
      · rw [map_append,nodup_append]
        refine ⟨hpool.nodup,by simp,?_⟩
        intro a ha b hb hab
        have hb' : b=address := by simpa using hb
        exact hf (hb' ▸ hab ▸ ha)
      · intro e he
        rcases mem_append.mp he with ho | hnew
        · exact hpool.lt e ho
        · rw [mem_singleton.mp hnew]
          exact A.lt hp
      · show Option.map _ (List.find? _ _)=_
        rw [find?_append,hn]
        simp

theorem poolGrown_copyToDest (hp : PoolOk c.internPool) (h : c.copyToDest A cell=.ok (slot,c')) :
    PoolGrown c c' ∧ slotOf c'.internPool cell=some slot := by
  have hs : PoolGrown c c := ⟨hp,[],by simp⟩
  obtain ⟨d,x⟩:=cell
  cases d with
  | string =>
    obtain ⟨⟨address,c''⟩,hi,hr⟩:=bind_eq_ok.mp h
    cases pure_eq_ok.mp hr
    exact poolGrown_intern hp hi
  | invalid => exact Empty.elim x
  | float | double | int32 | int64 => cases h; exact ⟨hs,rfl⟩

variable {ts : List TypedTensor} {i j : ℕ} {α : Type}

theorem poolGrown_copyRow (hp : PoolOk c.internPool) (h : copyRow A i ts j c=.ok (key,c')) :
    ∃ row,rowOf i ts=some row ∧ PoolGrown c c' ∧ keyOf c'.internPool row=some key := by
  induction ts generalizing j c key with
  | nil =>
    cases h
    exact ⟨[],rfl,⟨hp,[],by simp⟩,rfl⟩
  | cons t ts ih =>
    obtain ⟨x,hx,h⟩:=bind_eq_ok.mp h
    obtain ⟨⟨slot,c₁⟩,hslot,h⟩:=bind_eq_ok.mp h
    obtain ⟨j',-,h⟩:=bind_eq_ok.mp h
    obtain ⟨⟨rest,c₂⟩,hr,h⟩:=bind_eq_ok.mp h
    cases pure_eq_ok.mp h
    obtain ⟨hg,hs⟩:=poolGrown_copyToDest hp hslot
    obtain ⟨row,hrow,hg',hk⟩:=ih hg.pool hr
    refine ⟨⟨t.dtype,x⟩::row,?_,hg.trans hg',?_⟩
    · simp [rowOf,elementAt_eq_ok.mp hx,hrow]
    · exact keyOf_cons_eq_some.mpr ⟨slot,rest,hg'.slotOf_eq hs,hk,rfl⟩

def Succeeds {α : Type} (x : Checked α) : Prop := ∀ fault,x=.error fault → fault=.outOfMemory

theorem succeeds_ok (a : α) : Succeeds (.ok a) := fun _ h => by cases h

theorem succeeds_bind {β : Type} {x : Checked α} {f : α → Checked β} (hx : Succeeds x)
    (hf : ∀ a,x=.ok a → Succeeds (f a)) : Succeeds (x >>= f) := by
  cases x with
  | error e =>
    intro fault h
    exact hx fault (congrArg Except.error (Except.error.inj h))
  | ok a => exact hf a rfl

theorem succeeds_intAdd {a b : ℕ} (h : a+b<2^31) : Succeeds (intAdd a b) := by
  rw [intAdd_eq_ok.mpr ⟨h,rfl⟩]
  exact succeeds_ok _

theorem succeeds_intern (body : Bytes) : Succeeds (c.intern A body) := by
  unfold intern
  split
  · exact succeeds_ok _
  · split
    · intro fault h
      cases h
      rfl
    · exact succeeds_ok _

theorem succeeds_copyToDest (cell : Cell) : Succeeds (c.copyToDest A cell) := by
  obtain ⟨d,x⟩:=cell
  cases d with
  | string => exact succeeds_bind (succeeds_intern _) fun _ _ => succeeds_ok _
  | invalid => exact Empty.elim x
  | float | double | int32 | int64 => exact succeeds_ok _

theorem succeeds_copyRow (hd : ∀ t∈ts,i<t.data.length) (hj : j+ts.length<2^31) :
    Succeeds (copyRow A i ts j c) := by
  induction ts generalizing j c with
  | nil => exact succeeds_ok _
  | cons t ts ih =>
    rw [length_cons] at hj
    have hx:=elementAt_eq_ok.mpr (getElem?_eq_getElem (hd t (by simp)))
    refine succeeds_bind (hx ▸ succeeds_ok _) fun x _ => ?_
    refine succeeds_bind (succeeds_copyToDest _) fun r _ => ?_
    refine succeeds_bind (succeeds_intAdd (by omega)) fun j' hj' => ?_
    have hj'' : j'+ts.length<2^31 := by
      have heq:=(intAdd_eq_ok.mp hj').2
      omega
    exact succeeds_bind (ih (fun t' ht' => hd t' (by simp [ht'])) hj'') fun _ _ => succeeds_ok _

end CompositeKeyCombiner

end Fcp.Aggregation

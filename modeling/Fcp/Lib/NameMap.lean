import Fcp.Lib.Except
import Mathlib.Data.List.AList

/-!
# Maps from names

A hash map is an association list without repeated keys. Code that walks one map and fills another
is a traversal of the entries followed by `ofEntries`.
-/

namespace Fcp

open List

section
variable {κ : Type} [DecidableEq κ] {β : κ → Type} {m : AList β} {a : κ}

theorem exists_lookup (h : a∈m) : ∃ b,m.lookup a=some b :=
  Option.isSome_iff_exists.mp (AList.lookup_isSome.mpr h)

theorem mem_of_lookup {b : β a} (h : m.lookup a=some b) : a∈m :=
  AList.lookup_isSome.mp (Option.isSome_of_mem h)

end

abbrev NameMap (α : Type) := AList fun _ : String => α

namespace NameMap

variable {α : Type}

/-- `emplace`: an entry that exists stays. -/
def emplace (m : NameMap α) (name : String) (v : α) : NameMap α :=
  if name∈m then m else m.insert name v

def ofEntries (l : List (String × α)) : NameMap α := l.foldl (fun m e => m.emplace e.1 e.2) ∅

def items (m : NameMap α) : List (String × α) := m.entries.map fun e => (e.1,e.2)

theorem lookup_emplace (m : NameMap α) (name : String) (v : α) (x : String) :
    (m.emplace name v).lookup x=(m.lookup x).or (if x=name then some v else none) := by
  unfold emplace
  by_cases hm : name∈m
  · rw [if_pos hm]
    by_cases hx : x=name
    · obtain ⟨w,hw⟩:=exists_lookup hm
      rw [hx,hw,Option.some_or]
    · rw [if_neg hx,Option.or_none]
  · rw [if_neg hm]
    by_cases hx : x=name
    · rw [hx,AList.lookup_insert,AList.lookup_eq_none.mpr hm,if_pos rfl,Option.none_or]
    · rw [AList.lookup_insert_ne hx,if_neg hx,Option.or_none]

theorem lookup_foldl_emplace (l : List (String × α)) (m : NameMap α) (x : String) :
    (l.foldl (fun m e => m.emplace e.1 e.2) m).lookup x =
      (m.lookup x).or ((l.find? fun e => e.1=x).map Prod.snd) := by
  induction l generalizing m with
  | nil => simp
  | cons e l ih =>
    rw [foldl_cons,ih,lookup_emplace,find?_cons]
    by_cases hx : e.1=x
    · simp [hx]
    · simp [hx,Ne.symm hx]

/-- The first entry of a name wins. -/
theorem lookup_ofEntries (l : List (String × α)) (x : String) :
    (ofEntries l).lookup x=(l.find? fun e => e.1=x).map Prod.snd := by
  rw [ofEntries,lookup_foldl_emplace,AList.lookup_empty,Option.none_or]

variable {m : NameMap α} {name : String} {v : α} {l : List (String × α)} {β : Type}

theorem mem_items : (name,v)∈m.items ↔ m.lookup name=some v := by
  rw [← Option.mem_def,AList.mem_lookup_iff,items,mem_map]
  constructor
  · rintro ⟨⟨n,w⟩,he,hv⟩
    cases hv
    exact he
  · intro h
    exact ⟨⟨name,v⟩,h,rfl⟩

theorem nodup_items (m : NameMap α) : (m.items.map Prod.fst).Nodup := by
  have h:=m.keys_nodup
  rw [items,map_map]
  exact h

theorem mem_of_lookup_ofEntries (h : (ofEntries l).lookup name=some v) : (name,v)∈l := by
  rw [lookup_ofEntries,Option.map_eq_some_iff] at h
  obtain ⟨e,he,rfl⟩:=h
  have hn : e.1=name := by simpa using find?_some he
  exact hn ▸ mem_of_find?_eq_some he

theorem exists_lookup_ofEntries {e : String × α} (h : e∈l) :
    ∃ v,(ofEntries l).lookup e.1=some v := by
  rw [lookup_ofEntries]
  cases hf : l.find? fun e' => e'.1=e.1 with
  | none => exact absurd (decide_eq_true rfl) (find?_eq_none.mp hf e h)
  | some e' => exact ⟨e'.2,rfl⟩

theorem find?_items (m : NameMap α) (name : String) :
    (m.items.find? fun e => e.1=name).map Prod.snd=m.lookup name := by
  cases hf : m.items.find? fun e => e.1=name with
  | none =>
    cases hl : m.lookup name with
    | none => rfl
    | some v =>
      have hno:=find?_eq_none.mp hf (name,v) (mem_items.mpr hl)
      exact absurd (decide_eq_true rfl) hno
  | some e =>
    have hn : e.1=name := by simpa using find?_some hf
    have hm : (name,e.2)∈m.items := hn ▸ mem_of_find?_eq_some hf
    rw [mem_items.mp hm,Option.map_some]

theorem mem_items_fst : name∈m.items.map Prod.fst ↔ (m.lookup name).isSome=true := by
  rw [mem_map,Option.isSome_iff_exists]
  constructor
  · rintro ⟨e,he,rfl⟩
    exact ⟨e.2,mem_items.mp he⟩
  · rintro ⟨v,hv⟩
    exact ⟨(name,v),mem_items.mpr hv,rfl⟩

theorem length_items_eq {m' : NameMap β}
    (h : ∀ name,(m.lookup name).isSome=(m'.lookup name).isSome) :
    m.items.length=m'.items.length := by
  have hp : (m.items.map Prod.fst).Perm (m'.items.map Prod.fst) := by
    rw [perm_ext_iff_of_nodup m.nodup_items m'.nodup_items]
    intro name
    rw [mem_items_fst,mem_items_fst,h]
  have hl:=hp.length_eq
  rwa [length_map,length_map] at hl

/-- Entries made one by one from the elements of a list: a name finds the entry of the first
element that has it. -/
theorem rel_lookup_ofEntries {γ : Type} {key : γ → String} {R : γ → α → Prop} {l : List γ}
    {es : List (String × α)}
    (h : List.Forall₂ (fun a e => e.1=key a ∧ R a e.2) l es) (name : String) :
    Option.Rel R (l.find? fun a => key a=name) ((ofEntries es).lookup name) := by
  rw [lookup_ofEntries]
  induction h with
  | nil => exact .none
  | @cons a e l es hh _ ih =>
    rw [find?_cons,find?_cons,hh.1]
    by_cases hn : key a=name
    · simpa [hn] using Option.Rel.some hh.2
    · simpa [hn] using ih

theorem rel_lookup_mapM {ε : Type} {R : String → β → Prop} {k : String × α → Except ε (String × β)}
    (hk : ∀ name v,m.lookup name=some v → ∃ w,k (name,v)=.ok (name,w) ∧ R name w) :
    ∃ es,m.items.mapM k=.ok es ∧ ∀ name,Option.Rel (fun _ w => R name w) (m.lookup name)
        ((ofEntries es).lookup name) := by
  have ha : ∀ e∈m.items,∃ e',k e=.ok e' ∧ e'.1=e.1 ∧ R e.1 e'.2 := by
    intro e he
    obtain ⟨w,hw,hR⟩:=hk e.1 e.2 (mem_items.mp he)
    exact ⟨(e.1,w),hw,rfl,hR⟩
  obtain ⟨es,h⟩:=exists_forall₂ ha
  refine ⟨es,mapM_eq_ok.mpr (h.imp fun _ _ hR => hR.1),fun name => ?_⟩
  have hr:=rel_lookup_ofEntries (R := fun e w => R e.1 w) (h.imp fun _ _ hR => hR.2) name
  rw [← find?_items]
  generalize (ofEntries es).lookup name=found at hr ⊢
  cases hf : m.items.find? fun e => e.1=name with
  | none =>
    rw [hf] at hr
    cases hr
    exact .none
  | some e =>
    have hn : e.1=name := by simpa using find?_some hf
    rw [hf] at hr
    cases hr with
    | some hR => exact .some (hn ▸ hR)

end NameMap
end Fcp

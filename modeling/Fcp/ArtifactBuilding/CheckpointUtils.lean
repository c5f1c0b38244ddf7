import Mathlib.Data.List.Nodup

/-!
# Names of checkpoint variables (artifact_building/checkpoint_utils.py)

A structure is a tensor or a list of fields with or without a name. A variable is named by the path
to its leaf, an unnamed field by its index.
-/

namespace Fcp.ArtifactBuilding

open List

mutual

inductive Struct (α : Type) where
  | tensor (value : α)
  | struct (fields : Fields α)

inductive Fields (α : Type) where
  | nil
  | cons (name : Option String) (field : Struct α) (fields : Fields α)

end

variable {α : Type}

/-- `field_name or str(index)`: an empty name is none. -/
def part : Option String → ℕ → String
  | some name, index => if name="" then toString index else name
  | none, index => toString index

mutual

def variableNamesFromStructure (name : String) : Struct α → List String
  | .tensor _ => [name]
  | .struct fields => namesFromFields name 0 fields

def namesFromFields (name : String) (index : ℕ) : Fields α → List String
  | .nil => []
  | .cons fieldName field fields =>
    variableNamesFromStructure (name++"/"++part fieldName index) field ++
      namesFromFields name (index+1) fields

end

mutual

def Struct.flatten : Struct α → List α
  | .tensor value => [value]
  | .struct fields => fields.flatten

def Fields.flatten : Fields α → List α
  | .nil => []
  | .cons _ field fields => field.flatten++fields.flatten

end

mutual

/-- The leaves in the order of `flatten`, each with the path to it. -/
def Struct.leaves : Struct α → List (List String × α)
  | .tensor value => [([],value)]
  | .struct fields => fields.leaves 0

def Fields.leaves (index : ℕ) : Fields α → List (List String × α)
  | .nil => []
  | .cons name field fields =>
    field.leaves.map (Prod.map (part name index :: ·) id) ++ fields.leaves (index+1)

end

def joined (name : String) (path : List String) : String :=
  path.foldl (fun name part => name++"/"++part) name

def Fields.parts (index : ℕ) : Fields α → List String
  | .nil => []
  | .cons name _ fields => part name index::fields.parts (index+1)

mutual

/-- Siblings are told apart, also where one of them is named by its index, and no name has a
slash. -/
def Struct.Plain : Struct α → Prop
  | .tensor _ => True
  | .struct fields => (fields.parts 0).Nodup ∧ fields.Plain 0

def Fields.Plain (index : ℕ) : Fields α → Prop
  | .nil => True
  | .cons name field fields =>
    '/'∉(part name index).toList ∧ field.Plain ∧ fields.Plain (index+1)

end

mutual

theorem names_eq_joined (name : String) (s : Struct α) :
    variableNamesFromStructure name s=s.leaves.map fun leaf => joined name leaf.1 := by
  cases s with
  | tensor value => rfl
  | struct fields => exact names_eq_joined_fields name 0 fields

theorem names_eq_joined_fields (name : String) (i : ℕ) (fields : Fields α) :
    namesFromFields name i fields=(fields.leaves i).map fun leaf => joined name leaf.1 := by
  cases fields with
  | nil => rfl
  | cons fieldName field fields =>
    rw [namesFromFields,Fields.leaves,map_append,names_eq_joined,names_eq_joined_fields,map_map]
    rfl

end

mutual

theorem flatten_eq_leaves (s : Struct α) : s.flatten=s.leaves.map Prod.snd := by
  cases s with
  | tensor value => rfl
  | struct fields => exact flatten_eq_leaves_fields 0 fields

theorem flatten_eq_leaves_fields (i : ℕ) (fields : Fields α) :
    fields.flatten=(fields.leaves i).map Prod.snd := by
  cases fields with
  | nil => rfl
  | cons name field fields =>
    rw [Fields.flatten,Fields.leaves,map_append,flatten_eq_leaves,
      flatten_eq_leaves_fields (i+1),map_map]
    rfl

end

/-- Paths that differ, of names without a slash. -/
def Apart (leaves : List (List String × α)) : Prop :=
  leaves.Pairwise (fun leaf leaf' => leaf.1≠leaf'.1) ∧ ∀ leaf∈leaves,∀ p∈leaf.1,'/'∉p.toList

mutual

theorem apart_of_plain (s : Struct α) (h : s.Plain) : Apart s.leaves := by
  cases s with
  | tensor value => exact ⟨pairwise_singleton _ _,by simp [Struct.leaves]⟩
  | struct fields => exact (apart_of_plain_fields 0 fields h.1 h.2).1

theorem apart_of_plain_fields (i : ℕ) (fields : Fields α) (hparts : (fields.parts i).Nodup)
    (h : fields.Plain i) : Apart (fields.leaves i) ∧
      ∀ leaf∈fields.leaves i,∃ p∈fields.parts i,∃ path,leaf.1=p::path := by
  cases fields with
  | nil => exact ⟨⟨.nil,by simp [Fields.leaves]⟩,by simp [Fields.leaves]⟩
  | cons name field fields =>
    obtain ⟨hs,hf,hfields⟩:=h
    obtain ⟨hn,hparts⟩:=nodup_cons.mp hparts
    obtain ⟨⟨hd,hplace⟩,hh⟩:=apart_of_plain_fields (i+1) fields hparts hfields
    obtain ⟨hd',hplace'⟩:=apart_of_plain field hf
    refine ⟨⟨pairwise_append.mpr ⟨?_,hd,?_⟩,?_⟩,?_⟩
    · exact pairwise_map.mpr (hd'.imp fun hne heq => hne (cons.inj heq).2)
    · intro leaf hl leaf' hl' heq
      obtain ⟨inner,-,rfl⟩:=mem_map.mp hl
      obtain ⟨p,hp,path,hpath⟩:=hh leaf' hl'
      rw [hpath] at heq
      exact hn ((cons.inj heq).1 ▸ hp)
    · intro leaf hl
      rcases mem_append.mp hl with hl | hl
      · obtain ⟨inner,hi,rfl⟩:=mem_map.mp hl
        exact forall_mem_cons.mpr ⟨hs,hplace' inner hi⟩
      · exact hplace leaf hl
    · intro leaf hl
      rcases mem_append.mp hl with hl | hl
      · obtain ⟨inner,-,rfl⟩:=mem_map.mp hl
        exact ⟨_,mem_cons_self,inner.1,rfl⟩
      · obtain ⟨p,hp,hpath⟩:=hh leaf hl
        exact ⟨p,mem_cons_of_mem _ hp,hpath⟩

end

theorem toList_joined (name : String) (path : List String) :
    (joined name path).toList=name.toList++path.flatMap fun p => '/'::p.toList := by
  induction path generalizing name with
  | nil => simp [joined]
  | cons p path ih =>
    rw [joined,foldl_cons,← joined,ih]
    simp

/-- The path to a leaf, with the names themselves cut at their slashes. -/
def pieces (path : List String) : List (List Char) := path.flatMap fun p => p.toList.splitOn '/'

theorem splitOn_joined (path : List String) :
    (path.flatMap fun p => '/'::p.toList).splitOn '/'=[]::pieces path := by
  have hc (l : List Char) : ('/'::l).splitOn '/'=[]::l.splitOn '/' := splitOn_append_cons_self [] l
  induction path with
  | nil => rfl
  | cons p path ih =>
    rw [flatMap_cons,cons_append,hc,pieces,flatMap_cons,← pieces]
    -- what follows the name is empty or begins with a slash
    cases path with
    | nil => simp [pieces]
    | cons q path =>
      rw [flatMap_cons,cons_append,hc] at ih
      rw [flatMap_cons,cons_append,splitOn_append_cons_self,(cons.inj ih).2]

theorem joined_eq_iff (name : String) (path path' : List String) :
    joined name path=joined name path' ↔ pieces path=pieces path' := by
  rw [← String.toList_inj,toList_joined,toList_joined,append_cancel_left_eq]
  refine ⟨fun h => ?_,fun h => ?_⟩
  · have hs:=congrArg (splitOn '/') h
    rw [splitOn_joined,splitOn_joined] at hs
    exact (cons.inj hs).2
  · have hi (l : List Char) : [ '/'].intercalate (l.splitOn '/')=l := intercalate_splitOn '/'
    rw [← hi (path.flatMap _),splitOn_joined,h,← splitOn_joined,hi]

/-- A path of names without a slash is its own list of pieces. -/
theorem pieces_eq_map {path : List String} (h : ∀ p∈path,'/'∉p.toList) :
    pieces path=path.map String.toList := by
  rw [pieces,map_eq_flatMap]
  exact flatMap_congr fun p hp => splitOn_eq_singleton (h p hp)

end Fcp.ArtifactBuilding

import Fcp.Base.Monitoring
import Fcp.Lib.NameMap
import Mathlib.Data.List.TakeWhile

/-!
# Paths and files

A location is the list of the names on the way from the root; a path is the list of its elements as
they are written, which may be empty or consist of dots. There are no symbolic links.
-/

namespace Fcp.Client.Cache

open List

abbrev Name := List Char

abbrev Location := List Name

abbrev Path := List Name

instance Location.decidableMem (loc : Location) (locs : List Location) : Decidable (loc∈locs) :=
  inferInstance

def cString (s : Name) : Name := s.takeWhile (· ≠ '\x00')

def elements (s : Name) : Path :=
  let parts := s.splitOn '/'
  parts.dropLast.filter (·≠[])++[parts.getLast?.getD []]

def join (dir : Path) (s : Name) : Path :=
  if s.head?=some '/' then elements s else dir++elements s

def enter (loc : Location) (element : Name) : Location :=
  if element=[] ∨ element=['.'] then loc
  else if element=['.', '.'] then loc.dropLast
  else loc++[element]

structure FileSystem where
  dirs : List Location
  files : AList fun _ : Location => Bytes

namespace FileSystem

def walk (fs : FileSystem) : Location → Path → Option Location
  | loc, [] => some loc
  | loc, element::path => if loc∈fs.dirs then fs.walk (enter loc element) path else none

def locate (fs : FileSystem) (path : Path) : Option Location := fs.walk [] path

def isThere (fs : FileSystem) (loc : Location) : Bool := loc∈fs.dirs ∨ loc∈fs.files

def pathExists (fs : FileSystem) (path : Path) : Bool := (fs.locate path).any fs.isThere

def children (fs : FileSystem) (dir : Location) : List Name :=
  ((fs.files.keys++fs.dirs).filter fun loc => loc≠[] ∧ loc.dropLast=dir).filterMap
    List.getLast?

def eraseFile (fs : FileSystem) (loc : Location) : FileSystem :=
  { fs with files := fs.files.erase loc }

def putFile (fs : FileSystem) (loc : Location) (content : Bytes) : FileSystem :=
  { fs with files := fs.files.insert loc content }

end FileSystem

theorem erase_of_notMem {α : Type} {β : α → Type} [DecidableEq α] {s : AList β} {a : α}
    (h : a∉s) : s.erase a=s :=
  AList.ext (kerase_of_notMem_keys h)

structure Plain (name : Name) : Prop where
  ne_nil : name≠[]
  ne_dot : name≠['.']
  ne_dots : name≠['.', '.']
  no_slash : '/'∉name
  no_nul : '\x00'∉name

instance (name : Name) : Decidable (Plain name) :=
  decidable_of_iff (name≠[] ∧ name≠['.'] ∧ name≠['.', '.'] ∧ '/'∉name ∧ '\x00'∉name)
    ⟨fun ⟨h₁,h₂,h₃,h₄,h₅⟩ => ⟨h₁,h₂,h₃,h₄,h₅⟩,fun ⟨h₁,h₂,h₃,h₄,h₅⟩ => ⟨h₁,h₂,h₃,h₄,h₅⟩⟩

namespace Plain

variable {name : Name} {dir loc : Location}

theorem cString_eq (h : Plain name) : cString name=name := by
  apply takeWhile_eq_self_iff.mpr
  intro c hc
  simpa using fun heq : c = '\x00' => h.no_nul (heq ▸ hc)

theorem elements_eq (h : Plain name) : elements name=[name] := by
  simp [elements,splitOn_eq_singleton h.no_slash]

theorem join_eq (h : Plain name) : join dir name=dir++[name] := by
  have hh : name.head?≠some '/' := by
    intro heq
    exact h.no_slash (mem_of_head? heq)
  rw [join,if_neg hh,h.elements_eq]

theorem enter_eq (h : Plain name) : enter loc name=loc++[name] := by
  simp [enter,h.ne_nil,h.ne_dot,h.ne_dots]

end Plain

def HasDirectory (fs : FileSystem) (dir : Location) : Prop := ∀ p,p <+: dir → p∈fs.dirs

namespace FileSystem

variable {fs : FileSystem} {dir : Location} {name : Name}

theorem walk_append (loc : Location) (path : Path) (hplain : ∀ n∈path,Plain n)
    (hd : ∀ p,p <+: path → p≠path → loc++p∈fs.dirs) :
    fs.walk loc path=some (loc++path) := by
  induction path generalizing loc with
  | nil => simp [walk]
  | cons element path ih =>
    have hl : loc∈fs.dirs := by simpa using hd [] List.nil_prefix (by simp)
    rw [walk,if_pos hl,(hplain element (by simp)).enter_eq,ih]
    · simp
    · exact fun n hn => hplain n (by simp [hn])
    · intro p hp hne
      have hc:=hd (element::p) (cons_prefix_cons.mpr ⟨rfl,hp⟩) (by simpa using hne)
      simpa using hc

theorem walk_plain {loc loc' : Location} {path : Path} (hp : ∀ n∈path,Plain n)
    (h : fs.walk loc path=some loc') : loc'=loc++path := by
  induction path generalizing loc with
  | nil =>
    cases h
    rw [append_nil]
  | cons element path ih =>
    rw [walk] at h
    split at h
    · rw [(hp element (by simp)).enter_eq] at h
      rw [ih (fun n hn => hp n (by simp [hn])) h,append_assoc]
      rfl
    · cases h

theorem locate_concat (hd : HasDirectory fs dir) (hplain : ∀ n∈dir,Plain n)
    (hname : Plain name) : fs.locate (dir++[name])=some (dir++[name]) := by
  have ha : ∀ n∈dir++[name],Plain n := by
    intro n hn
    rcases mem_append.mp hn with hdirname | hl
    · exact hplain n hdirname
    · rw [mem_singleton.mp hl]
      exact hname
  have hdirs : ∀ p,p <+: dir++[name] → p≠dir++[name] → []++p∈fs.dirs := by
    intro p hp hne
    rcases prefix_concat_iff.mp hp with heq | hs
    · exact absurd heq hne
    · exact hd p hs
  simpa [locate] using walk_append [] (dir++[name]) ha hdirs

theorem mem_children {n : Name} : n∈fs.children dir ↔ dir++[n]∈fs.files ∨ dir++[n]∈fs.dirs := by
  simp only [children,mem_filterMap,mem_filter,mem_append,decide_eq_true_eq,AList.mem_keys]
  constructor
  · intro ⟨loc,⟨hm,hne,hd⟩,hl⟩
    have hloc : loc=dir++[n] := by
      rw [← hd]
      exact (dropLast_append_getLast? n hl).symm
    rwa [← hloc]
  · intro hm
    exact ⟨dir++[n],⟨hm,by simp,by simp⟩,by simp⟩

theorem isThere_eq_true {loc : Location} : fs.isThere loc=true ↔ loc∈fs.dirs ∨ loc∈fs.files := by
  simp [isThere]

end FileSystem

end Fcp.Client.Cache

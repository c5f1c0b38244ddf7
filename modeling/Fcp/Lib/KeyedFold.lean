import Mathlib.Data.List.Perm.Basic

/-!
# Values folded by key

A sequence of values with natural numbers as keys, and the vector that holds at every index the
fold of the values of that key.
-/

namespace Fcp

open List

variable {α : Type}

/-- The values of key `k`, folded in their order. -/
def keyedFold (op : α → α → α) (e : α) (pairs : List (ℕ × α)) (k : ℕ) : α :=
  ((pairs.filter fun p => p.1=k).map Prod.snd).foldl op e

def extent (keys : List ℕ) : ℕ := keys.foldl (fun n k => max n (k+1)) 0

theorem foldl_extent (n : ℕ) (keys : List ℕ) :
    keys.foldl (fun n k => max n (k+1)) n=max n (extent keys) := by
  induction keys generalizing n with
  | nil => simp [extent]
  | cons k keys ih =>
    show keys.foldl _ (max n (k+1))=max n (keys.foldl _ (max 0 (k+1)))
    rw [ih,ih,Nat.zero_max,Nat.max_assoc]

@[simp] theorem extent_nil : extent []=0 := rfl

@[simp] theorem extent_append (keys keys' : List ℕ) :
    extent (keys++keys')=max (extent keys) (extent keys') := by
  rw [extent,foldl_append,foldl_extent,← extent]

@[simp] theorem extent_cons (k : ℕ) (keys : List ℕ) : extent (k::keys)=max (k+1) (extent keys) := by
  rw [← singleton_append,extent_append]
  simp [extent]

variable {keys : List ℕ}

theorem lt_extent {k : ℕ} (h : k∈keys) : k<extent keys := by
  induction keys with
  | nil => cases h
  | cons key keys ih =>
    rw [extent_cons]
    rcases mem_cons.mp h with rfl | hm
    · omega
    · have hlt:=ih hm
      omega

theorem extent_le {n : ℕ} (h : ∀ k∈keys,k<n) : extent keys≤n := by
  induction keys with
  | nil => exact Nat.zero_le n
  | cons key keys ih =>
    rw [extent_cons]
    exact Nat.max_le.mpr ⟨h key (by simp),ih fun k hk => h k (by simp [hk])⟩

theorem extent_perm {keys' : List ℕ} (h : keys.Perm keys') : extent keys=extent keys' := by
  apply Nat.le_antisymm
  · exact extent_le fun k hk => lt_extent (h.mem_iff.mp hk)
  · exact extent_le fun k hk => lt_extent (h.mem_iff.mpr hk)

section

variable {op : α → α → α} {e : α}

@[simp] theorem keyedFold_nil (k : ℕ) : keyedFold op e [] k=e := rfl

theorem keyedFold_concat (pairs : List (ℕ × α)) (i : ℕ) (x : α) (k : ℕ) :
    keyedFold op e (pairs++[(i,x)]) k =
      if i=k then op (keyedFold op e pairs k) x else keyedFold op e pairs k := by
  by_cases h : i=k <;> simp [keyedFold,h]

section

variable (ha : ∀ a b c,op (op a b) c=op a (op b c))
include ha

theorem foldl_op (hl : ∀ a,op e a=a) (hr : ∀ a,op a e=a) (a : α) (xs : List α) :
    xs.foldl op a=op a (xs.foldl op e) := by
  induction xs generalizing a with
  | nil => exact (hr a).symm
  | cons x xs ih =>
    show xs.foldl op (op a x)=op a (xs.foldl op (op e x))
    rw [ih,ih (op e x),hl,ha]

theorem keyedFold_append
    (hl : ∀ a,op e a=a) (hr : ∀ a,op a e=a) (pairs pairs' : List (ℕ × α)) (k : ℕ) :
    keyedFold op e (pairs++pairs') k=op (keyedFold op e pairs k) (keyedFold op e pairs' k) := by
  simp only [keyedFold,filter_append,map_append,foldl_append]
  exact foldl_op ha hl hr _ _

theorem keyedFold_perm
    (hc : ∀ a b,op a b=op b a) {pairs pairs' : List (ℕ × α)} (h : pairs.Perm pairs')
    (k : ℕ) : keyedFold op e pairs k=keyedFold op e pairs' k := by
  have hr : RightCommutative op := ⟨fun a b c => by rw [ha,hc b,← ha]⟩
  exact ((h.filter _).map _).foldl_eq e

end

end

/-- The vector holds the folds of the sequence, up to the largest key. -/
structure Groups (op : α → α → α) (e : α) (v : List α) (pairs : List (ℕ × α)) : Prop where
  length_eq : v.length=extent (pairs.map Prod.fst)
  getD_eq : ∀ k,v.getD k e=keyedFold op e pairs k

namespace Groups

variable {op : α → α → α} {e : α} {v w : List α} {pairs pairs' : List (ℕ × α)}

theorem nil : Groups op e [] [] := ⟨rfl,fun _ => rfl⟩

theorem getElem?_eq (h : Groups op e v pairs) {k : ℕ} (hk : k<v.length) :
    v[k]?=some (keyedFold op e pairs k) := by
  rw [← h.getD_eq]
  simp [hk]

theorem eq_of_perm (ha : ∀ a b c,op (op a b) c=op a (op b c))
    (hc : ∀ a b,op a b=op b a) (hv : Groups op e v pairs) (hw : Groups op e w pairs')
    (h : pairs.Perm pairs') : v=w := by
  have hl : v.length=w.length := by rw [hv.length_eq,hw.length_eq,extent_perm (h.map Prod.fst)]
  apply ext_getElem? fun k => ?_
  by_cases hk : k<v.length
  · rw [hv.getElem?_eq hk,hw.getElem?_eq (hl ▸ hk),keyedFold_perm ha hc h]
  · rw [getElem?_eq_none (by omega),getElem?_eq_none (by omega)]

end Groups

end Fcp

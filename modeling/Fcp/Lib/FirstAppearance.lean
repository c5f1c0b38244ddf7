import Mathlib.Data.List.Nodup
import Mathlib.Data.List.Infix

/-!
# Sequences without repetitions

The distinct elements of a sequence in the order in which they appear first. Numbering elements by
this order does not change when the sequence grows.
-/

namespace Fcp

open List

variable {α κ : Type}

theorem find?_of_nodup_map [DecidableEq κ] {f : α → κ} {xs : List α} (h : (xs.map f).Nodup)
    {a : α} (ha : a∈xs) : xs.find? (fun b => f b=f a)=some a := by
  cases hf : xs.find? fun b => f b=f a with
  | none =>
    have hne:=find?_eq_none.mp hf a ha
    simp at hne
  | some b =>
    have hk : f b=f a := by simpa using find?_some hf
    rw [inj_on_of_nodup_map h (mem_of_find?_eq_some hf) ha hk]

variable {keys : List α}

theorem getElem?_eq_iff (h : keys.Nodup) {i j : ℕ} {x y : α} (hi : keys[i]?=some x)
    (hj : keys[j]?=some y) : i=j ↔ x=y := by
  constructor
  · intro hij
    subst hij
    exact Option.some.inj (hi.symm.trans hj)
  · intro hxy
    subst hxy
    obtain ⟨hilt,-⟩:=List.getElem?_eq_some_iff.mp hi
    exact (getElem?_inj hilt h).mp (hi.trans hj.symm)

variable [DecidableEq α]

def insertNew (keys : List α) (x : α) : List α := if x∈keys then keys else keys++[x]

/-- The distinct elements of `xs`, each at its first appearance. -/
def firstAppearances (xs : List α) : List α := xs.foldl insertNew []

variable {x : α}

theorem insertNew_of_mem (h : x∈keys) : insertNew keys x=keys := if_pos h

theorem insertNew_of_notMem (h : x∉keys) : insertNew keys x=keys++[x] := if_neg h

@[simp] theorem firstAppearances_nil : firstAppearances ([] : List α)=[] := rfl

@[simp] theorem firstAppearances_concat (xs : List α) (x : α) :
    firstAppearances (xs++[x])=insertNew (firstAppearances xs) x := by
  rw [firstAppearances,foldl_append]
  rfl

theorem nodup_insertNew (h : keys.Nodup) (x : α) : (insertNew keys x).Nodup := by
  by_cases hx : x∈keys
  · rwa [insertNew_of_mem hx]
  · rw [insertNew_of_notMem hx]
    exact nodup_append.mpr ⟨h,by simp,fun a ha b hb => by
      rw [mem_singleton.mp hb]
      exact fun hab => hx (hab ▸ ha)⟩

theorem nodup_firstAppearances (xs : List α) : (firstAppearances xs).Nodup := by
  induction xs using List.reverseRecOn with
  | nil => exact nodup_nil
  | append_singleton xs x ih =>
    rw [firstAppearances_concat]
    exact nodup_insertNew ih x

variable {i : ℕ}

theorem getElem?_insertNew (h : keys[i]?=some x) (y : α) : (insertNew keys y)[i]?=some x := by
  by_cases hy : y∈keys
  · rwa [insertNew_of_mem hy]
  · obtain ⟨hi,-⟩:=List.getElem?_eq_some_iff.mp h
    rwa [insertNew_of_notMem hy,getElem?_append_left hi]

theorem getElem?_firstAppearances_append {xs : List α} (h : (firstAppearances xs)[i]?=some x)
    (ys : List α) : (firstAppearances (xs++ys))[i]?=some x := by
  induction ys using List.reverseRecOn with
  | nil => rwa [append_nil]
  | append_singleton ys y ih =>
    rw [← append_assoc,firstAppearances_concat]
    exact getElem?_insertNew ih y

end Fcp

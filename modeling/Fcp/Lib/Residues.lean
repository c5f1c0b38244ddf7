import Mathlib.Data.Int.ModEq
import Mathlib.Data.List.GetD

/-!
# Vectors of residues

A vector of reduced residues is given by the integers it stands for.
-/

namespace Fcp

open List

def residues (m n : ℕ) (f : ℕ → ℤ) : List ℕ := (List.range n).map fun i => (f i%m).toNat

variable {m n : ℕ} {f g : ℕ → ℤ}

@[simp] theorem length_residues : (residues m n f).length=n := by
  rw [residues,length_map,length_range]

theorem toNat_emod_lt (hm : 0 < m) (x : ℤ) : (x%m).toNat < m := by
  have hp : (0 : ℤ) < m := by exact_mod_cast hm
  have hn:=Int.emod_nonneg x hp.ne'
  have hlt:=Int.emod_lt_of_pos x hp
  omega

theorem toNat_emod_add (hm : 0 < m) (x y : ℤ) : ((x%m).toNat+(y%m).toNat)%m=((x+y)%m).toNat := by
  have hne : (m : ℤ)≠0 := by exact_mod_cast hm.ne'
  have hx:=Int.emod_nonneg x hne
  have hy:=Int.emod_nonneg y hne
  apply Int.ofNat_inj.mp
  rw [Int.natCast_emod,Int.natCast_add,Int.toNat_of_nonneg hx,Int.toNat_of_nonneg hy,
    Int.toNat_of_nonneg (Int.emod_nonneg _ hne),← Int.add_emod]

theorem lt_of_mem_residues (hm : 0 < m) {x : ℕ} (hx : x∈residues m n f) : x < m := by
  obtain ⟨i,_,rfl⟩:=mem_map.mp hx
  exact toNat_emod_lt hm (f i)

theorem residues_zero : residues m n (fun _ => 0)=List.replicate n 0 := by
  rw [eq_replicate_iff]
  refine ⟨length_residues,fun x hx => ?_⟩
  obtain ⟨i,_,rfl⟩:=mem_map.mp hx
  simp

theorem residues_getD {l : List ℕ} (hl : ∀ x∈l,x < m) :
    residues m l.length (fun i => (l.getD i 0 : ℤ))=l := by
  refine ext_getElem length_residues fun i _ hi => ?_
  have hlt : l[i] < m := hl _ (getElem_mem hi)
  simp only [residues,getElem_map,getElem_range,getD_eq_getElem _ _ hi]
  rw [Int.emod_eq_of_lt (by omega) (by omega),Int.toNat_natCast]

theorem zipWith_residues {op : ℕ → ℕ → ℕ}
    (hop : ∀ x y : ℤ,op (x%m).toNat (y%m).toNat=((x+y)%m).toNat) :
    List.zipWith op (residues m n f) (residues m n g)=residues m n fun i => f i+g i := by
  rw [residues,residues,residues,zipWith_map,zipWith_self]
  exact map_congr_left fun i _ => hop (f i) (g i)

end Fcp

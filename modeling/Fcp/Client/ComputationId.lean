import Fcp.Base.Monitoring

/-!
# The computation id (client/fl_runner.cc)

`ComputeSHA256FromStringOrCord` feeds `sizeof(int)` bytes to the digest, however long the plan is.
-/

namespace Fcp.Client

inductive StringOrCord where
  | string (s : Bytes)
  | cord (chunks : List Bytes)

def StringOrCord.planStr : StringOrCord → Bytes
  | .string s => s
  | .cord chunks => chunks.flatten

/-- The byte at an offset from `c_str()`; behind the terminator the memory holds anything. -/
def cStrAt (s : Bytes) (after : ℕ → UInt8) (i : ℕ) : UInt8 :=
  if i=s.length then 0 else s.getD i (after i)

def sizeofInt : ℕ := 4

def readOffsets : List ℕ := List.range sizeofInt

def digestInput (data : StringOrCord) (after : ℕ → UInt8) : Bytes :=
  readOffsets.map (cStrAt data.planStr after)

def computeSHA256FromStringOrCord (sha256 : Bytes → Bytes) (data : StringOrCord)
    (after : ℕ → UInt8) : Bytes := sha256 (digestInput data after)

structure Identified (d e : StringOrCord) : Prop where
  same_iff : ∀ after after',digestInput d after=digestInput e after' ↔ d.planStr=e.planStr
  inside : ∀ i∈readOffsets,i<d.planStr.length ∧ i<e.planStr.length

theorem digestInput_eq {d : StringOrCord} (h : sizeofInt≤d.planStr.length)
    (after : ℕ → UInt8) : digestInput d after=d.planStr.take sizeofInt := by
  apply List.ext_getElem
  · simp [digestInput,readOffsets,h]
  · intro i hi _
    have hlt : i<d.planStr.length := by
      simp only [digestInput,readOffsets,List.length_map,List.length_range] at hi
      omega
    simp [digestInput,readOffsets,cStrAt,hlt,hlt.ne]

theorem identified_iff (d e : StringOrCord) : Identified d e ↔
    (sizeofInt≤d.planStr.length ∧ sizeofInt≤e.planStr.length) ∧
      (d.planStr.take sizeofInt=e.planStr.take sizeofInt → d.planStr=e.planStr) := by
  constructor
  · rintro ⟨hs,hinside⟩
    have hlast:=hinside 3 (by decide)
    have hl : sizeofInt≤d.planStr.length ∧ sizeofInt≤e.planStr.length := by
      simp only [sizeofInt]
      omega
    refine ⟨hl,fun ht => (hs (fun _ => 0) fun _ => 0).mp ?_⟩
    rw [digestInput_eq hl.1,digestInput_eq hl.2,ht]
  · rintro ⟨hl,ht⟩
    constructor
    · intro after after'
      rw [digestInput_eq hl.1,digestInput_eq hl.2]
      exact ⟨ht,fun h => by rw [h]⟩
    · intro i hi
      have := List.mem_range.mp hi
      omega

theorem plans_with_one_id : (StringOrCord.string [1,2,3,4,5]).planStr ≠
      (StringOrCord.cord [[1,2],[3,4,6]]).planStr ∧
    (∀ sha256 after after',computeSHA256FromStringOrCord sha256 (.string [1,2,3,4,5]) after =
      computeSHA256FromStringOrCord sha256 (.cord [[1,2],[3,4,6]]) after') ∧
    ∀ after,digestInput (.string [7]) after=[7,0,after 2,after 3] := by
  refine ⟨by decide,fun sha256 after after' => rfl,fun after => rfl⟩

end Fcp.Client

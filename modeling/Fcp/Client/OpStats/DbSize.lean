import Fcp.Client.OpStats.TrustworthyTime
import Fcp.Lib.Varint
import Mathlib.Algebra.BigOperators.Group.List.Basic

/-!
# The size limit of the database

The loop that prunes subtracts the entries without their framing, and the time field is set after
the size was looked at. Sizes are those of the wire format.
-/

namespace Fcp.Client.OpStats

open List

variable {K : Type} (ttl max : ℤ) (entrySize : OperationalStats K → ℕ) {o : DbOutcomes}

/-- A field that holds a message: a tag of one byte, the length and the content. -/
def messageFieldSize (size : ℕ) : ℕ := 1+(writeVarint64 size).length+size

/-- A field that holds an integer; zero is not written. -/
def intFieldSize (value : ℤ) : ℕ :=
  if value=0 then 0 else 1+(writeVarint64 (value%2^64).toNat).length

def timestampSize (time : ℤ) : ℕ := intFieldSize (time/10^9)+intFieldSize (time%10^9)

def timeFieldSize (time : Option ℤ) : ℕ :=
  (time.map fun t => messageFieldSize (timestampSize t)).getD 0

def entriesSize (opstats : List (OperationalStats K)) : ℕ :=
  (opstats.map fun stats => messageFieldSize (entrySize stats)).sum

def byteSizeLong (data : OpStatsSequence K) : ℕ :=
  entriesSize entrySize data.opstats+timeFieldSize data.earliestTrustworthyTime

def wireConfig : DbConfig K where
  ttl := ttl
  maxSizeBytes := max
  entrySize := entrySize
  sequenceSize := byteSizeLong entrySize

def readData (o : DbOutcomes) (db : OpStatsSequence K) : OpStatsSequence K :=
  if o.read.isOk then removeOutdatedData ttl o.time db else ⟨[],none⟩

structure WithinLimit (data written : OpStatsSequence K) : Prop where
  bounded : written.opstats=[] ∨ (byteSizeLong entrySize written : ℤ) ≤ max
  oldest : written.opstats <:+ data.opstats
  needed : (byteSizeLong entrySize data : ℤ) ≤ max → written.opstats=data.opstats

def framing (opstats : List (OperationalStats K)) : ℕ :=
  (opstats.map fun stats => 1+(writeVarint64 (entrySize stats)).length).sum

/-- The condition: when the time field is set, it finds room. After pruning this is the room that
the estimate leaves, with the framing of what was removed and the field as it was. -/
def TimeFits (o : DbOutcomes) (data : OpStatsSequence K) : Prop :=
  let size : ℤ := byteSizeLong entrySize data
  let kept := pruneLoop (wireConfig ttl max entrySize) size data.opstats
  let removed := data.opstats.take (data.opstats.length-kept.length)
  if size ≤ max then
    data.opstats=[] ∨ data.earliestTrustworthyTime.isSome ∨
      size+timeFieldSize (some (getEarliestTrustworthyTime o.stampTime data.opstats)) ≤ max
  else
    kept=[] ∨ (timeFieldSize (some (getEarliestTrustworthyTime o.pruneTime kept)) : ℤ) ≤
      timeFieldSize data.earliestTrustworthyTime+framing entrySize removed +
        (max-(size-(removed.map entrySize).sum))

variable {ttl max entrySize}

theorem entriesSize_append (removed kept : List (OperationalStats K)) :
    entriesSize entrySize (removed++kept) =
      framing entrySize removed+(removed.map entrySize).sum+entriesSize entrySize kept := by
  have hr : entriesSize entrySize removed =
      framing entrySize removed+(removed.map entrySize).sum := sum_map_add
  rw [← hr,entriesSize,map_append,sum_append]
  rfl

theorem transform_eq {func : OpStatsSequence K → OpStatsSequence K} {db : OpStatsSequence K}
    {cfg : DbConfig K} (hok : (transform cfg o func db).1.isOk=true) :
    (transform cfg o func db).2=transformData cfg o func (readData cfg.ttl o db) := by
  have h:=transformed cfg o func db
  generalize transform cfg o func db=result at h hok
  obtain ⟨st,written⟩:=result
  cases h with
  | changed hr => simp only [readData,if_pos hr]; rfl
  | unwritten _ hw | emptied _ _ hw => exact absurd (hw.symm.trans hok) (by decide)
  | unreset _ _ hs => exact absurd (hs.symm.trans hok) (by decide)
  | restarted hr => simp only [readData,hr,Bool.false_eq_true,if_false]; rfl

variable {data : OpStatsSequence K}

/-- A sequence that fits keeps its entries, and its time field unless it has none. -/
theorem withinLimit_stamp_iff (hf : (byteSizeLong entrySize data : ℤ) ≤ max) (time : ℤ) :
    WithinLimit max entrySize data (stampTrustworthyTime time data) ↔
      data.opstats=[] ∨ data.earliestTrustworthyTime.isSome ∨ (byteSizeLong entrySize data : ℤ) +
          timeFieldSize (some (getEarliestTrustworthyTime time data.opstats)) ≤ max := by
  have hi : WithinLimit max entrySize data (stampTrustworthyTime time data) ↔
      data.opstats=[] ∨ (byteSizeLong entrySize (stampTrustworthyTime time data) : ℤ) ≤ max :=
    ⟨fun h => h.bounded,fun h => ⟨h,suffix_refl _,fun _ => rfl⟩⟩
  rw [hi]
  refine or_congr_right ?_
  cases ht : data.earliestTrustworthyTime with
  | none => simp [byteSizeLong,stampTrustworthyTime,ht,timeFieldSize]
  | some earliest =>
    have hs : stampTrustworthyTime time data=data := by
      rw [stampTrustworthyTime,ht,Option.getD_some,← ht]
    simpa [hs] using hf

theorem withinLimit_prune_iff {kept : List (OperationalStats K)}
    (ho : ¬ (byteSizeLong entrySize data : ℤ) ≤ max) (hk : kept <:+ data.opstats) (time : ℤ) :
    WithinLimit max entrySize data ⟨kept,some time⟩ ↔ kept=[] ∨
      (timeFieldSize (some time) : ℤ)≤timeFieldSize data.earliestTrustworthyTime +
        framing entrySize (data.opstats.take (data.opstats.length-kept.length)) +
        (max-(byteSizeLong entrySize data -
          ((data.opstats.take (data.opstats.length-kept.length)).map entrySize).sum)) := by
  obtain ⟨removed,hr⟩:=hk
  have ht : data.opstats.take (data.opstats.length-kept.length)=removed := by
    rw [← hr,length_append,Nat.add_sub_cancel,take_left]
  have hs:=@entriesSize_append K entrySize removed kept
  rw [hr] at hs
  have hi : WithinLimit max entrySize data ⟨kept,some time⟩ ↔
      kept=[] ∨ (byteSizeLong entrySize ⟨kept,some time⟩ : ℤ) ≤ max :=
    ⟨fun h => h.bounded,fun h => ⟨h,⟨removed,hr⟩,fun hf => absurd hf ho⟩⟩
  rw [hi,ht]
  refine or_congr_right ?_
  simp only [byteSizeLong,hs]
  omega

def smallConfig : DbConfig ℕ := wireConfig (10^10) 38 fun _ => 29

end Fcp.Client.OpStats

import Fcp.Base.Monitoring
import Mathlib.Data.List.AList

/-!
# The database of operational stats (client/opstats/pds_backed_opstats_db.cc)

The sequence of the stats of all runs is read, changed and written as a whole. Points in time and
durations are nanoseconds. The sizes of the messages are those of any encoding.
-/

namespace Fcp.Client.OpStats

-- The kinds of events, which nothing here tells apart.
variable {K : Type}

structure StatsEvent (K : Type) where
  eventType : K
  timestamp : ℤ
  deriving DecidableEq

structure DatasetStats where
  numExamplesRead : ℤ
  numBytesRead : ℤ

structure RetryWindow where
  retryToken : String
  delayMin : ℤ
  delayMax : ℤ

structure OperationalStats (K : Type) where
  populationName : String
  sessionName : String
  taskName : String
  events : List (StatsEvent K)
  datasetStats : AList fun _ : String => DatasetStats
  errorMessage : String
  retryWindow : Option RetryWindow
  chunkingLayerBytesDownloaded : ℤ
  chunkingLayerBytesUploaded : ℤ
  networkDuration : Option ℤ

structure OpStatsSequence (K : Type) where
  opstats : List (OperationalStats K)
  earliestTrustworthyTime : Option ℤ

structure DbConfig (K : Type) where
  ttl : ℤ
  maxSizeBytes : ℤ
  entrySize : OperationalStats K → ℕ
  sequenceSize : OpStatsSequence K → ℕ

structure DbOutcomes where
  resetTime : ℤ
  time : ℤ
  pruneTime : ℤ
  stampTime : ℤ
  read : Status
  reset : Status
  write : Status

variable (earliestAcceptedTime : ℤ) (cfg : DbConfig K) (time : ℤ) (stats : OperationalStats K)
  (o : DbOutcomes) (data : OpStatsSequence K) (db : OpStatsSequence K)
  (func : OpStatsSequence K → OpStatsSequence K)

def createEmptyData : OpStatsSequence K := ⟨[],some time⟩

def readInternal : StatusOr (OpStatsSequence K) :=
  if o.read.isOk then .ok db
  else .error ⟨.internal,"Failed to read from database, with error message: "++o.read.message⟩

/-- A store that cannot be written keeps its content. -/
def resetInternal : Status × OpStatsSequence K :=
  if o.reset.isOk then (.okStatus,createEmptyData o.resetTime)
  else (⟨.internal,"Failed to reset the database, with error message: " ++
    toString o.reset.code.value⟩,db)

/-- The time of the last event in whole seconds; without events it is the infinite past. -/
def getLastUpdateTime : Option ℤ := stats.events.getLast?.map fun event => event.timestamp/10^9*10^9

def getEarliestTrustworthyTime (opstats : List (OperationalStats K)) : ℤ :=
  ((opstats.findSome? fun stats => stats.events.head?).map (·.timestamp)).getD time

def Outdated : Prop := ∀ lastUpdateTime∈getLastUpdateTime stats,lastUpdateTime<earliestAcceptedTime

instance (earliestAcceptedTime : ℤ) :
    DecidablePred (Outdated (K := K) earliestAcceptedTime) := fun stats =>
  inferInstanceAs (Decidable (∀ lastUpdateTime∈getLastUpdateTime stats,_))

def publishedLimit : ℤ := earliestAcceptedTime/10^6*10^6

def removeOutdatedData (ttl time : ℤ) (data : OpStatsSequence K) : OpStatsSequence K :=
  let earliestAcceptedTime := time-ttl
  let kept := data.opstats.filter fun stats => ¬ Outdated earliestAcceptedTime stats
  { opstats := kept
    earliestTrustworthyTime :=
      if kept.length<data.opstats.length then some (publishedLimit earliestAcceptedTime)
      else data.earliestTrustworthyTime }

def pruneLoop (cfg : DbConfig K) : ℤ → List (OperationalStats K) → List (OperationalStats K)
  | _, [] => []
  | currentSize, stats::rest =>
    if currentSize>cfg.maxSizeBytes then pruneLoop cfg (currentSize-cfg.entrySize stats) rest
    else stats::rest

def pruneOldDataUntilBelowSizeLimit : OpStatsSequence K :=
  if (cfg.sequenceSize data : ℤ)>cfg.maxSizeBytes then
    let kept := pruneLoop cfg (cfg.sequenceSize data) data.opstats
    ⟨kept,some (getEarliestTrustworthyTime time kept)⟩
  else data

def stampTrustworthyTime : OpStatsSequence K :=
  { data with
    earliestTrustworthyTime :=
      some (data.earliestTrustworthyTime.getD (getEarliestTrustworthyTime time data.opstats)) }

def transformData (data : OpStatsSequence K) : OpStatsSequence K :=
  stampTrustworthyTime o.stampTime (pruneOldDataUntilBelowSizeLimit cfg o.pruneTime (func data))

def transform
    (db : OpStatsSequence K) : Status × OpStatsSequence K :=
  match readInternal o db with
  | .error _ =>
    let (status,db) := resetInternal o db
    if status.isOk=false then (status,db)
    else if o.write.isOk then (.okStatus,transformData cfg o func ⟨[],none⟩)
    else (o.write,db)
  | .ok data =>
    if o.write.isOk then
      (.okStatus,transformData cfg o func (removeOutdatedData cfg.ttl o.time data))
    else (o.write,db)

inductive Transformed (cfg : DbConfig K) (o : DbOutcomes)
    (func : OpStatsSequence K → OpStatsSequence K) (db : OpStatsSequence K) :
    Status → OpStatsSequence K → Prop where
  | changed (hread : o.read.isOk=true) (hwrite : o.write.isOk=true) :
      Transformed cfg o func db .okStatus
        (transformData cfg o func (removeOutdatedData cfg.ttl o.time db))
  | unwritten (hread : o.read.isOk=true) (hwrite : o.write.isOk=false) :
      Transformed cfg o func db o.write db
  | unreset (hread : o.read.isOk=false) (hreset : o.reset.isOk=false) {status : Status}
      (hstatus : status.isOk=false) : Transformed cfg o func db status db
  | restarted (hread : o.read.isOk=false) (hreset : o.reset.isOk=true)
      (hwrite : o.write.isOk=true) :
      Transformed cfg o func db .okStatus (transformData cfg o func ⟨[],none⟩)
  | emptied (hread : o.read.isOk=false) (hreset : o.reset.isOk=true)
      (hwrite : o.write.isOk=false) :
      Transformed cfg o func db o.write (createEmptyData o.resetTime)

theorem transformed (db : OpStatsSequence K) :
    Transformed cfg o func db (transform cfg o func db).1 (transform cfg o func db).2 := by
  have hi : ¬ Status.okStatus.isOk=false := by decide
  cases hr : o.read.isOk with
  | true =>
    have hok : readInternal o db=.ok db := if_pos hr
    cases hw : o.write.isOk with
    | true =>
      simp only [transform,hok,if_pos hw]
      exact .changed hr hw
    | false =>
      simp only [transform,hok,hw,Bool.false_eq_true,if_false]
      exact .unwritten hr hw
  | false =>
    have he : ∃ st,readInternal o db=.error st := ⟨_,if_neg (by rw [hr]; decide)⟩
    obtain ⟨st,he⟩:=he
    cases hreset : o.reset.isOk with
    | true =>
      have hempty : resetInternal o db=(.okStatus,createEmptyData o.resetTime) := if_pos hreset
      cases hw : o.write.isOk with
      | true =>
        simp only [transform,he,hempty,if_neg hi,if_pos hw]
        exact .restarted hr hreset hw
      | false =>
        simp only [transform,he,hempty,if_neg hi,hw,Bool.false_eq_true,if_false]
        exact .emptied hr hreset hw
    | false =>
      simp only [transform,he,resetInternal,hreset,Bool.false_eq_true,if_false]
      exact .unreset hr hreset rfl

end Fcp.Client.OpStats

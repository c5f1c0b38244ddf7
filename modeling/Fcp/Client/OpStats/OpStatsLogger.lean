import Fcp.Client.OpStats.OpStatsDb
import Fcp.Lib.Run

/-!
# The logger of one run (client/opstats/opstats_logger_impl.cc)

The first commit appends the message to the sequence in the database, every later one replaces the
last message there.
-/

namespace Fcp.Client.OpStats

variable {K : Type}

structure NetworkStats where
  bytesDownloaded : ℤ
  bytesUploaded : ℤ
  networkDuration : ℤ

inductive LogCall (K : Type) where
  | addEventAndSetTaskName (taskName : String) (event : K) (time : ℤ)
  | addEvent (event : K) (time : ℤ)
  | addEventWithErrorMessage (event : K) (errorMessage : String) (time : ℤ)
  | updateDatasetStats (collectionUri : String) (additionalExampleCount : ℤ)
      (additionalExampleSizeBytes : ℤ)
  | setNetworkStats (networkStats : NetworkStats)
  | setRetryWindow (retryWindow : RetryWindow)

def addNewEventToStats (stats : OperationalStats K) (kind : K) (time : ℤ) : OperationalStats K :=
  { stats with events := stats.events++[⟨kind,time⟩] }

def LogCall.apply (stats : OperationalStats K) : LogCall K → OperationalStats K
  | .addEventAndSetTaskName taskName event time =>
    { addNewEventToStats stats event time with taskName := taskName }
  | .addEvent event time => addNewEventToStats stats event time
  | .addEventWithErrorMessage event errorMessage time =>
    let stats := addNewEventToStats stats event time
    -- An error message that is there already stays.
    if stats.errorMessage="" then { stats with errorMessage := errorMessage } else stats
  | .updateDatasetStats collectionUri additionalExampleCount additionalExampleSizeBytes =>
    let dataset := (stats.datasetStats.lookup collectionUri).getD ⟨0,0⟩
    let dataset : DatasetStats :=
      { numExamplesRead := dataset.numExamplesRead+additionalExampleCount
        numBytesRead := dataset.numBytesRead+additionalExampleSizeBytes }
    { stats with datasetStats := stats.datasetStats.insert collectionUri dataset }
  | .setNetworkStats networkStats =>
    { stats with
      chunkingLayerBytesDownloaded := networkStats.bytesDownloaded
      chunkingLayerBytesUploaded := networkStats.bytesUploaded
      networkDuration := some networkStats.networkDuration }
  | .setRetryWindow retryWindow =>
    { stats with retryWindow := some { retryWindow with retryToken := "" } }

structure OpStatsLogger (K : Type) where
  stats : OperationalStats K
  alreadyCommitted : Bool

def newLogger (sessionName populationName : String) : OpStatsLogger K where
  stats :=
    { populationName := populationName
      sessionName := sessionName
      taskName := ""
      events := []
      datasetStats := ∅
      errorMessage := ""
      retryWindow := none
      chunkingLayerBytesDownloaded := 0
      chunkingLayerBytesUploaded := 0
      networkDuration := none }
  alreadyCommitted := false

def storeStats (logger : OpStatsLogger K) (data : OpStatsSequence K) : OpStatsSequence K :=
  if logger.alreadyCommitted then
    if data.opstats=[] then { data with opstats := [logger.stats] }
    else { data with opstats := data.opstats.dropLast++[logger.stats] }
  else { data with opstats := data.opstats++[logger.stats] }

def commitToStorage (cfg : DbConfig K) (o : DbOutcomes) (logger : OpStatsLogger K)
    (db : OpStatsSequence K) : Status × OpStatsLogger K × OpStatsSequence K :=
  let (status,db) := transform cfg o (storeStats logger) db
  (status,{ logger with alreadyCommitted := true },db)

inductive LoggerEvent (K : Type) where
  | log (call : LogCall K)
  | commit (o : DbOutcomes)

/-- The logger and what the store holds. Whether the last entry of the store is one that this
logger has written is kept for the record; no code reads it. -/
structure LoggerState (K : Type) where
  logger : OpStatsLogger K
  db : OpStatsSequence K
  lastIsOwn : Bool

def ownAfter (o : DbOutcomes) (db : OpStatsSequence K) (lastIsOwn : Bool) : Bool :=
  if o.read.isOk=false ∧ o.reset.isOk=false then lastIsOwn
  else if o.write.isOk then !db.opstats.isEmpty
  else if o.read.isOk then lastIsOwn
  else false

def loggerStep (cfg : DbConfig K) (s : LoggerState K) : LoggerEvent K → Except Unit (LoggerState K)
  | .log call =>
    .ok { s with logger := { s.logger with stats := call.apply s.logger.stats } }
  | .commit o =>
    let (_,logger,db) := commitToStorage cfg o s.logger s.db
    .ok ⟨logger,db,ownAfter o db s.lastIsOwn⟩

def start (sessionName populationName : String) (db : OpStatsSequence K) : LoggerState K :=
  ⟨newLogger sessionName populationName,db,false⟩

end Fcp.Client.OpStats

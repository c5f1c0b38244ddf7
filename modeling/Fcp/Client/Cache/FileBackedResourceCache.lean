import Fcp.Client.Cache.FileSystem
import Fcp.Lib.Run
import Mathlib.Data.List.Sort

/-!
# The resource cache (client/cache/file_backed_resource_cache.cc)

Every operation of the file system and of the manifest's store may fail; which ones do is given to
each call. Times are whole nanoseconds.
-/

namespace Fcp.Client.Cache

variable {M : Type}

structure CachedResource (M : Type) where
  fileName : Name
  metadata : M
  expiryTime : ℤ
  lastAccessedTime : ℤ

abbrev Manifest (M : Type) := AList fun _ : Name => CachedResource M

inductive AccessKind where
  | read
  | write
  | delete
  deriving DecidableEq

structure Access where
  kind : AccessKind
  location : Location
  deriving DecidableEq

/-- What survives a process, with the accesses made so far. The manifest is missing when its file
does not exist or is empty. -/
structure Disk (M : Type) where
  fs : FileSystem
  manifest : Option (Manifest M)
  log : List Access

structure Outcomes where
  cleanUpTime : ℤ
  time : ℤ
  cacheDirCreated : Bool
  manifestDirCreated : Bool
  manifestSizeKnown : Bool
  manifestInitialized : Bool
  manifestRead : Bool
  manifestWritten : Bool
  manifestDeleted : Bool
  iterated : Bool
  existenceKnown : Bool
  fileRead : Bool
  writeStops : Option ℕ
  fileCreated : Bool
  removable : Location → Bool
  sizeKnown : Location → Bool
  errorValue : ℤ
  errorMessage : String

structure Outcomes.Succeed (o : Outcomes) : Prop where
  cacheDirCreated : o.cacheDirCreated=true
  manifestDirCreated : o.manifestDirCreated=true
  manifestSizeKnown : o.manifestSizeKnown=true
  manifestInitialized : o.manifestInitialized=true
  manifestRead : o.manifestRead=true
  manifestWritten : o.manifestWritten=true
  iterated : o.iterated=true
  existenceKnown : o.existenceKnown=true
  fileRead : o.fileRead=true
  writeStops : o.writeStops=none
  fileCreated : o.fileCreated=true
  removable : ∀ loc,o.removable loc=true
  sizeKnown : ∀ loc,o.sizeKnown loc=true

variable (cleanUpTime time : ℤ)

def Outcomes.smooth : Outcomes where
  cleanUpTime := cleanUpTime
  time := time
  cacheDirCreated := true
  manifestDirCreated := true
  manifestSizeKnown := true
  manifestInitialized := true
  manifestRead := true
  manifestWritten := true
  manifestDeleted := true
  iterated := true
  existenceKnown := true
  fileRead := true
  writeStops := none
  fileCreated := true
  removable _ := true
  sizeKnown _ := true
  errorValue := 0
  errorMessage := ""

theorem Outcomes.smooth_succeed : (smooth cleanUpTime time).Succeed where
  cacheDirCreated := rfl
  manifestDirCreated := rfl
  manifestSizeKnown := rfl
  manifestInitialized := rfl
  manifestRead := rfl
  manifestWritten := rfl
  iterated := rfl
  existenceKnown := rfl
  fileRead := rfl
  writeStops := rfl
  fileCreated := rfl
  removable _ := rfl
  sizeKnown _ := rfl

/-- The order in which `std::sort` puts the entries; it is free among equal times. -/
structure LruSort where
  sort : List (Name × ℤ) → List (Name × ℤ)
  perm : ∀ l,(sort l).Perm l
  sorted : ∀ l,(sort l).Pairwise fun a b => a.2≤b.2

def LruSort.insertion : LruSort where
  sort := List.insertionSort fun a b => a.2≤b.2
  perm := List.perm_insertionSort _
  sorted l := have : IsTrans (Name × ℤ) fun a b => a.2≤b.2 := ⟨fun _ _ _ => Int.le_trans⟩
    have : Std.Total fun a b : Name × ℤ => a.2≤b.2 := ⟨fun a b => Int.le_total a.2 b.2⟩
    List.pairwise_insertionSort _ l

def toUnsigned (n : ℤ) : ℕ := (n%2^64).toNat

def internalError (message : String) : Status := ⟨.internal,message⟩

def showName (s : Name) : String := String.ofList s

def showPath (path : Path) : String := String.ofList (path.flatMap ('/'::·))

namespace Disk

def remove (o : Outcomes) (d : Disk M) (path : Path) : Disk M × Bool :=
  match d.fs.locate path with
  | none => (d,true)
  | some loc =>
    if ¬ d.fs.isThere loc then (d,true)
    else if o.removable loc=false then (d,false)
    else if loc∈d.fs.files then
      ({ d with
        fs := d.fs.eraseFile loc
        log := d.log++[⟨.delete,loc⟩] },true)
    else if d.fs.children loc=[] then
      ({ d with
        fs := { d.fs with dirs := d.fs.dirs.filter (·≠loc) }
        log := d.log++[⟨.delete,loc⟩] },true)
    else (d,false)

def fileSize (o : Outcomes) (d : Disk M) (path : Path) : Option ℕ := do
  let loc ← d.fs.locate path
  let content ← d.fs.files.lookup loc
  if o.sizeKnown loc then some content.length else none

def readFileToCord (o : Outcomes) (d : Disk M) (path : Path) : Option Bytes × Disk M :=
  match d.fs.locate path with
  | none => (none,d)
  | some loc =>
    match d.fs.files.lookup loc with
    | none => (none,d)
    | some content =>
      if o.fileRead then (some content,{ d with log := d.log++[⟨.read,loc⟩] })
      else (none,d)

def writeCordToFile (o : Outcomes) (d : Disk M) (path : Path) (fileName : String)
    (content : Bytes) : Status × Disk M :=
  match d.fs.locate path with
  | none => (internalError ("cannot create file "++fileName),d)
  | some loc =>
    if o.fileCreated=false ∨ loc∈d.fs.dirs ∨ loc.dropLast∉d.fs.dirs then
      (internalError ("cannot create file "++fileName),d)
    else
      match o.writeStops with
      | none => (.okStatus,
          { d with
            fs := d.fs.putFile loc content
            log := d.log++[⟨.write,loc⟩] })
      | some n => (internalError ("error writing to file "++fileName),
          { d with
            fs := d.fs.putFile loc (content.take n)
            log := d.log++[⟨.write,loc⟩] })

def deleteManifest (o : Outcomes) (d : Disk M) : Disk M :=
  if o.manifestDeleted then { d with manifest := none } else d

def readInternal (o : Outcomes) (d : Disk M) : StatusOr (Manifest M) × Disk M :=
  match d.manifest, o.manifestRead with
  | some manifest, true => (.ok manifest,d)
  | _, _ => (.error (internalError ("Failed to read from database, with error message: " ++
      o.errorMessage)),d.deleteManifest o)

def writeInternal (o : Outcomes) (written : Bool) (d : Disk M) (manifest : Manifest M) :
    Status × Disk M :=
  if written then (.okStatus,{ d with manifest := some manifest })
  else (internalError o.errorMessage,d.deleteManifest o)

end Disk

structure Config where
  dir : Location
  manifestDir : String
  lru : LruSort
  plain : ∀ name∈dir,Plain name

def Config.filePath (cfg : Config) (fileName : Name) : Path := join cfg.dir (cString fileName)

def Config.filePathString (cfg : Config) (fileName : Name) : String :=
  if fileName.head?=some '/' then showName fileName else showPath cfg.dir++"/"++showName fileName

def eraseEntries (m : Manifest M) (ids : List Name) : Manifest M :=
  ids.foldl (fun m id => m.erase id) m

structure CleanUpResult (M : Type) where
  status : Status
  manifest : Manifest M
  disk : Disk M
  expired : List Name
  evicted : List Name

section CleanUp

variable (cfg : Config) (o : Outcomes)

def expireStep (acc : List Path × List Name) (e : (_ : Name) × CachedResource M) :
    List Path × List Name :=
  let resourceFile := join cfg.dir e.2.fileName
  if e.2.expiryTime<o.cleanUpTime ∨ resourceFile∉acc.1 then (acc.1,acc.2++[e.1])
  else (acc.1.filter (·≠resourceFile),acc.2)

def removeStep (acc : Disk M × Status) (file : Path) : Disk M × Status :=
  let (d,removed) := acc.1.remove o file
  if removed=false ∧ acc.2.isOk then
    (d,internalError ("Failed to delete file. Error code: "++toString o.errorValue ++
      ", message: "++o.errorMessage))
  else (d,acc.2)

structure Measured (M : Type) where
  disk : Disk M
  status : Status
  cacheDirSize : ℕ

def measureStep (acc : Measured M) (e : (_ : Name) × CachedResource M) : Measured M :=
  let resourceFile := cfg.filePath e.2.fileName
  if acc.disk.fs.pathExists resourceFile=false then acc
  else
    match acc.disk.fileSize o resourceFile with
    | some size => { acc with cacheDirSize := (acc.cacheDirSize+size)%2^64 }
    | none =>
      { acc with
        disk := (acc.disk.remove o resourceFile).1
        status := if acc.status.isOk then
            internalError ("Error getting file size. Error code: "++toString o.errorValue ++
              ", message: "++o.errorMessage)
          else acc.status }

structure Eviction (M : Type) where
  disk : Disk M
  manifest : Manifest M
  status : Status
  cacheDirSize : ℕ
  evicted : List Name

/-- The body of the eviction loop. A size that cannot be had is the largest `uintmax_t`. -/
def evictStep (acc : Eviction M) (cacheId : Name) (resource : CachedResource M) : Eviction M :=
  let fileToRemove := cfg.filePath resource.fileName
  let size := acc.disk.fileSize o fileToRemove
  let (d,removed) := acc.disk.remove o fileToRemove
  { disk := d
    manifest := acc.manifest.erase cacheId
    status :=
      if size=none ∧ acc.status.isOk then
        internalError ("Error getting file size. Error code: "++toString o.errorValue ++
          ", message: "++o.errorMessage)
      else if removed=false ∧ acc.status.isOk then
        internalError ("Failed to delete file. Error code: "++toString o.errorValue ++
          ", message: "++o.errorMessage)
      else acc.status
    cacheDirSize := (acc.cacheDirSize+(2^64-size.getD (2^64-1)))%2^64
    evicted := acc.evicted++[cacheId] }

def evictLoop (allowed : ℕ) : List (Name × ℤ) → Eviction M → Eviction M
  | [], acc => acc
  | (cacheId,_)::rest, acc =>
    match acc.manifest.lookup cacheId with
    | none => evictLoop allowed rest acc
    | some resource =>
      let acc := evictStep cfg o acc cacheId resource
      if acc.cacheDirSize<allowed then acc else evictLoop allowed rest acc

def makeRoom (allowed : ℕ) (manifest : Manifest M) (m : Measured M) : Eviction M :=
  let start : Eviction M := ⟨m.disk,manifest,m.status,m.cacheDirSize,[]⟩
  if m.cacheDirSize>allowed then
    evictLoop cfg o allowed
      (cfg.lru.sort (manifest.entries.map fun e => (e.1,e.2.lastAccessedTime))) start
  else start

def cleanUp (maxSize : ℤ) (reserved : Option ℤ) (manifest : Manifest M) (d : Disk M) :
    CleanUpResult M :=
  if o.iterated=false then
    ⟨internalError ("Error iterating over cache dir. Error code: "++toString o.errorValue ++
      " message: "++o.errorMessage),manifest,d,[],[]⟩
  else
    let files : List Path := (d.fs.children cfg.dir).map fun name => cfg.dir++[name]
    let (strays,toDelete) := manifest.entries.foldl (expireStep cfg o) (files,[])
    let manifest := eraseEntries manifest toDelete
    let (d,status) := strays.foldl (removeStep o) (d,.okStatus)
    if status.isOk=false then ⟨status,manifest,d,toDelete,[]⟩
    else
      let m := manifest.entries.foldl (measureStep cfg o) ⟨d,.okStatus,0⟩
      if m.status.isOk=false then ⟨m.status,manifest,m.disk,toDelete,[]⟩
      else
        let e := makeRoom cfg o (toUnsigned (maxSize-reserved.getD 0)) manifest m
        ⟨e.status,e.manifest,e.disk,toDelete,e.evicted⟩

end CleanUp

structure Report (M : Type) where
  status : Status
  fetched : Option (Bytes × M)
  expired : List Name
  evicted : List Name

def Report.failed (status : Status) : Report M := ⟨status,none,[],[]⟩

def Manifest.insertNew (manifest : Manifest M) (cacheId : Name) (resource : CachedResource M) :
    Manifest M :=
  if cacheId∈manifest then manifest else manifest.insert cacheId resource

section Calls

variable (cfg : Config) (o : Outcomes) (maxSize : ℤ) (d : Disk M) (cacheId : Name)
  (resource : Bytes)

def putFileIfMissing : Status × Disk M :=
  if o.existenceKnown=false then
    (internalError ("Failed to check if cached resource already exists with error code: " ++
      toString o.errorValue),d)
  else if d.fs.pathExists (cfg.filePath cacheId) then (.okStatus,d)
  else d.writeCordToFile o (cfg.filePath cacheId) (cfg.filePathString cacheId) resource

def put (metadata : M)
    (maxAge : ℤ) : Report M × Disk M :=
  if resource.length>toUnsigned (maxSize.tdiv 2) then
    (.failed ⟨.resourceExhausted,showName cacheId++" too large"⟩,d)
  else
    match d.readInternal o with
    | (.error status,d) => (.failed status,d)
    | (.ok manifest,d) =>
      let c := cleanUp cfg o maxSize (some resource.length) manifest d
      if c.status.isOk=false then (⟨c.status,none,c.expired,c.evicted⟩,c.disk)
      else
        let manifest := c.manifest.insertNew cacheId
          ⟨cacheId,metadata,o.time+maxAge,o.time⟩
        let (status,d) := c.disk.writeInternal o o.manifestWritten manifest
        if status.isOk=false then (⟨status,none,c.expired,c.evicted⟩,d)
        else
          let (status,d) := putFileIfMissing cfg o d cacheId resource
          (⟨status,none,c.expired,c.evicted⟩,d)

def notFound (cacheId : Name) : Status := ⟨.notFound,showName cacheId++" not found"⟩

def get (maxAge : Option ℤ) : Report M × Disk M :=
  match d.readInternal o with
  | (.error status,d) => (.failed status,d)
  | (.ok manifest,d) =>
    match manifest.lookup cacheId with
    | none => (.failed (notFound cacheId),d)
    | some cached =>
      let cached' : CachedResource M :=
        { cached with
          lastAccessedTime := o.time
          expiryTime := (maxAge.map (o.time+·)).getD cached.expiryTime }
      match d.readFileToCord o (cfg.filePath cacheId) with
      | (none,d) =>
        let (d,removed) := d.remove o (cfg.filePath cacheId)
        if removed then (.failed (notFound cacheId),d)
        else (.failed (internalError o.errorMessage),d)
      | (some contents,d) =>
        let (status,d) := d.writeInternal o o.manifestWritten
          ((manifest.erase cacheId).insert cacheId cached')
        if status.isOk=false then (.failed status,d)
        else (⟨.okStatus,some (contents,cached.metadata),[],[]⟩,d)

def ensureManifest : Status × Disk M :=
  match d.manifest with
  | none => d.writeInternal o o.manifestInitialized ∅
  | some _ => (.okStatus,d)

def initializeCache : Report M × Disk M :=
  if o.manifestSizeKnown=false then
    (.failed (internalError ("Error in initialize: Failed to get file size of cache manifest: " ++
      o.errorMessage)),d)
  else
    let (status,d) := ensureManifest o d
    if status.isOk=false then
      (.failed (internalError ("Error in initialize: " ++
        "Failed to initialize cache manifest for the first time: "++status.message)),d)
    else
      match d.readInternal o with
      | (.error status,d) =>
        (.failed (internalError ("Error in initialize: Failed to read manifest: " ++
          status.message)),d)
      | (.ok manifest,d) =>
        let c := cleanUp cfg o maxSize none manifest d
        if c.status.isOk=false then
          (⟨internalError ("Error in initialize: Failed to clean up resource cache: " ++
            c.status.message),none,c.expired,c.evicted⟩,c.disk)
        else
          let (status,d) := c.disk.writeInternal o o.manifestWritten c.manifest
          if status.isOk=false then
            (⟨internalError ("Error in initialize: " ++
              "Failed to write cleaned up resource cache: "++status.message),none,c.expired,
              c.evicted⟩,d)
          else (⟨.okStatus,none,c.expired,c.evicted⟩,d)

def create (maxSize : ℤ) (d : Disk M) : Report M × Disk M :=
  if o.cacheDirCreated=false then
    (.failed (internalError ("Failed to create FileBackedResourceCache cache directory " ++
      showPath cfg.dir)),d)
  else
    let d : Disk M :=
      { d with fs := { d.fs with
        dirs := d.fs.dirs++cfg.dir.inits.filter fun loc => loc∉d.fs.dirs } }
    if o.manifestDirCreated=false then
      (.failed (internalError ("Failed to create directory "++cfg.manifestDir)),d)
    else initializeCache cfg o maxSize d

end Calls

inductive Call (M : Type) where
  | create (maxSize : ℤ)
  | put (cacheId : Name) (resource : Bytes) (metadata : M) (maxAge : ℤ)
  | get (cacheId : Name) (maxAge : Option ℤ)

structure Event (M : Type) where
  call : Call M
  outcomes : Outcomes

structure CacheState (M : Type) where
  disk : Disk M
  maxSize : Option ℤ

def perform (cfg : Config) (s : CacheState M) (event : Event M) :
    Option (Report M × CacheState M) :=
  match event.call, s.maxSize with
  | .create maxSize, _ =>
    let (report,d) := create cfg event.outcomes maxSize s.disk
    some (report,⟨d,if report.status.isOk then some maxSize else none⟩)
  | .put cacheId resource metadata maxAge, some maxSize =>
    let (report,d) := put cfg event.outcomes maxSize s.disk cacheId resource metadata maxAge
    some (report,⟨d,s.maxSize⟩)
  | .get cacheId maxAge, some _ =>
    let (report,d) := get cfg event.outcomes s.disk cacheId maxAge
    some (report,⟨d,s.maxSize⟩)
  | _, none => none

def cacheStep (cfg : Config) (s : CacheState M) (event : Event M) : Except Unit (CacheState M) :=
  match perform cfg s event with
  | none => .error ()
  | some (_,s') => .ok s'

end Fcp.Client.Cache

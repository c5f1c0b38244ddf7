import Fcp.Client.Cache.LastPut

/-!
# The cache touches only its own files

Operations may fail in any way; as long as identifiers are plain file names, every access is to a
file of the directory, and what is read or deleted there was written by the cache.
-/

namespace Fcp.Client.Cache

open List

variable {M : Type} {cfg : Config} {o : Outcomes} {d : Disk M} {m : Manifest M} {id name : Name}

def Owns (cfg : Config) (log : List Access) : Prop :=
  ∀ before access after,log=before++access::after → (∃ name,access.location=cfg.fileAt name) ∧
      (access.kind≠.write → ⟨.write,access.location⟩∈before)

theorem Owns.concat {log : List Access} (h : Owns cfg log) {kind : AccessKind}
    (hw : kind≠.write → ⟨.write,cfg.fileAt name⟩∈log) :
    Owns cfg (log++[⟨kind,cfg.fileAt name⟩]) := by
  intro before access after heq
  rcases eq_nil_or_concat after with rfl | ⟨after,last,rfl⟩
  · obtain ⟨rfl,hl⟩:=append_inj' heq rfl
    cases hl
    exact ⟨⟨name,rfl⟩,hw⟩
  · have ha : log++[⟨kind,cfg.fileAt name⟩]=(before++access::after)++[last] := by simpa using heq
    exact h before access after (append_inj' ha rfl).1

structure OwnFiles (cfg : Config) (d : Disk M) : Prop where
  noSubdirs : ∀ name,cfg.fileAt name∉d.fs.dirs
  written : ∀ name,cfg.fileAt name∈d.fs.files → Plain name ∧ ⟨.write,cfg.fileAt name⟩∈d.log
  names : ∀ m,d.manifest=some m → NamesFiles m
  owns : Owns cfg d.log

theorem locate_fileAt {fs : FileSystem} {loc : Location} (hname : Plain name)
    (h : fs.locate (cfg.fileAt name)=some loc) : loc=cfg.fileAt name := by
  have hp : ∀ n∈cfg.fileAt name,Plain n := by
    intro n hn
    rcases mem_append.mp hn with hd | hl
    · exact cfg.plain n hd
    · rw [mem_singleton.mp hl]
      exact hname
  simpa using FileSystem.walk_plain hp h

namespace OwnFiles

section

variable (h : OwnFiles cfg d)
include h

section

variable (hname : Plain name)
include hname

theorem remove : OwnFiles cfg (d.remove o (cfg.fileAt name)).1 := by
  unfold Disk.remove
  split
  · exact h
  next loc hl =>
    obtain rfl:=locate_fileAt hname hl
    split
    · exact h
    split
    · exact h
    split
    next hf =>
      refine ⟨h.noSubdirs,?_,h.names,h.owns.concat fun _ => (h.written name hf).2⟩
      intro other ho
      obtain ⟨hp,hw⟩:=h.written other (AList.mem_erase.mp ho).2
      exact ⟨hp,mem_append_left _ hw⟩
    · -- A directory in the place of a file is excluded.
      rename_i ht _ hf
      have hd : cfg.fileAt name∈d.fs.dirs :=
        (FileSystem.isThere_eq_true.mp (not_not.mp ht)).resolve_right hf
      exact absurd hd (h.noSubdirs name)

theorem readFileToCord : OwnFiles cfg (d.readFileToCord o (cfg.fileAt name)).2 := by
  unfold Disk.readFileToCord
  split
  · exact h
  next loc hl =>
    obtain rfl:=locate_fileAt hname hl
    split
    · exact h
    next content hc =>
      have hf:=mem_of_lookup hc
      split_ifs
      · refine ⟨h.noSubdirs,?_,h.names,h.owns.concat fun _ => (h.written name hf).2⟩
        exact fun other ho => (h.written other ho).imp_right (mem_append_left _)
      · exact h

theorem putFile (body : Bytes) : OwnFiles cfg { d with
        fs := d.fs.putFile (cfg.fileAt name) body
        log := d.log++[⟨.write,cfg.fileAt name⟩] } := by
  refine ⟨h.noSubdirs,?_,h.names,h.owns.concat nofun⟩
  intro other ho
  rcases (mem_putFile other name body).mp ho with rfl | hold
  · exact ⟨hname,by simp⟩
  · exact (h.written other hold).imp_right (mem_append_left _)

theorem writeCordToFile (fileName : String) (body : Bytes) :
    OwnFiles cfg (d.writeCordToFile o (cfg.fileAt name) fileName body).2 := by
  unfold Disk.writeCordToFile
  split
  · exact h
  next loc hl =>
    obtain rfl:=locate_fileAt hname hl
    split_ifs
    · exact h
    · split
      · exact h.putFile hname body
      · exact h.putFile hname _

end

theorem withManifest (hm : NamesFiles m) : OwnFiles cfg { d with manifest := some m } where
  noSubdirs := h.noSubdirs
  written := h.written
  names m' hm' := by
    cases hm'
    exact hm
  owns := h.owns

theorem deleteManifest : OwnFiles cfg (d.deleteManifest o) := by
  unfold Disk.deleteManifest
  split_ifs
  · exact ⟨h.noSubdirs,h.written,nofun,h.owns⟩
  · exact h

theorem writeInternal (hm : NamesFiles m) (written : Bool) :
    OwnFiles cfg (d.writeInternal o written m).2 := by
  unfold Disk.writeInternal
  split_ifs
  · exact h.withManifest hm
  · exact h.deleteManifest

theorem readInternal : OwnFiles cfg (d.readInternal o).2 := by
  unfold Disk.readInternal
  split
  · exact h
  · exact h.deleteManifest

theorem names_of_read (hm : (d.readInternal o).1=.ok m) : NamesFiles m := by
  unfold Disk.readInternal at hm
  split at hm
  next stored hs _ =>
    cases hm
    exact h.names m hs
  · cases hm

end

end OwnFiles

theorem removeStep_fst (acc : Disk M × Status) (file : Path) :
    (removeStep o acc file).1=(acc.1.remove o file).1 := by
  unfold removeStep
  dsimp only
  split_ifs <;> rfl

variable (o) in
theorem own_foldl_removeStep {strays : List Path} {acc : Disk M × Status}
    (hs : ∀ file∈strays,∃ name,Plain name ∧ file=cfg.fileAt name)
    (h : OwnFiles cfg acc.1) : OwnFiles cfg (strays.foldl (removeStep o) acc).1 := by
  induction strays generalizing acc with
  | nil => exact h
  | cons file strays ih =>
    obtain ⟨name,hname,rfl⟩:=hs file (mem_cons_self ..)
    apply ih fun other ho => hs other (mem_cons_of_mem _ ho)
    rw [removeStep_fst]
    exact h.remove hname

variable (cfg o) in
theorem foldl_expireStep_subset (es : List ((_ : Name) × CachedResource M))
    (acc : List Path × List Name) : (es.foldl (expireStep cfg o) acc).1 ⊆ acc.1 := by
  induction es generalizing acc with
  | nil => exact fun _ h => h
  | cons e es ih =>
    intro file hf
    have hs:=ih (expireStep cfg o acc e) hf
    unfold expireStep at hs
    dsimp only at hs
    split_ifs at hs
    · exact hs
    · exact (mem_filter.mp hs).1

variable (o) in
theorem own_foldl_measureStep {es : List ((_ : Name) × CachedResource M)} {acc : Measured M}
    (he : ∀ e∈es,Plain e.2.fileName) (h : OwnFiles cfg acc.disk) :
    OwnFiles cfg (es.foldl (measureStep cfg o) acc).disk := by
  induction es generalizing acc with
  | nil => exact h
  | cons e es ih =>
    apply ih fun other ho => he other (mem_cons_of_mem _ ho)
    have hp:=he e (mem_cons_self ..)
    unfold measureStep
    dsimp only
    split
    · exact h
    · split
      · exact h
      · rw [Config.filePath_eq hp]
        exact h.remove hp

theorem own_evictLoop {allowed : ℕ} {order : List (Name × ℤ)} {acc : Eviction M}
    (h : OwnFiles cfg acc.disk) (hm : NamesFiles acc.manifest) :
    OwnFiles cfg (evictLoop cfg o allowed order acc).disk ∧
      NamesFiles (evictLoop cfg o allowed order acc).manifest := by
  induction order generalizing acc with
  | nil => exact ⟨h,hm⟩
  | cons next order ih =>
    obtain ⟨cacheId,time⟩:=next
    unfold evictLoop
    split
    · exact ih h hm
    next res hr =>
      obtain ⟨hp,hf⟩:=hm cacheId res hr
      have hd : OwnFiles cfg (evictStep cfg o acc cacheId res).disk := by
        show OwnFiles cfg (acc.disk.remove o (cfg.filePath res.fileName)).1
        rw [hf,Config.filePath_eq hp]
        exact h.remove hp
      have hmanifest:=hm.eraseEntries [cacheId]
      dsimp only
      split_ifs
      · exact ⟨hd,hmanifest⟩
      · exact ih hd hmanifest

theorem own_makeRoom {allowed : ℕ} {measured : Measured M} (h : OwnFiles cfg measured.disk)
    (hm : NamesFiles m) :
    OwnFiles cfg (makeRoom cfg o allowed m measured).disk ∧
      NamesFiles (makeRoom cfg o allowed m measured).manifest := by
  unfold makeRoom
  dsimp only
  split
  · exact own_evictLoop h hm
  · exact ⟨h,hm⟩

variable (o) in
theorem own_cleanUp (maxSize : ℤ) (reserved : Option ℤ) (h : OwnFiles cfg d) (hm : NamesFiles m) :
    OwnFiles cfg (cleanUp cfg o maxSize reserved m d).disk ∧
      NamesFiles (cleanUp cfg o maxSize reserved m d).manifest := by
  unfold cleanUp
  split_ifs
  · exact ⟨h,hm⟩
  · have hsub:=foldl_expireStep_subset cfg o m.entries
      ((d.fs.children cfg.dir).map fun name => cfg.dir++[name],[])
    obtain ⟨⟨strays,del⟩,hexpired⟩ : ∃ acc,m.entries.foldl (expireStep cfg o)
      ((d.fs.children cfg.dir).map fun name => cfg.dir++[name],[])=acc := ⟨_,rfl⟩
    rw [hexpired] at hsub
    have hs : ∀ file∈strays,∃ name,Plain name ∧ file=cfg.fileAt name := by
      intro file hf
      obtain ⟨name,hname,rfl⟩:=mem_map.mp (hsub hf)
      have ht:=(FileSystem.mem_children.mp hname).resolve_right (h.noSubdirs name)
      exact ⟨name,(h.written name ht).1,rfl⟩
    have hr : OwnFiles cfg (strays.foldl (removeStep o) (d,.okStatus)).1 :=
      own_foldl_removeStep o hs h
    have hk : NamesFiles (eraseEntries m del) := hm.eraseEntries del
    simp only [hexpired]
    obtain ⟨⟨d₁,st⟩,hfold⟩ : ∃ acc,strays.foldl (removeStep o) (d,.okStatus)=acc := ⟨_,rfl⟩
    rw [hfold] at hr
    simp only [hfold]
    split
    · exact ⟨hr,hk⟩
    have hentries : ∀ e∈(eraseEntries m del).entries,Plain e.2.fileName := by
      intro e he
      obtain ⟨hp,hf⟩:=hk e.1 e.2 (mem_entries.mp he)
      exact hf ▸ hp
    have hmeasured : OwnFiles cfg ((eraseEntries m del).entries.foldl (measureStep cfg o)
        ⟨d₁,.okStatus,0⟩).disk := own_foldl_measureStep o hentries hr
    split
    · exact ⟨hmeasured,hk⟩
    · exact own_makeRoom hmeasured hk

section

variable (h : OwnFiles cfg d)
include h

theorem own_readInternal : ∃ result d',d.readInternal o=(result,d') ∧
    OwnFiles cfg d' ∧ ∀ m,result=.ok m → NamesFiles m := by
  refine ⟨_,_,rfl,h.readInternal,fun m hm => h.names_of_read hm⟩

theorem own_putFileIfMissing (hid : Plain id) (res : Bytes) :
    OwnFiles cfg (putFileIfMissing cfg o d id res).2 := by
  unfold putFileIfMissing
  split
  · exact h
  split
  · exact h
  · rw [Config.filePath_eq hid]
    exact h.writeCordToFile hid _ res

theorem own_put (hid : Plain id) (maxSize : ℤ) (res : Bytes) (metadata : M) (age : ℤ) :
    OwnFiles cfg (put cfg o maxSize d id res metadata age).2 := by
  unfold put
  split
  · exact h
  obtain ⟨result,d₁,hr,h₁,hname⟩:=own_readInternal (o := o) h
  rw [hr]
  cases result with
  | error st => exact h₁
  | ok manifest =>
    obtain ⟨h₂,hm⟩:=own_cleanUp o maxSize (some (res.length : ℤ)) h₁ (hname manifest rfl)
    dsimp only
    split
    · exact h₂
    have hi : NamesFiles ((cleanUp cfg o maxSize (some (res.length : ℤ)) manifest
        d₁).manifest.insertNew id ⟨id,metadata,o.time+age,o.time⟩) := by
      unfold Manifest.insertNew
      split
      · exact hm
      · exact hm.insert hid rfl
    have h₃:=h₂.writeInternal (o := o) hi o.manifestWritten
    split
    · exact h₃
    · exact own_putFileIfMissing h₃ hid res

theorem own_get (age : Option ℤ) : OwnFiles cfg (get cfg o d id age).2 := by
  unfold get
  obtain ⟨result,d₁,hr,h₁,hname⟩:=own_readInternal (o := o) h
  rw [hr]
  cases result with
  | error st => exact h₁
  | ok manifest =>
    dsimp only
    split
    · exact h₁
    next cached hc =>
      have hm:=hname manifest rfl
      obtain ⟨hid,hf⟩:=hm id cached hc
      have h₂:=h₁.readFileToCord (o := o) hid
      rw [Config.filePath_eq hid]
      obtain ⟨⟨body,d₂⟩,hcontent⟩ : ∃ r,d₁.readFileToCord o (cfg.fileAt id)=r := ⟨_,rfl⟩
      rw [hcontent] at h₂ ⊢
      cases body with
      | none =>
        dsimp only
        split <;> exact h₂.remove hid
      | some body =>
        have hi:=(hm.eraseEntries [id]).insert (r := touched o age cached) hid hf
        have h₃:=h₂.writeInternal (o := o) hi o.manifestWritten
        dsimp only
        split <;> exact h₃

theorem own_ensureManifest : OwnFiles cfg (ensureManifest o d).2 := by
  unfold ensureManifest
  split
  · apply h.writeInternal
    intro id r hr
    simp at hr
  · exact h

theorem own_initializeCache (maxSize : ℤ) : OwnFiles cfg (initializeCache cfg o maxSize d).2 := by
  unfold initializeCache
  split
  · exact h
  have h₁:=own_ensureManifest (o := o) h
  obtain ⟨⟨st,d₁⟩,he⟩ : ∃ r,ensureManifest o d=r := ⟨_,rfl⟩
  rw [he] at h₁ ⊢
  dsimp only
  split
  · exact h₁
  obtain ⟨result,d₂,hr,h₂,hname⟩:=own_readInternal (o := o) h₁
  rw [hr]
  cases result with
  | error st => exact h₂
  | ok manifest =>
    obtain ⟨h₃,hm⟩:=own_cleanUp o maxSize none h₂ (hname manifest rfl)
    dsimp only
    split
    · exact h₃
    have h₄:=h₃.writeInternal (o := o) hm o.manifestWritten
    split <;> exact h₄

theorem own_create (maxSize : ℤ) : OwnFiles cfg (create cfg o maxSize d).2 := by
  unfold create
  split
  · exact h
  have hd : OwnFiles cfg (withDirectories cfg d) :=
    ⟨noSubdirs_withDirectories h.noSubdirs,h.written,h.names,h.owns⟩
  dsimp only
  split
  · exact hd
  · exact own_initializeCache hd maxSize

end

/-- The condition on a call: the identifier of a `Put` is a plain file name. -/
def PlainId : Event M → Prop
  | ⟨.put id _ _ _,_⟩ => Plain id
  | ⟨.create _,_⟩ => True
  | ⟨.get _ _,_⟩ => True

instance : DecidablePred (PlainId (M := M))
  | ⟨.put id _ _ _,_⟩ => inferInstanceAs (Decidable (Plain id))
  | ⟨.create _,_⟩ => inferInstanceAs (Decidable True)
  | ⟨.get _ _,_⟩ => inferInstanceAs (Decidable True)

theorem own_step {s s' : CacheState M} {e : Event M} (h : OwnFiles cfg s.disk)
    (hid : PlainId e) (hs : cacheStep cfg s e=.ok s') : OwnFiles cfg s'.disk := by
  obtain ⟨call,o⟩:=e
  obtain ⟨d,maxSize⟩:=s
  cases call with
  | create size =>
    cases hs
    exact own_create h size
  | put id res metadata age =>
    cases maxSize with
    | none => cases hs
    | some maxSize =>
      cases hs
      exact own_put h hid maxSize res metadata age
  | get id age =>
    cases maxSize with
    | none => cases hs
    | some maxSize =>
      cases hs
      exact own_get h age

structure Unused (cfg : Config) (d : Disk M) : Prop where
  noSubdirs : ∀ name,cfg.fileAt name∉d.fs.dirs
  noFiles : ∀ name,cfg.fileAt name∉d.fs.files
  noManifest : d.manifest=none
  noAccess : d.log=[]

theorem Unused.ownFiles (h : Unused cfg d) : OwnFiles cfg d where
  noSubdirs := h.noSubdirs
  written name hname := absurd hname (h.noFiles name)
  names m hm := by
    rw [h.noManifest] at hm
    cases hm
  owns before access after heq := by
    rw [h.noAccess] at heq
    cases append_eq_nil_iff.mp heq.symm with
    | intro _ hc => cases hc

/-- Whatever fails, every file that the cache reads, writes or deletes is in its directory, and it
reads and deletes only files that it has written. -/
theorem touches_own_files {d : Disk M} (hd : Unused cfg d) {s : CacheState M}
    {history : List (CacheState M × Event M)} (hr : Run (cacheStep cfg) (closed d) history s)
    (hp : ∀ entry∈history,PlainId entry.2) {before after : List Access} {access : Access}
    (hl : s.disk.log=before++access::after) :
    (∃ name,access.location=cfg.dir++[name]) ∧
      (access.kind≠.write → ⟨.write,access.location⟩∈before) := by
  have ho : OwnFiles cfg s.disk := by
    apply hr.invariant (G := fun _ event => PlainId event)
      (P := fun _ s => OwnFiles cfg s.disk) hp hd.ownFiles
    exact fun _ s s' event h hid hs => own_step h hid hs
  exact ho.owns before access after hl

def partlyWritten : List (Event ℕ) := [smoothly 0 (.create 100),
    ⟨.put sampleId [1,2] 7 2,{ Outcomes.smooth 1 1 with writeStops := some 1 }⟩,
    smoothly 2 (.get sampleId none),smoothly 9 (.put "b".toList [3] 8 2)]

theorem emptyDisk_unused : Unused sampleConfig emptyDisk where
  noSubdirs := emptyDisk_leftover.noSubdirs
  noFiles name := by simp [emptyDisk]
  noManifest := rfl
  noAccess := rfl

theorem touches_own_files_partly :
    ∃ history s,Run (cacheStep sampleConfig) (closed emptyDisk) history s ∧
      (∀ entry∈history,PlainId entry.2) ∧
      s.disk.log=[⟨.write,sampleConfig.fileAt sampleId⟩,⟨.read,sampleConfig.fileAt sampleId⟩] ++
        ⟨.delete,sampleConfig.fileAt sampleId⟩::[⟨.write,sampleConfig.fileAt "b".toList⟩] ∧
      ∃ name,sampleConfig.fileAt sampleId=sampleConfig.dir++[name] := by
  obtain ⟨history,s,hr,he,hp,hl⟩:=exists_recorded (cacheStep sampleConfig)
    (closed emptyDisk) partlyWritten
    (P := fun history s => (∀ entry∈history,PlainId entry.2) ∧
      s.disk.log=[⟨.write,sampleConfig.fileAt sampleId⟩,⟨.read,sampleConfig.fileAt sampleId⟩] ++
        ⟨.delete,sampleConfig.fileAt sampleId⟩::[⟨.write,sampleConfig.fileAt "b".toList⟩])
    (by decide +kernel)
  exact ⟨history,s,hr,hp,hl,(touches_own_files emptyDisk_unused hr hp hl).1⟩

def foreignDisk : Disk ℕ := ⟨⟨[[]],AList.singleton ["x".toList] [7,8,9]⟩,none,[]⟩

def foreignId : Name := "../x".toList

def escaping : List (ℤ × Call ℕ) :=
  [(0,.create 100),(1,.put foreignId [1] 5 10),(2,.get foreignId none),
    (3,.put "../y".toList [2] 6 10)]

/-- `Get` returns the contents of a file that the cache has not written, and a `Put` writes a file
outside of the directory. -/
theorem foreign_file_returned : Unused sampleConfig foreignDisk ∧
    ∃ history s,Run (cacheStep sampleConfig) (closed foreignDisk) history s ∧
      history.map Prod.snd=(escaping.map fun c => smoothly c.1 c.2) ∧
      (history.map fun entry =>
        (perform sampleConfig entry.1 entry.2).bind fun result => result.1.fetched) =
        [none,none,some ([7,8,9],5),none] ∧
      s.disk.log=[⟨.read,["x".toList]⟩,⟨.write,["y".toList]⟩] := by
  refine ⟨⟨fun name => ?_,fun name => ?_,rfl,rfl⟩,?_⟩
  · simp [foreignDisk,Config.fileAt]
  · have hk : foreignDisk.fs.files.keys=[["x".toList]] := rfl
    rw [AList.mem_keys,hk]
    simp [Config.fileAt,sampleConfig]
  · exact exists_recorded _ _ _ (by decide +kernel)

end Fcp.Client.Cache

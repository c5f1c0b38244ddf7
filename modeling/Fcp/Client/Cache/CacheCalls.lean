import Fcp.Client.Cache.CleanUp
import Mathlib.Data.List.Infix

/-!
# The calls, when all operations succeed

Between the calls, every entry of the manifest has its file and every file its entry.
-/

namespace Fcp.Client.Cache

open List

variable {M : Type} {cfg : Config} {o : Outcomes} {fs : FileSystem} {m : Manifest M}
  {d : Disk M} {id : Name}

structure Consistent (cfg : Config) (d : Disk M) (m : Manifest M) : Prop where
  stored : d.manifest=some m
  cacheDir : CacheDir cfg d.fs
  names : NamesFiles m
  there : ∀ id∈m,cfg.fileAt id∈d.fs.files
  tracked : ∀ name,cfg.fileAt name∈d.fs.files → name∈m
  bound : totalSize cfg d.fs m<2^64

/-- A disk on which the cache can be created: whatever an earlier process has left in the
directory and in the manifest, as long as identifiers are plain and sizes fit into 64 bits. -/
structure Leftover (cfg : Config) (d : Disk M) : Prop where
  noSubdirs : ∀ name,cfg.fileAt name∉d.fs.dirs
  plain : ∀ name,cfg.fileAt name∈d.fs.files → Plain name
  names : ∀ m,d.manifest=some m → NamesFiles m
  bound : ∀ m,d.manifest=some m → totalSize cfg d.fs m<2^64

theorem toUnsigned_lt (n : ℤ) : toUnsigned n<2^64 := by
  unfold toUnsigned
  omega

theorem toUnsigned_of_nonneg {n : ℤ} (h : 0≤n) (hlt : n<2^63) : (toUnsigned n : ℤ)=n := by
  unfold toUnsigned
  omega

variable {maxSize : ℤ} {c : CleanUpResult M} {e : Event M} {call : Call M}

theorem allowed_add_lt (hl : -2^63 ≤ maxSize) (hhigh : maxSize<2^63)
    {size : ℕ} (hsize : size<2^63) (hh : size≤toUnsigned (maxSize.tdiv 2)) :
    toUnsigned (maxSize-size)+size<2^64 := by
  unfold toUnsigned at *
  by_cases hn : maxSize<0
  · omega
  · rw [Int.tdiv_eq_ediv_of_nonneg (by omega)] at hh
    omega

theorem readInternal_eq (ho : o.Succeed) (h : d.manifest=some m) : d.readInternal o=(.ok m,d) := by
  simp [Disk.readInternal,h,ho.manifestRead]

theorem writeInternal_eq (manifest : Manifest M) :
    d.writeInternal o true manifest=(.okStatus,{ d with manifest := some manifest }) := rfl

theorem CleanedUp.consistent {allowed : ℕ} (h : CleanedUp cfg o allowed m d c)
    (hn : NamesFiles m) (ha : allowed<2^64) :
    Consistent cfg { c.disk with manifest := some c.manifest } c.manifest where
  stored := rfl
  cacheDir := h.cacheDir
  names := h.manifest_eq ▸ hn.eraseEntries _
  there := h.there
  tracked name hname := by
    by_contra hnot
    have hnone:=h.files name
    rw [if_neg hnot,AList.lookup_eq_none] at hnone
    exact hnone hname
  bound := Nat.lt_of_le_of_lt h.total_le ha

theorem writeCordToFile_eq (ho : o.Succeed) (hfs : CacheDir cfg d.fs) (hid : Plain id)
    (fileName : String) (body : Bytes) :
    ∃ log,d.writeCordToFile o (cfg.fileAt id) fileName body=(.okStatus,{ d with
        fs := d.fs.putFile (cfg.fileAt id) body
        log := log }) := by
  have hp : (cfg.fileAt id).dropLast∈d.fs.dirs := by
    rw [Config.fileAt,dropLast_concat]
    exact hfs.hasDir cfg.dir (prefix_refl _)
  refine ⟨d.log++[⟨.write,cfg.fileAt id⟩],?_⟩
  simp [Disk.writeCordToFile,hfs.locate_eq hid,ho.fileCreated,hfs.noSubdirs id,hp,ho.writeStops]

theorem lookup_putFile (a b : Name) (body : Bytes) :
    (fs.putFile (cfg.fileAt b) body).files.lookup (cfg.fileAt a) =
      if a=b then some body else fs.files.lookup (cfg.fileAt a) := by
  by_cases h : a=b
  · subst h
    simp [FileSystem.putFile]
  · have hne : cfg.fileAt a≠cfg.fileAt b := fun heq => h (Config.fileAt_inj.mp heq)
    simp [FileSystem.putFile,h,AList.lookup_insert_ne hne]

theorem mem_putFile (a b : Name) (body : Bytes) :
    cfg.fileAt a∈(fs.putFile (cfg.fileAt b) body).files ↔ a=b ∨ cfg.fileAt a∈fs.files := by
  rw [FileSystem.putFile,AList.mem_insert,Config.fileAt_inj]

variable {r : CachedResource M}

theorem totalSize_insert (h : id∉m) (body : Bytes) :
    totalSize cfg (fs.putFile (cfg.fileAt id) body) (m.insert id r) =
      totalSize cfg fs m+body.length := by
  have hk : (m.insert id r).keys=id::m.keys := by
    rw [AList.keys,AList.entries_insert_of_notMem h]
    rfl
  have hn : fileSizeOf cfg (fs.putFile (cfg.fileAt id) body) id=body.length := by
    simp [fileSizeOf,lookup_putFile]
  have hold : m.keys.map (fileSizeOf cfg (fs.putFile (cfg.fileAt id) body)) =
      m.keys.map (fileSizeOf cfg fs) := by
    apply map_congr_left
    intro other ho
    have hne : other≠id := fun heq => h (heq ▸ ho)
    simp [fileSizeOf,lookup_putFile,hne]
  rw [totalSize,hk,map_cons,sum_cons,hn,hold,Nat.add_comm]
  rfl

/-- What a `Put` that is not too large does, in terms of its clean-up. -/
structure PutDone (cfg : Config) (o : Outcomes) (maxSize : ℤ) (m : Manifest M) (d : Disk M)
    (id : Name) (resource : Bytes) (r : CachedResource M) (report : Report M) (d' : Disk M)
    (c : CleanUpResult M) : Prop where
  cleaned : CleanedUp cfg o (toUnsigned (maxSize-resource.length)) m d c
  report_eq : report=⟨.okStatus,none,c.expired,c.evicted⟩
  consistent : Consistent cfg d' (c.manifest.insertNew id r)
  files : ∀ name,d'.fs.files.lookup (cfg.fileAt name) =
    if name=id ∧ id∉c.manifest then some resource
    else c.disk.fs.files.lookup (cfg.fileAt name)
  total_le : totalSize cfg d'.fs (c.manifest.insertNew id r) ≤
    toUnsigned (maxSize-resource.length)+resource.length

theorem put_spec (ho : o.Succeed) (h : Consistent cfg d m) (hid : Plain id)
    (hl : -2^63 ≤ maxSize) (hhigh : maxSize<2^63) {res : Bytes}
    (hsize : res.length<2^63) (hh : res.length≤toUnsigned (maxSize.tdiv 2))
    (metadata : M) (age : ℤ) :
    PutDone cfg o maxSize m d id res ⟨id,metadata,o.time+age,o.time⟩
      (put cfg o maxSize d id res metadata age).1
      (put cfg o maxSize d id res metadata age).2
      (cleanUp cfg o maxSize (some (res.length : ℤ)) m d) := by
  have hclean:=cleanUp_spec ho maxSize (some (res.length : ℤ)) h.cacheDir h.names h.bound
  obtain ⟨c,hc⟩ : ∃ c,c=cleanUp cfg o maxSize (some (res.length : ℤ)) m d := ⟨_,rfl⟩
  rw [← hc] at hclean ⊢
  have ha:=allowed_add_lt hl hhigh hsize hh
  have hconsistent:=hclean.consistent h.names (toUnsigned_lt _)
  obtain ⟨r,hr⟩ : ∃ r : CachedResource M,r=⟨id,metadata,o.time+age,o.time⟩ := ⟨_,rfl⟩
  rw [← hr]
  -- The call up to the end of the manifest's write.
  have hp : put cfg o maxSize d id res metadata age =
      (⟨(putFileIfMissing cfg o { c.disk with manifest := some (c.manifest.insertNew id r) } id
        res).1,none,c.expired,c.evicted⟩,
        (putFileIfMissing cfg o { c.disk with manifest := some (c.manifest.insertNew id r) } id
          res).2) := by
    have hi : ¬ Status.okStatus.isOk=false := by decide
    simp only [put,if_neg (Nat.not_lt.mpr hh),readInternal_eq ho h.stored,← hc,
      hclean.status_eq,if_neg hi,ho.manifestWritten,writeInternal_eq,← hr]
  have hk : ¬ o.existenceKnown=false := by simp [ho.existenceKnown]
  rw [hp]
  by_cases hmem : id∈c.manifest
  · have hf : cfg.fileAt id∈c.disk.fs.files := hclean.there id hmem
    have hm : putFileIfMissing cfg o
        { c.disk with manifest := some (c.manifest.insertNew id r) } id res =
        (.okStatus,{ c.disk with manifest := some (c.manifest.insertNew id r) }) := by
      simp only [putFileIfMissing,if_neg hk,Config.filePath_eq hid,
        pathExists_eq hclean.cacheDir hid,hf,decide_true,if_true]
    have hsame : c.manifest.insertNew id r=c.manifest := if_pos hmem
    rw [hm,hsame]
    refine ⟨hclean,rfl,?_,?_,?_⟩
    · rw [hsame]
      exact hconsistent
    · intro name
      rw [if_neg fun hcond => hcond.2 hmem]
    · rw [hsame]
      exact Nat.le_trans hclean.total_le (Nat.le_add_right _ _)
  · have hf : cfg.fileAt id∉c.disk.fs.files := fun hin => hmem (hconsistent.tracked id hin)
    obtain ⟨log,hw⟩:=writeCordToFile_eq
      (d := { c.disk with manifest := some (c.manifest.insertNew id r) }) ho hclean.cacheDir hid
      (cfg.filePathString id) res
    have hm : putFileIfMissing cfg o
        { c.disk with manifest := some (c.manifest.insertNew id r) } id res =
        (.okStatus,
          { fs := c.disk.fs.putFile (cfg.fileAt id) res
            manifest := some (c.manifest.insertNew id r)
            log := log }) := by
      simp only [putFileIfMissing,if_neg hk,Config.filePath_eq hid,
        pathExists_eq hclean.cacheDir hid,hf,decide_false,Bool.false_eq_true,if_false]
      exact hw
    have hn : c.manifest.insertNew id r=c.manifest.insert id r := if_neg hmem
    have ht : totalSize cfg (c.disk.fs.putFile (cfg.fileAt id) res)
        (c.manifest.insert id r)=totalSize cfg c.disk.fs c.manifest+res.length :=
      totalSize_insert hmem res
    have htotal_le : totalSize cfg c.disk.fs c.manifest ≤
        toUnsigned (maxSize-res.length) := hclean.total_le
    rw [hm,hn]
    refine ⟨hclean,rfl,?_,?_,?_⟩
    · rw [hn]
      refine ⟨rfl,hclean.cacheDir.putFile hid res,?_,?_,?_,?_⟩
      · exact hconsistent.names.insert hid (by rw [hr])
      · intro other hother
        apply (mem_putFile other id res).mpr
        exact ((AList.mem_insert _).mp hother).imp_right (hclean.there other)
      · intro other hother
        apply (AList.mem_insert _).mpr
        exact ((mem_putFile other id res).mp hother).imp_right (hconsistent.tracked other)
      · show totalSize cfg (c.disk.fs.putFile (cfg.fileAt id) res) _<_
        omega
    · intro name
      show (c.disk.fs.putFile (cfg.fileAt id) res).files.lookup _=_
      rw [lookup_putFile]
      by_cases heq : name=id
      · rw [if_pos heq,if_pos ⟨heq,hmem⟩]
      · rw [if_neg heq,if_neg fun hcond => heq hcond.1]
    · rw [hn]
      show totalSize cfg (c.disk.fs.putFile (cfg.fileAt id) res) _≤_
      omega

def touched (o : Outcomes) (maxAge : Option ℤ) (r : CachedResource M) : CachedResource M :=
  { r with
    lastAccessedTime := o.time
    expiryTime := (maxAge.map (o.time+·)).getD r.expiryTime }

theorem get_none (ho : o.Succeed) (h : Consistent cfg d m) (hr : m.lookup id=none)
    (age : Option ℤ) : get cfg o d id age=(.failed (notFound id),d) := by
  simp only [get,readInternal_eq ho h.stored,hr]

theorem get_some (ho : o.Succeed) (h : Consistent cfg d m) (hr : m.lookup id=some r)
    (age : Option ℤ) :
    ∃ body log,d.fs.files.lookup (cfg.fileAt id)=some body ∧ get cfg o d id age =
        (⟨.okStatus,some (body,r.metadata),[],[]⟩,
          { d with
            manifest := some (m.insert id (touched o age r))
            log := log }) := by
  have hm:=mem_of_lookup hr
  obtain ⟨hp,-⟩:=h.names id r hr
  obtain ⟨body,hc⟩:=exists_lookup (h.there id hm)
  refine ⟨body,d.log++[⟨.read,cfg.fileAt id⟩],hc,?_⟩
  have hread : d.readFileToCord o (cfg.fileAt id) =
      (some body,{ d with log := d.log++[⟨.read,cfg.fileAt id⟩] }) := by
    simp [Disk.readFileToCord,h.cacheDir.locate_eq hp,hc,ho.fileRead]
  have hi : (m.erase id).insert id (touched o age r)=m.insert id (touched o age r) := by
    apply AList.ext
    rw [AList.entries_insert_of_notMem (by simp [AList.mem_erase]),AList.entries_insert]
    rfl
  have hisOk : ¬ Status.okStatus.isOk=false := by decide
  simp only [get,readInternal_eq ho h.stored,hr,Config.filePath_eq hp,hread,
    ho.manifestWritten,writeInternal_eq,if_neg hisOk]
  rw [← hi]
  rfl

theorem consistent_get (h : Consistent cfg d m) (hr : m.lookup id=some r) (age : Option ℤ)
    (log : List Access) :
    Consistent cfg
      { d with
        manifest := some (m.insert id (touched o age r))
        log := log } (m.insert id (touched o age r)) := by
  have hm:=mem_of_lookup hr
  have hi : ∀ other,other∈m.insert id (touched o age r) ↔ other∈m := by
    intro other
    rw [AList.mem_insert]
    exact ⟨fun h => h.elim (fun heq => heq ▸ hm) fun h => h,.inr⟩
  refine ⟨rfl,h.cacheDir,?_,?_,?_,?_⟩
  · obtain ⟨hp,hn⟩:=h.names id r hr
    exact h.names.insert hp hn
  · exact fun other ho => h.there other ((hi other).mp ho)
  · exact fun name hn => (hi name).mpr (h.tracked name hn)
  · have ht : totalSize cfg d.fs (m.insert id (touched o age r))=totalSize cfg d.fs m := by
      rw [totalSize,AList.keys_insert,map_cons,sum_cons]
      exact sum_map_erase (fileSizeOf cfg d.fs) hm
    show totalSize cfg d.fs (m.insert id (touched o age r))<2^64
    rw [ht]
    exact h.bound

def withDirectories (cfg : Config) (d : Disk M) : Disk M :=
  { d with fs := { d.fs with
    dirs := d.fs.dirs++cfg.dir.inits.filter fun loc => loc∉d.fs.dirs } }

theorem noSubdirs_withDirectories (h : ∀ name,cfg.fileAt name∉d.fs.dirs) (name : Name) :
    cfg.fileAt name∉(withDirectories cfg d).fs.dirs := by
  intro hm
  rcases mem_append.mp hm with ho | hn
  · exact h name ho
  · have hstart:=(mem_inits _ _).mp (mem_filter.mp hn).1
    have hl:=hstart.length_le
    rw [Config.fileAt,length_append,length_singleton] at hl
    omega

theorem cacheDir_withDirectories (h : Leftover cfg d) :
    CacheDir cfg (withDirectories cfg d).fs where
  hasDir p hp := by
    show p∈d.fs.dirs++_
    by_cases hm : p∈d.fs.dirs
    · exact mem_append_left _ hm
    · apply mem_append_right
      simpa [mem_filter,mem_inits,hm] using hp
  noSubdirs := noSubdirs_withDirectories h.noSubdirs
  plain := h.plain

def initialized (cfg : Config) (d : Disk M) : Disk M :=
  { withDirectories cfg d with manifest := some (d.manifest.getD ∅) }

theorem create_spec (ho : o.Succeed) (h : Leftover cfg d) (maxSize : ℤ)
    (hc : c=cleanUp cfg o maxSize none (d.manifest.getD ∅) (initialized cfg d)) :
    CleanedUp cfg o (toUnsigned maxSize) (d.manifest.getD ∅) (initialized cfg d) c ∧
      create cfg o maxSize d=(⟨.okStatus,none,c.expired,c.evicted⟩,
        { c.disk with manifest := some c.manifest }) ∧
      Consistent cfg { c.disk with manifest := some c.manifest } c.manifest := by
  have hn : NamesFiles (d.manifest.getD ∅) := by
    cases hm : d.manifest with
    | none =>
      intro id r hr
      simp at hr
    | some m => exact h.names m hm
  have hb : totalSize cfg (initialized cfg d).fs (d.manifest.getD ∅)<2^64 := by
    cases hm : d.manifest with
    | none =>
      show (List.map _ []).sum<2^64
      simp
    | some m => exact h.bound m hm
  have hcacheDir : CacheDir cfg (initialized cfg d).fs := cacheDir_withDirectories h
  have hclean:=cleanUp_spec ho maxSize none hcacheDir hn hb
  have hz : maxSize-(none : Option ℤ).getD 0=maxSize := by simp
  rw [hz,← hc] at hclean
  refine ⟨hclean,?_,hclean.consistent hn (toUnsigned_lt _)⟩
  have hd : ¬ o.cacheDirCreated=false := by simp [ho.cacheDirCreated]
  have hmanifestDir : ¬ o.manifestDirCreated=false := by simp [ho.manifestDirCreated]
  have hsizeKnown : ¬ o.manifestSizeKnown=false := by simp [ho.manifestSizeKnown]
  have hisOk : ¬ Status.okStatus.isOk=false := by decide
  have hi : ensureManifest o (withDirectories cfg d)=(.okStatus,initialized cfg d) := by
    unfold initialized
    cases hm : d.manifest with
    | none =>
      have hnone : (withDirectories cfg d).manifest=none := hm
      simp only [ensureManifest,hnone,ho.manifestInitialized]
      rfl
    | some m =>
      have hsome : (withDirectories cfg d).manifest=some m := hm
      simp only [ensureManifest,hsome]
      show (_,withDirectories cfg d)=(_,{ withDirectories cfg d with manifest := some m })
      rw [← hsome]
  have hread : (initialized cfg d).readInternal o=(.ok (d.manifest.getD ∅),initialized cfg d) :=
    readInternal_eq ho rfl
  show (if o.cacheDirCreated=false then _ else
    if o.manifestDirCreated=false then _ else
      initializeCache cfg o maxSize (withDirectories cfg d))=_
  rw [if_neg hd,if_neg hmanifestDir,initializeCache,if_neg hsizeKnown]
  simp only [hi,if_neg hisOk,hread,← hc,hclean.status_eq,ho.manifestWritten,writeInternal_eq]

theorem Consistent.leftover (h : Consistent cfg d m) : Leftover cfg d where
  noSubdirs := h.cacheDir.noSubdirs
  plain := h.cacheDir.plain
  names m' hm' := by
    rw [h.stored] at hm'
    cases hm'
    exact h.names
  bound m' hm' := by
    rw [h.stored] at hm'
    cases hm'
    exact h.bound

def Call.InRange : Call M → Prop
  | .create maxSize => -2^63 ≤ maxSize ∧ maxSize<2^63
  | .put cacheId resource _ _ => Plain cacheId ∧ resource.length<2^63
  | .get _ _ => True

instance : DecidablePred (Call.InRange (M := M))
  | .create _ => inferInstanceAs (Decidable (_ ∧ _))
  | .put _ _ _ _ => inferInstanceAs (Decidable (_ ∧ _))
  | .get _ _ => inferInstanceAs (Decidable True)

structure Regular (event : Event M) : Prop where
  succeed : event.outcomes.Succeed
  inRange : event.call.InRange

structure Between (cfg : Config) (s : CacheState M) : Prop where
  leftover : Leftover cfg s.disk
  opened : ∀ maxSize,s.maxSize=some maxSize →
    (-2^63 ≤ maxSize ∧ maxSize<2^63) ∧ ∃ m,Consistent cfg s.disk m

inductive CacheMove (cfg : Config) (s : CacheState M) (o : Outcomes) :
    Call M → Report M → CacheState M → Prop where
  | created {maxSize : ℤ} {c : CleanUpResult M}
      (hclean : CleanedUp cfg o (toUnsigned maxSize) (s.disk.manifest.getD ∅)
        (initialized cfg s.disk) c)
      (hconsistent : Consistent cfg { c.disk with manifest := some c.manifest } c.manifest)
      (hlow : -2^63 ≤ maxSize) (hhigh : maxSize<2^63) :
      CacheMove cfg s o (.create maxSize) ⟨.okStatus,none,c.expired,c.evicted⟩
        ⟨{ c.disk with manifest := some c.manifest },some maxSize⟩
  | tooLarge {maxSize : ℤ} {id : Name} {resource : Bytes} {metadata : M} {maxAge : ℤ}
      (hopen : s.maxSize=some maxSize) {status : Status} (hstatus : status.isOk=false) :
      CacheMove cfg s o (.put id resource metadata maxAge) (.failed status) s
  | stored {maxSize : ℤ} {id : Name} {resource : Bytes} {metadata : M} {maxAge : ℤ}
      {m : Manifest M} {d' : Disk M} {report : Report M} {c : CleanUpResult M}
      (hopen : s.maxSize=some maxSize) (hm : Consistent cfg s.disk m)
      (hhalf : resource.length≤toUnsigned (maxSize.tdiv 2))
      (hput : PutDone cfg o maxSize m s.disk id resource ⟨id,metadata,o.time+maxAge,o.time⟩
        report d' c) :
      CacheMove cfg s o (.put id resource metadata maxAge) report ⟨d',s.maxSize⟩
  | missed {id : Name} {maxAge : Option ℤ} {m : Manifest M} (hm : Consistent cfg s.disk m)
      (hr : m.lookup id=none) :
      CacheMove cfg s o (.get id maxAge) (.failed (notFound id)) s
  | fetched {id : Name} {maxAge : Option ℤ} {m : Manifest M} {r : CachedResource M}
      {content : Bytes} {log : List Access} (hm : Consistent cfg s.disk m)
      (hr : m.lookup id=some r)
      (hcontent : s.disk.fs.files.lookup (cfg.fileAt id)=some content) :
      CacheMove cfg s o (.get id maxAge) ⟨.okStatus,some (content,r.metadata),[],[]⟩
        ⟨{ s.disk with
          manifest := some (m.insert id (touched o maxAge r))
          log := log },s.maxSize⟩

variable {s s' : CacheState M} {rep : Report M}

section

variable (hs : Between cfg s)
include hs

theorem move_of_perform (he : Regular e) (h : perform cfg s e=some (rep,s')) :
    CacheMove cfg s e.outcomes e.call rep s' := by
  obtain ⟨call,o⟩:=e
  have ho : o.Succeed := he.succeed
  cases call with
  | create maxSize =>
    obtain ⟨hl,hhigh⟩:=he.inRange
    obtain ⟨c,hc⟩ : ∃ c,c=cleanUp cfg o maxSize none (s.disk.manifest.getD ∅)
      (initialized cfg s.disk) := ⟨_,rfl⟩
    obtain ⟨hclean,hcreate,hconsistent⟩:=create_spec ho hs.leftover maxSize hc
    have hp : perform cfg s ⟨.create maxSize,o⟩=some (⟨.okStatus,none,c.expired,c.evicted⟩,
          ⟨{ c.disk with manifest := some c.manifest },some maxSize⟩) := by
      simp only [perform,hcreate]
      rfl
    rw [hp] at h
    cases h
    exact .created hclean hconsistent hl hhigh
  | put id res metadata age =>
    obtain ⟨hid,hsize⟩:=he.inRange
    cases hopen : s.maxSize with
    | none => simp [perform,hopen] at h
    | some maxSize =>
      obtain ⟨⟨hl,hhigh⟩,m,hm⟩:=hs.opened maxSize hopen
      simp only [perform,hopen] at h
      by_cases hh : res.length≤toUnsigned (maxSize.tdiv 2)
      · have hput:=put_spec (o := o) ho hm hid hl hhigh hsize hh metadata age
        cases h
        rw [← hopen]
        exact .stored hopen hm hh hput
      · rw [put,if_pos (Nat.lt_of_not_le hh)] at h
        cases h
        have hsame : (⟨s.disk,some maxSize⟩ : CacheState M)=s := by rw [← hopen]
        rw [hsame]
        exact .tooLarge hopen rfl
  | get id age =>
    cases hopen : s.maxSize with
    | none => simp [perform,hopen] at h
    | some maxSize =>
      obtain ⟨-,m,hm⟩:=hs.opened maxSize hopen
      simp only [perform,hopen] at h
      cases hr : m.lookup id with
      | none =>
        rw [get_none ho hm hr] at h
        cases h
        have hsame : (⟨s.disk,some maxSize⟩ : CacheState M)=s := by rw [← hopen]
        rw [hsame]
        exact .missed hm hr
      | some r =>
        obtain ⟨body,log,hcontent,hg⟩:=get_some ho hm hr age
        rw [hg] at h
        cases h
        rw [← hopen]
        exact .fetched hm hr hcontent

theorem CacheMove.between (h : CacheMove cfg s o call rep s') : Between cfg s' := by
  cases h with
  | created hclean hc hl hh =>
    refine ⟨hc.leftover,fun maxSize ho => ?_⟩
    cases ho
    exact ⟨⟨hl,hh⟩,_,hc⟩
  | tooLarge ho hstatus | missed hm hr => exact hs
  | stored ho hm hhalf hp =>
    exact ⟨hp.consistent.leftover,fun _ ho' => ⟨(hs.opened _ ho').1,_,hp.consistent⟩⟩
  | @fetched id age m r body log hm hr hcontent =>
    have hc:=consistent_get (o := o) hm hr age log
    exact ⟨hc.leftover,fun _ ho' => ⟨(hs.opened _ ho').1,_,hc⟩⟩

theorem CacheMove.consistent
    (h : CacheMove cfg s o call rep s') : ∃ m,Consistent cfg s'.disk m := by
  cases h with
  | created hclean hc hl hhigh => exact ⟨_,hc⟩
  | tooLarge ho hstatus => exact (hs.opened _ ho).2
  | stored ho hm hh hp => exact ⟨_,hp.consistent⟩
  | missed hm hr => exact ⟨_,hm⟩
  | @fetched id age m r body log hm hr hcontent => exact ⟨_,consistent_get hm hr age log⟩

theorem move_of_step (he : Regular e) (h : cacheStep cfg s e=.ok s') :
    ∃ rep,perform cfg s e=some (rep,s') ∧ CacheMove cfg s e.outcomes e.call rep s' := by
  unfold cacheStep at h
  split at h
  · cases h
  next rep s'' hp =>
    cases h
    exact ⟨rep,hp,move_of_perform hs he hp⟩

end

end Fcp.Client.Cache

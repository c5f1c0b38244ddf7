import Fcp.Client.Cache.FileBackedResourceCache
import Mathlib.Algebra.BigOperators.Group.List.Basic

/-!
# What a clean-up does

For plain file names and operations that succeed, `CleanUp` is described by two lists: the entries
that it drops, as expired or without a file, and those that it evicts to make room.
-/

namespace Fcp.Client.Cache

open List FileSystem Config

variable {M : Type} {cfg : Config} {o : Outcomes} {fs : FileSystem} {m : Manifest M}
  {d : Disk M} {id name : Name}

namespace Config

def fileAt (cfg : Config) (name : Name) : Location := cfg.dir++[name]

variable {a b : Name} {r : CachedResource M}

theorem fileAt_inj : cfg.fileAt a=cfg.fileAt b ↔ a=b := by
  simp [fileAt]

theorem filePath_eq (h : Plain name) : cfg.filePath name=cfg.fileAt name := by
  rw [filePath,h.cString_eq,h.join_eq]
  rfl

end Config

/-- The directory is there and holds nothing but files, whose names are plain. -/
structure CacheDir (cfg : Config) (fs : FileSystem) : Prop where
  hasDir : HasDirectory fs cfg.dir
  noSubdirs : ∀ name,cfg.fileAt name∉fs.dirs
  plain : ∀ name,cfg.fileAt name∈fs.files → Plain name

def NamesFiles (m : Manifest M) : Prop := ∀ id r,m.lookup id=some r → Plain id ∧ r.fileName=id

namespace CacheDir

section

variable (h : CacheDir cfg fs)
include h

theorem locate_eq (hn : Plain name) : fs.locate (cfg.fileAt name)=some (cfg.fileAt name) :=
  locate_concat h.hasDir cfg.plain hn

theorem eraseFile (loc : Location) : CacheDir cfg (fs.eraseFile loc) where
  hasDir := h.hasDir
  noSubdirs := h.noSubdirs
  plain name hn := h.plain name (AList.mem_erase.mp hn).2

theorem putFile (hn : Plain name) (body : Bytes) :
    CacheDir cfg (fs.putFile (cfg.fileAt name) body) where
  hasDir := h.hasDir
  noSubdirs := h.noSubdirs
  plain other ho := by
    rcases (AList.mem_insert _).mp ho with heq | hm
    · rw [fileAt_inj.mp heq]
      exact hn
    · exact h.plain other hm

theorem mem_children : name∈fs.children cfg.dir ↔ cfg.fileAt name∈fs.files := by
  rw [FileSystem.mem_children]
  exact or_iff_left (h.noSubdirs name)

end

end CacheDir

def eraseFiles (cfg : Config) (fs : FileSystem) (names : List Name) : FileSystem :=
  names.foldl (fun fs name => fs.eraseFile (cfg.fileAt name)) fs

theorem eraseFiles_cons (names : List Name) :
    eraseFiles cfg fs (name::names)=eraseFiles cfg (fs.eraseFile (cfg.fileAt name)) names := rfl

theorem CacheDir.eraseFiles (h : CacheDir cfg fs) (names : List Name) :
    CacheDir cfg (eraseFiles cfg fs names) := by
  induction names generalizing fs with
  | nil => exact h
  | cons name names ih => exact ih (h.eraseFile _)

theorem lookup_eraseFiles (names : List Name) (name : Name) :
    (eraseFiles cfg fs names).files.lookup (cfg.fileAt name) =
      if name∈names then none else fs.files.lookup (cfg.fileAt name) := by
  induction names generalizing fs with
  | nil => rfl
  | cons other names ih =>
    rw [eraseFiles_cons,ih]
    by_cases heq : name=other
    · subst heq
      simp [eraseFile]
    · have hne : cfg.fileAt name≠cfg.fileAt other := fun h => heq (fileAt_inj.mp h)
      simp [eraseFile,heq,AList.lookup_erase_ne hne]

theorem lookup_eraseEntries (ids : List Name) (id : Name) :
    (eraseEntries m ids).lookup id = if id∈ids then none else m.lookup id := by
  induction ids generalizing m with
  | nil => rfl
  | cons other ids ih =>
    show (eraseEntries (m.erase other) ids).lookup id=_
    rw [ih]
    by_cases heq : id=other
    · subst heq
      simp
    · simp [heq,AList.lookup_erase_ne heq]

theorem eraseEntries_append (ids ids' : List Name) :
    eraseEntries m (ids++ids')=eraseEntries (eraseEntries m ids) ids' :=
  foldl_append

theorem NamesFiles.eraseEntries (h : NamesFiles m) (ids : List Name) :
    NamesFiles (eraseEntries m ids) := by
  intro id r hr
  rw [lookup_eraseEntries] at hr
  split at hr
  · cases hr
  · exact h id r hr

theorem NamesFiles.insert (h : NamesFiles m) (hid : Plain id)
    (hr : r.fileName=id) : NamesFiles (m.insert id r) := by
  intro other r' hr'
  by_cases heq : other=id
  · subst heq
    rw [AList.lookup_insert] at hr'
    cases hr'
    exact ⟨hid,hr⟩
  · rw [AList.lookup_insert_ne heq] at hr'
    exact h other r' hr'

theorem remove_eq (ho : o.Succeed) (hfs : CacheDir cfg d.fs) (hn : Plain name) :
    ∃ log,d.remove o (cfg.fileAt name)=({ d with
        fs := d.fs.eraseFile (cfg.fileAt name)
        log := log },true) := by
  unfold Disk.remove
  rw [hfs.locate_eq hn]
  by_cases hm : cfg.fileAt name∈d.fs.files
  · have ht:=isThere_eq_true.mpr (.inr hm)
    exact ⟨d.log++[⟨.delete,cfg.fileAt name⟩],by simp [ht,ho.removable,hm]⟩
  · have ht : d.fs.isThere (cfg.fileAt name)=false := by
      rw [← Bool.not_eq_true,isThere_eq_true]
      exact fun h => h.elim (hfs.noSubdirs name) hm
    have hs : d.fs.eraseFile (cfg.fileAt name)=d.fs := by rw [eraseFile,erase_of_notMem hm]
    exact ⟨d.log,by simp [ht,hs]⟩

theorem foldl_removeStep (ho : o.Succeed) (hfs : CacheDir cfg d.fs) {names : List Name}
    (hnames : ∀ name∈names,Plain name) :
    ∃ log,(names.map cfg.fileAt).foldl (removeStep o) (d,.okStatus)=({ d with
        fs := eraseFiles cfg d.fs names
        log := log },.okStatus) := by
  induction names generalizing d with
  | nil => exact ⟨d.log,rfl⟩
  | cons name names ih =>
    obtain ⟨log,hr⟩:=remove_eq ho hfs (hnames name (by simp))
    have hs : removeStep o (d,.okStatus) (cfg.fileAt name)=({ d with
          fs := d.fs.eraseFile (cfg.fileAt name)
          log := log },.okStatus) := by
      simp [removeStep,hr]
    obtain ⟨log',hrest⟩:=ih (d := { d with
        fs := d.fs.eraseFile (cfg.fileAt name)
        log := log })
      (hfs.eraseFile _) (fun n hn => hnames n (by simp [hn]))
    refine ⟨log',?_⟩
    rw [map_cons,foldl_cons,hs,hrest]
    rfl

/-- An entry that the first loop drops: it has expired, or its file is not there. -/
def Dropped (cfg : Config) (o : Outcomes) (fs : FileSystem) (id : Name)
    (r : CachedResource M) : Prop :=
  r.expiryTime<o.cleanUpTime ∨ cfg.fileAt id∉fs.files

instance (cfg : Config) (o : Outcomes) (fs : FileSystem) (id : Name) (r : CachedResource M) :
    Decidable (Dropped cfg o fs id r) :=
  inferInstanceAs (Decidable (_ ∨ _))

variable (cfg o) in
theorem foldl_expireStep {es : List ((_ : Name) × CachedResource M)}
    (hk : (es.map Sigma.fst).Nodup) (hn : ∀ e∈es,Plain e.1 ∧ e.2.fileName=e.1)
    (files : List Path) (del : List Name) :
    (∀ path,path∈(es.foldl (expireStep cfg o) (files,del)).1 ↔
      path∈files ∧ ∀ e∈es,path=cfg.fileAt e.1 → e.2.expiryTime<o.cleanUpTime) ∧
    ∀ id,id∈(es.foldl (expireStep cfg o) (files,del)).2 ↔ id∈del ∨ ∃ e∈es,e.1=id ∧
        (e.2.expiryTime<o.cleanUpTime ∨ cfg.fileAt e.1∉files) := by
  induction es generalizing files del with
  | nil => simp
  | cons e es ih =>
    obtain ⟨hnot,hk'⟩:=nodup_cons.mp hk
    obtain ⟨hp,hf⟩:=hn e (by simp)
    have hpath : join cfg.dir e.2.fileName=cfg.fileAt e.1 := by
      rw [hf,hp.join_eq]
      rfl
    have ho : ∀ e'∈es,cfg.fileAt e'.1≠cfg.fileAt e.1 := by
      intro e' he' heq
      exact hnot (fileAt_inj.mp heq ▸ mem_map_of_mem he')
    rw [foldl_cons]
    by_cases hd : e.2.expiryTime<o.cleanUpTime ∨ cfg.fileAt e.1∉files
    · have hstep : expireStep cfg o (files,del) e=(files,del++[e.1]) := by
        simp only [expireStep,hpath]
        rw [if_pos hd]
      rw [hstep]
      obtain ⟨ihfiles,ihids⟩:=ih hk' (fun e' he' => hn e' (by simp [he'])) files (del++[e.1])
      refine ⟨fun path => ?_,fun id => ?_⟩
      · rw [ihfiles,forall_mem_cons]
        constructor
        · intro ⟨hm,hr⟩
          refine ⟨hm,fun heq => ?_,hr⟩
          exact hd.resolve_right (not_not.mpr (heq ▸ hm))
        · exact fun ⟨hm,_,hr⟩ => ⟨hm,hr⟩
      · rw [ihids,exists_mem_cons_iff,mem_append,mem_singleton,or_assoc]
        constructor
        · rintro (h | h | h)
          · exact .inl h
          · exact .inr (.inl ⟨h.symm,hd⟩)
          · exact .inr (.inr h)
        · rintro (h | h | h)
          · exact .inl h
          · exact .inr (.inl h.1.symm)
          · exact .inr (.inr h)
    · have hstep : expireStep cfg o (files,del) e=(files.filter (·≠cfg.fileAt e.1),del) := by
        simp only [expireStep,hpath]
        rw [if_neg hd]
      rw [hstep]
      obtain ⟨ihfiles,ihids⟩:=ih hk' (fun e' he' => hn e' (by simp [he']))
        (files.filter (·≠cfg.fileAt e.1)) del
      refine ⟨fun path => ?_,fun id => ?_⟩
      · rw [ihfiles,forall_mem_cons,mem_filter]
        constructor
        · intro ⟨⟨hm,hne⟩,hr⟩
          exact ⟨hm,fun heq => absurd heq (by simpa using hne),hr⟩
        · intro ⟨hm,ht,hr⟩
          refine ⟨⟨hm,?_⟩,hr⟩
          simpa using fun heq => hd (.inl (ht heq))
      · rw [ihids,exists_mem_cons_iff]
        have hs : ∀ e'∈es,(cfg.fileAt e'.1∉files.filter (·≠cfg.fileAt e.1) ↔
            cfg.fileAt e'.1∉files) := by
          intro e' he'
          simp [mem_filter,ho e' he']
        constructor
        · rintro (h | ⟨e',he',hid,hd'⟩)
          · exact .inl h
          · exact .inr (.inr ⟨e',he',hid,hd'.imp_right (hs e' he').mp⟩)
        · rintro (h | h | ⟨e',he',hid,hd'⟩)
          · exact .inl h
          · exact absurd h.2 hd
          · exact .inr ⟨e',he',hid,hd'.imp_right (hs e' he').mpr⟩

def fileSizeOf (cfg : Config) (fs : FileSystem) (id : Name) : ℕ :=
  ((fs.files.lookup (cfg.fileAt id)).map List.length).getD 0

def totalSize (cfg : Config) (fs : FileSystem) (m : Manifest M) : ℕ :=
  (m.keys.map (fileSizeOf cfg fs)).sum

theorem fileSize_eq (ho : o.Succeed) (hfs : CacheDir cfg d.fs) (hn : Plain name)
    (hm : cfg.fileAt name∈d.fs.files) :
    d.fileSize o (cfg.fileAt name)=some (fileSizeOf cfg d.fs name) := by
  obtain ⟨body,hc⟩:=exists_lookup hm
  simp [Disk.fileSize,hfs.locate_eq hn,hc,ho.sizeKnown,fileSizeOf]

theorem pathExists_eq (hfs : CacheDir cfg fs) (hn : Plain name) :
    fs.pathExists (cfg.fileAt name)=decide (cfg.fileAt name∈fs.files) := by
  rw [pathExists,hfs.locate_eq hn,Option.any_some,isThere]
  simp [hfs.noSubdirs name]

theorem foldl_measureStep (ho : o.Succeed) (hfs : CacheDir cfg d.fs)
    (es : List ((_ : Name) × CachedResource M))
    (hn : ∀ e∈es,Plain e.1 ∧ e.2.fileName=e.1)
    (ht : ∀ e∈es,cfg.fileAt e.1∈d.fs.files) (size : ℕ)
    (hs : size+(es.map fun e => fileSizeOf cfg d.fs e.1).sum<2^64) :
    es.foldl (measureStep cfg o) ⟨d,.okStatus,size⟩ =
      ⟨d,.okStatus,size+(es.map fun e => fileSizeOf cfg d.fs e.1).sum⟩ := by
  induction es generalizing size with
  | nil => rfl
  | cons e es ih =>
    obtain ⟨hp,hf⟩:=hn e (by simp)
    have hm:=ht e (by simp)
    rw [map_cons,sum_cons] at hs ⊢
    have hstep : measureStep cfg o ⟨d,.okStatus,size⟩ e =
        ⟨d,.okStatus,size+fileSizeOf cfg d.fs e.1⟩ := by
      simp only [measureStep,hf,filePath_eq hp,pathExists_eq hfs hp,hm,
        decide_true,fileSize_eq ho hfs hp hm]
      rw [if_neg (by simp),Nat.mod_eq_of_lt (by omega)]
    rw [foldl_cons,hstep,ih (fun e' he' => hn e' (by simp [he']))
      (fun e' he' => ht e' (by simp [he'])) _ (by omega),Nat.add_assoc]

theorem fileSizeOf_eraseFile (h : a≠b) :
    fileSizeOf cfg (fs.eraseFile (cfg.fileAt b)) a=fileSizeOf cfg fs a := by
  have hne : cfg.fileAt a≠cfg.fileAt b := fun heq => h (fileAt_inj.mp heq)
  simp [fileSizeOf,eraseFile,AList.lookup_erase_ne hne]

variable (cfg fs) in
theorem totalSize_erase (h : id∈m) :
    fileSizeOf cfg fs id+totalSize cfg (fs.eraseFile (cfg.fileAt id)) (m.erase id) =
      totalSize cfg fs m := by
  rw [totalSize,totalSize,AList.keys_erase,← sum_map_erase (fileSizeOf cfg fs) h]
  congr 2
  apply map_congr_left
  intro other ho
  have hm : other∈m.erase id := by
    rw [AList.mem_keys,AList.keys_erase]
    exact ho
  exact fileSizeOf_eraseFile (AList.mem_erase.mp hm).1

theorem evictStep_eq (ho : o.Succeed) {acc : Eviction M} (hfs : CacheDir cfg acc.disk.fs)
    (hp : Plain id) (hf : r.fileName=id)
    (hm : cfg.fileAt id∈acc.disk.fs.files)
    (hs : fileSizeOf cfg acc.disk.fs id≤acc.cacheDirSize) (hlt : acc.cacheDirSize<2^64) :
    ∃ log,evictStep cfg o acc id r =
      { disk := { acc.disk with
          fs := acc.disk.fs.eraseFile (cfg.fileAt id)
          log := log }
        manifest := acc.manifest.erase id
        status := acc.status
        cacheDirSize := acc.cacheDirSize-fileSizeOf cfg acc.disk.fs id
        evicted := acc.evicted++[id] } := by
  obtain ⟨log,hr⟩:=remove_eq ho hfs hp
  refine ⟨log,?_⟩
  have hw : (acc.cacheDirSize+(2^64-fileSizeOf cfg acc.disk.fs id))%2^64 =
      acc.cacheDirSize-fileSizeOf cfg acc.disk.fs id := by omega
  simp only [evictStep,hf,filePath_eq hp,fileSize_eq ho hfs hp hm,hr,Option.getD_some,hw]
  simp

theorem evictLoop_eq (ho : o.Succeed) (allowed : ℕ) {order : List (Name × ℤ)} (acc : Eviction M)
    (hfs : CacheDir cfg acc.disk.fs) (hnames : NamesFiles acc.manifest)
    (ht : ∀ id∈acc.manifest,cfg.fileAt id∈acc.disk.fs.files)
    (hsize : acc.cacheDirSize=totalSize cfg acc.disk.fs acc.manifest)
    (hlt : acc.cacheDirSize<2^64) (hn : (order.map Prod.fst).Nodup)
    (horder : ∀ p∈order,p.1∈acc.manifest) :
    ∃ gone rest log,order=gone++rest ∧ evictLoop cfg o allowed order acc =
        { disk := { acc.disk with
            fs := eraseFiles cfg acc.disk.fs (gone.map Prod.fst)
            log := log }
          manifest := eraseEntries acc.manifest (gone.map Prod.fst)
          status := acc.status
          cacheDirSize := totalSize cfg (eraseFiles cfg acc.disk.fs (gone.map Prod.fst))
            (eraseEntries acc.manifest (gone.map Prod.fst))
          evicted := acc.evicted++gone.map Prod.fst } ∧
      (rest=[] ∨ totalSize cfg (eraseFiles cfg acc.disk.fs (gone.map Prod.fst))
        (eraseEntries acc.manifest (gone.map Prod.fst))<allowed) := by
  induction order generalizing acc with
  | nil =>
    refine ⟨[],[],acc.disk.log,rfl,?_,.inl rfl⟩
    simp only [evictLoop,map_nil,append_nil]
    show acc=⟨acc.disk,acc.manifest,acc.status,totalSize cfg acc.disk.fs acc.manifest,acc.evicted⟩
    rw [← hsize]
  | cons p order ih =>
    obtain ⟨id,time⟩:=p
    have hm : id∈acc.manifest := horder (id,time) (by simp)
    obtain ⟨r,hr⟩:=exists_lookup hm
    obtain ⟨hp,hf⟩:=hnames id r hr
    have htotal:=totalSize_erase cfg acc.disk.fs hm
    obtain ⟨log,hs⟩:=evictStep_eq ho hfs hp hf (ht id hm) (by omega) hlt
    have hs' : acc.cacheDirSize-fileSizeOf cfg acc.disk.fs id =
        totalSize cfg (acc.disk.fs.eraseFile (cfg.fileAt id)) (acc.manifest.erase id) := by omega
    rw [hs'] at hs
    by_cases hstop :
        totalSize cfg (acc.disk.fs.eraseFile (cfg.fileAt id)) (acc.manifest.erase id)<allowed
    · refine ⟨[(id,time)],order,log,rfl,?_,.inr hstop⟩
      simp only [evictLoop,hr,hs,if_pos hstop]
      rfl
    · obtain ⟨hnot,hn'⟩:=nodup_cons.mp hn
      have hk : ∀ q∈order,q.1∈acc.manifest.erase id := by
        intro q hq
        refine AList.mem_erase.mpr ⟨fun heq => hnot ?_,horder q (by simp [hq])⟩
        show id∈order.map Prod.fst
        rw [← heq]
        exact mem_map_of_mem hq
      obtain ⟨gone,rest,log',horder',hl,he⟩:=ih
        { disk := { acc.disk with
            fs := acc.disk.fs.eraseFile (cfg.fileAt id)
            log := log }
          manifest := acc.manifest.erase id
          status := acc.status
          cacheDirSize :=
            totalSize cfg (acc.disk.fs.eraseFile (cfg.fileAt id)) (acc.manifest.erase id)
          evicted := acc.evicted++[id] }
        (hfs.eraseFile _) (hnames.eraseEntries [id])
        (fun other hother => by
          obtain ⟨hne,hm'⟩:=AList.mem_erase.mp hother
          exact AList.mem_erase.mpr ⟨fun heq => hne (fileAt_inj.mp heq),ht other hm'⟩)
        rfl (by show totalSize cfg _ _<2^64; omega) hn' hk
      refine ⟨(id,time)::gone,rest,log',by rw [horder']; rfl,?_,he⟩
      simp only [evictLoop,hr,hs,if_neg hstop]
      rw [hl]
      simp [eraseFiles,eraseEntries]

theorem sum_sizes_le {size : Name → ℕ} (ids : List Name) :
    ((eraseEntries m ids).keys.map size).sum≤(m.keys.map size).sum := by
  induction ids generalizing m with
  | nil => exact Nat.le_refl _
  | cons id ids ih =>
    refine Nat.le_trans (ih (m := m.erase id)) ?_
    by_cases hid : id∈m
    · have hs:=sum_map_erase size hid
      rw [AList.keys_erase]
      omega
    · rw [erase_of_notMem hid]

theorem totalSize_congr {fs' : FileSystem}
    (h : ∀ id∈m,fs'.files.lookup (cfg.fileAt id)=fs.files.lookup (cfg.fileAt id)) :
    totalSize cfg fs' m=totalSize cfg fs m := by
  apply congrArg List.sum
  apply map_congr_left
  intro id hid
  simp [fileSizeOf,h id hid]

theorem mem_eraseEntries {ids : List Name} : id∈eraseEntries m ids ↔ id∈m ∧ id∉ids := by
  rw [← AList.lookup_isSome,lookup_eraseEntries,← AList.lookup_isSome]
  split <;> simp_all

theorem mem_entries {e : (_ : Name) × CachedResource M} : e∈m.entries ↔ m.lookup e.1=some e.2 :=
  AList.mem_lookup_iff.symm

structure CleanedUp (cfg : Config) (o : Outcomes) (allowed : ℕ) (m : Manifest M) (d : Disk M)
    (c : CleanUpResult M) : Prop where
  status_eq : c.status=.okStatus
  manifest_eq : c.manifest=eraseEntries m (c.expired++c.evicted)
  mem_expired : ∀ id,id∈c.expired ↔ ∃ r,m.lookup id=some r ∧ Dropped cfg o d.fs id r
  mem_evicted : ∀ id∈c.evicted,id∈m ∧ id∉c.expired
  cacheDir : CacheDir cfg c.disk.fs
  stored : c.disk.manifest=d.manifest
  files : ∀ id,c.disk.fs.files.lookup (cfg.fileAt id) =
    if id∈c.manifest then d.fs.files.lookup (cfg.fileAt id) else none
  there : ∀ id∈c.manifest,cfg.fileAt id∈c.disk.fs.files
  total_le : totalSize cfg c.disk.fs c.manifest≤allowed
  oldest : ∀ id r id' r',id∈c.evicted → m.lookup id=some r →
    c.manifest.lookup id'=some r' → r.lastAccessedTime≤r'.lastAccessedTime
  fits : totalSize cfg d.fs (eraseEntries m c.expired)≤allowed → c.evicted=[]

theorem exists_expired (hfs : CacheDir cfg d.fs) (hn : NamesFiles m) : ∃ strays del : List Name,
      m.entries.foldl (expireStep cfg o)
        ((d.fs.children cfg.dir).map fun name => cfg.dir++[name],[]) =
        (strays.map cfg.fileAt,del) ∧
      (∀ id,id∈del ↔ ∃ r,m.lookup id=some r ∧ Dropped cfg o d.fs id r) ∧
      (∀ name∈strays,Plain name) ∧
      ∀ name,cfg.fileAt name∈d.fs.files →
        (name∈strays ↔ ∀ r,m.lookup name=some r → r.expiryTime<o.cleanUpTime) := by
  have hentries : ∀ e∈m.entries,Plain e.1 ∧ e.2.fileName=e.1 := fun e he =>
    hn e.1 e.2 (mem_entries.mp he)
  obtain ⟨hf,hi⟩:=foldl_expireStep cfg o m.nodupKeys hentries
    ((d.fs.children cfg.dir).map fun name => cfg.dir++[name]) []
  have hl : ∀ name,cfg.fileAt name∈(d.fs.children cfg.dir).map (fun name => cfg.dir++[name]) ↔
        cfg.fileAt name∈d.fs.files := by
    intro name
    rw [← hfs.mem_children]
    constructor
    · intro h
      obtain ⟨name',hname',heq⟩:=mem_map.mp h
      rwa [← fileAt_inj.mp heq]
    · exact mem_map_of_mem
  generalize hresult : m.entries.foldl (expireStep cfg o)
    ((d.fs.children cfg.dir).map fun name => cfg.dir++[name],[])=result at *
  obtain ⟨paths,del⟩:=result
  obtain ⟨strays,rfl⟩ : ∃ strays : List Name,paths=strays.map cfg.fileAt := by
    refine ⟨paths.filterMap List.getLast?,?_⟩
    rw [map_filterMap]
    symm
    have ha : ∀ path∈paths,path.getLast?.map cfg.fileAt=some path := by
      intro path hpath
      obtain ⟨name,-,rfl⟩:=mem_map.mp ((hf path).mp hpath).1
      simp [fileAt]
    clear hf hi hresult
    induction paths with
    | nil => rfl
    | cons path paths ih =>
      rw [filterMap_cons,ha path (by simp)]
      exact congrArg (path::·) (ih fun p hp => ha p (by simp [hp]))
  have hs : ∀ name,name∈strays ↔ cfg.fileAt name∈strays.map cfg.fileAt := by
    intro name
    rw [mem_map_of_injective fun _ _ h => fileAt_inj.mp h]
  refine ⟨strays,del,rfl,fun id => ?_,fun name hname => ?_,fun name hname => ?_⟩
  · rw [hi]
    simp only [not_mem_nil,false_or,hl,Dropped]
    constructor
    · intro ⟨e,he,hid,hd⟩
      subst hid
      exact ⟨e.2,mem_entries.mp he,hd⟩
    · intro ⟨r,hr,hd⟩
      exact ⟨⟨id,r⟩,mem_entries.mpr hr,rfl,hd⟩
  · have hlist:=((hf _).mp ((hs name).mp hname)).1
    exact hfs.plain name ((hl name).mp hlist)
  · rw [hs,hf,hl]
    constructor
    · intro ⟨_,ha⟩ r hr
      exact ha ⟨name,r⟩ (mem_entries.mpr hr) rfl
    · intro ha
      refine ⟨hname,fun e he heq => ?_⟩
      exact ha e.2 (fileAt_inj.mp heq ▸ mem_entries.mp he)

theorem exists_makeRoom (ho : o.Succeed) (allowed : ℕ) (hfs : CacheDir cfg d.fs)
    (hn : NamesFiles m) (hthere : ∀ id∈m,cfg.fileAt id∈d.fs.files)
    (hlt : totalSize cfg d.fs m<2^64) :
    ∃ (evicted : List Name) (log : List Access) (size : ℕ),
      makeRoom cfg o allowed m ⟨d,.okStatus,totalSize cfg d.fs m⟩ =
        { disk := { d with
            fs := eraseFiles cfg d.fs evicted
            log := log }
          manifest := eraseEntries m evicted
          status := .okStatus
          cacheDirSize := size
          evicted := evicted } ∧
      (∀ id∈evicted,id∈m) ∧
      totalSize cfg (eraseFiles cfg d.fs evicted) (eraseEntries m evicted)≤allowed ∧
      (∀ id r id' r',id∈evicted → m.lookup id=some r → (eraseEntries m evicted).lookup id'=some r' →
        r.lastAccessedTime≤r'.lastAccessedTime) ∧
      (totalSize cfg d.fs m≤allowed → evicted=[]) := by
  by_cases hover : totalSize cfg d.fs m>allowed
  · obtain ⟨order,horder⟩ : ∃ order,order =
        cfg.lru.sort (m.entries.map fun e => (e.1,e.2.lastAccessedTime)) := ⟨_,rfl⟩
    have hperm:=cfg.lru.perm (m.entries.map fun e => (e.1,e.2.lastAccessedTime))
    have hsorted:=cfg.lru.sorted (m.entries.map fun e => (e.1,e.2.lastAccessedTime))
    rw [← horder] at hperm hsorted
    have hm : ∀ p,p∈order ↔ ∃ r,m.lookup p.1=some r ∧ r.lastAccessedTime=p.2 := by
      intro p
      rw [hperm.mem_iff,mem_map]
      constructor
      · intro ⟨e,he,heq⟩
        subst heq
        exact ⟨e.2,mem_entries.mp he,rfl⟩
      · intro ⟨r,hr,ht⟩
        exact ⟨⟨p.1,r⟩,mem_entries.mpr hr,by rw [ht]⟩
    have hnodup : (order.map Prod.fst).Nodup := by
      rw [(hperm.map Prod.fst).nodup_iff,map_map]
      exact m.nodupKeys
    obtain ⟨gone,rest,log,hs,hl,hend⟩:=evictLoop_eq ho allowed
      ⟨d,m,.okStatus,totalSize cfg d.fs m,[]⟩ hfs hn hthere rfl hlt hnodup
      (fun p hp => by
        obtain ⟨r,hr,-⟩:=(hm p).mp hp
        exact mem_of_lookup hr)
    refine ⟨gone.map Prod.fst,log,totalSize cfg (eraseFiles cfg d.fs (gone.map Prod.fst))
      (eraseEntries m (gone.map Prod.fst)),?_,?_,?_,?_,fun hle => absurd hle (by omega)⟩
    · simp only [makeRoom,if_pos hover,← horder]
      rw [hl,nil_append]
    · intro id hid
      obtain ⟨p,hp,rfl⟩:=mem_map.mp hid
      obtain ⟨r,hr,-⟩:=(hm p).mp (hs ▸ mem_append_left _ hp)
      exact mem_of_lookup hr
    · rcases hend with ha | hb
      · -- All entries are evicted, so nothing is left to be measured.
        have hempty : (eraseEntries m (gone.map Prod.fst)).keys=[] := by
          rw [eq_nil_iff_forall_not_mem]
          intro id hid
          obtain ⟨hi,hnot⟩:=mem_eraseEntries.mp hid
          obtain ⟨r,hr⟩:=exists_lookup hi
          have hin : (id,r.lastAccessedTime)∈order := (hm _).mpr ⟨r,hr,rfl⟩
          rw [hs,ha,append_nil] at hin
          exact hnot (mem_map_of_mem (f := Prod.fst) hin)
        rw [totalSize,hempty]
        exact Nat.zero_le _
      · exact Nat.le_of_lt hb
    · intro id r id' r' hid hr hr'
      obtain ⟨p,hp,rfl⟩:=mem_map.mp hid
      obtain ⟨r'',hr'',ht⟩:=(hm p).mp (hs ▸ mem_append_left _ hp)
      rw [lookup_eraseEntries] at hr'
      split at hr'
      · cases hr'
      next hk =>
        have hin : (id',r'.lastAccessedTime)∈order := (hm _).mpr ⟨r',hr',rfl⟩
        have hrest : (id',r'.lastAccessedTime)∈rest := by
          rcases mem_append.mp (hs ▸ hin) with hg | hrest
          · exact absurd (mem_map_of_mem (f := Prod.fst) hg) hk
          · exact hrest
        have hle:=(pairwise_append.mp (hs ▸ hsorted)).2.2 p hp _ hrest
        rw [hr] at hr''
        cases hr''
        rw [ht]
        exact hle
  · refine ⟨[],d.log,totalSize cfg d.fs m,?_,by simp,
      by simpa [eraseFiles,eraseEntries] using hover,by simp,
      fun _ => rfl⟩
    simp only [makeRoom,if_neg hover]
    rfl

theorem exists_dropped (ho : o.Succeed) (hfs : CacheDir cfg d.fs) (hn : NamesFiles m) :
    ∃ (strays del : List Name) (d₁ : Disk M),m.entries.foldl (expireStep cfg o)
        ((d.fs.children cfg.dir).map fun name => cfg.dir++[name],[]) =
        (strays.map cfg.fileAt,del) ∧
      (strays.map cfg.fileAt).foldl (removeStep o) (d,.okStatus)=(d₁,.okStatus) ∧
      (∀ id,id∈del ↔ ∃ r,m.lookup id=some r ∧ Dropped cfg o d.fs id r) ∧
      CacheDir cfg d₁.fs ∧ d₁.manifest=d.manifest ∧
      (∀ id,d₁.fs.files.lookup (cfg.fileAt id) =
        if id∈eraseEntries m del then d.fs.files.lookup (cfg.fileAt id) else none) ∧
      ∀ id∈eraseEntries m del,cfg.fileAt id∈d.fs.files := by
  obtain ⟨strays,del,hfold,hd,hp,hs⟩:=exists_expired (o := o) hfs hn
  obtain ⟨log,hremove⟩:=foldl_removeStep ho hfs hp
  refine ⟨strays,del,_,hfold,hremove,hd,hfs.eraseFiles strays,rfl,?_,?_⟩
  · intro id
    show (eraseFiles cfg d.fs strays).files.lookup _=_
    rw [lookup_eraseFiles]
    by_cases hf : cfg.fileAt id∈d.fs.files
    · -- The file is a stray exactly when its entry is missing or has expired.
      have hiff : id∈strays ↔ id∉eraseEntries m del := by
        rw [hs id hf,mem_eraseEntries,hd]
        constructor
        · intro ha ⟨hi,hnot⟩
          obtain ⟨r,hr⟩:=exists_lookup hi
          exact hnot ⟨r,hr,.inl (ha r hr)⟩
        · intro hnot r hr
          by_contra hfresh
          refine hnot ⟨mem_of_lookup hr,?_⟩
          intro ⟨r',hr',hdrop⟩
          cases hr.symm.trans hr'
          exact hdrop.elim hfresh fun hno => hno hf
      by_cases hid : id∈eraseEntries m del
      · rw [if_neg (fun h => hiff.mp h hid),if_pos hid]
      · rw [if_pos (hiff.mpr hid),if_neg hid]
    · rw [AList.lookup_eq_none.mpr hf,ite_self,ite_self]
  · intro id hid
    obtain ⟨hi,hnot⟩:=mem_eraseEntries.mp hid
    obtain ⟨r,hr⟩:=exists_lookup hi
    by_contra hf
    exact hnot ((hd id).mpr ⟨r,hr,.inr hf⟩)

theorem cleanUp_spec (ho : o.Succeed) (maxSize : ℤ) (reserved : Option ℤ)
    (hfs : CacheDir cfg d.fs) (hn : NamesFiles m) (hlt : totalSize cfg d.fs m<2^64) :
    CleanedUp cfg o (toUnsigned (maxSize-reserved.getD 0)) m d
      (cleanUp cfg o maxSize reserved m d) := by
  obtain ⟨strays,del,d₁,hfold,hremove,hd,hfs₁,hstored,hf,hfile⟩:=exists_dropped ho hfs hn
  have hn₁ : NamesFiles (eraseEntries m del) := hn.eraseEntries del
  have hs : ∀ id∈eraseEntries m del,
      d₁.fs.files.lookup (cfg.fileAt id)=d.fs.files.lookup (cfg.fileAt id) := by
    intro id hid
    rw [hf,if_pos hid]
  have ht₁ : ∀ id∈eraseEntries m del,cfg.fileAt id∈d₁.fs.files := by
    intro id hid
    rw [← AList.lookup_isSome,hs id hid,AList.lookup_isSome]
    exact hfile id hid
  have htotal₁ : totalSize cfg d₁.fs (eraseEntries m del) =
      totalSize cfg d.fs (eraseEntries m del) := totalSize_congr hs
  have hlt₁ : totalSize cfg d₁.fs (eraseEntries m del)<2^64 := by
    rw [htotal₁]
    exact Nat.lt_of_le_of_lt (sum_sizes_le del) hlt
  have hsum : ((eraseEntries m del).entries.map fun e => fileSizeOf cfg d₁.fs e.1).sum =
      totalSize cfg d₁.fs (eraseEntries m del) := by
    rw [totalSize,AList.keys,List.keys,map_map]
    rfl
  have hm:=foldl_measureStep ho hfs₁ (eraseEntries m del).entries
    (fun e he => hn₁ e.1 e.2 (mem_entries.mp he))
    (fun e he => ht₁ e.1 (AList.mem_keys.mpr (mem_map_of_mem he))) 0 (by omega)
  rw [Nat.zero_add,hsum] at hm
  obtain ⟨evicted,log',size,hroom,hevicted,ht,hold,hfit⟩:=exists_makeRoom ho
    (toUnsigned (maxSize-reserved.getD 0)) hfs₁ hn₁ ht₁ hlt₁
  have hresult : cleanUp cfg o maxSize reserved m d =
      ⟨.okStatus,eraseEntries m (del++evicted),{ d₁ with
        fs := eraseFiles cfg d₁.fs evicted
        log := log' },del,evicted⟩ := by
    have hi : ¬ o.iterated=false := by simp [ho.iterated]
    have hisOk : ¬ Status.okStatus.isOk=false := by decide
    simp only [cleanUp,if_neg hi,hfold,hremove,if_neg hisOk,hm,hroom,eraseEntries_append]
  rw [hresult]
  have hl : ∀ id,(eraseFiles cfg d₁.fs evicted).files.lookup (cfg.fileAt id) =
      if id∈eraseEntries m (del++evicted) then d.fs.files.lookup (cfg.fileAt id)
      else none := by
    intro id
    have hmem : id∈eraseEntries m (del++evicted) ↔ id∈eraseEntries m del ∧ id∉evicted := by
      rw [eraseEntries_append,mem_eraseEntries]
    rw [lookup_eraseFiles,hf]
    by_cases hev : id∈evicted
    · rw [if_pos hev,if_neg fun h => (hmem.mp h).2 hev]
    · by_cases hid : id∈eraseEntries m del
      · rw [if_neg hev,if_pos hid,if_pos (hmem.mpr ⟨hid,hev⟩)]
      · rw [if_neg hev,if_neg hid,if_neg fun h => hid (hmem.mp h).1]
  refine ⟨rfl,rfl,hd,?_,hfs₁.eraseFiles evicted,hstored,hl,?_,?_,?_,?_⟩
  · exact fun id hid => mem_eraseEntries.mp (hevicted id hid)
  · intro id hid
    rw [← AList.lookup_isSome,hl,if_pos hid,AList.lookup_isSome]
    rw [eraseEntries_append] at hid
    exact hfile id (mem_eraseEntries.mp hid).1
  · rw [eraseEntries_append]
    exact ht
  · intro id r id' r' hid hr hr'
    rw [eraseEntries_append] at hr'
    refine hold id r id' r' hid ?_ hr'
    rw [lookup_eraseEntries,if_neg (mem_eraseEntries.mp (hevicted id hid)).2]
    exact hr
  · intro hle
    apply hfit
    rw [htotal₁]
    exact hle

end Fcp.Client.Cache

import Fcp.Client.Cache.OwnDirectory

/-!
# Expired entries

`Get` does not look at the expiry of an entry. An expired resource is served until a `Put` or a
`Create` that succeeds has dropped it. Operations may fail in any way.
-/

namespace Fcp.Client.Cache

open List Disk

variable {M : Type} {cfg : Config} {o : Outcomes} {d : Disk M} {m : Manifest M} {id : Name}

def Disk.entry (d : Disk M) (id : Name) : Option (CachedResource M) := d.manifest.bind (·.lookup id)

section Manifest

theorem manifest_remove (path : Path) : (d.remove o path).1.manifest=d.manifest := by
  unfold remove
  split
  · rfl
  · split_ifs <;> rfl

theorem manifest_readFileToCord (path : Path) :
    (d.readFileToCord o path).2.manifest=d.manifest := by
  unfold readFileToCord
  split
  · rfl
  · split
    · rfl
    · split_ifs <;> rfl

theorem manifest_putFileIfMissing (res : Bytes) :
    (putFileIfMissing cfg o d id res).2.manifest=d.manifest := by
  unfold putFileIfMissing writeCordToFile
  split_ifs
  · rfl
  · rfl
  · split
    · rfl
    · split_ifs
      · rfl
      · split <;> rfl

theorem manifest_foldl_removeStep (strays : List Path) (acc : Disk M × Status) :
    (strays.foldl (removeStep o) acc).1.manifest=acc.1.manifest := by
  induction strays generalizing acc with
  | nil => rfl
  | cons file strays ih => rw [foldl_cons,ih,removeStep_fst,manifest_remove]

variable (cfg o) in
theorem manifest_foldl_measureStep (es : List ((_ : Name) × CachedResource M))
    (acc : Measured M) : (es.foldl (measureStep cfg o) acc).disk.manifest=acc.disk.manifest := by
  induction es generalizing acc with
  | nil => rfl
  | cons e es ih =>
    rw [foldl_cons,ih]
    unfold measureStep
    dsimp only
    split
    · rfl
    · split
      · rfl
      · exact manifest_remove _

variable (cfg o) in
/-- Evictions change the manifest in memory only, and what is not in it does not come back. -/
theorem manifest_evictLoop (allowed : ℕ) (order : List (Name × ℤ)) (acc : Eviction M) :
    (evictLoop cfg o allowed order acc).disk.manifest=acc.disk.manifest ∧
    ∀ id,acc.manifest.lookup id=none →
      (evictLoop cfg o allowed order acc).manifest.lookup id=none := by
  induction order generalizing acc with
  | nil => exact ⟨rfl,fun _ h => h⟩
  | cons next order ih =>
    obtain ⟨cacheId,time⟩:=next
    unfold evictLoop
    split
    · exact ih acc
    next res hr =>
      have hd : (evictStep cfg o acc cacheId res).disk.manifest=acc.disk.manifest :=
        manifest_remove _
      have hn (id : Name) (h : acc.manifest.lookup id=none) :
          (evictStep cfg o acc cacheId res).manifest.lookup id=none := by
        show (acc.manifest.erase cacheId).lookup id=none
        rw [AList.lookup_eq_none] at h ⊢
        exact fun hm => h (AList.mem_erase.mp hm).2
      dsimp only
      split_ifs
      · exact ⟨hd,hn⟩
      · exact ⟨(ih _).1.trans hd,fun id h => (ih _).2 id (hn id h)⟩

theorem foldl_expireStep_mono (es : List ((_ : Name) × CachedResource M))
    (acc : List Path × List Name) {id : Name} (h : id∈acc.2) :
    id∈(es.foldl (expireStep cfg o) acc).2 := by
  induction es generalizing acc with
  | nil => exact h
  | cons e es ih =>
    apply ih
    unfold expireStep
    dsimp only
    split_ifs
    · exact mem_append_left _ h
    · exact h

variable (cfg) in
theorem mem_foldl_expireStep {es : List ((_ : Name) × CachedResource M)}
    {e : (_ : Name) × CachedResource M} (he : e∈es) (h : e.2.expiryTime<o.cleanUpTime)
    (acc : List Path × List Name) : e.1∈(es.foldl (expireStep cfg o) acc).2 := by
  induction es generalizing acc with
  | nil => cases he
  | cons first es ih =>
    rcases mem_cons.mp he with rfl | he
    · rw [foldl_cons]
      apply foldl_expireStep_mono
      unfold expireStep
      dsimp only
      rw [if_pos (.inl h)]
      exact mem_append_right _ (mem_singleton_self _)
    · exact ih he _

variable (cfg o m d) in
/-- A clean-up writes no manifest. One that succeeds leaves no expired entry in memory. -/
theorem manifest_cleanUp (maxSize : ℤ) (reserved : Option ℤ) :
    (cleanUp cfg o maxSize reserved m d).disk.manifest=d.manifest ∧
    ∀ id,((cleanUp cfg o maxSize reserved m d).status.isOk=true ∧
        (∀ r∈m.lookup id,r.expiryTime<o.cleanUpTime)) →
      (cleanUp cfg o maxSize reserved m d).manifest.lookup id=none := by
  unfold cleanUp
  split_ifs with hi
  · exact ⟨rfl,fun id h => by cases h.1⟩
  · obtain ⟨⟨strays,del⟩,he⟩ : ∃ acc,m.entries.foldl (expireStep cfg o)
      ((d.fs.children cfg.dir).map fun name => cfg.dir++[name],[])=acc := ⟨_,rfl⟩
    have hr:=manifest_foldl_removeStep (o := o) strays (d,.okStatus)
    obtain ⟨⟨d₁,st⟩,hf⟩ : ∃ acc,strays.foldl (removeStep o) (d,.okStatus)=acc := ⟨_,rfl⟩
    rw [hf] at hr
    simp only [he,hf]
    split
    next hs => exact ⟨hr,fun id h => absurd (hs.symm.trans h.1) nofun⟩
    have hm:=manifest_foldl_measureStep cfg o (eraseEntries m del).entries ⟨d₁,.okStatus,0⟩
    split
    next hs => exact ⟨hm.trans hr,fun id h => absurd (hs.symm.trans h.1) nofun⟩
    have hn (id : Name) (h : ∀ r∈m.lookup id,r.expiryTime<o.cleanUpTime) :
        (eraseEntries m del).lookup id=none := by
      rw [lookup_eraseEntries,ite_eq_left_iff]
      intro hd
      cases hl : m.lookup id with
      | none => rfl
      | some r =>
        have hin:=mem_foldl_expireStep cfg (mem_entries (e := ⟨id,r⟩).mpr hl)
          (h r hl) ((d.fs.children cfg.dir).map fun name => cfg.dir++[name],[])
        rw [he] at hin
        exact absurd hin hd
    unfold makeRoom
    dsimp only
    split
    · have hv:=manifest_evictLoop (M := M) cfg o
      exact ⟨(hv _ _ _).1.trans (hm.trans hr),fun id h => (hv _ _ _).2 id (hn id h.2)⟩
    · exact ⟨hm.trans hr,fun id h => hn id h.2⟩

/-- A read or write of the manifest that fails leaves it as it was, or deletes it. -/
def Kept (d d' : Disk M) : Prop := d'.manifest=d.manifest ∨ d'.manifest=none

theorem kept_deleteManifest : Kept d (d.deleteManifest o) := by
  unfold deleteManifest
  split_ifs
  · exact .inr rfl
  · exact .inl rfl

variable (o d) in
theorem readInternal_cases :
    (∃ m,o.manifestRead=true ∧ d.manifest=some m ∧ d.readInternal o=(.ok m,d)) ∨
    ¬ (o.manifestRead=true ∧ d.manifest.isSome) ∧
      ∃ status d',status.isOk=false ∧ d.readInternal o=(.error status,d') ∧ Kept d d' := by
  unfold readInternal
  split
  next m hm hr => exact .inl ⟨m,hr,hm,rfl⟩
  next hn =>
    refine .inr ⟨?_,_,_,rfl,rfl,kept_deleteManifest⟩
    rintro ⟨hr,hs⟩
    obtain ⟨m,hm⟩:=Option.isSome_iff_exists.mp hs
    exact hn m hm hr

theorem writeInternal_cases {written : Bool} {p : Status × Disk M}
    (hp : d.writeInternal o written m=p) :
    written=true ∧ p=(.okStatus,{ d with manifest := some m }) ∨
    ¬ written=true ∧ ∃ status d',status.isOk=false ∧ p=(status,d') ∧ Kept d d' := by
  subst hp
  unfold writeInternal
  split_ifs with hw
  · exact .inl ⟨hw,rfl⟩
  · exact .inr ⟨hw,_,_,rfl,rfl,kept_deleteManifest⟩

/-- What a call with a clean-up does to the manifest: what the clean-up leaves is written as a
whole, with an entry added by `Put`, or not at all. -/
inductive Rewritten (cfg : Config) (o : Outcomes) (add : Manifest M → Manifest M) (d : Disk M)
    (report : Report M) (d' : Disk M) : Prop
  | failed (hs : report.status.isOk=false)
      (h : d'.manifest=d.manifest ∨ d'.manifest=none ∨ d.manifest=none ∧ d'.manifest=some ∅)
  | cleaned {maxSize : ℤ} {reserved : Option ℤ} {d₁ : Disk M}
      (hc : (cleanUp cfg o maxSize reserved (d.manifest.getD ∅) d₁).status.isOk=true)
      (h : d'.manifest =
        some (add (cleanUp cfg o maxSize reserved (d.manifest.getD ∅) d₁).manifest))

theorem rewritten_put (maxSize : ℤ) (cacheId : Name) (res : Bytes) (metadata : M) (age : ℤ) :
    Rewritten cfg o (·.insertNew cacheId ⟨cacheId,metadata,o.time+age,o.time⟩) d
      (put cfg o maxSize d cacheId res metadata age).1
      (put cfg o maxSize d cacheId res metadata age).2 := by
  unfold put
  split
  · exact .failed rfl (.inl rfl)
  obtain ⟨m,-,hm,hr⟩ | ⟨-,status,d₁,hs,hr,h⟩:=readInternal_cases o d
  · rw [hr]
    have hd : d.manifest.getD ∅=m := by rw [hm,Option.getD_some]
    have hk:=(manifest_cleanUp cfg o d m maxSize (some (res.length : ℤ))).1
    dsimp only
    split
    next hs => exact .failed hs (.inl hk)
    next hs =>
      subst hd
      generalize hw : writeInternal _ _ _ _=p
      obtain ⟨-,rfl⟩ | ⟨-,status,d₂,hs,rfl,h⟩:=writeInternal_cases hw
      · exact .cleaned (by simpa using hs) (manifest_putFileIfMissing res)
      · dsimp only
        rw [if_pos hs]
        exact .failed hs (h.imp (·.trans hk) .inl)
  · rw [hr]
    exact .failed hs (h.imp_right .inl)

theorem ensureManifest_cases : ensureManifest o d=(.okStatus,{ d with
      manifest := some (d.manifest.getD ∅) }) ∨
    ∃ status d',status.isOk=false ∧ ensureManifest o d=(status,d') ∧ Kept d d' := by
  unfold ensureManifest
  split
  next hm =>
    rw [hm]
    exact (writeInternal_cases rfl).imp And.right And.right
  next m hm =>
    left
    rw [hm,Option.getD_some,← hm]

variable (cfg o d) in
theorem rewritten_initializeCache (maxSize : ℤ) : Rewritten cfg o (fun m => m) d
    (initializeCache cfg o maxSize d).1 (initializeCache cfg o maxSize d).2 := by
  unfold initializeCache
  split
  · exact .failed rfl (.inl rfl)
  obtain he | ⟨status,d₁,hs,he,h⟩:=ensureManifest_cases (o := o) (d := d)
  · rw [he]
    have hk {d' : Disk M} (h : Kept { d with manifest := some (d.manifest.getD ∅) } d') :
        d'.manifest=d.manifest ∨ d'.manifest=none ∨ d.manifest=none ∧ d'.manifest=some ∅ := by
      unfold Kept at h
      revert h
      cases d.manifest with
      | none => exact fun h => .inr (h.symm.imp_right fun h => ⟨rfl,h⟩)
      | some m => exact fun h => h.imp_right .inl
    dsimp only
    rw [if_neg (by decide)]
    obtain ⟨m,-,⟨⟩,hr⟩ | ⟨-,status,d₁,hs,hr,h⟩:=readInternal_cases o
      { d with manifest := some (d.manifest.getD ∅) }
    · have hc:=(manifest_cleanUp cfg o { d with manifest := some (d.manifest.getD ∅) }
        (d.manifest.getD ∅) maxSize none).1
      rw [hr]
      dsimp only
      split
      · exact .failed rfl (hk (.inl hc))
      next hs =>
        generalize hw : writeInternal _ _ _ _=p
        obtain ⟨-,rfl⟩ | ⟨-,status,d₂,hs',rfl,h⟩:=writeInternal_cases hw
        · exact .cleaned (by simpa using hs) rfl
        · dsimp only
          rw [if_pos hs']
          exact .failed rfl (hk (h.imp_left (·.trans hc)))
    · rw [hr]
      exact .failed rfl (hk h)
  · rw [he]
    dsimp only
    rw [if_pos hs]
    exact .failed rfl (h.imp_right .inl)

theorem rewritten_create (maxSize : ℤ) :
    Rewritten cfg o (fun m => m) d (create cfg o maxSize d).1 (create cfg o maxSize d).2 := by
  unfold create
  split
  · exact .failed rfl (.inl rfl)
  dsimp only
  split
  · exact .failed rfl (.inl rfl)
  · obtain ⟨hs,h⟩ | ⟨hc,h⟩:=rewritten_initializeCache cfg o (withDirectories cfg d) maxSize
    · exact .failed hs h
    · exact .cleaned hc h

theorem lookup_getD (id : Name) : (d.manifest.getD ∅).lookup id=d.entry id := by
  unfold entry
  cases d.manifest <;> rfl

/-- An entry that is not there, or has expired when the call succeeds, is not there afterwards. -/
theorem Rewritten.entry_eq_none {add : Manifest M → Manifest M} {rep : Report M} {d' : Disk M}
    (h : Rewritten cfg o add d rep d') (ha : ∀ m,m.lookup id=none → (add m).lookup id=none)
    (hd : d.entry id=none ∨ rep.status.isOk=true ∧ ∀ r∈d.entry id,r.expiryTime<o.cleanUpTime) :
    d'.entry id=none := by
  cases h with
  | failed hs h =>
    have hn : d.entry id=none := hd.resolve_right fun hd => nomatch hs.symm.trans hd.1
    rcases h with h | h | ⟨-,h⟩
    · rw [entry,h]
      exact hn
    · rw [entry,h]
      rfl
    · rw [entry,h]
      rfl
  | cleaned hc h =>
    rw [entry,h]
    refine ha _ ((manifest_cleanUp cfg o _ _ _ _).2 id ⟨hc,fun r hr => ?_⟩)
    rw [lookup_getD] at hr
    rcases hd with hn | ⟨-,hd⟩
    · rw [hn] at hr
      cases hr
    · exact hd r hr

end Manifest

/-- A resource is served for an entry of the manifest, whatever its expiry, and the entry stays. -/
inductive Fetched (cfg : Config) (o : Outcomes) (d : Disk M) (cacheId : Name) (report : Report M)
    (d' : Disk M) : Prop
  | missed (hf : report.fetched=none) (hs : report.status.isOk=false)
      (hd : ¬ (o.manifestRead=true ∧ (d.entry cacheId).isSome ∧
        (d.readFileToCord o (cfg.filePath cacheId)).1.isSome ∧ o.manifestWritten=true))
      (h : Kept d d')
  | served {m : Manifest M} {r r' : CachedResource M} {content : Bytes}
      (hf : report.fetched=some (content,r.metadata)) (hr : o.manifestRead=true)
      (hm : d.manifest=some m) (hl : m.lookup cacheId=some r)
      (hc : (d.readFileToCord o (cfg.filePath cacheId)).1=some content)
      (hw : o.manifestWritten=true) (h : d'.manifest=some ((m.erase cacheId).insert cacheId r'))

variable (cfg o d) in
theorem fetched_get (cacheId : Name) (age : Option ℤ) : Fetched cfg o d cacheId
    (get cfg o d cacheId age).1 (get cfg o d cacheId age).2 := by
  unfold get
  obtain ⟨m,hr,hm,hd⟩ | ⟨hn,status,d₁,hs,hd,h⟩:=readInternal_cases o d
  · rw [hd]
    dsimp only
    split
    next hl => exact .missed rfl rfl (by simp [entry,hm,hl]) (.inl rfl)
    rename_i r hl
    have h₁:=manifest_readFileToCord (o := o) (d := d) (cfg.filePath cacheId)
    obtain ⟨⟨content,d₁⟩,hf⟩ : ∃ res,d.readFileToCord o (cfg.filePath cacheId)=res := ⟨_,rfl⟩
    rw [hf] at h₁ ⊢
    cases content with
    | none =>
      have h₂:=(manifest_remove (o := o) (d := d₁) (cfg.filePath cacheId)).trans h₁
      dsimp only
      split <;> exact .missed rfl rfl (by simp [hf]) (.inl h₂)
    | some content =>
      dsimp only
      generalize hp : writeInternal _ _ _ _=p
      obtain ⟨hw,rfl⟩ | ⟨hw,status,d₂,hs,rfl,h⟩:=writeInternal_cases hp
      · exact .served rfl hr hm hl (by rw [hf]) hw rfl
      · dsimp only
        rw [if_pos hs]
        exact .missed rfl hs (by simp [hw]) (h.imp_left (·.trans h₁))
  · rw [hd]
    refine .missed rfl hs (fun ⟨hr,he,_⟩ => hn ⟨hr,?_⟩) h
    exact Option.isSome_of_isSome_bind he

def Call.stores (id : Name) : Call M → Bool
  | .put cacheId _ _ _ => cacheId=id
  | _ => false

/-- A `Put` or a `Create` that succeeds, after the expiry that the manifest has for the entry. -/
def sweeps (id : Name) (d : Disk M) (event : Event M) (report : Report M) : Bool :=
  match event.call with
  | .get _ _ => false
  | _ => report.status.isOk && decide (∀ r∈d.entry id,r.expiryTime<event.outcomes.cleanUpTime)

/-- Since its last `Put` the entry has been swept away. -/
def swept (cfg : Config) (id : Name) (history : List (CacheState M × Event M)) : Bool :=
  history.foldl (fun swept entry =>
    match perform cfg entry.1 entry.2 with
    | none => swept
    | some (report,_) => !entry.2.call.stores id &&
        (swept || sweeps id entry.1.disk entry.2 report)) false

def nextUnswept (id : Name) (report : Report M) (unswept : Bool) : Call M → Bool
  | .create _ => false
  | .put cacheId _ _ _ => decide (cacheId=id) && report.status.isOk
  | .get cacheId _ => unswept || decide (cacheId=id) && report.status.isOk

/-- Since it was put or served, nothing but `Get` has been called. -/
def unswept (cfg : Config) (id : Name) (history : List (CacheState M × Event M)) : Bool :=
  history.foldl (fun unswept entry =>
    match perform cfg entry.1 entry.2 with
    | none => unswept
    | some (report,_) => nextUnswept id report unswept entry.2.call) false

variable {s s' : CacheState M} {e : Event M} {rep : Report M}

section

variable {cacheId : Name} {d' : Disk M} (h : Fetched cfg o d cacheId rep d')
include h

theorem Fetched.isSome_iff : rep.fetched.isSome ↔ o.manifestRead=true ∧ (d.entry cacheId).isSome ∧
    (d.readFileToCord o (cfg.filePath cacheId)).1.isSome ∧ o.manifestWritten=true := by
  cases h with
  | missed hf _ hd => exact iff_of_false (by simp [hf]) hd
  | served hf hr hm hl hc hw =>
    exact iff_of_true (by simp [hf]) ⟨hr,by simp [entry,hm,hl],by simp [hc],hw⟩

theorem Fetched.entry (id : Name) :
    d'.manifest=none ∨ (d'.entry id).isSome=(d.entry id).isSome := by
  cases h with
  | missed _ _ _ h => exact h.symm.imp_right fun h => by rw [Disk.entry,h,Disk.entry]
  | served _ _ hm hl _ _ h =>
    right
    rw [Disk.entry,h,Disk.entry,hm,Option.bind_some,Option.bind_some]
    by_cases hi : id=cacheId
    · subst hi
      rw [AList.lookup_insert,hl]
      rfl
    · rw [AList.lookup_insert_ne hi,AList.lookup_erase_ne hi]

theorem Fetched.entry_eq_none (hn : d.entry id=none) : d'.entry id=none := by
  rcases h.entry id with h | h
  · rw [Disk.entry,h]
    rfl
  · rw [hn] at h
    exact Option.isNone_iff_eq_none.mp (Option.isSome_eq_false_iff.mp h)

theorem Fetched.lost_or_isSome (hd : d.manifest=none ∨ (d.entry id).isSome) :
    d'.manifest=none ∨ (d'.entry id).isSome := by
  rcases hd with hn | hs
  · cases h with
    | missed _ _ _ h => exact .inl (h.elim (·.trans hn) fun h => h)
    | served _ _ hm => exact nomatch hn.symm.trans hm
  · exact (h.entry id).imp_right (·.trans hs)

theorem Fetched.isSome_of_isOk (hs : rep.status.isOk=true) : (d'.entry cacheId).isSome := by
  cases h with
  | missed _ hs' => exact nomatch hs'.symm.trans hs
  | served _ _ _ _ _ _ h => rw [Disk.entry,h,Option.bind_some,AList.lookup_insert]; rfl

end

theorem lookup_insertNew_of_ne {cacheId : Name} (hi : cacheId≠id) (r : CachedResource M)
    (m : Manifest M) (h : m.lookup id=none) : (m.insertNew cacheId r).lookup id=none := by
  unfold Manifest.insertNew
  split
  · exact h
  · rw [AList.lookup_insert_ne hi.symm,h]

theorem of_sweeps (h : sweeps id d e rep=true) :
    rep.status.isOk=true ∧ ∀ r∈d.entry id,r.expiryTime<e.outcomes.cleanUpTime := by
  unfold sweeps at h
  split at h
  · cases h
  · simpa using h

theorem entry_eq_none_step (hp : perform cfg s e=some (rep,s')) (hs : e.call.stores id=false)
    (h : s.disk.entry id=none ∨ sweeps id s.disk e rep=true) : s'.disk.entry id=none := by
  have hw:=h.imp_right of_sweeps
  obtain ⟨call,o⟩:=e
  obtain ⟨d,size⟩:=s
  cases call with
  | create maxSize =>
    cases hp
    exact (rewritten_create maxSize).entry_eq_none (fun _ h => h) hw
  | put cacheId res metadata age =>
    cases size with
    | none => cases hp
    | some maxSize =>
      cases hp
      exact (rewritten_put maxSize cacheId res metadata age).entry_eq_none
        (lookup_insertNew_of_ne (of_decide_eq_false hs) _) hw
  | get cacheId age =>
    have hn:=h.resolve_right nofun
    cases size with
    | none => cases hp
    | some maxSize =>
      cases hp
      exact (fetched_get cfg o d cacheId age).entry_eq_none hn

theorem Rewritten.isSome_of_isOk {cacheId : Name} {r : CachedResource M} {d' : Disk M}
    (h : Rewritten cfg o (·.insertNew cacheId r) d rep d') (hs : rep.status.isOk=true) :
    (d'.entry cacheId).isSome := by
  cases h with
  | failed hs' => exact nomatch hs'.symm.trans hs
  | cleaned _ h =>
    rw [entry,h,Option.bind_some,AList.lookup_isSome]
    unfold Manifest.insertNew
    split
    · assumption
    · exact (AList.mem_insert _).mpr (.inl rfl)

/-- What the calls so far say about the manifest. -/
structure Accounted (cfg : Config) (id : Name) (history : List (CacheState M × Event M))
    (d : Disk M) : Prop where
  swept : swept cfg id history=true → d.entry id=none
  unswept : unswept cfg id history=true → d.manifest=none ∨ (d.entry id).isSome

theorem accounted_step {history : List (CacheState M × Event M)}
    (h : Accounted cfg id history s.disk) (hp : perform cfg s e=some (rep,s')) :
    Accounted cfg id (history++[(s,e)]) s'.disk where
  swept hw := by
    simp only [Cache.swept,foldl_append,foldl_cons,foldl_nil,hp,Bool.and_eq_true,Bool.not_eq_true',
      Bool.or_eq_true] at hw
    exact entry_eq_none_step hp hw.1 (hw.2.imp_left h.swept)
  unswept hu := by
    replace hu : nextUnswept id rep (Cache.unswept cfg id history) e.call=true := by
      simpa only [Cache.unswept,foldl_append,foldl_cons,foldl_nil,hp] using hu
    obtain ⟨call,o⟩:=e
    obtain ⟨d,size⟩:=s
    cases call with
    | create maxSize => cases hu
    | put cacheId res metadata age =>
      cases size with
      | none => cases hp
      | some maxSize =>
        obtain ⟨hi,hs⟩:=Bool.and_eq_true_iff.mp hu
        obtain rfl:=of_decide_eq_true hi
        cases hp
        exact .inr ((rewritten_put maxSize cacheId res metadata age).isSome_of_isOk hs)
    | get cacheId age =>
      cases size with
      | none => cases hp
      | some maxSize =>
        have hg:=fetched_get cfg o d cacheId age
        rcases Bool.or_eq_true_iff.mp hu with hb | hb
        · cases hp
          exact hg.lost_or_isSome (h.unswept hb)
        · obtain ⟨hi,hs⟩:=Bool.and_eq_true_iff.mp hb
          obtain rfl:=of_decide_eq_true hi
          cases hp
          exact .inr (hg.isSome_of_isOk hs)

/-- In every run, whatever fails: an entry that has been swept away is not found, and nothing
comes of a `Get`; one that has not been is in the manifest, unless that is lost; and `Get` serves
what is in the manifest, without a look at its expiry. -/
theorem expired_missed {d : Disk M} {history : List (CacheState M × Event M)}
    (hr : Run (cacheStep cfg) (closed d) history s) (id : Name) :
    (swept cfg id history=true → ∀ (o : Outcomes) (maxAge : Option ℤ),
      (get cfg o s.disk id maxAge).1.fetched=none ∧
      (get cfg o s.disk id maxAge).2.entry id=none ∧
      (o.manifestRead=true → s.disk.manifest≠none →
        get cfg o s.disk id maxAge=(.failed (notFound id),s.disk))) ∧
    (unswept cfg id history=true → s.disk.manifest=none ∨ (s.disk.entry id).isSome) ∧
    ∀ (o : Outcomes) (maxAge : Option ℤ),(get cfg o s.disk id maxAge).1.fetched.isSome ↔
      o.manifestRead=true ∧ (s.disk.entry id).isSome ∧
        (s.disk.readFileToCord o (cfg.filePath id)).1.isSome ∧ o.manifestWritten=true := by
  have ha : Accounted cfg id history s.disk := by
    refine hr.invariant (G := fun _ _ => True) (P := fun history s =>
      Accounted cfg id history s.disk) (fun _ _ => trivial) ⟨nofun,nofun⟩ ?_
    intro history s s' event h _ hs
    unfold cacheStep at hs
    split at hs
    · cases hs
    next hp =>
      cases hs
      exact accounted_step h hp
  refine ⟨fun hw o maxAge => ?_,ha.unswept,
    fun o maxAge => (fetched_get cfg o s.disk id maxAge).isSome_iff⟩
  have hg:=fetched_get cfg o s.disk id maxAge
  have hn:=ha.swept hw
  refine ⟨?_,hg.entry_eq_none hn,fun hread hm => ?_⟩
  · rw [← Option.not_isSome_iff_eq_none,hg.isSome_iff,hn]
    simp
  · obtain ⟨m,hm⟩:=Option.ne_none_iff_exists'.mp hm
    rw [entry,hm,Option.bind_some] at hn
    simp [get,readInternal,hm,hread,hn]

theorem expired_missed_after_put :
    ∃ history s,Run (cacheStep sampleConfig) (closed emptyDisk) history s ∧
      swept sampleConfig sampleId history=true ∧
      get sampleConfig (.smooth 21 21) s.disk sampleId none =
        (.failed (notFound sampleId),s.disk) := by
  obtain ⟨history,s,hr,-,hw,hm⟩:=exists_recorded (cacheStep sampleConfig)
    (closed emptyDisk) ([(0,.create 100),(1,.put sampleId [1] 7 10),
      (20,.put "b".toList [2] 8 10)].map fun c => smoothly c.1 c.2)
    (P := fun history s => swept sampleConfig sampleId history=true ∧ s.disk.manifest.isSome)
    (by decide +kernel)
  have hg:=((expired_missed hr sampleId).1 hw (.smooth 21 21) none).2.2
  exact ⟨history,s,hr,hw,hg rfl (Option.isSome_iff_ne_none.mp hm)⟩

/-- An entry that has expired at 11 is served at 20 and renewed: with no call in between, and after
a `Put` whose clean-up could not remove the file. -/
theorem expired_served : (∃ history s,Run (cacheStep sampleConfig) (closed emptyDisk) history s ∧
      history.map Prod.snd=[smoothly 0 (.create 100),smoothly 1 (.put sampleId [1] 7 10)] ∧
      (s.disk.entry sampleId).map (·.expiryTime)=some 11 ∧
      (get sampleConfig (.smooth 20 20) s.disk sampleId (some 10)).1.fetched=some ([1],7) ∧
      ((get sampleConfig (.smooth 20 20) s.disk sampleId (some 10)).2.entry sampleId).map
        (·.expiryTime)=some 30) ∧
    ∃ history s,Run (cacheStep sampleConfig) (closed emptyDisk) history s ∧
      history.map Prod.snd=[smoothly 0 (.create 100),smoothly 1 (.put sampleId [1] 7 10),
        ⟨.put "b".toList [2] 8 10,{ Outcomes.smooth 19 19 with removable := fun _ => false }⟩] ∧
      (get sampleConfig (.smooth 20 20) s.disk sampleId none).1.fetched=some ([1],7) := by
  refine ⟨?_,?_⟩ <;> exact exists_recorded _ _ _ (by decide +kernel)

end Fcp.Client.Cache

import Fcp.Client.Cache.LastPut

/-!
# The size limit and the order of eviction

The times of the last accesses are recorded from the calls alone. The manifest has the same times as
long as every `Put` writes its entry; one of an entry that is alive does not.
-/

namespace Fcp.Client.Cache

variable {M : Type} {cfg : Config} {s s' : CacheState M} {o : Outcomes}

structure CleanUpCall (M : Type) where
  maxSize : ℤ
  reserved : Option ℤ
  manifest : Manifest M
  disk : Disk M

namespace CleanUpCall

def run (cfg : Config) (o : Outcomes) (call : CleanUpCall M) : CleanUpResult M :=
  cleanUp cfg o call.maxSize call.reserved call.manifest call.disk

def available (call : CleanUpCall M) : ℤ := call.maxSize-call.reserved.getD 0

end CleanUpCall

def cleanUpCall (cfg : Config) (s : CacheState M) : Call M → Option (CleanUpCall M)
  | .create maxSize => some ⟨maxSize,none,s.disk.manifest.getD ∅,initialized cfg s.disk⟩
  | .put _ resource _ _ =>
    match s.maxSize, s.disk.manifest with
    | some maxSize, some manifest =>
      if resource.length>toUnsigned (maxSize.tdiv 2) then none
      else some ⟨maxSize,some (resource.length : ℤ),manifest,s.disk⟩
    | _, _ => none
  | .get _ _ => none

def nextAccessed (o : Outcomes) (report : Report M) (accessed : Name → Option ℤ) :
    Call M → Name → Option ℤ
  | .create _ => accessed
  | .put id _ _ _ =>
    if report.status.isOk then Function.update accessed id (some o.time) else accessed
  | .get id _ =>
    if report.status.isOk then Function.update accessed id (some o.time) else accessed

def accessedOf (cfg : Config) (d : Disk M) (history : List (CacheState M × Event M)) :
    Name → Option ℤ :=
  history.foldl (fun accessed entry =>
    match perform cfg entry.1 entry.2 with
    | none => accessed
    | some (report,_) => nextAccessed entry.2.outcomes report accessed entry.2.call)
    fun id => ((d.manifest.getD ∅).lookup id).map fun r => r.lastAccessedTime

variable {rep : Report M} {e : Event M} {d : Disk M} {hist : List (CacheState M × Event M)}
  {call : CleanUpCall M} {maxSize : ℤ}

def Recorded (accessed : Name → Option ℤ) (m : Manifest M) : Prop :=
  ∀ id r,m.lookup id=some r → accessed id=some r.lastAccessedTime

variable {accessed : Name → Option ℤ} {m : Manifest M}

theorem Recorded.eraseEntries (h : Recorded accessed m) (ids : List Name) :
    Recorded accessed (eraseEntries m ids) := by
  intro id r hr
  rw [lookup_eraseEntries] at hr
  split at hr
  · cases hr
  · exact h id r hr

theorem Recorded.insert (h : Recorded accessed m) (id : Name) (r : CachedResource M) :
    Recorded (Function.update accessed id (some r.lastAccessedTime)) (m.insert id r) := by
  intro other r' hr'
  by_cases heq : other=id
  · subst heq
    rw [AList.lookup_insert] at hr'
    cases hr'
    rw [Function.update_self]
  · rw [AList.lookup_insert_ne heq] at hr'
    rw [Function.update_of_ne heq]
    exact h other r' hr'

theorem recorded_move (hfresh : Fresh cfg s e) (h : Recorded accessed (s.disk.manifest.getD ∅))
    (hmove : CacheMove cfg s e.outcomes e.call rep s') :
    Recorded (nextAccessed e.outcomes rep accessed e.call)
      (s'.disk.manifest.getD ∅) := by
  obtain ⟨call,o⟩:=e
  cases hmove with
  | @created maxSize c hc hconsistent hl hhigh =>
    show Recorded accessed c.manifest
    rw [hc.manifest_eq]
    exact h.eraseEntries _
  | @tooLarge maxSize id res metadata age ho st hs =>
    have hf : (Report.failed st : Report M).status.isOk=false := hs
    simpa only [nextAccessed,hf,Bool.false_eq_true,if_false] using h
  | @stored maxSize putId res metadata age m d' rep c ho hm hh hp =>
    obtain ⟨hok,hs⟩:=hp.inserted (hfresh m hm.stored)
    have hk : Recorded accessed c.manifest := by
      rw [hp.cleaned.manifest_eq]
      rw [hm.stored] at h
      exact h.eraseEntries _
    show Recorded _ (d'.manifest.getD ∅)
    rw [hs]
    simp only [nextAccessed,hok,if_true]
    exact hk.insert putId ⟨putId,metadata,o.time+age,o.time⟩
  | @missed id age m hm hr =>
    have hf : (Report.failed (notFound id) : Report M).status.isOk=false := rfl
    simpa only [nextAccessed,hf,Bool.false_eq_true,if_false] using h
  | @fetched id age m r body log hm hr hcontent =>
    rw [hm.stored] at h
    exact Recorded.insert h id (touched o age r)

structure CleanUpCorrect (cfg : Config) (o : Outcomes) (accessed : Name → Option ℤ)
    (call : CleanUpCall M) : Prop where
  files : ∀ name∈(call.run cfg o).disk.fs.children cfg.dir,
    ∃! id,∃ r,(call.run cfg o).manifest.lookup id=some r ∧ ¬ r.expiryTime<o.cleanUpTime ∧
      cfg.filePath r.fileName=cfg.dir++[name]
  entries : ∀ id r,(call.run cfg o).manifest.lookup id=some r →
    cfg.filePath r.fileName∈(call.run cfg o).disk.fs.files
  oldest : ∀ id∈(call.run cfg o).evicted,∀ kept∈(call.run cfg o).manifest,
    ∃ t t',accessed id=some t ∧ accessed kept=some t' ∧ t≤t'
  fits : (totalSize cfg call.disk.fs (eraseEntries call.manifest (call.run cfg o).expired) : ℤ) +
    call.reserved.getD 0≤call.maxSize → (call.run cfg o).evicted=[]

theorem CleanedUp.correct
    (h : CleanedUp cfg o (toUnsigned call.available) call.manifest call.disk (call.run cfg o))
    (hn : NamesFiles call.manifest) (ha : Recorded accessed call.manifest)
    (hlow : 0≤call.available) (hh : call.available<2^63) :
    CleanUpCorrect cfg o accessed call := by
  obtain ⟨c,hc⟩ : ∃ c,c=call.run cfg o := ⟨_,rfl⟩
  rw [← hc] at h
  have hl : ∀ id r,c.manifest.lookup id=some r → call.manifest.lookup id=some r ∧ id∉c.expired := by
    intro id r hr
    rw [h.manifest_eq,lookup_eraseEntries] at hr
    split at hr
    · cases hr
    next hnot => exact ⟨hr,fun hin => hnot (List.mem_append_left _ hin)⟩
  have hp : ∀ id r,c.manifest.lookup id=some r → cfg.filePath r.fileName=cfg.fileAt id := by
    intro id r hr
    obtain ⟨hplain,hf⟩:=hn id r (hl id r hr).1
    rw [hf,Config.filePath_eq hplain]
  refine ⟨?_,?_,?_,?_⟩
  · rw [← hc]
    intro name hname
    have ht:=h.cacheDir.mem_children.mp hname
    have hm : name∈c.manifest := by
      by_contra hnot
      have hnone:=h.files name
      rw [if_neg hnot,AList.lookup_eq_none] at hnone
      exact hnone ht
    obtain ⟨r,hr⟩:=exists_lookup hm
    have halive : ¬ r.expiryTime<o.cleanUpTime := fun he =>
      (hl name r hr).2 ((h.mem_expired name).mpr ⟨r,(hl name r hr).1,.inl he⟩)
    refine ⟨name,⟨r,hr,halive,hp name r hr⟩,?_⟩
    rintro other ⟨r',hr',-,hf⟩
    rw [hp other r' hr'] at hf
    exact Config.fileAt_inj.mp hf
  · rw [← hc]
    intro id r hr
    rw [hp id r hr]
    exact h.there id (mem_of_lookup hr)
  · rw [← hc]
    intro id hid kept hk
    obtain ⟨r,hr⟩:=exists_lookup (h.mem_evicted id hid).1
    obtain ⟨r',hr'⟩:=exists_lookup hk
    exact ⟨_,_,ha id r hr,ha kept r' (hl kept r' hr').1,h.oldest id r kept r' hid hr hr'⟩
  · rw [← hc]
    intro hfit
    apply h.fits
    have havailable:=toUnsigned_of_nonneg hlow hh
    unfold CleanUpCall.available at *
    omega

def Call.NonnegLimit : Call M → Prop
  | .create maxSize => 0 ≤ maxSize
  | .put _ _ _ _ => True
  | .get _ _ => True

instance : DecidablePred (Call.NonnegLimit (M := M))
  | .create maxSize => inferInstanceAs (Decidable (0 ≤ maxSize))
  | .put _ _ _ _ => inferInstanceAs (Decidable True)
  | .get _ _ => inferInstanceAs (Decidable True)

structure Suitable (cfg : Config) (s : CacheState M) (event : Event M) : Prop where
  regular : Regular event
  fresh : Fresh cfg s event
  nonneg : event.call.NonnegLimit

structure Limited (cfg : Config) (d : Disk M) (history : List (CacheState M × Event M))
    (s : CacheState M) : Prop where
  between : Between cfg s
  recorded : Recorded (accessedOf cfg d history) (s.disk.manifest.getD ∅)
  nonneg : ∀ maxSize,s.maxSize=some maxSize → 0 ≤ maxSize

theorem CacheMove.nonneg {call : Call M} (hmove : CacheMove cfg s o call rep s')
    (hc : call.NonnegLimit) (h : ∀ maxSize,s.maxSize=some maxSize → 0 ≤ maxSize) :
    ∀ maxSize,s'.maxSize=some maxSize → 0 ≤ maxSize := by
  cases hmove with
  | created hclean hconsistent hl hhigh =>
    intro maxSize ho
    cases ho
    exact hc
  | tooLarge _ _ | stored _ _ _ _ | missed _ _ | fetched _ _ _ => exact h

theorem limited_of_run (hd : Leftover cfg d) (hrun : Run (cacheStep cfg) (closed d) hist s)
    (hsuitable : ∀ entry∈hist,Suitable cfg entry.1 entry.2) : Limited cfg d hist s := by
  apply hrun.invariant (G := Suitable cfg) (P := Limited cfg d) hsuitable
  · refine ⟨⟨hd,nofun⟩,?_,nofun⟩
    intro id r hr
    have hl : (d.manifest.getD ∅).lookup id=some r := hr
    simp [accessedOf,hl]
  · intro hist s s' e h he hs
    obtain ⟨rep,hp,hm⟩:=move_of_step h.between he.regular hs
    refine ⟨hm.between h.between,?_,hm.nonneg he.nonneg h.nonneg⟩
    simp only [accessedOf,List.foldl_append,List.foldl_cons,List.foldl_nil,hp]
    exact recorded_move he.fresh h.recorded hm

theorem le_of_le_half (hl : 0 ≤ maxSize) (hh : maxSize<2^63) {size : ℕ}
    (h : size≤toUnsigned (maxSize.tdiv 2)) : (size : ℤ) ≤ maxSize := by
  rw [Int.tdiv_eq_ediv_of_nonneg hl] at h
  have hhalf:=toUnsigned_of_nonneg (n := maxSize/2) (by omega) (by omega)
  omega

theorem CacheMove.total_le {id : Name} {res : Bytes} {metadata : M} {age : ℤ}
    (hmove : CacheMove cfg s o (.put id res metadata age) rep s')
    (hok : rep.status.isOk=true) (ho : s.maxSize=some maxSize)
    (hl : 0 ≤ maxSize) (hhigh : maxSize<2^63) (hm : s'.disk.manifest=some m) :
    (totalSize cfg s'.disk.fs m : ℤ) ≤ maxSize := by
  cases hmove with
  | tooLarge ho' hstatus =>
    have hf:=hstatus
    cases hf.symm.trans hok
  | @stored maxSize' _ _ _ _ m₀ d' _ c ho' hm₀ hh hp =>
    cases ho.symm.trans ho'
    have ht:=hp.total_le
    have hs : d'.manifest=some m := hm
    rw [hp.consistent.stored] at hs
    cases hs
    have hsize:=le_of_le_half hl hhigh hh
    have hr:=toUnsigned_of_nonneg (n := maxSize-res.length) (by omega) (by omega)
    show (totalSize cfg d'.fs _ : ℤ) ≤ maxSize
    omega

theorem cleanUpCall_spec (hs : Between cfg s)
    (hnonneg : ∀ maxSize,s.maxSize=some maxSize → 0 ≤ maxSize) (hregular : Regular e)
    (hl : e.call.NonnegLimit) (hc : cleanUpCall cfg s e.call=some call)
    (hp : perform cfg s e=some (rep,s')) :
    CleanedUp cfg e.outcomes (toUnsigned call.available) call.manifest call.disk
        (call.run cfg e.outcomes) ∧
      NamesFiles call.manifest ∧ call.manifest=s.disk.manifest.getD ∅ ∧
      (0≤call.available ∧ call.available<2^63) ∧
      rep.expired=(call.run cfg e.outcomes).expired ∧
      rep.evicted=(call.run cfg e.outcomes).evicted := by
  obtain ⟨e,o⟩:=e
  have ho : o.Succeed := hregular.succeed
  cases e with
  | create maxSize =>
    cases hc
    obtain ⟨hlow,hh⟩:=hregular.inRange
    obtain ⟨hclean,hcreate,-⟩:=create_spec ho hs.leftover maxSize rfl
    have ha : (⟨maxSize,none,s.disk.manifest.getD ∅,initialized cfg s.disk⟩ :
        CleanUpCall M).available=maxSize := by
      simp [CleanUpCall.available]
    have hn : NamesFiles (s.disk.manifest.getD ∅) := by
      cases hm : s.disk.manifest with
      | none =>
        intro id r hr
        simp at hr
      | some m => exact hs.leftover.names m hm
    rw [ha]
    refine ⟨hclean,hn,rfl,⟨hl,hh⟩,?_⟩
    simp only [perform,hcreate] at hp
    cases hp
    exact ⟨rfl,rfl⟩
  | put id res metadata age =>
    obtain ⟨hid,hsize⟩:=hregular.inRange
    cases hopen : s.maxSize with
    | none => simp [perform,hopen] at hp
    | some maxSize =>
      obtain ⟨⟨hlow,hh⟩,m,hm⟩:=hs.opened maxSize hopen
      have hpos:=hnonneg maxSize hopen
      simp only [cleanUpCall,hopen,hm.stored] at hc
      split at hc
      · cases hc
      next hhalf =>
        cases hc
        have hhalf:=Nat.le_of_not_lt hhalf
        have hput:=put_spec ho hm hid hlow hh hsize hhalf metadata age
        have hle:=le_of_le_half hpos hh hhalf
        refine ⟨hput.cleaned,hm.names,by rw [hm.stored]; rfl,?_,?_⟩
        · show 0 ≤ maxSize-(res.length : ℤ) ∧ maxSize-(res.length : ℤ)<2^63
          omega
        · simp only [perform,hopen] at hp
          cases hp
          rw [hput.report_eq]
          exact ⟨rfl,rfl⟩
  | get id age => cases hc

/-- In every run of calls that meet the conditions: a successful `Put` leaves at most the limit,
and every clean-up keeps the directory and the manifest in step, evicts the entries that were
accessed least recently, and evicts none when there is room. -/
theorem size_limit_and_lru {d : Disk M} (hd : Leftover cfg d)
    {hist : List (CacheState M × Event M)} (hrun : Run (cacheStep cfg) (closed d) hist s)
    (hs : ∀ entry∈hist,Suitable cfg entry.1 entry.2) {e : Event M}
    (he : Suitable cfg s e) {rep : Report M}
    (hp : perform cfg s e=some (rep,s')) :
    (∀ id resource metadata maxAge maxSize m,e.call=.put id resource metadata maxAge →
      rep.status.isOk=true → s.maxSize=some maxSize → s'.disk.manifest=some m →
      (totalSize cfg s'.disk.fs m : ℤ) ≤ maxSize) ∧
    ∀ call,cleanUpCall cfg s e.call=some call →
      CleanUpCorrect cfg e.outcomes (accessedOf cfg d hist) call ∧
      rep.expired=(call.run cfg e.outcomes).expired ∧
      rep.evicted=(call.run cfg e.outcomes).evicted := by
  have h:=limited_of_run hd hrun hs
  constructor
  · intro id resource metadata maxAge maxSize m hput hok ho hm
    have hmove:=move_of_perform h.between he.regular hp
    rw [hput] at hmove
    obtain ⟨⟨-,hh⟩,-⟩:=h.between.opened maxSize ho
    exact hmove.total_le hok ho (h.nonneg maxSize ho) hh hm
  · intro call hcall
    obtain ⟨hc,hn,hmanifest,⟨hl,hh⟩,hr⟩:=cleanUpCall_spec h.between h.nonneg
      he.regular he.nonneg hcall hp
    exact ⟨hc.correct hn (hmanifest ▸ h.recorded) hl hh,hr⟩

theorem suitable_of_smoothly {hist : List (CacheState ℕ × Event ℕ)} {calls : List (ℤ × Call ℕ)}
    (hevents : hist.map Prod.snd=calls.map fun c => smoothly c.1 c.2)
    (hr : ∀ c∈calls,c.2.InRange)
    (ht : ∀ entry∈hist,Fresh sampleConfig entry.1 entry.2 ∧ entry.2.call.NonnegLimit) :
    ∀ entry∈hist,Suitable sampleConfig entry.1 entry.2 := by
  intro entry he
  obtain ⟨hf,hn⟩:=ht entry he
  exact ⟨regular_of_smoothly hevents hr entry he,hf,hn⟩

def otherId : Name := "b".toList

def newId : Name := "c".toList

def readAgain : List (ℤ × Call ℕ) :=
  [(0,.create 6),(1,.put sampleId [1,2] 5 100),(2,.put otherId [3,4] 6 100),(3,.get sampleId none)]

def makesRoom : Event ℕ := smoothly 4 (.put newId [5,6,7] 7 100)

theorem size_limit_and_lru_read_again :
    ∃ hist s s' rep,Run (cacheStep sampleConfig) (closed emptyDisk) hist s ∧
      (∀ entry∈hist,Suitable sampleConfig entry.1 entry.2) ∧
      perform sampleConfig s makesRoom=some (rep,s') ∧ rep.evicted=[otherId] ∧
      (∀ m,s'.disk.manifest=some m → (totalSize sampleConfig s'.disk.fs m : ℤ)≤6) ∧
      ∃ call,cleanUpCall sampleConfig s makesRoom.call=some call ∧
        CleanUpCorrect sampleConfig makesRoom.outcomes
          (accessedOf sampleConfig emptyDisk hist) call := by
  obtain ⟨hist,s,hrun,heven,hg,hf,ho,hresult,hcall⟩:=exists_recorded (cacheStep sampleConfig)
    (closed emptyDisk) (readAgain.map fun c => smoothly c.1 c.2)
    (P := fun hist s => (∀ entry∈hist,
        Fresh sampleConfig entry.1 entry.2 ∧ entry.2.call.NonnegLimit) ∧
      Fresh sampleConfig s makesRoom ∧ s.maxSize=some 6 ∧
      (perform sampleConfig s makesRoom).map (fun result =>
        (result.1.status.isOk,result.1.evicted))=some (true,[otherId]) ∧
      (cleanUpCall sampleConfig s makesRoom.call).isSome) (by decide +kernel)
  have hs:=suitable_of_smoothly heven (by decide) hg
  have he : Suitable sampleConfig s makesRoom := ⟨regular_smoothly (by decide),hf,trivial⟩
  obtain ⟨⟨rep,s'⟩,hp,hr⟩:=Option.map_eq_some_iff.mp hresult
  obtain ⟨hok,hevicted⟩:=Prod.mk.inj hr
  obtain ⟨call,hcall⟩:=Option.isSome_iff_exists.mp hcall
  obtain ⟨hl,hc⟩:=size_limit_and_lru emptyDisk_leftover hrun hs he hp
  exact ⟨hist,s,s',rep,hrun,hs,hp,hevicted,
    fun m hm => hl newId [5,6,7] 7 100 6 m rfl hok ho hm,call,hcall,(hc call hcall).1⟩

def putAgain : List (ℤ × Call ℕ) :=
  [(0,.create 6),(1,.put sampleId [1,2] 5 100),(2,.put otherId [3,4] 6 100),
    (3,.put sampleId [1,2] 5 100)]

/-- The `Put` at time 3 succeeds, and yet its entry is evicted and the one of time 2 is kept. -/
theorem evicted_after_put :
    ∃ hist s s' rep m,Run (cacheStep sampleConfig) (closed emptyDisk) hist s ∧
      hist.map Prod.snd=(putAgain.map fun c => smoothly c.1 c.2) ∧
      (∀ entry∈hist,Regular entry.2 ∧ entry.2.call.NonnegLimit) ∧
      perform sampleConfig s makesRoom=some (rep,s') ∧ sampleId∈rep.evicted ∧
      s'.disk.manifest=some m ∧ otherId∈m ∧
      accessedOf sampleConfig emptyDisk hist sampleId=some 3 ∧
      accessedOf sampleConfig emptyDisk hist otherId=some 2 := by
  obtain ⟨hist,s,hrun,hevents,hn,hresult,ha⟩:=exists_recorded (cacheStep sampleConfig)
    (closed emptyDisk) (putAgain.map fun c => smoothly c.1 c.2)
    (P := fun hist s => (∀ entry∈hist,entry.2.call.NonnegLimit) ∧
      (perform sampleConfig s makesRoom).map (fun result =>
        (decide (sampleId∈result.1.evicted),
          result.2.disk.manifest.map fun m => decide (otherId∈m)))=some (true,some true) ∧
      accessedOf sampleConfig emptyDisk hist sampleId=some 3 ∧
      accessedOf sampleConfig emptyDisk hist otherId=some 2) (by decide +kernel)
  obtain ⟨⟨rep,s'⟩,hp,hreport⟩:=Option.map_eq_some_iff.mp hresult
  obtain ⟨hevicted,hk⟩:=Prod.mk.inj hreport
  obtain ⟨m,hm,hmem⟩:=Option.map_eq_some_iff.mp hk
  have hr:=regular_of_smoothly hevents (by decide)
  exact ⟨hist,s,s',rep,m,hrun,hevents,fun entry he => ⟨hr entry he,hn entry he⟩,hp,
    of_decide_eq_true hevicted,hm,of_decide_eq_true hmem,ha⟩

end Fcp.Client.Cache

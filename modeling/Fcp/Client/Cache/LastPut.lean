import Fcp.Client.Cache.CacheCalls

/-!
# What the cache returns

What was put last is recorded from the calls alone. The cache keeps to it as long as no `Put` meets
an entry of its identifier that is still alive; such a `Put` is without effect.
-/

namespace Fcp.Client.Cache

open List

variable {M : Type} {cfg : Config} {s s' : CacheState M} {o : Outcomes}

structure Promise (M : Type) where
  resource : Bytes
  metadata : M
  expiry : ℤ
  deriving DecidableEq

def afterCleanUp (o : Outcomes) (report : Report M) (promises : Name → Option (Promise M)) :
    Name → Option (Promise M) :=
  fun id => (promises id).filter fun p => ¬ p.expiry<o.cleanUpTime ∧ id∉report.evicted

def nextPromises (o : Outcomes) (report : Report M) (promises : Name → Option (Promise M)) :
    Call M → Name → Option (Promise M)
  | .create _ => afterCleanUp o report promises
  | .put id resource metadata maxAge =>
    let promises := afterCleanUp o report promises
    if report.status.isOk then
      Function.update promises id (some ⟨resource,metadata,o.time+maxAge⟩)
    else promises
  | .get id (some maxAge) =>
    if report.status.isOk then
      Function.update promises id ((promises id).map fun p => { p with expiry := o.time+maxAge })
    else promises
  | .get _ none => promises

def promisesOf (cfg : Config) (history : List (CacheState M × Event M)) :
    Name → Option (Promise M) :=
  history.foldl (fun promises entry =>
    match perform cfg entry.1 entry.2 with
    | none => promises
    | some (report,_) => nextPromises entry.2.outcomes report promises entry.2.call)
    fun _ => none

/-- The condition on a `Put`: an entry that its identifier already has is expired, or its file is
gone. -/
def Fresh (cfg : Config) (s : CacheState M) : Event M → Prop
  | ⟨.put id _ _ _,o⟩ => ∀ m∈s.disk.manifest,∀ r∈m.lookup id,Dropped cfg o s.disk.fs id r
  | ⟨.create _,_⟩ => True
  | ⟨.get _ _,_⟩ => True

instance (cfg : Config) (s : CacheState M) : DecidablePred (Fresh cfg s)
  | ⟨.put id _ _ _,o⟩ => inferInstanceAs
      (Decidable (∀ m∈s.disk.manifest,∀ r∈m.lookup id,Dropped cfg o s.disk.fs id r))
  | ⟨.create _,_⟩ => inferInstanceAs (Decidable True)
  | ⟨.get _ _,_⟩ => inferInstanceAs (Decidable True)

def Keeps (cfg : Config) (d : Disk M) (promises : Name → Option (Promise M)) : Prop :=
  ∀ id p,promises id=some p → ∃ m r,d.manifest=some m ∧ m.lookup id=some r ∧
    r.metadata=p.metadata ∧ r.expiryTime=p.expiry ∧
    d.fs.files.lookup (cfg.fileAt id)=some p.resource

variable {rep : Report M} {m : Manifest M} {d : Disk M} {c : CleanUpResult M}
  {promises : Name → Option (Promise M)} {id : Name} {e : Event M}

theorem keeps_cleanUp {allowed : ℕ} {d₀ : Disk M} (hc : CleanedUp cfg o allowed m d₀ c)
    (hf : d₀.fs.files=d.fs.files) (hm : ∀ m',d.manifest=some m' → m'=m)
    (hreport : rep.evicted=c.evicted) (h : Keeps cfg d promises) {p : Promise M}
    (hp : afterCleanUp o rep promises id=some p) :
    ∃ r,c.manifest.lookup id=some r ∧ r.metadata=p.metadata ∧ r.expiryTime=p.expiry ∧
      c.disk.fs.files.lookup (cfg.fileAt id)=some p.resource := by
  obtain ⟨hpromise,hcond⟩:=Option.filter_eq_some_iff.mp hp
  have hcond : ¬ p.expiry<o.cleanUpTime ∧ id∉rep.evicted := by simpa using hcond
  obtain ⟨m',r,hm',hr,hmetadata,he,hcontent⟩:=h id p hpromise
  rw [hm m' hm'] at hr
  have ht : cfg.fileAt id∈d₀.fs.files := by
    rw [hf]
    exact mem_of_lookup hcontent
  have hn : id∉c.expired := by
    intro hin
    obtain ⟨r',hr',hd⟩:=(hc.mem_expired id).mp hin
    cases hr.symm.trans hr'
    rcases hd with hexpiry | hg
    · exact hcond.1 (he ▸ hexpiry)
    · exact hg ht
  have hnot : id∉c.expired++c.evicted := by
    rw [mem_append,not_or]
    exact ⟨hn,hreport ▸ hcond.2⟩
  have hl : c.manifest.lookup id=some r := by rw [hc.manifest_eq,lookup_eraseEntries,if_neg hnot,hr]
  refine ⟨r,hl,hmetadata,he,?_⟩
  have hmem:=mem_of_lookup hl
  rw [hc.files,if_pos hmem,hf,hcontent]

section
variable {maxSize : ℤ} {d' : Disk M} {res : Bytes} {r : CachedResource M}
  (h : PutDone cfg o maxSize m d id res r rep d' c)
  (hf : ∀ r',m.lookup id=some r' → Dropped cfg o d.fs id r')
include h hf

theorem PutDone.notMem : id∉c.manifest := by
  intro hmem
  rw [h.cleaned.manifest_eq,mem_eraseEntries] at hmem
  obtain ⟨hm,hn⟩:=hmem
  obtain ⟨r',hr'⟩:=exists_lookup hm
  apply hn
  apply mem_append_left
  exact (h.cleaned.mem_expired id).mpr ⟨r',hr',hf r' hr'⟩

theorem PutDone.inserted :
    rep.status.isOk=true ∧ d'.manifest=some (c.manifest.insert id r) := by
  constructor
  · rw [h.report_eq]
    rfl
  · rw [h.consistent.stored,Manifest.insertNew,if_neg (h.notMem hf)]

end

theorem keeps_move (hfresh : Fresh cfg s e) (h : Keeps cfg s.disk promises)
    (hmove : CacheMove cfg s e.outcomes e.call rep s') :
    Keeps cfg s'.disk (nextPromises e.outcomes rep promises e.call) := by
  obtain ⟨call,o⟩:=e
  cases hmove with
  | @created maxSize c hclean hcons hl hhigh =>
    intro id p hp
    have hfiles : (initialized cfg s.disk).fs.files=s.disk.fs.files := rfl
    obtain ⟨r,hr,hrest⟩:=keeps_cleanUp hclean hfiles (fun m' hm' => by rw [hm']; rfl) rfl h hp
    exact ⟨c.manifest,r,rfl,hr,hrest⟩
  | tooLarge ho hstatus =>
    intro id p hp
    simp only [nextPromises,Report.failed,hstatus,Bool.false_eq_true,if_false] at hp
    exact h id p (Option.filter_eq_some_iff.mp hp).1
  | @stored maxSize putId res metadata maxAge m d' rep c ho hm hh hput =>
    have hn:=hput.notMem (hfresh m hm.stored)
    obtain ⟨hok,hs⟩:=hput.inserted (hfresh m hm.stored)
    intro id p hp
    simp only [nextPromises,hok,if_true] at hp
    refine ⟨c.manifest.insert putId ⟨putId,metadata,o.time+maxAge,o.time⟩,?_⟩
    by_cases heq : id=putId
    · subst heq
      rw [Function.update_self] at hp
      cases hp
      refine ⟨⟨id,metadata,o.time+maxAge,o.time⟩,hs,AList.lookup_insert _,rfl,rfl,?_⟩
      rw [hput.files,if_pos ⟨rfl,hn⟩]
    · rw [Function.update_of_ne heq] at hp
      have he : rep.evicted=c.evicted := by rw [hput.report_eq]
      obtain ⟨r,hr,hmetadata,hexpiry,hc⟩:=keeps_cleanUp hput.cleaned rfl
        (fun m' hm' => by rw [hm.stored] at hm'; exact (Option.some.inj hm').symm) he h hp
      refine ⟨r,hs,?_,hmetadata,hexpiry,?_⟩
      · rw [AList.lookup_insert_ne heq,hr]
      · rw [hput.files,if_neg fun hcond => heq hcond.1,hc]
  | @missed getId maxAge m hm hr =>
    intro id p hp
    cases maxAge with
    | none => exact h id p hp
    | some age =>
      have hf : (Report.failed (notFound getId) : Report M).status.isOk=false := rfl
      simp only [nextPromises,hf,Bool.false_eq_true,if_false] at hp
      exact h id p hp
  | @fetched getId maxAge m r body log hm hr hc =>
    intro id p hp
    refine ⟨m.insert getId (touched o maxAge r),?_⟩
    by_cases heq : id=getId
    · subst heq
      refine ⟨touched o maxAge r,rfl,AList.lookup_insert _,?_⟩
      cases maxAge with
      | none =>
        obtain ⟨m',r',hm',hr',hrest⟩:=h id p hp
        rw [hm.stored] at hm'
        cases hm'
        cases hr.symm.trans hr'
        exact hrest
      | some age =>
        have hok : (⟨.okStatus,some (body,r.metadata),[],[]⟩ : Report M).status.isOk=true := rfl
        simp only [nextPromises,hok,if_true,Function.update_self] at hp
        obtain ⟨p',hp',rfl⟩:=Option.map_eq_some_iff.mp hp
        obtain ⟨m',r',hm',hr',hmetadata,-,hfile⟩:=h id p' hp'
        rw [hm.stored] at hm'
        cases hm'
        cases hr.symm.trans hr'
        exact ⟨hmetadata,rfl,hfile⟩
    · have hp' : promises id=some p := by
        cases maxAge with
        | none => exact hp
        | some age =>
          have hok : (⟨.okStatus,some (body,r.metadata),[],[]⟩ : Report M).status.isOk=true := rfl
          simp only [nextPromises,hok,if_true,Function.update_of_ne heq] at hp
          exact hp
      obtain ⟨m',r',hm',hr',hrest⟩:=h id p hp'
      rw [hm.stored] at hm'
      cases hm'
      exact ⟨r',rfl,by rw [AList.lookup_insert_ne heq,hr'],hrest⟩

def closed (d : Disk M) : CacheState M := ⟨d,none⟩

/-- In every run of regular calls in which each `Put` is fresh, `Get` returns the resource and
the metadata of the latest `Put`, until the entry has expired or is evicted, and its expiry is
the one of that `Put` or of a later `Get`. -/
theorem returns_last_put {d : Disk M} (hd : Leftover cfg d)
    {history : List (CacheState M × Event M)} (hrun : Run (cacheStep cfg) (closed d) history s)
    (hregular : ∀ entry∈history,Regular entry.2 ∧ Fresh cfg entry.1 entry.2)
    {id : Name} {p : Promise M} (hp : promisesOf cfg history id=some p) :
    (∃ m r,s.disk.manifest=some m ∧ m.lookup id=some r ∧ r.expiryTime=p.expiry) ∧
    ∀ (o : Outcomes) (maxAge : Option ℤ),o.Succeed →
      (get cfg o s.disk id maxAge).1.status.code=.ok ∧
      (get cfg o s.disk id maxAge).1.fetched=some (p.resource,p.metadata) := by
  have hi : (Between cfg s ∧ Keeps cfg s.disk (promisesOf cfg history)) ∧
      (history=[] ∨ ∃ m,Consistent cfg s.disk m) := by
    refine hrun.invariant (G := fun s e => Regular e ∧ Fresh cfg s e)
      (P := fun history s => (Between cfg s ∧ Keeps cfg s.disk (promisesOf cfg history)) ∧
        (history=[] ∨ ∃ m,Consistent cfg s.disk m)) hregular ⟨⟨⟨hd,nofun⟩,nofun⟩,.inl rfl⟩ ?_
    rintro history s s' e ⟨⟨hb,hk⟩,-⟩ ⟨hregular,hf⟩ hstep
    obtain ⟨rep,hperform,hmove⟩:=move_of_step hb hregular hstep
    refine ⟨⟨hmove.between hb,?_⟩,.inr (hmove.consistent hb)⟩
    simp only [promisesOf,foldl_append,foldl_cons,foldl_nil,hperform]
    exact keeps_move hf hk hmove
  obtain ⟨⟨-,hk⟩,hcons⟩:=hi
  obtain ⟨m,r,hm,hr,hmetadata,he,hc⟩:=hk id p hp
  refine ⟨⟨m,r,hm,hr,he⟩,fun o maxAge ho => ?_⟩
  obtain rfl | ⟨m',hm'⟩:=hcons
  · cases hp
  · have hs : m'=m := Option.some.inj (hm'.stored.symm.trans hm)
    subst hs
    obtain ⟨content,log,hc',hg⟩:=get_some ho hm' hr maxAge
    cases hc.symm.trans hc'
    rw [hg,← hmetadata]
    exact ⟨rfl,rfl⟩

def sampleConfig : Config := ⟨["cache".toList],"/manifest",.insertion,by decide⟩

def sampleId : Name := "a".toList

def emptyDisk : Disk ℕ := ⟨⟨[[]],∅⟩,none,[]⟩

theorem emptyDisk_leftover : Leftover sampleConfig emptyDisk where
  noSubdirs name := by simp [emptyDisk,Config.fileAt]
  plain name h := by simp [emptyDisk] at h
  names m h := by cases h
  bound m h := by cases h

def smoothly (time : ℤ) (call : Call ℕ) : Event ℕ := ⟨call,.smooth time time⟩

theorem regular_smoothly {time : ℤ} {call : Call ℕ} (h : call.InRange) :
    Regular (smoothly time call) := ⟨Outcomes.smooth_succeed time time,h⟩

theorem regular_of_smoothly {hist : List (CacheState ℕ × Event ℕ)} {calls : List (ℤ × Call ℕ)}
    (hevents : hist.map Prod.snd=calls.map fun c => smoothly c.1 c.2)
    (hr : ∀ c∈calls,c.2.InRange) : ∀ entry∈hist,Regular entry.2 := by
  intro entry he
  have hm:=hevents ▸ mem_map_of_mem he
  obtain ⟨c,hc,heq⟩:=mem_map.mp hm
  rw [← heq]
  exact regular_smoothly (hr c hc)

def renewed : List (ℤ × Call ℕ) :=
  [(0,.create 100),(1,.put sampleId [1] 7 10),(2,.get sampleId (some 3)),
    (6,.put sampleId [2] 8 10)]

theorem returns_last_put_renewed :
    ∃ history s,Run (cacheStep sampleConfig) (closed emptyDisk) history s ∧
      (∀ entry∈history,Regular entry.2 ∧ Fresh sampleConfig entry.1 entry.2) ∧
      promisesOf sampleConfig history sampleId=some ⟨[2],8,16⟩ ∧
      ∀ (o : Outcomes) (maxAge : Option ℤ),o.Succeed →
        (get sampleConfig o s.disk sampleId maxAge).1.status.code=.ok ∧
        (get sampleConfig o s.disk sampleId maxAge).1.fetched=some ([2],8) := by
  obtain ⟨history,s,hrun,hevents,hf,hp⟩:=exists_recorded (cacheStep sampleConfig)
    (closed emptyDisk) (renewed.map fun c => smoothly c.1 c.2)
    (P := fun history _ => (∀ entry∈history,Fresh sampleConfig entry.1 entry.2) ∧
      promisesOf sampleConfig history sampleId=some ⟨[2],8,16⟩) (by decide +kernel)
  have hr:=regular_of_smoothly hevents (by decide)
  have ha : ∀ entry∈history,Regular entry.2 ∧ Fresh sampleConfig entry.1 entry.2 :=
    fun entry he => ⟨hr entry he,hf entry he⟩
  exact ⟨history,s,hrun,ha,hp,(returns_last_put emptyDisk_leftover hrun ha hp).2⟩

def putTwice : List (ℤ × Call ℕ) :=
  [(0,.create 100),(1,.put sampleId [1] 7 10),(2,.put sampleId [2] 8 10)]

/-- The second `Put` succeeds, and `Get` returns what the first one has stored. -/
theorem put_again_ignored : ∃ history s,Run (cacheStep sampleConfig) (closed emptyDisk) history s ∧
      history.map Prod.snd=(putTwice.map fun c => smoothly c.1 c.2) ∧
      (∀ entry∈history,Regular entry.2) ∧
      promisesOf sampleConfig history sampleId=some ⟨[2],8,12⟩ ∧
      (get sampleConfig (.smooth 3 3) s.disk sampleId none).1.fetched=some ([1],7) := by
  obtain ⟨history,s,hr,he,hp,hg⟩:=exists_recorded (cacheStep sampleConfig)
    (closed emptyDisk) (putTwice.map fun c => smoothly c.1 c.2)
    (P := fun history s => promisesOf sampleConfig history sampleId=some ⟨[2],8,12⟩ ∧
      (get sampleConfig (.smooth 3 3) s.disk sampleId none).1.fetched=some ([1],7))
    (by decide +kernel)
  exact ⟨history,s,hr,he,regular_of_smoothly he (by decide),hp,hg⟩

end Fcp.Client.Cache

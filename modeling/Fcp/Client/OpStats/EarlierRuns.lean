import Fcp.Client.OpStats.OpStatsLogger

/-!
# Commits and the entries of earlier runs

Entries of earlier runs should leave the database only by their age, by the size limit, or with a
database that cannot be read. The logger assumes that the last entry is its own.
-/

namespace Fcp.Client.OpStats

open List

variable {K : Type} {cfg : DbConfig K} {s s' : LoggerState K} {o : DbOutcomes}
  {data : OpStatsSequence K}

def survivors (cfg : DbConfig K) (o : DbOutcomes) (opstats : List (OperationalStats K)) :
    List (OperationalStats K) :=
  opstats.filter fun stats => ¬ Outdated (o.time-cfg.ttl) stats

def toStore (cfg : DbConfig K) (o : DbOutcomes) (s : LoggerState K)
    (earlier : List (OperationalStats K)) : List (OperationalStats K) :=
  (pruneOldDataUntilBelowSizeLimit cfg o.pruneTime
    { removeOutdatedData cfg.ttl o.time s.db with
      opstats := survivors cfg o earlier++[s.logger.stats] }).opstats

def nextEarlier (cfg : DbConfig K) (s : LoggerState K) (earlier : List (OperationalStats K)) :
    LoggerEvent K → List (OperationalStats K)
  | .log _ => earlier
  | .commit o =>
    if o.read.isOk then
      if o.write.isOk then (toStore cfg o s earlier).dropLast else earlier
    else if o.reset.isOk then [] else earlier

def earlierOf (cfg : DbConfig K) (db : OpStatsSequence K)
    (history : List (LoggerState K × LoggerEvent K)) : List (OperationalStats K) :=
  history.foldl (fun earlier entry => nextEarlier cfg entry.1 earlier entry.2) db.opstats

variable {db : OpStatsSequence K}

/-- The condition on a commit after the first: when the database can be read, its last entry is the
logger's own and is not outdated, or all entries are outdated. -/
def OwnLast (cfg : DbConfig K) (s : LoggerState K) : LoggerEvent K → Prop
  | .log _ => True
  | .commit o => s.logger.alreadyCommitted=true → o.read.isOk=true →
    (∀ stats∈s.db.opstats,Outdated (o.time-cfg.ttl) stats) ∨
      s.lastIsOwn=true ∧ ∀ stats∈s.db.opstats.getLast?,¬ Outdated (o.time-cfg.ttl) stats

instance (cfg : DbConfig K) (s : LoggerState K) : DecidablePred (OwnLast cfg s)
  | .log _ => inferInstanceAs (Decidable True)
  | .commit _ => inferInstanceAs (Decidable (_ → _ → _))

theorem pruneLoop_suffix (size : ℤ) (opstats : List (OperationalStats K)) :
    pruneLoop cfg size opstats <:+ opstats := by
  induction opstats generalizing size with
  | nil => exact suffix_refl _
  | cons stats rest ih =>
    unfold pruneLoop
    split
    · exact (ih _).trans (suffix_cons _ _)
    · exact suffix_refl _

theorem prune_suffix (time : ℤ) (data : OpStatsSequence K) :
    (pruneOldDataUntilBelowSizeLimit cfg time data).opstats <:+ data.opstats := by
  unfold pruneOldDataUntilBelowSizeLimit
  split
  · exact pruneLoop_suffix _ _
  · exact suffix_refl _

theorem toStore_cases (earlier : List (OperationalStats K)) : toStore cfg o s earlier=[] ∨
      ∃ kept,toStore cfg o s earlier=kept++[s.logger.stats] ∧ kept <:+ survivors cfg o earlier :=
  suffix_concat_iff.mp (prune_suffix _ _)

structure Divided (s : LoggerState K) (earlier : List (OperationalStats K))
    (own : Option (OperationalStats K)) : Prop where
  opstats_eq : s.db.opstats=earlier++own.toList
  lastIsOwn_eq : s.lastIsOwn=own.isSome
  uncommitted : s.logger.alreadyCommitted=false → own=none

variable {earlier : List (OperationalStats K)} {own : Option (OperationalStats K)}

theorem Divided.storeStats_eq (h : Divided s earlier own) (hr : o.read.isOk=true)
    (ho : OwnLast cfg s (.commit o)) :
    storeStats s.logger (removeOutdatedData cfg.ttl o.time s.db) =
      { removeOutdatedData cfg.ttl o.time s.db with
        opstats := survivors cfg o earlier++[s.logger.stats] } := by
  have hk : (removeOutdatedData cfg.ttl o.time s.db).opstats =
      survivors cfg o earlier++survivors cfg o own.toList := by
    show survivors cfg o s.db.opstats=_
    rw [h.opstats_eq,survivors,filter_append]
    rfl
  unfold storeStats
  cases hc : s.logger.alreadyCommitted with
  | false =>
    rw [h.uncommitted hc] at hk
    rw [if_neg (by decide),hk]
    simp [survivors]
  | true =>
    rw [if_pos rfl]
    rcases ho hc hr with hall | ⟨hl,ha⟩
    · have hn : (removeOutdatedData cfg.ttl o.time s.db).opstats=[] := by
        show survivors cfg o s.db.opstats=[]
        rw [survivors,filter_eq_nil_iff]
        intro stats hs
        simpa using hall stats hs
      have he : survivors cfg o earlier=[] := by
        rw [hk] at hn
        exact (append_eq_nil_iff.mp hn).1
      rw [if_pos hn,he,nil_append]
    · rw [h.lastIsOwn_eq] at hl
      obtain ⟨own,rfl⟩:=Option.isSome_iff_exists.mp hl
      have hnot : ¬ Outdated (o.time-cfg.ttl) own := by
        apply ha own
        rw [h.opstats_eq]
        simp
      have hself : survivors cfg o (some own).toList=[own] := by simp [survivors,hnot]
      rw [hself] at hk
      rw [hk,if_neg (by simp),dropLast_concat]

def DividedAfter (cfg : DbConfig K) (s : LoggerState K) (earlier : List (OperationalStats K))
    (own : Option (OperationalStats K)) (o : DbOutcomes) (db : OpStatsSequence K) (st : Status) :
    Prop :=
  ∃ own',Divided ⟨{ s.logger with alreadyCommitted := true },db,ownAfter o db s.lastIsOwn⟩
      (nextEarlier cfg s earlier (.commit o)) own' ∧
    (st.isOk=true → ∀ stats∈own',stats=s.logger.stats) ∧
    ∀ stats∈own',stats=s.logger.stats ∨ stats∈own

variable {st : Status}

theorem divided_of_suffix {before : List (OperationalStats K)}
    (h : db.opstats <:+ before++[s.logger.stats])
    (he : nextEarlier cfg s earlier (.commit o)=db.opstats.dropLast)
    (ha : ownAfter o db s.lastIsOwn=!db.opstats.isEmpty) :
    DividedAfter cfg s earlier own o db st := by
  rw [DividedAfter,he,ha]
  rcases suffix_concat_iff.mp h with hn | ⟨kept,hk,-⟩
  · exact ⟨none,⟨by simp [hn],by simp [hn],fun _ => rfl⟩,fun _ => nofun,nofun⟩
  · have hs : ∀ stats∈some s.logger.stats,stats=s.logger.stats :=
      fun stats hs => (Option.mem_some.mp hs).symm
    refine ⟨some s.logger.stats,⟨?_,?_,nofun⟩,fun _ => hs,fun stats h => .inl (hs stats h)⟩
    · rw [hk,dropLast_concat]
      rfl
    · simp [hk]

theorem Divided.unchanged (h : Divided s earlier own)
    (he : nextEarlier cfg s earlier (.commit o)=earlier)
    (ha : ownAfter o s.db s.lastIsOwn=s.lastIsOwn) (hst : st.isOk=false) :
    DividedAfter cfg s earlier own o s.db st := by
  rw [DividedAfter,he,ha]
  exact ⟨own,⟨h.opstats_eq,h.lastIsOwn_eq,nofun⟩,fun hok => absurd hok (by simp [hst]),
    fun _ => .inr⟩

theorem Divided.commit (h : Divided s earlier own) (ho : OwnLast cfg s (.commit o))
    (hm : Transformed cfg o (storeStats s.logger) s.db st db) :
    DividedAfter cfg s earlier own o db st := by
  cases hm with
  | changed hr hw =>
    have hstored : (transformData cfg o (storeStats s.logger)
        (removeOutdatedData cfg.ttl o.time s.db)).opstats=toStore cfg o s earlier := by
      unfold transformData
      rw [h.storeStats_eq hr ho]
      rfl
    generalize transformData cfg o (storeStats s.logger) (removeOutdatedData cfg.ttl o.time s.db) =
      db at *
    have hsuffix : db.opstats <:+ survivors cfg o earlier++[s.logger.stats] := by
      rw [hstored]
      exact prune_suffix _ _
    exact divided_of_suffix hsuffix (by simp [nextEarlier,hr,hw,hstored]) (by simp [ownAfter,hr,hw])
  | unwritten hr hw =>
    refine h.unchanged ?_ ?_ (by simp [hw])
    · simp [nextEarlier,hr,hw]
    · simp [ownAfter,hr,hw]
  | unreset hr hreset hstatus =>
    refine h.unchanged ?_ ?_ (by simp [hstatus])
    · simp [nextEarlier,hr,hreset]
    · simp [ownAfter,hr,hreset]
  | restarted hr hreset hw =>
    have hstore : storeStats s.logger ⟨[],none⟩=⟨[s.logger.stats],none⟩ := by
      unfold storeStats
      split <;> rfl
    have hsuffix : (transformData cfg o (storeStats s.logger) ⟨[],none⟩).opstats <:+
        []++[s.logger.stats] := by
      unfold transformData
      rw [hstore]
      exact prune_suffix o.pruneTime ⟨[s.logger.stats],none⟩
    generalize transformData cfg o (storeStats s.logger) ⟨[],none⟩=db at *
    have hempty : db.opstats.dropLast=[] := by
      have hl:=hsuffix.length_le
      rw [← length_eq_zero_iff,length_dropLast]
      simp at hl
      omega
    exact divided_of_suffix hsuffix (by simp [nextEarlier,hr,hreset,hempty])
      (by simp [ownAfter,hreset,hw])
  | emptied hr hreset hw =>
    have he : nextEarlier cfg s earlier (.commit o)=[] := by simp [nextEarlier,hr,hreset]
    have ha : ownAfter o (createEmptyData o.resetTime : OpStatsSequence K) s.lastIsOwn=false := by
      simp [ownAfter,hr,hreset,hw]
    rw [DividedAfter,he,ha]
    exact ⟨none,⟨rfl,rfl,nofun⟩,fun _ => nofun,nofun⟩

theorem nextEarlier_sublist (earlier : List (OperationalStats K)) (e : LoggerEvent K) :
    (nextEarlier cfg s earlier e).Sublist earlier := by
  cases e with
  | log call => exact List.Sublist.refl _
  | commit o =>
    simp only [nextEarlier]
    split
    · split
      · rcases toStore_cases earlier with hn | ⟨kept,hk,hs⟩
        · rw [hn]
          exact nil_sublist _
        · rw [hk,dropLast_concat]
          exact hs.sublist.trans filter_sublist
      · exact List.Sublist.refl _
    · split
      · exact nil_sublist _
      · exact List.Sublist.refl _

def EndsCommitted (cfg : DbConfig K) (history : List (LoggerState K × LoggerEvent K)) : Prop :=
  ∃ before s o,history=before++[(s,.commit o)] ∧ (commitToStorage cfg o s.logger s.db).1.isOk=true

/-- The stats that the logger had in one of the commits. -/
def CommittedIn (history : List (LoggerState K × LoggerEvent K)) (stats : OperationalStats K) :
    Prop :=
  ∃ entry∈history,∃ o,entry.2=.commit o ∧ stats=entry.1.logger.stats

/-- In every run in which the last entry is the logger's own whenever it is replaced: the database
holds the entries of earlier runs that are to be kept, unchanged and in their order, and after them
at most one entry of the logger, which it had in one of its commits and which is its current stats
when the last commit has succeeded. -/
theorem earlier_runs_kept {sessionName populationName : String} {db : OpStatsSequence K}
    {history : List (LoggerState K × LoggerEvent K)}
    (hr : Run (loggerStep cfg) (start sessionName populationName db) history s)
    (hown : ∀ entry∈history,OwnLast cfg entry.1 entry.2) :
    (earlierOf cfg db history).Sublist db.opstats ∧
    ∃ own : Option (OperationalStats K),s.db.opstats=earlierOf cfg db history++own.toList ∧
      (∀ stats∈own,CommittedIn history stats) ∧
      (EndsCommitted cfg history → ∀ stats∈own,stats=s.logger.stats) := by
  have hi : (earlierOf cfg db history).Sublist db.opstats ∧
      ∃ own,Divided s (earlierOf cfg db history) own ∧ (∀ stats∈own,CommittedIn history stats) ∧
        (EndsCommitted cfg history → ∀ stats∈own,stats=s.logger.stats) := by
    apply hr.invariant (G := OwnLast cfg) (P := fun history s =>
      (earlierOf cfg db history).Sublist db.opstats ∧
      ∃ own,Divided s (earlierOf cfg db history) own ∧ (∀ stats∈own,CommittedIn history stats) ∧
        (EndsCommitted cfg history → ∀ stats∈own,stats=s.logger.stats)) hown
    · exact ⟨List.Sublist.refl _,none,⟨by simp [start,earlierOf],rfl,fun _ => rfl⟩,nofun,
        fun _ => nofun⟩
    · rintro history s s' event ⟨hsub,own,hd,hc,-⟩ hg hstep
      have hk : ∀ stats∈own,CommittedIn (history++[(s,event)]) stats := by
        intro stats hs
        obtain ⟨entry,he,hstats⟩:=hc stats hs
        exact ⟨entry,mem_append_left _ he,hstats⟩
      simp only [earlierOf,foldl_append,foldl_cons,foldl_nil]
      refine ⟨(nextEarlier_sublist _ event).trans hsub,?_⟩
      cases event with
      | log call =>
        cases hstep
        refine ⟨own,⟨hd.opstats_eq,hd.lastIsOwn_eq,hd.uncommitted⟩,hk,?_⟩
        rintro ⟨before,s₀,o,heq,-⟩
        cases (append_inj' heq rfl).2
      | commit o =>
        cases hstep
        obtain ⟨own',hd',hstate,hn⟩:=hd.commit hg (transformed cfg o (storeStats s.logger) s.db)
        refine ⟨own',hd',fun stats hs => ?_,?_⟩
        · obtain rfl | ho:=hn stats hs
          · exact ⟨_,mem_append_right _ (mem_singleton_self _),o,rfl,rfl⟩
          · exact hk stats ho
        rintro ⟨before,s₀,o',heq,hok⟩
        cases (append_inj' heq rfl).2
        exact hstate hok
  obtain ⟨hsub,own,hd,hc,hstate⟩:=hi
  exact ⟨hsub,own,hd.opstats_eq,hc,hstate⟩

def sampleConfig : DbConfig ℕ where
  ttl := 10*10^9
  maxSizeBytes := 5
  entrySize _ := 1
  sequenceSize data := data.opstats.length

def earlierEntry (seconds : ℤ) : OperationalStats ℕ :=
  addNewEventToStats (newLogger "earlier" "population").stats 1 (seconds*10^9)

def successful (seconds : ℤ) : DbOutcomes :=
  { resetTime := seconds*10^9
    time := seconds*10^9
    pruneTime := seconds*10^9
    stampTime := seconds*10^9
    read := .okStatus
    reset := .okStatus
    write := .okStatus }

def committedTwice : List (LoggerEvent ℕ) :=
  [.log (.addEvent 7 (6*10^9)),.commit (successful 7),.log (.addEvent 8 (8*10^9)),
    .commit (successful 9)]

theorem earlier_runs_kept_twice : ∃ history s,Run (loggerStep sampleConfig)
      (start "this" "population" ⟨[earlierEntry 5],some 0⟩)
        history s ∧
      (∀ entry∈history,OwnLast sampleConfig entry.1 entry.2) ∧
      (earlierOf sampleConfig ⟨[earlierEntry 5],some 0⟩ history).Sublist [earlierEntry 5] ∧
      ∃ own : Option (OperationalStats ℕ),
        s.db.opstats=earlierOf sampleConfig ⟨[earlierEntry 5],some 0⟩ history++own.toList ∧
        s.db.opstats.map (·.sessionName)=["earlier","this"] := by
  obtain ⟨history,s,hr,he,ho,hn⟩:=exists_recorded (loggerStep sampleConfig)
    (start "this" "population" ⟨[earlierEntry 5],some 0⟩) committedTwice
    (P := fun history s => (∀ entry∈history,OwnLast sampleConfig entry.1 entry.2) ∧
      s.db.opstats.map (·.sessionName)=["earlier","this"]) (by decide +kernel)
  obtain ⟨hsub,own,hs,-⟩:=earlier_runs_kept hr ho
  exact ⟨history,s,hr,ho,hsub,own,hs,hn⟩

def firstWriteFails : List (LoggerEvent ℕ) := [.log (.addEvent 7 (6*10^9)),
    .commit { successful 7 with write := ⟨.internal,"no space left"⟩ },.commit (successful 8)]

/-- The entry of the earlier run is to be kept, and the second commit replaces it. -/
theorem earlier_entry_replaced : ∃ history s,Run (loggerStep sampleConfig)
      (start "this" "population" ⟨[earlierEntry 5],some 0⟩)
        history s ∧
      history.map Prod.snd=firstWriteFails ∧
      (earlierOf sampleConfig ⟨[earlierEntry 5],some 0⟩ history).map (·.sessionName)=["earlier"] ∧
      s.db.opstats.map (·.sessionName)=["this"] := by
  exact exists_recorded _ _ _ (by decide +kernel)

end Fcp.Client.OpStats

import Fcp.Client.OpStats.EarlierRuns

/-!
# The earliest trustworthy time

The published time is right when every event that was ever stored and is missing now is before it.
Removal by age looks at whole seconds and publishes milliseconds.
-/

namespace Fcp.Client.OpStats

open List

variable {K : Type} {cfg : DbConfig K} {o : DbOutcomes} {created : ℤ}
  {ever : List (StatsEvent K)} {data : OpStatsSequence K}

def eventsOf (opstats : List (OperationalStats K)) : List (StatsEvent K) :=
  opstats.flatMap fun stats => stats.events

theorem mem_eventsOf {opstats : List (OperationalStats K)} {e : StatsEvent K} :
    e∈eventsOf opstats ↔ ∃ stats∈opstats,e∈stats.events :=
  mem_flatMap

theorem eventsOf_append (a b : List (OperationalStats K)) :
    eventsOf (a++b)=eventsOf a++eventsOf b :=
  flatMap_append

def EntryBefore (a b : OperationalStats K) : Prop :=
  ∀ event∈a.events,∀ event'∈b.events,event.timestamp<event'.timestamp

structure Timeline (stats : OperationalStats K) : Prop where
  ne_nil : stats.events≠[]
  sorted : stats.events.Pairwise fun a b => a.timestamp≤b.timestamp

instance : DecidableRel (EntryBefore (K := K)) := fun a b =>
  inferInstanceAs (Decidable (∀ event∈a.events,∀ event'∈b.events,_))

instance : DecidablePred (Timeline (K := K)) := fun stats =>
  decidable_of_iff (stats.events≠[] ∧ stats.events.Pairwise fun a b => a.timestamp≤b.timestamp)
    ⟨fun ⟨hne,hsorted⟩ => ⟨hne,hsorted⟩,fun ⟨hne,hsorted⟩ => ⟨hne,hsorted⟩⟩

variable {stats : OperationalStats K}

theorem Timeline.le_last (h : Timeline stats) :
    ∃ last∈stats.events.getLast?,∀ e∈stats.events,e.timestamp≤last.timestamp := by
  refine ⟨stats.events.getLast h.ne_nil,getLast?_eq_some_getLast h.ne_nil,?_⟩
  intro e he
  have hsplit:=dropLast_append_getLast h.ne_nil
  rw [← hsplit] at he
  rcases mem_append.mp he with hi | hl
  · have hs:=h.sorted
    rw [← hsplit,pairwise_append] at hs
    exact hs.2.2 e hi _ (mem_singleton_self _)
  · exact Int.le_of_eq (congrArg _ (mem_singleton.mp hl))

theorem Timeline.head_le (h : Timeline stats) :
    ∃ first,stats.events.head?=some first ∧ first∈stats.events ∧
      ∀ e∈stats.events,first.timestamp≤e.timestamp := by
  have hs:=h.sorted
  cases he : stats.events with
  | nil => exact absurd he h.ne_nil
  | cons first rest =>
    rw [he,pairwise_cons] at hs
    refine ⟨first,rfl,mem_cons_self ..,fun e heven => ?_⟩
    rcases mem_cons.mp heven with rfl | hr
    · exact Int.le_refl _
    · exact hs.1 e hr

/-- The entries are in the order of time, and what the data say about the events that were ever
stored is right: those that are missing are before those that are there and before the published
time, which is not before the creation of the database unless an event from before is there. -/
structure Truthful (created : ℤ) (ever : List (StatsEvent K)) (data : OpStatsSequence K) :
    Prop where
  timelines : ∀ stats∈data.opstats,Timeline stats
  ordered : data.opstats.Pairwise EntryBefore
  older : ∀ event∈ever,event∉eventsOf data.opstats →
    ∀ event'∈eventsOf data.opstats,event.timestamp<event'.timestamp
  trusted : ∀ earliest∈data.earliestTrustworthyTime,∀ event∈ever,
    event∉eventsOf data.opstats → event.timestamp<earliest
  since : ∀ earliest∈data.earliestTrustworthyTime,
    created≤earliest ∨ ∃ event∈eventsOf data.opstats,event.timestamp<created

/-- The condition on the entries that are removed for their age: the last event is before the
published limit, which is not before the creation of the database. -/
def ExactLimit (created earliestAcceptedTime : ℤ) (stats : OperationalStats K) : Prop :=
  Outdated earliestAcceptedTime stats → ∀ last∈stats.events.getLast?,
    last.timestamp<publishedLimit earliestAcceptedTime ∧ created≤publishedLimit earliestAcceptedTime

instance (created earliestAcceptedTime : ℤ) :
    DecidablePred (ExactLimit (K := K) created earliestAcceptedTime) := fun stats =>
  inferInstanceAs (Decidable (Outdated earliestAcceptedTime stats → _))

theorem Outdated.of_before {limit : ℤ} {a b : OperationalStats K} (hb : Outdated limit b)
    (hline : Timeline b) (h : EntryBefore a b) : Outdated limit a := by
  obtain ⟨last,hl,-⟩:=hline.le_last
  intro time ht
  obtain ⟨e,he,rfl⟩:=Option.map_eq_some_iff.mp ht
  have hbefore:=h e (mem_of_getLast? he) last (mem_of_getLast? hl)
  have hlimit:=hb _ (Option.map_eq_some_iff.mpr ⟨last,hl,rfl⟩)
  omega

theorem rel_or_rel {α : Type} {R : α → α → Prop} {l : List α} (h : l.Pairwise R) {a b : α}
    (ha : a∈l) (hb : b∈l) : a=b ∨ R a b ∨ R b a := by
  induction l with
  | nil => cases ha
  | cons x l ih =>
    rw [pairwise_cons] at h
    rcases mem_cons.mp ha with hax | hal
    · rcases mem_cons.mp hb with hbx | hbl
      · exact .inl (hax.trans hbx.symm)
      · exact .inr (.inl (hax ▸ h.1 b hbl))
    · rcases mem_cons.mp hb with hbx | hbl
      · exact .inr (.inr (hbx ▸ h.1 a hal))
      · exact ih h.2 hal hbl

variable {ttl time : ℤ}

theorem removeOutdatedData_eq_self (h : ∀ stats∈data.opstats,¬ Outdated (time-ttl) stats) :
    removeOutdatedData ttl time data=data := by
  have hf : data.opstats.filter (fun stats => ¬ Outdated (time-ttl) stats)=data.opstats := by
    rw [filter_eq_self]
    simpa using h
  simp only [removeOutdatedData,hf,Nat.lt_irrefl,if_false]

theorem removeOutdatedData_eq (hs : stats∈data.opstats) (h : Outdated (time-ttl) stats) :
    removeOutdatedData ttl time data =
      ⟨data.opstats.filter fun stats => ¬ Outdated (time-ttl) stats,
        some (publishedLimit (time-ttl))⟩ := by
  have hl : (data.opstats.filter fun stats => ¬ Outdated (time-ttl) stats).length <
      data.opstats.length := by
    rw [length_filter_lt_length_iff_exists]
    exact ⟨stats,hs,by simpa using h⟩
  simp only [removeOutdatedData,if_pos hl]

theorem Truthful.removeOutdatedData (h : Truthful created ever data)
    (hexact : ∀ stats∈data.opstats,ExactLimit created (time-ttl) stats) :
    Truthful created ever (removeOutdatedData ttl time data) := by
  by_cases hnone : ∀ stats∈data.opstats,¬ Outdated (time-ttl) stats
  · rw [removeOutdatedData_eq_self hnone]
    exact h
  obtain ⟨removed,hr,hout⟩ : ∃ stats∈data.opstats,Outdated (time-ttl) stats := by simpa using hnone
  obtain ⟨last,hlast,hle⟩:=(h.timelines removed hr).le_last
  obtain ⟨hbeforeLimit,hsince⟩:=hexact removed hr hout last hlast
  rw [removeOutdatedData_eq hr hout]
  obtain ⟨kept,hk⟩ : ∃ kept,kept =
      data.opstats.filter fun stats => ¬ Outdated (time-ttl) stats := ⟨_,rfl⟩
  rw [← hk]
  have hmem : ∀ stats,stats∈kept ↔ stats∈data.opstats ∧ ¬ Outdated (time-ttl) stats := by
    intro stats
    rw [hk,mem_filter]
    simp
  have hsub : ∀ e,e∈eventsOf kept → e∈eventsOf data.opstats := by
    intro e he
    obtain ⟨stats,hs,hin⟩:=mem_eventsOf.mp he
    exact mem_eventsOf.mpr ⟨stats,((hmem stats).mp hs).1,hin⟩
  -- An event that is gone was missing already, or its entry is outdated.
  have hg : ∀ e∈ever,e∉eventsOf kept → e∉eventsOf data.opstats ∨
      ∃ stats∈data.opstats,Outdated (time-ttl) stats ∧ e∈stats.events := by
    intro e he hn
    by_cases ho : e∈eventsOf data.opstats
    · obtain ⟨stats,hs,hin⟩:=mem_eventsOf.mp ho
      refine .inr ⟨stats,hs,?_,hin⟩
      by_contra ha
      exact hn (mem_eventsOf.mpr ⟨stats,(hmem stats).mpr ⟨hs,ha⟩,hin⟩)
    · exact .inl ho
  refine ⟨fun stats hs => h.timelines stats ((hmem stats).mp hs).1,hk ▸ h.ordered.filter _,?_,?_,?_⟩
  · intro e he hn event' he'
    rcases hg e he hn with hm | ⟨stats,hs,hstats,hin⟩
    · exact h.older e he hm event' (hsub event' he')
    · obtain ⟨stats',hs',hin'⟩:=mem_eventsOf.mp he'
      obtain ⟨ho',ha⟩:=(hmem stats').mp hs'
      rcases rel_or_rel h.ordered hs ho' with rfl | hb | hafter
      · exact absurd hstats ha
      · exact hb e hin event' hin'
      · exact absurd (hstats.of_before (h.timelines stats hs) hafter) ha
  · intro earliest hearliest e he hn
    cases hearliest
    rcases hg e he hn with hm | ⟨stats,hs,hstats,hin⟩
    · have hl:=mem_eventsOf.mpr ⟨removed,hr,mem_of_getLast? hlast⟩
      exact Int.lt_trans (h.older e he hm last hl) hbeforeLimit
    · obtain ⟨last',hlast',hle'⟩:=(h.timelines stats hs).le_last
      exact Int.lt_of_le_of_lt (hle' e hin) (hexact stats hs hstats last' hlast').1
  · intro earliest hearliest
    cases hearliest
    exact .inl hsince

structure Follows (ever : List (StatsEvent K)) (entries : List (OperationalStats K)) : Prop where
  timelines : ∀ stats∈entries,Timeline stats
  ordered : entries.Pairwise EntryBefore
  after : ∀ event∈ever,∀ event'∈eventsOf entries,event.timestamp<event'.timestamp

instance (ever : List (StatsEvent K)) : DecidablePred (Follows ever) := fun entries =>
  decidable_of_iff ((∀ stats∈entries,Timeline stats) ∧ entries.Pairwise EntryBefore ∧
    ∀ event∈ever,∀ event'∈eventsOf entries,event.timestamp<event'.timestamp)
    ⟨fun ⟨hlines,hordered,hafter⟩ => ⟨hlines,hordered,hafter⟩,
      fun ⟨hlines,hordered,hafter⟩ => ⟨hlines,hordered,hafter⟩⟩

def appendEntries (entries : List (OperationalStats K)) (data : OpStatsSequence K) :
    OpStatsSequence K :=
  { data with opstats := data.opstats++entries }

variable {es kept : List (OperationalStats K)}

theorem Truthful.appendEntries
    (h : Truthful created ever data) (hstored : eventsOf data.opstats ⊆ ever)
    (hf : Follows ever es) :
    Truthful created (ever++eventsOf es) (appendEntries es data) := by
  have heven : eventsOf (data.opstats++es)=eventsOf data.opstats++eventsOf es := eventsOf_append _ _
  -- Only an event from before can be missing.
  have hm : ∀ e∈ever++eventsOf es,e∉eventsOf (data.opstats++es) → e∈ever ∧
        e∉eventsOf data.opstats := by
    intro e he hn
    rw [heven,mem_append,not_or] at hn
    exact ⟨(mem_append.mp he).resolve_right hn.2,hn.1⟩
  refine ⟨?_,?_,?_,?_,?_⟩
  · intro stats hs
    exact (mem_append.mp hs).elim (h.timelines stats) (hf.timelines stats)
  · show (data.opstats++es).Pairwise EntryBefore
    rw [pairwise_append]
    refine ⟨h.ordered,hf.ordered,?_⟩
    intro stats hs stats' hs' e he event' he'
    exact hf.after e (hstored (mem_eventsOf.mpr ⟨stats,hs,he⟩)) event'
      (mem_eventsOf.mpr ⟨stats',hs',he'⟩)
  · intro e he hn event' he'
    obtain ⟨ho,hout⟩:=hm e he hn
    rw [show (OpStats.appendEntries es data).opstats=data.opstats++es from rfl,heven,
      mem_append] at he'
    rcases he' with holdEvent | hnew
    · exact h.older e ho hout event' holdEvent
    · exact hf.after e ho event' hnew
  · intro earliest hearliest e he hn
    obtain ⟨ho,hout⟩:=hm e he hn
    exact h.trusted earliest hearliest e ho hout
  · intro earliest hearliest
    refine (h.since earliest hearliest).imp_right ?_
    intro ⟨e,he,hlt⟩
    refine ⟨e,?_,hlt⟩
    show e∈eventsOf (data.opstats++es)
    rw [heven]
    exact mem_append_left _ he

theorem getEarliestTrustworthyTime_cases (time : ℤ) (hl : ∀ stats∈kept,Timeline stats) :
    kept=[] ∧ getEarliestTrustworthyTime time kept=time ∨
      ∃ first∈eventsOf kept,getEarliestTrustworthyTime time kept=first.timestamp := by
  cases kept with
  | nil => exact .inl ⟨rfl,rfl⟩
  | cons stats rest =>
    obtain ⟨first,hh,hf,-⟩:=(hl stats (mem_cons_self ..)).head_le
    refine .inr ⟨first,mem_eventsOf.mpr ⟨stats,mem_cons_self ..,hf⟩,?_⟩
    simp [getEarliestTrustworthyTime,hh]

theorem Truthful.publish (h : Truthful created ever data)
    (hsuffix : kept <:+ data.opstats) (hnow : ∀ e∈ever,e.timestamp<time)
    (hc : created≤time) :
    Truthful created ever ⟨kept,some (getEarliestTrustworthyTime time kept)⟩ := by
  obtain ⟨dropped,hsplit⟩:=hsuffix
  have ho:=h.ordered
  rw [← hsplit,pairwise_append] at ho
  have hl : ∀ stats∈kept,Timeline stats := fun stats hs =>
    h.timelines stats (hsplit ▸ mem_append_right _ hs)
  have holder : ∀ e∈ever,e∉eventsOf kept → ∀ event'∈eventsOf kept,e.timestamp<event'.timestamp := by
    intro e he hn event' he'
    by_cases hold : e∈eventsOf data.opstats
    · rw [← hsplit,eventsOf_append] at hold
      obtain ⟨stats,hs,hin⟩:=mem_eventsOf.mp ((mem_append.mp hold).resolve_right hn)
      obtain ⟨stats',hs',hin'⟩:=mem_eventsOf.mp he'
      exact ho.2.2 stats hs stats' hs' e hin event' hin'
    · apply h.older e he hold event'
      rw [← hsplit,eventsOf_append]
      exact mem_append_right _ he'
  refine ⟨hl,ho.2.1,holder,?_,?_⟩
  · intro earliest hearliest e he hn
    cases hearliest
    rcases getEarliestTrustworthyTime_cases time hl with ⟨-,ht⟩ | ⟨first,hf,ht⟩
    · rw [ht]
      exact hnow e he
    · rw [ht]
      exact holder e he hn first hf
  · intro earliest hearliest
    cases hearliest
    rcases getEarliestTrustworthyTime_cases time hl with ⟨-,ht⟩ | ⟨first,hf,ht⟩
    · rw [ht]
      exact .inl hc
    · rw [ht]
      rcases Int.lt_or_le first.timestamp created with hlt | hle
      · exact .inr ⟨first,hf,hlt⟩
      · exact .inl hle

variable (cfg) in
theorem Truthful.transformData
    (h : Truthful created ever data) (hstored : eventsOf data.opstats ⊆ ever)
    (hf : Follows ever es) (ht : o.pruneTime≤o.stampTime)
    (hn : ∀ e∈ever++eventsOf es,e.timestamp<o.pruneTime)
    (hc : created≤o.pruneTime) :
    Truthful created (ever++eventsOf es) (transformData cfg o (OpStats.appendEntries es) data) ∧
      eventsOf (transformData cfg o (OpStats.appendEntries es) data).opstats ⊆
        ever++eventsOf es := by
  have ha:=h.appendEntries hstored hf
  obtain ⟨pruned,hp⟩ : ∃ pruned,pruned=pruneOldDataUntilBelowSizeLimit cfg o.pruneTime
      (OpStats.appendEntries es data) := ⟨_,rfl⟩
  have hpruned : Truthful created (ever++eventsOf es) pruned := by
    rw [hp,pruneOldDataUntilBelowSizeLimit]
    split
    · exact ha.publish (pruneLoop_suffix _ _) hn hc
    · exact ha
  have hstamp : Truthful created (ever++eventsOf es) (stampTrustworthyTime o.stampTime pruned) := by
    cases htime : pruned.earliestTrustworthyTime with
    | none =>
      have hpast : ∀ e∈ever++eventsOf es,e.timestamp<o.stampTime :=
        fun e he => Int.lt_of_lt_of_le (hn e he) ht
      have hpublish:=hpruned.publish (suffix_refl _) hpast (Int.le_trans hc ht)
      simpa [stampTrustworthyTime,htime] using hpublish
    | some earliest =>
      have hsame : stampTrustworthyTime o.stampTime pruned=pruned := by
        rw [stampTrustworthyTime,htime,Option.getD_some,← htime]
      rw [hsame]
      exact hpruned
  have hsub : eventsOf pruned.opstats ⊆ ever++eventsOf es := by
    intro e he
    obtain ⟨stats,hs,hin⟩:=mem_eventsOf.mp he
    rw [hp] at hs
    have ho : e∈eventsOf (data.opstats++es) :=
      mem_eventsOf.mpr ⟨stats,(prune_suffix _ _).subset hs,hin⟩
    rw [eventsOf_append] at ho
    exact (mem_append.mp ho).elim (fun hin => mem_append_left _ (hstored hin)) (mem_append_right _)
  rw [OpStats.transformData,← hp]
  exact ⟨hstamp,hsub⟩

structure TransformEvent (K : Type) where
  entries : List (OperationalStats K)
  outcomes : DbOutcomes

structure TimelineState (K : Type) where
  db : OpStatsSequence K
  ever : List (StatsEvent K)
  clock : ℤ

def transformStep (cfg : DbConfig K) (s : TimelineState K) (event : TransformEvent K) :
    Except Unit (TimelineState K) :=
  let (status,db) := transform cfg event.outcomes (appendEntries event.entries) s.db
  if status.isOk then
    .ok ⟨db,s.ever++eventsOf event.entries,event.outcomes.stampTime⟩
  else .error ()

def createdAt (created : ℤ) : TimelineState K := ⟨createEmptyData created,[],created⟩

structure ClockAdvances (clock : ℤ) (o : DbOutcomes) : Prop where
  reset : clock≤o.resetTime
  time : o.resetTime≤o.time
  prune : o.time≤o.pruneTime
  stamp : o.pruneTime≤o.stampTime

instance (clock : ℤ) : DecidablePred (ClockAdvances clock) := fun o =>
  decidable_of_iff (clock≤o.resetTime ∧ o.resetTime≤o.time ∧ o.time≤o.pruneTime ∧
    o.pruneTime≤o.stampTime)
    ⟨fun ⟨hreset,htime,hprune,hstamp⟩ => ⟨hreset,htime,hprune,hstamp⟩,
      fun ⟨hreset,htime,hprune,hstamp⟩ => ⟨hreset,htime,hprune,hstamp⟩⟩

/-- The conditions on a call: the clock advances, the new events follow all others and are in the
past, and no outdated entry falls between the limit and the published limit. -/
structure Timely (cfg : DbConfig K) (created : ℤ) (s : TimelineState K)
    (event : TransformEvent K) : Prop where
  clock : ClockAdvances s.clock event.outcomes
  follows : Follows s.ever event.entries
  past : ∀ new∈eventsOf event.entries,new.timestamp<event.outcomes.time
  limits : ∀ stats∈s.db.opstats,ExactLimit created (event.outcomes.time-cfg.ttl) stats

instance (cfg : DbConfig K) (created : ℤ) (s : TimelineState K) :
    DecidablePred (Timely cfg created s) := fun event =>
  decidable_of_iff (ClockAdvances s.clock event.outcomes ∧ Follows s.ever event.entries ∧
    (∀ new∈eventsOf event.entries,new.timestamp<event.outcomes.time) ∧
    ∀ stats∈s.db.opstats,ExactLimit created (event.outcomes.time-cfg.ttl) stats)
    ⟨fun ⟨hclock,hfollows,hpast,hlimits⟩ => ⟨hclock,hfollows,hpast,hlimits⟩,
      fun ⟨hclock,hfollows,hpast,hlimits⟩ => ⟨hclock,hfollows,hpast,hlimits⟩⟩

structure TruthfulState (created : ℤ) (s : TimelineState K) : Prop where
  truthful : Truthful created s.ever s.db
  stored : eventsOf s.db.opstats ⊆ s.ever
  past : ∀ event∈s.ever,event.timestamp<s.clock
  clock : created ≤ s.clock
  published : s.db.earliestTrustworthyTime.isSome

theorem TruthfulState.step {s s' : TimelineState K} {event : TransformEvent K}
    (h : TruthfulState created s) (hevent : Timely cfg created s event)
    (hs : transformStep cfg s event=.ok s') : TruthfulState created s' := by
  have hm:=transformed cfg event.outcomes (appendEntries event.entries) s.db
  unfold transformStep at hs
  obtain ⟨⟨st,db⟩,htransfer⟩ :
    ∃ r,transform cfg event.outcomes (appendEntries event.entries) s.db=r := ⟨_,rfl⟩
  rw [htransfer] at hm hs
  dsimp only at hm hs
  split at hs
  next hok =>
    cases hs
    have hc:=hevent.clock
    have hprune:=Int.le_trans hc.reset (Int.le_trans hc.time hc.prune)
    have hp : ∀ e∈s.ever++eventsOf event.entries,e.timestamp<event.outcomes.pruneTime := by
      intro e he
      rcases mem_append.mp he with ho | hn
      · exact Int.lt_of_lt_of_le (h.past e ho) hprune
      · exact Int.lt_of_lt_of_le (hevent.past e hn) hc.prune
    have hcreated:=Int.le_trans h.clock hprune
    -- The part that follows the read is the same after a read and after a reset.
    suffices hd : ∃ data : OpStatsSequence K,Truthful created s.ever data ∧
        eventsOf data.opstats ⊆ s.ever ∧
        db=transformData cfg event.outcomes (appendEntries event.entries) data by
      obtain ⟨data,ht,hstored,rfl⟩:=hd
      obtain ⟨ht',hstored'⟩:=ht.transformData cfg hstored hevent.follows hc.stamp hp hcreated
      exact ⟨ht',hstored',fun e he => Int.lt_of_lt_of_le (hp e he) hc.stamp,
        Int.le_trans hcreated hc.stamp,rfl⟩
    cases hm with
    | changed hr hw =>
      refine ⟨_,h.truthful.removeOutdatedData hevent.limits,?_,rfl⟩
      intro e he
      obtain ⟨stats,hstate,hin⟩:=mem_eventsOf.mp he
      exact h.stored (mem_eventsOf.mpr ⟨stats,(mem_filter.mp hstate).1,hin⟩)
    | unwritten hr hw | emptied hr hresponse hw =>
      cases hw.symm.trans hok
    | unreset hr hresponse hstats =>
      cases hstats.symm.trans hok
    | restarted hr hresponse hw =>
      exact ⟨⟨[],none⟩,⟨nofun,.nil,fun _ _ _ => nofun,nofun,nofun⟩,nofun,rfl⟩
  · cases hs

/-- In every run of successful calls that meet the conditions: an event that was ever stored, and
is not before the published time, is in the database, and the published time is not before the
creation of the database unless an event from before is there. -/
theorem trustworthy_time_truthful {history : List (TimelineState K × TransformEvent K)}
    {s : TimelineState K} (hr : Run (transformStep cfg) (createdAt created) history s)
    (ht : ∀ entry∈history,Timely cfg created entry.1 entry.2) :
    ∃ earliest,s.db.earliestTrustworthyTime=some earliest ∧
      (∀ event∈s.ever,earliest≤event.timestamp → event∈eventsOf s.db.opstats) ∧
      (created≤earliest ∨ ∃ event∈eventsOf s.db.opstats,event.timestamp<created) := by
  have h : TruthfulState created s := by
    apply hr.invariant (G := Timely cfg created) (P := fun _ s => TruthfulState created s) ht
    · refine ⟨⟨nofun,.nil,nofun,fun _ _ => nofun,?_⟩,nofun,nofun,Int.le_refl _,rfl⟩
      intro earliest he
      cases he
      exact .inl (Int.le_refl _)
    · exact fun _ s s' event h hevent hs => h.step hevent hs
  obtain ⟨earliest,he⟩:=Option.isSome_iff_exists.mp h.published
  refine ⟨earliest,he,?_,h.truthful.since earliest he⟩
  intro event hevent hle
  by_contra hn
  have hlt:=h.truthful.trusted earliest he event hevent hn
  omega

def entryAt (timestamp : ℤ) : OperationalStats ℕ :=
  addNewEventToStats (newLogger "session" "population").stats 1 timestamp

def agedOut : List (TransformEvent ℕ) := [⟨[entryAt (2*10^9),entryAt (9*10^9)],successful 10⟩,
    ⟨[entryAt (14*10^9)],successful 15⟩]

theorem trustworthy_time_truthful_aged :
    ∃ history s,Run (transformStep sampleConfig) (createdAt (10^9)) history s ∧
      (∀ entry∈history,Timely sampleConfig (10^9) entry.1 entry.2) ∧
      (eventsOf s.db.opstats).map (·.timestamp)=[9*10^9,14*10^9] ∧
      ∃ earliest,s.db.earliestTrustworthyTime=some earliest ∧
        (∀ event∈s.ever,earliest≤event.timestamp → event∈eventsOf s.db.opstats) ∧
        (10^9≤earliest ∨ ∃ event∈eventsOf s.db.opstats,event.timestamp<10^9) := by
  obtain ⟨history,s,hr,he,ht,hs⟩:=exists_recorded (transformStep sampleConfig)
    (createdAt (10^9)) agedOut
    (P := fun history s => (∀ entry∈history,Timely sampleConfig (10^9) entry.1 entry.2) ∧
      (eventsOf s.db.opstats).map (·.timestamp)=[9*10^9,14*10^9]) (by decide +kernel)
  exact ⟨history,s,hr,ht,hs,trustworthy_time_truthful hr ht⟩

def withinASecond : List (TransformEvent ℕ) := [⟨[entryAt (109*10^8)],successful 11⟩,
    ⟨[entryAt (20*10^9)],
      { successful 20 with
        time := 205*10^8
        pruneTime := 205*10^8
        stampTime := 205*10^8 }⟩]

/-- The event is removed, and the published time is before it. -/
theorem event_within_second_missing :
    ∃ history s,Run (transformStep sampleConfig) (createdAt (10^9)) history s ∧
      history.map Prod.snd=withinASecond ∧
      (∀ entry∈history,ClockAdvances entry.1.clock entry.2.outcomes ∧
        Follows entry.1.ever entry.2.entries ∧
        ∀ new∈eventsOf entry.2.entries,new.timestamp<entry.2.outcomes.time) ∧
      s.db.earliestTrustworthyTime=some (105*10^8) ∧
      ∃ event∈s.ever,105*10^8≤event.timestamp ∧ event∉eventsOf s.db.opstats := by
  exact exists_recorded _ _ _ (by decide +kernel)

end Fcp.Client.OpStats

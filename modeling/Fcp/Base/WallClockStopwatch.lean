import Fcp.Base.Monitoring
import Fcp.Lib.Run
import Mathlib.Data.Int.Interval

/-!
# The wall clock stopwatch (fcp/base/wall_clock_stopwatch.cc)

Each section under the mutex is one step and reads the clock in it. Times are integers.
-/

namespace Fcp.Timing

open List

/-- `InfiniteFuture` as a start time is `none`. -/
structure Stopwatch where
  startedCount : ℤ := 0
  latestStartTime : Option ℤ := none
  previousDurations : ℤ := 0

def intMax : ℤ := 0x7FFFFFFF

def Stopwatch.getTotalDuration (s : Stopwatch) (now : ℤ) : Checked ℤ := do
  fcpCheck (0 ≤ s.startedCount)
  match s.latestStartTime with
  | none => .ok s.previousDurations
  | some latestStartTime => .ok (s.previousDurations+(now-latestStartTime))

def Stopwatch.startInternal (s : Stopwatch) (now : ℤ) : Checked Stopwatch := do
  fcpCheck (0 ≤ s.startedCount)
  let startedCount ← checkInt (s.startedCount+1)
  .ok { s with
    startedCount := startedCount
    latestStartTime := if startedCount=1 then some now else s.latestStartTime }

def Stopwatch.stopInternal (s : Stopwatch) (now : ℤ) : Checked Stopwatch := do
  fcpCheck (1 ≤ s.startedCount)
  if s.startedCount-1=0 then
    .ok ⟨0,none,s.previousDurations+(now-s.latestStartTime.getD now)⟩
  else .ok { s with startedCount := s.startedCount-1 }

structure Handle where
  start : ℤ
  stop : Option ℤ
  deriving DecidableEq

structure Watched where
  stopwatch : Stopwatch := {}
  handles : List Handle := []
  clock : ℤ

inductive StopwatchEvent where
  | start (now : ℤ)
  | destroy (handle : ℕ) (now : ℤ)

def stopwatchStep (s : Watched) : StopwatchEvent → Checked Watched
  | .start now => do
    let stopwatch ← s.stopwatch.startInternal now
    .ok ⟨stopwatch,s.handles++[⟨now,none⟩],now⟩
  | .destroy handle now => do
    let stopwatch ← s.stopwatch.stopInternal now
    .ok ⟨stopwatch,s.handles.modify handle fun h => { h with stop := some now },now⟩

/-- The clock does not go back, and a handle is destroyed once. -/
def Possible (s : Watched) : StopwatchEvent → Prop
  | .start now => s.clock≤now
  | .destroy handle now => s.clock≤now ∧ ∃ h,s.handles[handle]?=some h ∧ h.stop=none

def live (handles : List Handle) : ℕ := handles.countP (·.stop.isNone)

/-- The time until `now` at which some handle is alive. -/
def running (handles : List Handle) (now : ℤ) : Finset ℤ := handles.toFinset.biUnion fun h =>
    @Finset.Ico ℤ Int.instLinearOrder.toPartialOrder.toPreorder _ h.start (h.stop.getD now)

variable {handles before after : List Handle} {h : Handle} {now now' x : ℤ}

theorem mem_running : x∈running handles now ↔ ∃ h∈handles,h.start≤x ∧ x<h.stop.getD now := by
  simp [running]

theorem mem_running_insert : x∈running (before++h::after) now ↔
    (h.start≤x ∧ x<h.stop.getD now) ∨ x∈running (before++after) now := by
  simp only [mem_running,mem_append,mem_cons]
  constructor
  · rintro ⟨h',hm | rfl | hm,hx⟩
    · exact .inr ⟨h',.inl hm,hx⟩
    · exact .inl hx
    · exact .inr ⟨h',.inr hm,hx⟩
  · rintro (hx | ⟨h',hm,hx⟩)
    · exact ⟨h,.inr (.inl rfl),hx⟩
    · exact ⟨h',hm.imp_right .inr,hx⟩

theorem live_insert : live (before++h::after)=live
    (before++after)+if h.stop=none then 1 else 0 := by
  simp [live,countP_append,countP_cons,Nat.add_assoc]

theorem running_of_stopped (hs : live handles=0) : running handles now=running handles now' := by
  ext x
  rw [mem_running,mem_running]
  refine exists_congr fun h => and_congr_right fun hm => ?_
  cases hstop : h.stop with
  | some t => rfl
  | none => exact absurd (by simp [hstop]) (countP_eq_zero.mp hs h hm)

def Handle.Before (h : Handle) (now : ℤ) : Prop := h.start≤now ∧ ∀ t∈h.stop,t≤now

theorem Handle.Before.mono (hb : h.Before now) (hn : now≤now') : h.Before now' :=
  ⟨hb.1.trans hn,fun t ht => (hb.2 t ht).trans hn⟩

structure Measured (s : Watched) : Prop where
  count : s.stopwatch.startedCount=live s.handles
  past : ∀ h∈s.handles,h.Before s.clock
  idle_iff : s.stopwatch.latestStartTime=none ↔ live s.handles=0
  card : ∀ now,s.clock≤now → ((running s.handles now).card : ℤ)=
    s.stopwatch.previousDurations+s.stopwatch.latestStartTime.elim 0 (now-·)

variable {s s' : Watched}

theorem Measured.total (hs : Measured s) (hn : s.clock≤now) :
    s.stopwatch.getTotalDuration now=.ok (running s.handles now).card := by
  rw [hs.card now hn,Stopwatch.getTotalDuration,hs.count]
  cases s.stopwatch.latestStartTime <;> simp

theorem running_destroy (ha : h.stop=none) :
    running (before++{ h with stop := some now }::after) now=running (before++h::after) now := by
  ext x
  rw [mem_running_insert,mem_running_insert,ha]
  rfl

theorem mem_running_of_live (hl : live handles≠0) (hp : ∀ h∈handles,h.start≤x)
    (hx : x<now) : x∈running handles now := by
  obtain ⟨h,hm,hs⟩:=countP_pos_iff.mp (Nat.pos_of_ne_zero hl)
  exact mem_running.mpr ⟨h,hm,hp h hm,by rwa [Option.isNone_iff_eq_none.mp hs]⟩

def Advances (s : Watched) (event : StopwatchEvent) : Prop :=
  ∃ s',stopwatchStep s event=.ok s' ∧ Measured s' ∧
    running s'.handles s'.clock=running s.handles s'.clock

theorem Measured.start (hs : Measured s) (hn : s.clock≤now) :
    (stopwatchStep s (.start now)=.error .signedOverflow ∧ intMax≤live s.handles) ∨
      Advances s (.start now) := by
  rw [Advances,stopwatchStep,Stopwatch.startInternal,hs.count]
  by_cases hf : (live s.handles : ℤ) < intMax
  · have hi : checkInt ((live s.handles : ℤ)+1)=.ok (live s.handles+1) := by
      rw [checkInt_eq_ite,if_pos ⟨by omega,by rw [intMax] at hf; omega⟩]
    refine .inr ⟨_,by simp [hi]; rfl,?_⟩
    have hl : live (s.handles++[⟨now,none⟩])=live s.handles+1 := by
      rw [live_insert,append_nil]
      rfl
    refine ⟨⟨by simp [hl],?_,?_,?_⟩,?_⟩
    · simp only [forall_mem_append,forall_mem_singleton]
      exact ⟨fun h hm => (hs.past h hm).mono hn,le_rfl,nofun⟩
    · by_cases hz : live s.handles=0 <;> simp [hl,hz,hs.idle_iff]
    · intro now' hn'
      have hcard:=hs.card now' (hn.trans hn')
      by_cases hz : live s.handles=0
      · -- Nothing is running: all that was lies before the new interval.
        rw [hs.idle_iff.mpr hz] at hcard
        have hsplit : running (s.handles++[⟨now,none⟩]) now'=
            running s.handles now' ∪ Finset.Ico now now' := by
          ext x
          rw [mem_running_insert,append_nil,Finset.mem_union,Finset.mem_Ico,or_comm]
          rfl
        rw [hsplit,Finset.card_union_of_disjoint,Int.card_Ico]
        · simp [hz,hcard,hn']
        · rw [@running_of_stopped _ now' s.clock hz,Finset.disjoint_left]
          intro x hx hx'
          obtain ⟨h,hm,-,hlt⟩:=mem_running.mp hx
          have hstored:=(hs.past h hm).2
          have hge:=(Finset.mem_Ico.mp hx').1
          cases hc : h.stop with
          | none => simp [hc] at hlt; omega
          | some t => simp [hc] at hlt hstored; omega
      · have hsame : running (s.handles++[⟨now,none⟩]) now'=running s.handles now' := by
          ext x
          rw [mem_running_insert,append_nil,or_iff_right_of_imp]
          exact fun hx => mem_running_of_live hz
            (fun h hm => (hs.past h hm).1.trans (hn.trans hx.1)) hx.2
        simp [hsame,hcard,hz]
    · ext x
      rw [mem_running_insert,append_nil,or_iff_right_of_imp]
      exact fun hx => absurd hx.2 (not_lt.mpr hx.1)
  · have hi : checkInt ((live s.handles : ℤ)+1)=.error .signedOverflow := by
      rw [checkInt_eq_ite,if_neg (by rw [intMax] at hf; omega)]
    exact .inl ⟨by simp [hi],not_lt.mp hf⟩

theorem Measured.destroy {i : ℕ} (hs : Measured s) (hnow : s.clock≤now)
    (hh : s.handles[i]?=some h) (ha : h.stop=none) :
    Advances s (.destroy i now) := by
  obtain ⟨hlt,rfl⟩:=List.getElem?_eq_some_iff.mp hh
  obtain ⟨before,h,after,heq,rfl,hmod⟩:=exists_of_modify
    (fun h : Handle => { h with stop := some now }) hlt
  simp only [heq,getElem_append_right le_rfl,Nat.sub_self,getElem_cons_zero] at ha
  obtain ⟨hcount,hp,hi,hc⟩:=hs
  rw [heq] at hcount hp hi hc
  rw [live_insert,if_pos ha] at hcount hi
  obtain ⟨t,ht⟩ : ∃ t,s.stopwatch.latestStartTime=some t :=
    Option.ne_none_iff_exists'.mp fun hn => Nat.succ_ne_zero _ (hi.mp hn)
  have hlive : live (before++{ h with stop := some now }::after)=live (before++after) := by
    rw [live_insert,if_neg nofun]
    rfl
  have hp' : ∀ h'∈before++{ h with stop := some now }::after,h'.Before now := by
    simp only [forall_mem_append,forall_mem_cons] at hp ⊢
    refine ⟨fun h' hm => (hp.1 h' hm).mono hnow,⟨hp.2.1.1.trans hnow,?_⟩,
      fun h' hm => (hp.2.2 h' hm).mono hnow⟩
    rintro t ⟨⟩
    exact le_rfl
  rw [Advances,stopwatchStep,Stopwatch.stopInternal,hcount,hmod,ht,heq]
  by_cases hl : live (before++after)=0
  · refine ⟨_,by simp [hl]; rfl,⟨by simp [hlive,hl],hp',by simp [hlive,hl],?_⟩,running_destroy ha⟩
    intro now' hnow'
    have hsame : running (before++{ h with stop := some now }::after) now'=
        running (before++h::after) now := by
      rw [@running_of_stopped _ now' now (hlive.trans hl),running_destroy ha]
    rw [hsame,hc now hnow,ht]
    simp
  · refine ⟨_,by simp [hl]; rfl,⟨by simp [hlive],hp',by simp [hlive,hl],?_⟩,running_destroy ha⟩
    intro now' hnow'
    have hsame : running (before++{ h with stop := some now }::after) now'=
        running (before++h::after) now' := by
      ext x
      rw [mem_running_insert,mem_running_insert,ha]
      refine ⟨Or.imp_left (And.imp_right (·.trans_le hnow')),?_⟩
      rintro (⟨hstate,hx⟩ | hx)
      · by_cases he : x<now
        · exact .inl ⟨hstate,he⟩
        · refine .inr (mem_running_of_live hl (fun h' hm => ?_) hx)
          have hm' : h'∈before++h::after := by simp at hm ⊢; tauto
          exact ((hp h' hm').1.trans hnow).trans (not_lt.mp he)
      · exact .inr hx
    rw [hsame,hc now' (hnow.trans hnow'),ht]

theorem Measured.step {e : StopwatchEvent} (hs : Measured s) (hp : Possible s e) :
    (stopwatchStep s e=.error .signedOverflow ∧ intMax≤live s.handles) ∨ Advances s e := by
  cases e with
  | start now => exact hs.start hp
  | destroy handleResponse now =>
    obtain ⟨hn,h,hh,ha⟩:=hp
    exact .inr (hs.destroy hn hh ha)

variable {hist : List (Watched × StopwatchEvent)} {t : ℤ}

theorem measured_of_run (hr : Run stopwatchStep { clock := t } hist s)
    (hp : ∀ entry∈hist,Possible entry.1 entry.2) : Measured s := by
  refine hr.invariant (P := fun _ s => Measured s) hp ?_ ?_
  · exact ⟨rfl,by simp,by simp [live],by simp [running]⟩
  · intro hist s s' e hs he hstep
    rcases hs.step he with ⟨heq,-⟩ | ⟨s'',heq,hs'',-⟩
    · cases heq.symm.trans hstep
    · cases heq.symm.trans hstep
      exact hs''

/-- After any events the duration is the time at which a handle was alive, the handles are counted,
and no check fails while there are fewer than `intMax` of them. The duration does not decrease, with
time or at an event. -/
theorem stopwatch_exact (hr : Run stopwatchStep { clock := t } hist s)
    (hp : ∀ entry∈hist,Possible entry.1 entry.2) :
    s.stopwatch.startedCount=live s.handles ∧
    (∀ now,s.clock≤now → s.stopwatch.getTotalDuration now=.ok (running s.handles now).card) ∧
    (∀ now now',now≤now' → running s.handles now⊆running s.handles now') ∧
    ∀ event,Possible s event → live s.handles < intMax → ∃ s',stopwatchStep s event=.ok s' ∧
      running s'.handles s'.clock=running s.handles s'.clock := by
  have hs:=measured_of_run hr hp
  refine ⟨hs.count,fun now hn => hs.total hn,fun now now' hle x hx => ?_,fun event he hf => ?_⟩
  · obtain ⟨h,hm,hstate,hx⟩:=mem_running.mp hx
    refine mem_running.mpr ⟨h,hm,hstate,hx.trans_le ?_⟩
    cases h.stop with
    | none => exact hle
    | some t => exact le_rfl
  · rcases hs.step he with ⟨-,hmany⟩ | ⟨s',hstep,-,hsame⟩
    · omega
    · exact ⟨s',hstep,hsame⟩

/-- Two handles that overlap have ended, and a third one is alive. -/
theorem three_handles_measured : ∃ hist,Run stopwatchStep { clock := 0 } hist
      ⟨⟨1,some 20,7⟩,[⟨3,some 7⟩,⟨5,some 10⟩,⟨20,none⟩],20⟩ ∧
    (running [⟨3,some 7⟩,⟨5,some 10⟩,⟨20,none⟩] 30).card=17 ∧
    Stopwatch.getTotalDuration ⟨1,some 20,7⟩ 30=.ok 17 := by
  have hr : Run stopwatchStep { clock := 0 } _
      ⟨⟨1,some 20,7⟩,[⟨3,some 7⟩,⟨5,some 10⟩,⟨20,none⟩],20⟩ :=
    .snoc (.snoc (.snoc (.snoc (.snoc .nil (rfl : stopwatchStep _ (.start 3)=_))
      (rfl : stopwatchStep _ (.start 5)=_)) (rfl : stopwatchStep _ (.destroy 0 7)=_))
      (rfl : stopwatchStep _ (.destroy 1 10)=_)) (rfl : stopwatchStep _ (.start 20)=_)
  obtain ⟨-,ht,-⟩:=stopwatch_exact hr (by simp [Possible])
  have hd : Stopwatch.getTotalDuration ⟨1,some 20,7⟩ 30=.ok 17 := rfl
  exact ⟨_,hr,by exact_mod_cast (Except.ok.inj (hd.symm.trans (ht 30 (by decide)))).symm,hd⟩

theorem exists_live (n : ℕ) (hn : n ≤ intMax) : ∃ hist s,
    Run stopwatchStep { clock := 0 } hist s ∧ (∀ entry∈hist,Possible entry.1 entry.2) ∧
      live s.handles=n ∧ s.clock=0 := by
  induction n with
  | zero => exact ⟨[],_,.nil,nofun,rfl,rfl⟩
  | succ n ih =>
    obtain ⟨hist,s,hr,hp,hl,hc⟩:=ih (by omega)
    have hs:=measured_of_run hr hp
    rcases hs.start hc.le with ⟨-,hm⟩ | ⟨s',hstep,hs',-⟩
    · omega
    · refine ⟨_,s',.snoc hr hstep,forall_mem_append.mpr ⟨hp,forall_mem_singleton.mpr hc.le⟩,?_,?_⟩
      all_goals
        obtain ⟨stopwatch,-,⟨⟩⟩:=bind_eq_ok.mp hstep
      · rw [live_insert,append_nil,hl]
        rfl
      · rfl

/-- The counter overflows with one handle too many. -/
theorem handles_beyond_int : ∃ hist s,Run stopwatchStep { clock := 0 } hist s ∧
    (∀ entry∈hist,Possible entry.1 entry.2) ∧ Possible s (.start 0) ∧
      stopwatchStep s (.start 0)=.error .signedOverflow := by
  obtain ⟨hist,s,hr,hp,hl,hc⟩:=exists_live 0x7FFFFFFF le_rfl
  refine ⟨hist,s,hr,hp,hc.le,?_⟩
  have hs:=measured_of_run hr hp
  rw [stopwatchStep,Stopwatch.startInternal,hs.count,hl]
  rfl

end Fcp.Timing

import Fcp.SecAgg.Server.AccumulatorCorrectness
import Fcp.SecAgg.Server.MaskedInputCollection

/-!
# Sums of masked inputs in both modes

Every push onto an empty queue stands for one task that has not taken the queue yet. So every
accepted input is in the batch of one task.
-/

namespace Fcp.SecAgg

open SecAggScheduler (TaskPhase)
open List MaskedInputCollection SecAggScheduler

variable {specs : List InputVectorSpecification}

namespace MaskedInputCollection

structure Handed (specs : List InputVectorSpecification) (s : MaskedInputCollection) : Prop where
  keys : (s.taken.map Prod.fst).Nodup
  bound : ∀ entry∈s.taken,entry.1<s.maskedInputAccumulator.tasks.length
  /-- A queue that is not empty has one call or task that will take it, an empty one has none. -/
  count : s.scheduling+s.maskedInputAccumulator.tasks.length =
    s.taken.length + if s.maskedInputQueue.isEmpty then 0 else 1
  nonempty : ∀ entry∈s.taken,entry.2≠[]
  accepted : s.accepted.map Prod.snd=(s.taken.map Prod.snd).flatten++s.maskedInputQueue
  checked : ∀ entry∈s.accepted,checkMaskedResponse specs entry.1=.ok (.ok entry.2)
  results {task : ℕ} {phase : TaskPhase SecAggUnpackedVectorMap} {p : SecAggUnpackedVectorMap} :
    s.maskedInputAccumulator.tasks[task]?=some phase → phase.result=some p →
      ∃ maps,s.taken.lookup task=some maps ∧ ProtocolImpl.addReduce maps=.ok p

variable {s s' : MaskedInputCollection}

theorem handed_setup (specs : List InputVectorSpecification) : Handed specs (setup specs) where
  keys := nodup_nil
  bound := nofun
  count := rfl
  nonempty := nofun
  accepted := rfl
  checked := nofun
  results := nofun

theorem Handed.push (h : Handed specs s) {vecs : NameMap Bytes} {checked : SecAggVectorMap}
    (hchecked : checkMaskedResponse specs vecs=.ok (.ok checked)) :
    Handed specs (s.push vecs checked) where
  keys := h.keys
  bound := h.bound
  count := by
    have hc:=h.count
    simp only [MaskedInputCollection.push]
    cases he : s.maskedInputQueue.isEmpty with
    | true =>
      rw [he] at hc
      simp at hc ⊢
      omega
    | false =>
      rw [he] at hc
      simpa using hc
  nonempty := h.nonempty
  accepted := by
    simp only [MaskedInputCollection.push,map_append,map_singleton]
    rw [h.accepted,append_assoc]
  checked entry hentry := by
    obtain ho | hn:=mem_append.mp hentry
    · exact h.checked entry ho
    · rw [mem_singleton.mp hn]
      exact hchecked
  results := h.results

theorem Handed.schedule (h : Handed specs s) : Handed specs s.schedule := by
  unfold MaskedInputCollection.schedule
  split
  · exact h
  next n hs =>
    have hc:=h.count
    rw [hs] at hc
    constructor
    · exact h.keys
    · intro entry he
      have hb:=h.bound entry he
      simp only [SecAggScheduler.Accumulator.schedule,length_append,length_singleton]
      omega
    · simp only [SecAggScheduler.Accumulator.schedule,length_append,length_singleton]
      omega
    · exact h.nonempty
    · exact h.accepted
    · exact h.checked
    · intro task phase p hp hr
      have hm : SecAggScheduler.Move SecAggUnpackedVectorMap.addMaps s.maskedInputAccumulator
        _ _ := .schedule false
      obtain ⟨old,ho,hr⟩ | ⟨hevent,-⟩:=result_move hm hp hr
      · exact h.results ho hr
      · cases hevent

variable {task : ℕ}

theorem Handed.queue_ne_nil (h : Handed specs s)
    (ht : task<s.maskedInputAccumulator.tasks.length) (hnew : task∉s.taken.map Prod.fst) :
    s.maskedInputQueue.isEmpty=false ∧ s.scheduling=0 ∧
      s.maskedInputAccumulator.tasks.length=s.taken.length+1 := by
  have hn:=nodup_cons.mpr ⟨hnew,h.keys⟩
  have hs : task::s.taken.map Prod.fst ⊆ List.range s.maskedInputAccumulator.tasks.length := by
    intro k hk
    rw [mem_range]
    obtain rfl | hk:=mem_cons.mp hk
    · exact ht
    · obtain ⟨entry,hentry,rfl⟩:=mem_map.mp hk
      exact h.bound entry hentry
  have hl:=(subperm_of_subset hn hs).length_le
  rw [length_cons,length_map,length_range] at hl
  have hc:=h.count
  cases he : s.maskedInputQueue.isEmpty with
  | true =>
    rw [he] at hc
    simp at hc
    omega
  | false =>
    rw [he] at hc
    simp at hc
    exact ⟨rfl,by omega,by omega⟩

variable {β : Type} {l : List (ℕ × β)} {k : ℕ}

theorem lookup_eq_none_iff : l.lookup k=none ↔ k∉l.map Prod.fst := by
  rw [List.lookup_eq_none_iff,mem_map]
  constructor
  · rintro h ⟨entry,he,rfl⟩
    exact absurd (h entry he) (by simp)
  · intro h entry he
    exact bne_iff_ne.mpr fun heq => h ⟨entry,he,heq.symm⟩

variable {b : β} {a : SecAggScheduler.Accumulator SecAggUnpackedVectorMap}
  {phase : TaskPhase SecAggUnpackedVectorMap} {p : SecAggUnpackedVectorMap}

theorem Handed.takeMaskedInputQueue (h : Handed specs s) (task : ℕ) :
    Handed specs (s.takeMaskedInputQueue task) := by
  unfold MaskedInputCollection.takeMaskedInputQueue
  split
  next hp hlookup =>
    have hn:=lookup_eq_none_iff.mp hlookup
    have ht:=(List.getElem?_eq_some_iff.mp hp).1
    obtain ⟨hq,hs,hlen⟩:=h.queue_ne_nil ht hn
    constructor
    · rw [map_append,map_singleton,nodup_append]
      refine ⟨h.keys,nodup_singleton _,fun k hk k' hk' => ?_⟩
      rw [mem_singleton.mp hk']
      rintro rfl
      exact hn hk
    · intro entry he
      obtain ho | hl:=mem_append.mp he
      · exact h.bound entry ho
      · rw [mem_singleton.mp hl]
        exact ht
    · rw [hs,length_append,hlen,Nat.zero_add]
      rfl
    · intro entry he
      obtain ho | hl:=mem_append.mp he
      · exact h.nonempty entry ho
      · rw [mem_singleton.mp hl]
        exact isEmpty_eq_false_iff.mp hq
    · rw [h.accepted]
      simp
    · exact h.checked
    · intro k phase p hk hresult
      obtain ⟨maps,hm,hr⟩:=h.results hk hresult
      exact ⟨maps,by rw [lookup_append,hm,Option.some_or],hr⟩
  · exact h

theorem Handed.accumulator (h : Handed specs s)
    {event : SecAggScheduler.Event SecAggUnpackedVectorMap}
    (hm : SecAggScheduler.Move SecAggUnpackedVectorMap.addMaps s.maskedInputAccumulator event a)
    (hs : ∀ delayed,event≠.schedule delayed)
    (hg : ∀ task p,event=.generate task p →
      ∃ maps,s.taken.lookup task=some maps ∧ ProtocolImpl.addReduce maps=.ok p) :
    Handed specs { s with maskedInputAccumulator := a } := by
  have hl:=length_tasks_move hm hs
  constructor
  · exact h.keys
  · intro entry he
    rw [hl]
    exact h.bound entry he
  · rw [hl]
    exact h.count
  · exact h.nonempty
  · exact h.accepted
  · exact h.checked
  · intro task phase p hp hr
    obtain ⟨old,ho,hr⟩ | ⟨hevent,-⟩:=result_move hm hp hr
    · exact h.results ho hr
    · exact hg task p hevent

theorem move_accumulatorStep {event : SecAggScheduler.Event SecAggUnpackedVectorMap}
    (hs : s.accumulatorStep event=.ok s') : s'=s ∨ ∃ a,
      SecAggScheduler.Move SecAggUnpackedVectorMap.addMaps s.maskedInputAccumulator event a ∧
      (∀ delayed,event≠.schedule delayed) ∧ (∀ task p,event≠.generate task p) ∧
      s'={ s with maskedInputAccumulator := a } := by
  unfold accumulatorStep at hs
  split at hs
  · cases hs
    exact Or.inl rfl
  · cases hs
    exact Or.inl rfl
  next hschedule hg =>
    rw [bind_eq_ok] at hs
    obtain ⟨a,ha,hs⟩:=hs
    cases hs
    exact Or.inr ⟨a,move_of_step ha,hschedule,hg,rfl⟩

theorem move_addReduce (hs : s.addReduce task=.ok s') : s'=s ∨ ∃ maps p a,
      s.taken.lookup task=some maps ∧ ProtocolImpl.addReduce maps=.ok p ∧
      SecAggScheduler.Move SecAggUnpackedVectorMap.addMaps s.maskedInputAccumulator
        (.generate task p) a ∧
      s'={ s with maskedInputAccumulator := a } := by
  unfold addReduce at hs
  split at hs
  next queue _ hl =>
    rw [bind_eq_ok] at hs
    obtain ⟨p,hp,hs⟩:=hs
    cases hs
    exact Or.inr ⟨queue,p,_,hl,hp,move_of_step rfl,rfl⟩
  · cases hs
    exact Or.inl rfl

structure Kept (specs : List InputVectorSpecification) (s : MaskedInputCollection) : Prop where
  handed : Handed specs s
  counted : SecAggScheduler.Counted s.maskedInputAccumulator
  sequenced : SecAggScheduler.Sequenced s.maskedInputAccumulator
  folded : SecAggScheduler.Folded SecAggUnpackedVectorMap.addMaps
    (ProtocolImpl.initializeVectorMap specs) s.maskedInputAccumulator

theorem kept_setup (specs : List InputVectorSpecification) : Kept specs (setup specs) :=
  ⟨handed_setup _,counted_create _,sequenced_create _,folded_create _⟩

theorem Kept.accumulator (h : Kept specs s) {event : SecAggScheduler.Event SecAggUnpackedVectorMap}
    (hm : SecAggScheduler.Move SecAggUnpackedVectorMap.addMaps s.maskedInputAccumulator event a)
    (hh : Handed specs { s with maskedInputAccumulator := a }) :
    Kept specs { s with maskedInputAccumulator := a } :=
  ⟨hh,h.counted.move hm,h.sequenced.move hm,h.folded.move hm⟩

variable {event : Event}

theorem Kept.step (h : Kept specs s) (hs : step specs s event=.ok s') : Kept specs s' := by
  cases event with
  | handleResponse vecs =>
    rw [step,bind_eq_ok] at hs
    obtain ⟨outcome,ho,hs⟩:=hs
    cases outcome with
    | error st =>
      cases hs
      exact h
    | ok checked =>
      cases hs
      exact ⟨h.handed.push ho,h.counted,h.sequenced,h.folded⟩
  | schedule =>
    cases hs
    have hh:=h.handed.schedule
    unfold schedule at hh ⊢
    split at hh
    · exact h
    · have hm : SecAggScheduler.Move SecAggUnpackedVectorMap.addMaps s.maskedInputAccumulator
        _ _ := .schedule false
      exact ⟨hh,h.counted.move hm,h.sequenced.move hm,h.folded.move hm⟩
  | takeMaskedInputQueue task =>
    cases hs
    have hh:=h.handed.takeMaskedInputQueue task
    unfold takeMaskedInputQueue at hh ⊢
    split at hh
    · exact ⟨hh,h.counted,h.sequenced,h.folded⟩
    · exact h
  | addReduce task =>
    obtain rfl | ⟨maps,p,a,hmap,hp,hm,rfl⟩:=move_addReduce hs
    · exact h
    · refine h.accumulator hm (h.handed.accumulator hm nofun fun k q he => ?_)
      cases he
      exact ⟨maps,hmap,hp⟩
  | accumulator event =>
    obtain rfl | ⟨a,hm,hschedule,hg,rfl⟩:=move_accumulatorStep hs
    · exact h
    · exact h.accumulator hm (h.handed.accumulator hm hschedule fun task p he =>
        absurd he (hg task p))

theorem mem_of_lookup (h : l.lookup k=some b) : (k,b)∈l := by
  obtain ⟨l₁,l₂,rfl,-⟩:=lookup_eq_some_iff.mp h
  exact mem_append_right _ mem_cons_self

theorem Handed.packedFor (h : Handed specs s) {m : SecAggVectorMap}
    (hm : m∈s.accepted.map Prod.snd) : PackedFor specs (valuesOf m) m := by
  obtain ⟨entry,he,rfl⟩:=mem_map.mp hm
  exact packedFor_of_checkMaskedResponse (h.checked entry he)

theorem Handed.addReduce_ok (h : Handed specs s) {maps : List SecAggVectorMap}
    (hmap : s.taken.lookup task=some maps) :
    ∃ r,ProtocolImpl.addReduce maps=.ok r ∧ StandsFor specs (totalOf maps) r := by
  have hmem:=mem_of_lookup hmap
  refine addReduce_eq (h.nonempty _ hmem) fun m hm => h.packedFor ?_
  rw [h.accepted]
  exact mem_append_left _ (mem_flatten_of_mem (mem_map_of_mem hmem) hm)

theorem Handed.standsFor_result (h : Handed specs s)
    (hphase : s.maskedInputAccumulator.tasks[task]?=some phase)
    (hresult : phase.result=some p) :
    ∃ maps,s.taken.lookup task=some maps ∧ StandsFor specs (totalOf maps) p := by
  obtain ⟨maps,hm,hp⟩:=h.results hphase hresult
  obtain ⟨r,hr,hs⟩:=h.addReduce_ok hm
  cases hp.symm.trans hr
  exact ⟨maps,hm,hs⟩

theorem result_of_summand (h : phase.summand=some p) : phase.result=some p := by
  cases phase <;> first | exact h | cases h

variable {v : SecAggUnpackedVectorMap}

theorem Kept.standsFor_value (h : Kept specs s)
    (hv : s.maskedInputAccumulator.accumulatedValue=some v) : ∃ f,StandsFor specs f v := by
  obtain ⟨order,hperm,hf⟩:=h.folded.value v hv
  have hparts : ∀ p∈order,∃ f,StandsFor specs f p := by
    intro p hp
    obtain ⟨phase,hphase,hsum⟩:=mem_filterMap.mp (hperm.mem_iff.mp hp)
    obtain ⟨task,ht⟩:=mem_iff_getElem?.mp hphase
    obtain ⟨maps,-,hs⟩:=h.handed.standsFor_result ht (result_of_summand hsum)
    exact ⟨_,hs⟩
  obtain ⟨parts,hparts⟩:=exists_forall₂ hparts
  have hparts:=hparts
  obtain ⟨r,hr,hs⟩:=foldlM_combine (fun _ _ _ _ => StandsFor.addMaps) hparts
    (standsFor_initializeVectorMap specs)
  cases hf.symm.trans hr
  exact ⟨_,hs⟩

/-- Only the checks on a response and a result that is taken too early can end the process. -/
theorem Kept.step_eq_error (h : Kept specs s) {fault : Fault}
    (hs : MaskedInputCollection.step specs s event=.error fault) :
    (∃ vecs,event=.handleResponse vecs ∧ checkMaskedResponse specs vecs=.error fault) ∨
    (event=.accumulator .getResultAndCancel ∧ s.maskedInputAccumulator.isIdle=false) := by
  cases event with
  | handleResponse vecs =>
    refine Or.inl ⟨vecs,rfl,?_⟩
    rw [MaskedInputCollection.step] at hs
    cases ho : checkMaskedResponse specs vecs with
    | error e =>
      rw [ho] at hs
      cases hs
      rfl
    | ok outcome =>
      rw [ho,ok_bind] at hs
      cases outcome <;> cases hs
  | schedule | takeMaskedInputQueue _ => cases hs
  | addReduce task =>
    rw [MaskedInputCollection.step,MaskedInputCollection.addReduce] at hs
    split at hs
    next hl =>
      obtain ⟨r,hr,-⟩:=h.handed.addReduce_ok hl
      rw [hr] at hs
      cases hs
    · cases hs
  | accumulator event =>
    right
    rw [MaskedInputCollection.step] at hs
    unfold MaskedInputCollection.accumulatorStep at hs
    split at hs
    · cases hs
    · cases hs
    · cases hstep : SecAggScheduler.step SecAggUnpackedVectorMap.addMaps
          s.maskedInputAccumulator event with
      | ok a =>
        rw [hstep] at hs
        cases hs
      | error e =>
        obtain ⟨rfl,hi⟩ | ⟨rfl,task,v,p,hphase,hv,hfun⟩ :=
          SecAggScheduler.step_eq_error h.counted h.sequenced h.folded hstep
        · exact ⟨rfl,hi⟩
        · obtain ⟨f,hf⟩:=h.standsFor_value hv
          obtain ⟨maps,-,hp⟩:=h.handed.standsFor_result hphase rfl
          obtain ⟨r,hr,-⟩:=hf.addMaps hp
          rw [hr] at hfun
          cases hfun

theorem map_snd_eq {l : List (ℕ × List β)} (h : (l.map Prod.fst).Nodup) :
    l.map Prod.snd=(l.map Prod.fst).map fun k => (l.lookup k).getD [] := by
  induction l with
  | nil => rfl
  | cons entry l ih =>
    rw [map_cons,nodup_cons] at h
    rw [map_cons,map_cons,map_cons,ih h.2]
    refine congrArg₂ List.cons ?_ (map_congr_left fun k hk => ?_)
    · rw [lookup_cons_self]
      rfl
    · have hne : k≠entry.1 := fun heq => h.1 (heq ▸ hk)
      rw [lookup_cons,beq_false_of_ne hne]

/-- Once all tasks are done and no call is about to schedule one, every task has its batch and
nothing is left in the queue. -/
theorem Handed.perm_batches (h : Handed specs s)
    (ha : ∀ k<s.maskedInputAccumulator.tasks.length,∃ maps,s.taken.lookup k=some maps)
    (hs : s.scheduling=0) :
    s.maskedInputQueue=[] ∧
    ((List.range s.maskedInputAccumulator.tasks.length).map
      fun k => (s.taken.lookup k).getD []).Perm (s.taken.map Prod.snd) := by
  have hkeys : (List.range s.maskedInputAccumulator.tasks.length).Perm (s.taken.map Prod.fst) := by
    rw [perm_ext_iff_of_nodup nodup_range h.keys]
    intro k
    rw [mem_range]
    constructor
    · intro hk
      obtain ⟨maps,hm⟩:=ha k hk
      exact mem_map.mpr ⟨_,mem_of_lookup hm,rfl⟩
    · intro hk
      obtain ⟨entry,he,rfl⟩:=mem_map.mp hk
      exact h.bound entry he
  have hl:=hkeys.length_eq
  have hc:=h.count
  rw [length_range,length_map] at hl
  refine ⟨?_,?_⟩
  · rw [hs,hl] at hc
    by_contra hne
    rw [if_neg (by simpa using hne)] at hc
    omega
  · rw [map_snd_eq h.keys]
    exact hkeys.map _

theorem Kept.standsFor_idle (h : Kept specs s) (hi : s.maskedInputAccumulator.isIdle=true)
    (hscheduling : s.scheduling=0) (hv : s.maskedInputAccumulator.accumulatedValue=some v) :
    s.maskedInputQueue=[] ∧ StandsFor specs (totalOf (s.accepted.map Prod.snd)) v := by
  obtain ⟨rs,order,ht,hperm,hf⟩:=h.folded.exists_order h.counted hi hv
  have hl : s.maskedInputAccumulator.tasks.length=rs.length := by rw [ht,length_map]
  have hresult : ∀ k p,rs[k]?=some p →
      ∃ maps,s.taken.lookup k=some maps ∧ StandsFor specs (totalOf maps) p := by
    intro k p hp
    have hphase : s.maskedInputAccumulator.tasks[k]?=some (.finished p) := by
      rw [ht,getElem?_map,hp]
      rfl
    exact h.handed.standsFor_result hphase rfl
  have ha : ∀ k<s.maskedInputAccumulator.tasks.length,∃ maps,s.taken.lookup k=some maps := by
    intro k hk
    rw [hl] at hk
    obtain ⟨maps,hm,-⟩:=hresult k _ (getElem?_eq_getElem hk)
    exact ⟨maps,hm⟩
  obtain ⟨hq,hb⟩:=h.handed.perm_batches ha hscheduling
  refine ⟨hq,?_⟩
  have hparts : List.Forall₂ (fun p maps => StandsFor specs (totalOf maps) p) rs
      ((List.range s.maskedInputAccumulator.tasks.length).map
        fun k => (s.taken.lookup k).getD []) := by
    rw [forall₂_iff_get]
    refine ⟨by simp [hl],fun k hk hk' => ?_⟩
    obtain ⟨maps,hm,hs⟩:=hresult k _ (getElem?_eq_getElem hk)
    simpa [hm] using hs
  -- the batches in the order in which the tasks were accumulated
  obtain ⟨gens,hgens,hg⟩:=perm_comp_forall₂ hperm hparts
  obtain ⟨r,hr,hs⟩:=foldlM_combine (fun _ _ _ _ => StandsFor.addMaps) hgens
    (standsFor_initializeVectorMap specs)
  cases hf.symm.trans hr
  have htotal : (fun spec i => 0+(gens.map fun maps => totalOf maps spec i).sum) =
      totalOf (s.accepted.map Prod.snd) := by
    funext spec i
    rw [zero_add,((hg.trans hb).map _).sum_eq,sum_totalOf,h.handed.accepted,hq,append_nil]
  rw [htotal] at hs
  exact hs

variable {hist : List (MaskedInputCollection × Event)}

def acceptedResponse (specs : List InputVectorSpecification) :
    Event → Option (NameMap Bytes × SecAggVectorMap)
  | .handleResponse vectors =>
    match checkMaskedResponse specs vectors with
    | .ok (.ok checked) => some (vectors,checked)
    | _ => none
  | _ => none

def acceptedOf (specs : List InputVectorSpecification)
    (history : List (MaskedInputCollection × Event)) : List (NameMap Bytes × SecAggVectorMap) :=
  history.filterMap fun entry => acceptedResponse specs entry.2

theorem accepted_step (hs : step specs s event=.ok s') :
    s'.accepted=s.accepted++(acceptedResponse specs event).toList := by
  cases event with
  | handleResponse vecs =>
    rw [step,bind_eq_ok] at hs
    obtain ⟨outcome,ho,hs⟩:=hs
    rw [acceptedResponse,ho]
    cases outcome with
    | error st =>
      cases hs
      exact (append_nil _).symm
    | ok checked =>
      cases hs
      rfl
  | schedule =>
    cases hs
    unfold schedule
    split <;> exact (append_nil _).symm
  | takeMaskedInputQueue task =>
    cases hs
    unfold takeMaskedInputQueue
    split <;> exact (append_nil _).symm
  | addReduce task =>
    obtain rfl | ⟨maps,p,a,-,-,-,rfl⟩:=move_addReduce hs <;> exact (append_nil _).symm
  | accumulator event =>
    obtain rfl | ⟨a,-,-,-,rfl⟩:=move_accumulatorStep hs <;> exact (append_nil _).symm

theorem accumulatedValue_step (hs : step specs s event=.ok s')
    (he : event≠.accumulator .getResultAndCancel)
    (hv : s.maskedInputAccumulator.accumulatedValue≠none) :
    s'.maskedInputAccumulator.accumulatedValue≠none := by
  cases event with
  | handleResponse vecs =>
    rw [step,bind_eq_ok] at hs
    obtain ⟨outcome,-,hs⟩:=hs
    cases outcome <;> cases hs <;> exact hv
  | schedule =>
    cases hs
    unfold schedule
    split <;> exact hv
  | takeMaskedInputQueue task =>
    cases hs
    unfold takeMaskedInputQueue
    split <;> exact hv
  | addReduce task =>
    obtain rfl | ⟨maps,p,a,-,-,hm,rfl⟩:=move_addReduce hs
    · exact hv
    · exact accumulatedValue_move hm nofun hv
  | accumulator event =>
    obtain rfl | ⟨a,hm,-,-,rfl⟩:=move_accumulatorStep hs
    · exact hv
    · refine accumulatedValue_move hm (fun heq => he ?_) hv
      rw [heq]

structure SumsOnce (specs : List InputVectorSpecification)
    (history : List (MaskedInputCollection × Event)) (s : MaskedInputCollection) : Prop where
  /-- `AddReduce` is not called with an empty queue. -/
  nonempty {task : ℕ} {maps : List SecAggVectorMap} : s.taken.lookup task=some maps → maps≠[]
  /-- Apart from the checks of a response, nothing but a result taken too early can fail. -/
  faults {event : Event} {fault : Fault} : step specs s event=.error fault →
    (∃ vectors,event=.handleResponse vectors ∧ checkMaskedResponse specs vectors=.error fault) ∨
    (event=.accumulator .getResultAndCancel ∧ s.maskedInputAccumulator.isIdle=false)
  once : (acceptedOf specs history).map Prod.snd =
    (s.taken.map Prod.snd).flatten++s.maskedInputQueue ∧ (s.taken.map Prod.fst).Nodup
  /-- An idle accumulator has what the sequential mode has, whatever the order in which it would
  have handled the accepted responses. -/
  idle : s.maskedInputAccumulator.isIdle=true → s.scheduling=0 →
    (∀ entry∈history,entry.2≠.accumulator .getResultAndCancel) →
    s.maskedInputQueue=[] ∧
    ∃ v,s.maskedInputAccumulator.accumulatedValue=some v ∧
      s.finalizeMaskedInputCollection=.ok (some v) ∧
      ∀ (G : SharingGraph) (env : ServerEnv G) (m : ProtocolImpl G) (order : List (NameMap Bytes)),
        env.asyncRound2=false → env.inputVectorSpecs=specs →
        order.Perm ((acceptedOf specs history).map Prod.fst) →
        ∃ m' v',(m.setupMaskedInputCollection env).handleMaskedInputCollectionResponses env order =
            .ok (.ok m') ∧
          m'.finalizeMaskedInputCollection env=.ok m' ∧ m'.maskedInput=some v' ∧
          ∀ name,v'.lookup name=v.lookup name

theorem Kept.finalize (h : Kept specs s) (hi : s.maskedInputAccumulator.isIdle=true) :
    s.finalizeMaskedInputCollection=.ok s.maskedInputAccumulator.accumulatedValue := by
  have ha:=h.counted.inactive (of_decide_eq_true hi)
  rw [finalizeMaskedInputCollection,hi,SecAggScheduler.Accumulator.getResultAndCancel,
    decide_eq_true ha]
  rfl

theorem Kept.same_sum (h : Kept specs s) (hidle : s.maskedInputAccumulator.isIdle=true)
    (hscheduling : s.scheduling=0) (hv : s.maskedInputAccumulator.accumulatedValue=some v)
    {G : SharingGraph} {env : ServerEnv G} (m : ProtocolImpl G) (hm : env.asyncRound2=false)
    (hspecs : env.inputVectorSpecs=specs) {order : List (NameMap Bytes)}
    (ho : order.Perm (s.accepted.map Prod.fst)) :
    ∃ m' v',(m.setupMaskedInputCollection env).handleMaskedInputCollectionResponses env order =
        .ok (.ok m') ∧
      m'.finalizeMaskedInputCollection env=.ok m' ∧ m'.maskedInput=some v' ∧
      ∀ name,v'.lookup name=v.lookup name := by
  subst hspecs
  -- the same order for the responses with what was checked of them
  have hpair : List.Forall₂ (fun vecs entry => vecs=Prod.fst entry)
      (s.accepted.map Prod.fst) s.accepted := by
    rw [forall₂_map_left_iff,forall₂_same]
    exact fun _ _ => rfl
  obtain ⟨pairs,hpairsOrder,hp⟩:=perm_comp_forall₂ ho hpair
  have hf : order=pairs.map Prod.fst := by
    rw [← forall₂_eq_eq_eq,forall₂_map_right_iff]
    exact hpairsOrder
  have hc : ∀ entry∈pairs,checkMaskedResponse env.inputVectorSpecs entry.1=.ok (.ok entry.2) :=
    fun entry he => h.handed.checked entry (hp.mem_iff.mp he)
  have hset : m.setupMaskedInputCollection env={ m with
      maskedInput := some (ProtocolImpl.initializeVectorMap env.inputVectorSpecs) } := by
    rw [ProtocolImpl.setupMaskedInputCollection,hm]
    rfl
  obtain ⟨r,hr,hs⟩:=ProtocolImpl.handleMaskedInputCollectionResponses_eq hm hc
    (m := m.setupMaskedInputCollection env) (by rw [hset])
    (standsFor_initializeVectorMap env.inputVectorSpecs)
  obtain ⟨-,hi⟩:=h.standsFor_idle hidle hscheduling hv
  have ht : (fun spec i => 0+totalOf (pairs.map Prod.snd) spec i) =
      totalOf (s.accepted.map Prod.snd) := by
    funext spec i
    rw [zero_add,totalOf_perm (hp.map Prod.snd)]
  rw [ht] at hs
  rw [hf]
  refine ⟨_,r,hr,?_,rfl,fun name => hs.lookup_eq hi name⟩
  rw [ProtocolImpl.finalizeMaskedInputCollection,hm]
  rfl

/-- Asynchronous round 2 sums every accepted input exactly once. -/
theorem sums_once (hrun : Run (step specs) (setup specs) hist s) : SumsOnce specs hist s := by
  have hinv : Kept specs s ∧ s.accepted=acceptedOf specs hist ∧
      ((∀ entry∈hist,entry.2≠.accumulator .getResultAndCancel) →
        s.maskedInputAccumulator.accumulatedValue≠none) := by
    refine hrun.invariant (G := fun _ _ => True) (P := fun hist s => Kept specs s ∧
      s.accepted=acceptedOf specs hist ∧
      ((∀ entry∈hist,entry.2≠.accumulator .getResultAndCancel) →
        s.maskedInputAccumulator.accumulatedValue≠none)) (fun _ _ => trivial) ?_ ?_
    · exact ⟨kept_setup specs,rfl,fun _ => Option.some_ne_none _⟩
    · rintro hist s s' event ⟨hk,ha,hvalue⟩-hs
      refine ⟨hk.step hs,?_,fun he => ?_⟩
      · rw [accepted_step hs,ha,acceptedOf,acceptedOf,filterMap_append]
        cases hr : acceptedResponse specs event <;> simp [hr]
      · apply accumulatedValue_step hs
        · exact he _ (mem_append_right _ (mem_singleton_self _))
        · exact hvalue fun entry hentry => he entry (mem_append_left _ hentry)
  obtain ⟨hk,ha,hvalue⟩:=hinv
  constructor
  case nonempty => exact fun hm => hk.handed.nonempty _ (mem_of_lookup hm)
  case faults => exact hk.step_eq_error
  case once =>
    rw [← ha]
    exact ⟨hk.handed.accepted,hk.handed.keys⟩
  case idle =>
    intro hi hscheduling he
    obtain ⟨v,hv⟩:=Option.ne_none_iff_exists'.mp (hvalue he)
    refine ⟨(hk.standsFor_idle hi hscheduling hv).1,v,hv,?_,fun G env m order hmode hspecs ho => ?_⟩
    · rw [hk.finalize hi,hv]
    · rw [← ha] at ho
      exact hk.same_sum hi hscheduling hv m hmode hspecs ho

theorem nibbles_length : 2<2^31 := by decide

theorem nibbles_modulus : 1<16 ∧ 16≤SecAggVector.kMaxModulus := by decide

def nibbles : List InputVectorSpecification := [⟨"a",2,16,nibbles_length,nibbles_modulus⟩]

theorem sums_once_three : ∃ hist s,Run (step nibbles) (setup nibbles) hist s ∧
      (s.taken.map (fun e => e.2.length)=[2,1] ∧
        s.maskedInputAccumulator.isIdle=true ∧ s.scheduling=0 ∧
        s.maskedInputAccumulator.accumulatedValue.bind (AList.lookup "a")=some ⟨[5,3],16⟩) ∧
      SumsOnce nibbles hist s := by
  let response (b : UInt8) : Event := .handleResponse (NameMap.ofEntries [("a",[b])])
  obtain ⟨hist,s,hr,ht⟩:=exists_run (step nibbles) (setup nibbles)
    [response 0x21,response 0xF3,.schedule,.accumulator (.startTask 0),
      .takeMaskedInputQueue 0,response 0x21,.addReduce 0,.schedule,
      .accumulator (.startTask 1),.accumulator (.decrementActiveCount 0),
      .takeMaskedInputQueue 1,.accumulator (.testCancelled 0),.addReduce 1,
      .accumulator (.runSequential 0),.accumulator (.decrementActiveCount 1),
      .accumulator (.testCancelled 1),.accumulator (.runSequential 1),
      .accumulator (.startSequential 1),.accumulator .startAccumulation,
      .accumulator .accumulate,.accumulator .updateCountsAndGetCallback,
      .accumulator (.startSequential 0),.accumulator .startAccumulation,
      .accumulator .accumulate,.accumulator .updateCountsAndGetCallback]
    (P := fun s => s.taken.map (fun e => e.2.length)=[2,1] ∧
      s.maskedInputAccumulator.isIdle=true ∧ s.scheduling=0 ∧
      s.maskedInputAccumulator.accumulatedValue.bind (AList.lookup "a")=some ⟨[5,3],16⟩)
    (by decide +kernel)
  exact ⟨hist,s,hr,ht,sums_once hr⟩

end MaskedInputCollection

end Fcp.SecAgg

import Fcp.SecAgg.Server.SecAggScheduler
import Fcp.SecAgg.Server.ProtocolImpl
import Fcp.SecAgg.Shared.VectorMaps

/-!
# Asynchronous round 2 (server/aes/aes_secagg_server_protocol_impl.cc)

A response is pushed to a queue under `mutex_`, and the call that found the queue empty schedules a
task after it has released the mutex. The task takes the whole queue and reduces it to one map.
-/

namespace Fcp.SecAgg

open List ProtocolImpl

/-- The checks of `HandleMaskedInputCollectionResponse`, which look at the response only. -/
def checkMaskedResponse (specs : List InputVectorSpecification) (vectors : NameMap Bytes) :
    Checked (StatusOr SecAggVectorMap) :=
  if vectors.items.length≠specs.length then
    .ok (.error ⟨.invalidArgument,"Masked input does not match input vector specification - " ++
      "wrong number of vectors."⟩)
  else checkMaskedVectors vectors specs ∅

structure MaskedInputCollection where
  maskedInputQueue : List SecAggVectorMap
  scheduling : ℕ
  maskedInputAccumulator : SecAggScheduler.Accumulator SecAggUnpackedVectorMap
  taken : List (ℕ × List SecAggVectorMap)
  accepted : List (NameMap Bytes × SecAggVectorMap)

namespace MaskedInputCollection

inductive Event where
  | handleResponse (vectors : NameMap Bytes)
  | schedule
  | takeMaskedInputQueue (task : ℕ)
  | addReduce (task : ℕ)
  | accumulator (event : SecAggScheduler.Event SecAggUnpackedVectorMap)

def setup (specs : List InputVectorSpecification) : MaskedInputCollection where
  maskedInputQueue := []
  scheduling := 0
  maskedInputAccumulator := .create (initializeVectorMap specs)
  taken := []
  accepted := []

variable (s : MaskedInputCollection)

def push (vectors : NameMap Bytes) (checked : SecAggVectorMap) : MaskedInputCollection :=
  let isQueueEmpty := s.maskedInputQueue.isEmpty
  { s with
    maskedInputQueue := s.maskedInputQueue++[checked]
    scheduling := if isQueueEmpty then s.scheduling+1 else s.scheduling
    accepted := s.accepted++[(vectors,checked)] }

def schedule (s : MaskedInputCollection) : MaskedInputCollection :=
  match s.scheduling with
  | 0 => s
  | n+1 =>
    { s with
      scheduling := n
      maskedInputAccumulator := s.maskedInputAccumulator.schedule false }

def takeMaskedInputQueue (task : ℕ) : MaskedInputCollection :=
  match s.maskedInputAccumulator.tasks[task]?, s.taken.lookup task with
  | some .generating, none =>
    { s with
      taken := s.taken++[(task,s.maskedInputQueue)]
      maskedInputQueue := [] }
  | _, _ => s

def addReduce (s : MaskedInputCollection) (task : ℕ) : Checked MaskedInputCollection :=
  match s.maskedInputAccumulator.tasks[task]?, s.taken.lookup task with
  | some .generating, some queue => do
    let partialSum ← ProtocolImpl.addReduce queue
    return { s with maskedInputAccumulator := s.maskedInputAccumulator.generate task partialSum }
  | _, _ => .ok s

/-- Tasks are scheduled and generators return by the events above only. -/
def accumulatorStep
    (event : SecAggScheduler.Event SecAggUnpackedVectorMap) : Checked MaskedInputCollection :=
  match event with
  | .schedule _ | .generate _ _ => .ok s
  | event => do
    let a ← SecAggScheduler.step SecAggUnpackedVectorMap.addMaps s.maskedInputAccumulator event
    return { s with maskedInputAccumulator := a }

def step (specs : List InputVectorSpecification) (s : MaskedInputCollection) :
    Event → Checked MaskedInputCollection
  | .handleResponse vectors => do
    match ← checkMaskedResponse specs vectors with
    | .error _ => return s
    | .ok checked => return s.push vectors checked
  | .schedule => .ok s.schedule
  | .takeMaskedInputQueue task => .ok (s.takeMaskedInputQueue task)
  | .addReduce task => s.addReduce task
  | .accumulator event => s.accumulatorStep event

def finalizeMaskedInputCollection : Checked (Option SecAggUnpackedVectorMap) := do
  fcpCheck s.maskedInputAccumulator.isIdle
  return (← s.maskedInputAccumulator.getResultAndCancel).1

end MaskedInputCollection

namespace ProtocolImpl
variable {G : SharingGraph}

def handleMaskedInputCollectionResponses (env : ServerEnv G) (m : ProtocolImpl G) :
    List (NameMap Bytes) → Checked (StatusOr (ProtocolImpl G))
  | [] => .ok (.ok m)
  | vectors::rest => do
    match ← m.handleMaskedInputCollectionResponse env vectors with
    | .error status => return .error status
    | .ok m => handleMaskedInputCollectionResponses env m rest

theorem handleMaskedInputCollectionResponse_sequential {env : ServerEnv G} {m : ProtocolImpl G}
    {vecs : NameMap Bytes} {checked : SecAggVectorMap} {sum next : SecAggUnpackedVectorMap}
    (hm : env.asyncRound2=false)
    (hc : checkMaskedResponse env.inputVectorSpecs vecs=.ok (.ok checked))
    (hsum : m.maskedInput=some sum) (hn : sum.add checked=.ok next) :
    m.handleMaskedInputCollectionResponse env vecs =
      .ok (.ok { m with maskedInput := some next }) := by
  unfold checkMaskedResponse at hc
  split at hc
  · cases hc
  next hs =>
    unfold handleMaskedInputCollectionResponse
    rw [if_neg hs,hc,ok_bind]
    dsimp only
    rw [if_neg (by rw [hm]; exact Bool.false_ne_true),hsum]
    dsimp only
    rw [hn]
    rfl

end ProtocolImpl

variable {specs : List InputVectorSpecification}

open ProtocolImpl (checkMaskedVector checkMaskedVectors)

variable {vecs : NameMap Bytes}

theorem checkMaskedVector_eq_ok {spec : InputVectorSpecification} {v : SecAggVector}
    (h : checkMaskedVector vecs spec=.ok (.ok v)) :
    v.modulus=spec.modulus ∧ v.numElements=spec.length := by
  unfold checkMaskedVector at h
  split at h
  · cases h
  next encoded _ =>
    rw [bind_eq_ok] at h
    obtain ⟨numBits,-,h⟩:=h
    split at h
    · cases h
    · rw [bind_eq_ok] at h
      obtain ⟨v',hv,h⟩:=h
      cases h
      unfold SecAggVector.ofPackedBytes at hv
      split at hv
      · split at hv
        · cases hv
          exact ⟨rfl,rfl⟩
        · cases hv
      · cases hv

theorem checkMaskedVectors_eq_ok {checked r : SecAggVectorMap}
    (h : checkMaskedVectors vecs specs checked=.ok (.ok r)) (name : String) :
    (∀ v,checked.lookup name=some v → r.lookup name=some v) ∧
    (checked.lookup name=none →
      Option.Rel (fun spec v => v.modulus=spec.modulus ∧ v.numElements=spec.length)
        (specs.find? fun spec => spec.name=name) (r.lookup name)) := by
  induction specs generalizing vecs checked with
  | nil =>
    cases h
    refine ⟨fun v hv => hv,fun hnone => ?_⟩
    rw [hnone]
    exact .none
  | cons spec specs ih =>
    rw [checkMaskedVectors,bind_eq_ok] at h
    obtain ⟨outcome,hv,h⟩:=h
    cases outcome with
    | error st => cases h
    | ok v =>
      obtain ⟨hk,hr⟩:=ih h
      have hl:=NameMap.lookup_emplace checked spec.name v name
      refine ⟨fun w hw => hk w ?_,fun hnone => ?_⟩
      · rw [hl,hw,Option.some_or]
      · rw [hnone,Option.none_or] at hl
        rw [find?_cons]
        by_cases hn : spec.name=name
        · rw [if_pos hn.symm] at hl
          rw [hk v hl,decide_eq_true hn]
          exact .some (checkMaskedVector_eq_ok hv)
        · rw [if_neg (Ne.symm hn)] at hl
          rw [decide_eq_false hn]
          exact hr hl

theorem packedFor_of_checkMaskedResponse {checked : SecAggVectorMap}
    (h : checkMaskedResponse specs vecs=.ok (.ok checked)) :
    PackedFor specs (valuesOf checked) checked := by
  unfold checkMaskedResponse at h
  split at h
  · cases h
  · exact packedFor_valuesOf fun name => (checkMaskedVectors_eq_ok h name).2 rfl

def totalOf (maps : List SecAggVectorMap) (spec : InputVectorSpecification) (i : ℕ) : ℤ :=
  (maps.map fun m => valuesOf m spec i).sum

variable {maps : List SecAggVectorMap} {f : InputVectorSpecification → ℕ → ℤ}

theorem foldlM_add {a : SecAggUnpackedVectorMap} (ha : StandsFor specs f a)
    (h : ∀ m∈maps,PackedFor specs (valuesOf m) m) :
    ∃ r,maps.foldlM SecAggUnpackedVectorMap.add a=.ok r ∧
      StandsFor specs (fun spec i => f spec i+totalOf maps spec i) r :=
  foldlM_combine (fun _ _ _ _ => StandsFor.add) (forall₂_same.mpr h) ha

theorem lookup_unpackMap (m : SecAggVectorMap) (name : String) :
    (unpackMap m).lookup name=(m.lookup name).map SecAggVector.unpack := by
  rw [unpackMap,NameMap.lookup_ofEntries,find?_map,← NameMap.find?_items,
    Option.map_map,Option.map_map]
  rfl

theorem PackedFor.unpackMap {m : SecAggVectorMap} (h : PackedFor specs f m) :
    StandsFor specs f (unpackMap m) := by
  intro name
  rw [lookup_unpackMap]
  have hr:=h name
  generalize specs.find? (fun spec => spec.name=name)=found at hr ⊢
  generalize m.lookup name=v at hr ⊢
  cases hr with
  | none => exact .none
  | some hv => exact .some hv

theorem addReduce_eq (hne : maps≠[]) (h : ∀ m∈maps,PackedFor specs (valuesOf m) m) :
    ∃ r,addReduce maps=.ok r ∧ StandsFor specs (totalOf maps) r := by
  cases maps with
  | nil => exact absurd rfl hne
  | cons first rest =>
    have hf:=(h first mem_cons_self).unpackMap
    exact foldlM_add hf fun m hm => h m (mem_cons_of_mem _ hm)

theorem standsFor_initializeVectorMap (specs : List InputVectorSpecification) :
    StandsFor specs (fun _ _ => 0) (initializeVectorMap specs) := by
  intro name
  apply NameMap.rel_lookup_ofEntries
  rw [forall₂_map_right_iff,forall₂_same]
  intro spec _
  exact ⟨rfl,by rw [vectorOf,residues_zero]⟩

theorem totalOf_perm {maps' : List SecAggVectorMap} (h : maps.Perm maps') :
    totalOf maps=totalOf maps' := by
  funext spec i
  exact (h.map _).sum_eq

theorem sum_totalOf (batches : List (List SecAggVectorMap)) (spec : InputVectorSpecification)
    (i : ℕ) :
    (batches.map fun maps => totalOf maps spec i).sum=totalOf batches.flatten spec i := by
  rw [totalOf,map_flatten,sum_flatten,map_map]
  rfl

theorem ProtocolImpl.handleMaskedInputCollectionResponses_eq {G : SharingGraph} {env : ServerEnv G}
    (hm : env.asyncRound2=false) {order : List (NameMap Bytes × SecAggVectorMap)}
    (hc : ∀ entry∈order,checkMaskedResponse env.inputVectorSpecs entry.1 =
      .ok (.ok entry.2)) {m : ProtocolImpl G} {sum : SecAggUnpackedVectorMap}
    (hsum : m.maskedInput=some sum) (hs : StandsFor env.inputVectorSpecs f sum) :
    ∃ r,m.handleMaskedInputCollectionResponses env (order.map Prod.fst) =
        .ok (.ok { m with maskedInput := some r }) ∧
      StandsFor env.inputVectorSpecs
        (fun spec i => f spec i+totalOf (order.map Prod.snd) spec i) r := by
  induction order generalizing m sum f with
  | nil =>
    refine ⟨sum,?_,by simpa [totalOf] using hs⟩
    rw [← hsum]
    rfl
  | cons entry order ih =>
    have hentry:=hc entry mem_cons_self
    obtain ⟨next,hnext,hn⟩:=hs.add (packedFor_of_checkMaskedResponse hentry)
    obtain ⟨r,hr,hrStands⟩:=ih (m := { m with maskedInput := some next })
      (fun e he => hc e (mem_cons_of_mem _ he)) rfl hn
    refine ⟨r,?_,?_⟩
    · rw [map_cons,handleMaskedInputCollectionResponses,
        handleMaskedInputCollectionResponse_sequential hm hentry hsum hnext,ok_bind]
      exact hr
    · simpa [totalOf,add_assoc] using hrStands

end Fcp.SecAgg

import Fcp.SecAgg.Client.Disclosure

/-!
# The number of neighbors that are alive

A client counts a `uint32_t` down by hand in the loops of three rounds, beside the list of its
neighbors' states. The number is the one of the entries that are alive.
-/

namespace Fcp.SecAgg

open List

variable {count : ℕ}

theorem decrement_eq (hp : 0<count) (hlt : count<2^32) : decrement count=count-1 := by
  have hs : count+(2^32-1)=count-1+2^32 := by omega
  rw [decrement,hs,u32,Nat.add_mod_right,Nat.mod_eq_of_lt (by omega)]

variable {α : Type} {test : α → Bool} {l : List α} {k clientId : ℕ}
  {states' : List OtherClientState} {s : ClientState} {ins : Option SecAggVectorMap}

theorem countDown_eq (hlt : count<2^32)
    (hle : l.countP test≤count) : countDown test count l=count-l.countP test := by
  induction l generalizing count with
  | nil => rfl
  | cons a l ih =>
    rw [countP_cons] at hle ⊢
    show countDown test (if test a then decrement count else count) l=_
    by_cases ha : test a=true
    · rw [if_pos ha] at hle ⊢
      rw [if_pos ha,decrement_eq (by omega) hlt,ih (by omega) (by omega)]
      omega
    · rw [if_neg ha] at hle ⊢
      rw [if_neg ha]
      exact ih hlt hle

/-- A loop that counts down ends at the number of neighbors that are alive, and is never at zero
when it counts down. -/
structure CountsTo {α : Type} (test : α → Bool) (count : ℕ) (l : List α)
    (states : List OtherClientState) : Prop where
  exact : countDown test count l=states.count .alive
  positive : ∀ before a after,l=before++a::after → test a=true → 0<countDown test count before

variable {states : List OtherClientState}

theorem countsTo_of_add (hlt : count<2^32)
    (hs : states.count .alive+l.countP test=count) : CountsTo test count l states := by
  refine ⟨?_,fun before a after hl ha => ?_⟩
  · rw [countDown_eq hlt (by omega)]
    omega
  · have hc : l.countP test=before.countP test+(after.countP test+1) := by
      rw [hl,countP_append,countP_cons,if_pos ha]
    rw [countDown_eq hlt (by omega)]
    omega

theorem stateAfterRound1_eq (keys : PairOfPublicKeys) :
    stateAfterRound1 keys=.alive ∨ stateAfterRound1 keys=.deadAtRound1 := by
  unfold stateAfterRound1
  split
  · exact .inr rfl
  · exact .inl rfl

theorem count_add_deadAtRound1 {nbs : List NeighborKeys}
    (h : ∀ nb∈nbs,nb.state=.alive ∨ nb.state=.deadAtRound1) :
    (nbs.map NeighborKeys.state).count .alive +
      nbs.countP (fun nb => nb.state=.deadAtRound1)=nbs.length := by
  induction nbs with
  | nil => rfl
  | cons nb nbs ih =>
    have hr:=ih fun other ho => h other (mem_cons_of_mem _ ho)
    rw [map_cons,count_cons,countP_cons,length_cons]
    obtain hs | hs:=h nb mem_cons_self <;> simp [hs] <;> omega

variable {env : ClientEnv}

theorem readPublicKeys_countsTo {done : List PairOfPublicKeys} (rest : List PairOfPublicKeys)
    {nbs : List NeighborKeys} (hsize : (done++rest).length≤env.maxNeighborsExpected)
    (hk : List.Forall₂ (fun keys nb =>
      readPublicKeys env keys=.ok nb) done nbs) :
    CountsTo (fun nb : NeighborKeys => nb.state=.deadAtRound1) (done++rest).length
      nbs (nbs.map NeighborKeys.state++List.replicate rest.length .alive) := by
  have hmax:=env.maxNeighborsExpected_lt
  have hs : ∀ nb∈nbs,nb.state=.alive ∨ nb.state=.deadAtRound1 := by
    intro nb hm
    obtain ⟨i,hi⟩:=mem_iff_getElem?.mp hm
    obtain ⟨keys,-,hr⟩:=forall₂_getElem_right hk hi
    rw [(readPublicKeys_state hr).1]
    exact stateAfterRound1_eq keys
  have hc:=count_add_deadAtRound1 hs
  have hl:=hk.length_eq
  apply countsTo_of_add (by omega)
  rw [count_append,count_replicate_self,length_append]
  omega

variable {nbs : List NeighborShares}

theorem count_add_deadAtRound2 (hs : ∀ state∈states,state=.alive ∨ state=.deadAtRound1)
    (h : List.Forall₂ (fun state nb => ∃ isSelf encrypted,
      NeighborShares.state nb=stateAfterRound2 isSelf state encrypted) states nbs) :
    (nbs.map NeighborShares.state).count .alive +
      nbs.countP (fun nb => nb.state=.deadAtRound2)=states.count .alive := by
  induction h with
  | nil => rfl
  | @cons state nb states nbs hstates _ ih =>
    have hr:=ih fun other ho => hs other (mem_cons_of_mem _ ho)
    obtain ⟨isSelf,encrypted,hn⟩:=hstates
    rw [map_cons,count_cons,countP_cons,count_cons,hn,stateAfterRound2]
    obtain rfl | rfl:=hs state mem_cons_self
    · split <;> simp <;> omega
    · simp
      omega

variable {keys : KeysReceived} {enc : List Bytes}

theorem forall₂_readKeyShares
    (h : List.Forall₂ (fun i nb => readKeyShares env keys enc i=.ok nb) (List.range k) nbs) :
    List.Forall₂ (fun state nb => ∃ isSelf encrypted,
      NeighborShares.state nb=stateAfterRound2 isSelf state encrypted)
      (keys.otherClientStates.take k) nbs := by
  have hl : nbs.length=k := by rw [← h.length_eq,length_range]
  have hr : ∀ i (hi : i<nbs.length),∃ state encrypted,keys.otherClientStates[i]?=some state ∧
      nbs[i].state=stateAfterRound2 (decide (i=keys.clientId)) state encrypted := by
    intro i hi
    obtain ⟨state,encrypted,hs,-,hn⟩ :=
      readKeyShares_state (forall₂_range h (getElem?_eq_getElem hi))
    exact ⟨state,encrypted,hs,hn⟩
  have ht : (keys.otherClientStates.take k).length=nbs.length := by
    rw [length_take,hl]
    apply Nat.min_eq_left
    by_contra hlt
    obtain ⟨state,-,hs,-⟩:=hr keys.otherClientStates.length (by omega)
    rw [getElem?_eq_none (Nat.le_refl _)] at hs
    cases hs
  refine forall₂_iff_get.mpr ⟨ht,fun i hi hi' => ?_⟩
  obtain ⟨state,encrypted,hs,hn⟩:=hr i hi'
  refine ⟨decide (i=keys.clientId),encrypted,?_⟩
  rw [get_eq_getElem,get_eq_getElem,hn,getElem_take,(List.getElem?_eq_some_iff.mp hs).2]

theorem readKeyShares_countsTo
    (hc : keys.numberOfAliveNeighbors=keys.otherClientStates.count .alive)
    (hlt : keys.otherClientStates.length<2^32)
    (hs : ∀ state∈keys.otherClientStates,state=.alive ∨ state=.deadAtRound1)
    (h : List.Forall₂ (fun i nb => readKeyShares env keys enc i=.ok nb) (List.range k) nbs) :
    CountsTo (fun nb : NeighborShares => nb.state=.deadAtRound2)
      keys.numberOfAliveNeighbors nbs
      (nbs.map NeighborShares.state++keys.otherClientStates.drop k) := by
  have hle : keys.otherClientStates.count .alive≤keys.otherClientStates.length := count_le_length
  have hsplit : (keys.otherClientStates.take k).count .alive +
      (keys.otherClientStates.drop k).count .alive=keys.otherClientStates.count .alive := by
    rw [← count_append,take_append_drop]
  have ht:=count_add_deadAtRound2
    (fun state hm => hs state (mem_of_mem_take hm)) (forall₂_readKeyShares h)
  apply countsTo_of_add (by omega)
  rw [count_append]
  omega

variable {dead : List UInt32}

theorem markDead_count {numberOfNeighbors : ℕ}
    (h : markDead clientId numberOfNeighbors states dead=.ok states') :
    states'.length=states.length ∧ states'.count .alive+dead.length=states.count .alive := by
  induction dead generalizing states with
  | nil =>
    cases h
    exact ⟨rfl,rfl⟩
  | cons id rest ih =>
    unfold markDead at h
    simp only at h
    split at h
    · cases h
    · split at h
      · cases h
      · split at h
        · cases h
        next ha =>
          obtain ⟨hlt,hg⟩:=List.getElem?_eq_some_iff.mp ha
          obtain ⟨hl,hc⟩:=ih h
          rw [length_set] at hl
          rw [count_set hlt,hg] at hc
          have hp:=count_pos_iff.mpr (hg ▸ getElem_mem hlt)
          simp at hc
          exact ⟨hl,by rw [length_cons]; omega⟩
        · cases h
        · cases h

theorem markDead_countsTo {numberOfNeighbors : ℕ} (hlt : states.length<2^32)
    (h : markDead clientId numberOfNeighbors states dead=.ok states') :
    CountsTo (fun _ : UInt32 => true) (states.count .alive) dead states' := by
  have hle : states.count .alive ≤ states.length := count_le_length
  obtain ⟨-,hc⟩:=markDead_count h
  apply countsTo_of_add (by omega)
  rw [countP_true]
  exact hc

def ClientState.aliveNeighbors : ClientState → Option (ℕ × ℕ × List OtherClientState)
  | .r2MaskedInputColl keys _ =>
    some (keys.numberOfAliveNeighbors,keys.numberOfNeighbors,keys.otherClientStates)
  | .r2WaitingForInput shares _ | .r3Unmasking shares =>
    some (shares.numberOfAliveNeighbors,shares.numberOfNeighbors,shares.otherClientStates)
  | _ => none

structure Counted (env : ClientEnv) (count numberOfNeighbors : ℕ)
    (states : List OtherClientState) : Prop where
  exact : count=states.count .alive
  enough : env.minimumSurvivingNeighborsForReconstruction≤count
  length : states.length=numberOfNeighbors
  size : numberOfNeighbors≤env.maxNeighborsExpected

variable {numberOfNeighbors : ℕ}

theorem Counted.length_lt (h : Counted env count numberOfNeighbors states) :
    states.length<2^32 := by
  have hm:=env.maxNeighborsExpected_lt
  have hl:=h.length
  have hs:=h.size
  omega

theorem Counted.enough_alive (h : Counted env count numberOfNeighbors states) :
    env.minimumSurvivingNeighborsForReconstruction ≤ states.count .alive := h.exact ▸ h.enough

def BeforeRound2 (s : ClientState) : Prop := ∀ keys inputMap,s=.r2MaskedInputColl keys inputMap →
    ∀ state∈keys.otherClientStates,state=.alive ∨ state=.deadAtRound1

def StateCounted (env : ClientEnv) (s : ClientState) : Prop :=
  (∀ count numberOfNeighbors states,s.aliveNeighbors=some (count,numberOfNeighbors,states) →
    Counted env count numberOfNeighbors states) ∧ BeforeRound2 s

theorem stateCounted_of_none (h : s.aliveNeighbors=none) : StateCounted env s := by
  refine ⟨fun count numberOfNeighbors states hsome => ?_,fun keys ins hs => ?_⟩
  · rw [h] at hsome
    cases hsome
  · rw [hs] at h
    cases h

theorem SharesKeys.stateCounted {req : ShareKeysRequest} (h : SharesKeys env req keys enc) :
    StateCounted env (.r2MaskedInputColl keys ins) := by
  have hstates:=h.otherClientStates_eq
  refine ⟨fun count numberOfNeighbors states hsome => ?_,fun keys' inputMap' hs => ?_⟩
  · cases hsome
    obtain ⟨hmin,hm,-,-,-,hk,-,-,-,-⟩:=h
    have hc:=readPublicKeys_countsTo [] (by simpa using hm) hk
    simp only [append_nil,length_nil,replicate_zero] at hc
    exact ⟨hc.exact,hmin,by rw [length_map,hk.length_eq],hm⟩
  · cases hs
    rw [hstates]
    intro state hmem
    obtain ⟨pair,-,rfl⟩:=mem_map.mp hmem
    exact stateAfterRound1_eq pair

variable {shares : SharesReceived}

theorem ReadsShares.counted {fuel : ℕ}
    {mapOfMasks : SecAggVectorMap} (hk : StateCounted env (.r2MaskedInputColl keys ins))
    (h : ReadsShares env fuel keys enc shares mapOfMasks) :
    Counted env shares.numberOfAliveNeighbors shares.numberOfNeighbors
      shares.otherClientStates := by
  have hc:=hk.1 _ _ _ rfl
  have hn:=h.length_otherClientStates
  obtain ⟨-,hs,hm,-⟩:=h
  have hcounted:=readKeyShares_countsTo hc.exact hc.length_lt (hk.2 _ _ rfl) hs
  rw [drop_eq_nil_of_le (Nat.le_of_eq hc.length),append_nil] at hcounted
  exact ⟨hcounted.exact,hm,hn,hc.size⟩

def EnoughSurvive (env : ClientEnv) (shares : SharesReceived) (dead3ClientIds : List UInt32) :
    Prop :=
  ∃ states,markDead shares.clientId shares.numberOfNeighbors shares.otherClientStates
      dead3ClientIds=.ok states ∧
    env.minimumSurvivingNeighborsForReconstruction ≤ states.count .alive

theorem Unmasks.enoughSurvive {resp : List NoiseOrPrfKeyShare}
    (hc : Counted env shares.numberOfAliveNeighbors shares.numberOfNeighbors
      shares.otherClientStates) (h : Unmasks env shares dead resp) :
    EnoughSurvive env shares dead := by
  obtain ⟨hm,hmin,-⟩:=h
  have hcounted:=markDead_countsTo hc.length_lt hm
  rw [hc.exact,hcounted.exact] at hmin
  exact ⟨_,hm,hmin⟩

theorem stateCounted_of_counted
    (hs : s.aliveNeighbors=some (shares.numberOfAliveNeighbors,shares.numberOfNeighbors,
      shares.otherClientStates)) (hstate : ∀ keys ins,s≠.r2MaskedInputColl keys ins)
    (h : Counted env shares.numberOfAliveNeighbors shares.numberOfNeighbors
      shares.otherClientStates) : StateCounted env s := by
  refine ⟨fun count numberOfNeighbors states hsome => ?_,
    fun keys ins hk => absurd hk (hstate keys ins)⟩
  cases hs.symm.trans hsome
  exact h

namespace SecAggClient

open ClientState (Moves)

variable {env : ClientEnv} {e : Event} {c' : SecAggClient}

theorem moves_stateCounted {t : Transition}
    (hc : StateCounted env s) (h : Moves env s e t) : StateCounted env t.1 := by
  cases h with
  | shareKeys hk => exact hk.stateCounted
  | inputR2 =>
    refine ⟨hc.1,fun keys ins hs => ?_⟩
    cases hs
    exact hc.2 _ _ rfl
  | readShares hshares | maskInput hshares =>
    exact stateCounted_of_counted rfl nofun (hshares.counted hc)
  | maskInputLate => exact stateCounted_of_counted rfl nofun (hc.1 _ _ _ rfl)
  | @stop _ _ _ _ earlySuccess => cases earlySuccess <;> exact stateCounted_of_none rfl
  | _ => exact stateCounted_of_none rfl

variable {c : SecAggClient}

theorem stateCounted_of_reachable (h : Reachable (step env) create c) :
    StateCounted env c.state := by
  apply h.invariant (P := fun c => StateCounted env c.state) (stateCounted_of_none rfl)
  intro c c' e hc hs
  obtain rfl | ⟨t,hm,rfl⟩:=step_moves hs
  · exact hc
  · exact moves_stateCounted hc hm

structure CountsAlive (env : ClientEnv) (c : SecAggClient) : Prop where
  state : ∀ count numberOfNeighbors states,
    c.state.aliveNeighbors=some (count,numberOfNeighbors,states) → count=states.count .alive
  /-- The states of the keys not yet read are as `resize` has set them. -/
  round1 : ∀ asyncAbort done rest neighbors,(done++rest).length≤env.maxNeighborsExpected →
    readAllPublicKeys env asyncAbort 0 false done=.ok neighbors →
      CountsTo (fun neighbor : NeighborKeys => neighbor.state=.deadAtRound1)
        (done++rest).length neighbors
        (neighbors.map NeighborKeys.state++List.replicate rest.length .alive)
  round2 : ∀ keys inputMap asyncAbort encryptedKeyShares k neighbors,
    c.state=.r2MaskedInputColl keys inputMap →
    ((List.range k).mapM fun i => do
      AsyncAbort.poll asyncAbort i
      readKeyShares env keys encryptedKeyShares i)=.ok neighbors →
      CountsTo (fun neighbor : NeighborShares => neighbor.state=.deadAtRound2)
        keys.numberOfAliveNeighbors neighbors
        (neighbors.map NeighborShares.state++keys.otherClientStates.drop k)
  round3 : ∀ shares dead3ClientIds states,c.state=.r3Unmasking shares →
    markDead shares.clientId shares.numberOfNeighbors shares.otherClientStates dead3ClientIds =
      .ok states →
      CountsTo (fun _ : UInt32 => true) shares.numberOfAliveNeighbors dead3ClientIds states

theorem countsAlive_of_stateCounted (h : StateCounted env c.state) : CountsAlive env c where
  state count numberOfNeighbors states hs := (h.1 count numberOfNeighbors states hs).exact
  round1 asyncAbort done rest nbs hsize hr :=
    readPublicKeys_countsTo rest hsize (readAllPublicKeys_eq_ok hr).1
  round2 keys ins asyncAbort enc k nbs hs hr := by
    rw [hs] at h
    have hc:=h.1 _ _ _ rfl
    exact readKeyShares_countsTo hc.exact hc.length_lt (h.2 _ _ rfl) (forall₂_of_poll hr)
  round3 shares dead states hs hm := by
    rw [hs] at h
    have hc:=h.1 _ _ _ rfl
    rw [hc.exact]
    exact markDead_countsTo hc.length_lt hm

def Aborts (c c' : SecAggClient) : Prop := ∃ reason,c'=⟨.aborted reason,c.sent++[.abort reason]⟩

structure RespectsMinimum (env : ClientEnv) (c : SecAggClient) (event : Event)
    (c' : SecAggClient) : Prop where
  maskedInput : ∀ messages vectors,c'.sent=c.sent++messages →
    .maskedInputResponse vectors∈messages → ∃ shares,c'.state=.r3Unmasking shares ∧
      env.minimumSurvivingNeighborsForReconstruction ≤ shares.otherClientStates.count .alive
  unmasking : ∀ messages response,c'.sent=c.sent++messages →
    .unmaskingResponse response∈messages → ∃ asyncAbort fuel shares dead3ClientIds,
      c.state=.r3Unmasking shares ∧
      event=.receiveMessage asyncAbort fuel (.unmaskingRequest dead3ClientIds) ∧
      EnoughSurvive env shares dead3ClientIds
  round2 : ∀ keys inputMap asyncAbort fuel encryptedKeyShares,
    c.state=.r2MaskedInputColl keys inputMap →
    event=.receiveMessage asyncAbort fuel (.maskedInputRequest encryptedKeyShares) →
      Aborts c c' ∨ ∃ shares,(c'.state=.r3Unmasking shares ∨
          ∃ mapOfMasks,c'.state=.r2WaitingForInput shares mapOfMasks) ∧
        env.minimumSurvivingNeighborsForReconstruction ≤ shares.otherClientStates.count .alive
  round3 : ∀ shares asyncAbort fuel dead3ClientIds,c.state=.r3Unmasking shares →
    event=.receiveMessage asyncAbort fuel (.unmaskingRequest dead3ClientIds) →
      Aborts c c' ∨ c'.state=.completed ∧ EnoughSurvive env shares dead3ClientIds

theorem exists_moves_of_orAbort {asyncAbort : AsyncAbort}
    {fuel : ℕ} {incoming : ServerToClientWrapperMessage} {x : Attempt α}
    {next : α → Checked Transition}
    (hh : c.state.handleMessage env asyncAbort fuel incoming=ClientState.orAbort x next)
    (hs : c.step env (.receiveMessage asyncAbort fuel incoming)=.ok c') :
    ∃ t,Moves env c.state (.receiveMessage asyncAbort fuel incoming) t ∧ c'=⟨t.1,c.sent++t.2⟩ := by
  simp only [step,receiveMessage,bind_eq_ok,pure_eq_ok] at hs
  obtain ⟨_,⟨answer,ha,hr⟩,rfl⟩:=hs
  cases answer with
  | error st =>
    rw [hh] at ha
    cases x with
    | ok a => obtain ⟨t,-,⟨⟩⟩:=bind_eq_ok.mp ha
    | error e => cases e <;> cases ha
  | ok t =>
    cases hr
    exact ⟨t,ClientState.handleMessage_moves ha,rfl⟩

theorem respectsMinimum_of_stateCounted (hc : StateCounted env c.state) (hs : c.step env e=.ok c') :
    RespectsMinimum env c e c' := by
  have hmessages : ∀ messages m,c'.sent=c.sent++messages → m∈messages →
      ∃ t,Moves env c.state e t ∧ c'.state=t.1 ∧ m∈t.2 := by
    intro messages m hsent hm
    obtain rfl | ⟨t,hmove,rfl⟩:=step_moves hs
    · rw [self_eq_append_right.mp hsent] at hm
      cases hm
    · exact ⟨t,hmove,rfl,append_cancel_left hsent ▸ hm⟩
  constructor
  · intro messages vecs hsent hm
    obtain ⟨t,hmove,hstate,hm⟩:=hmessages messages _ hsent hm
    rw [hstate]
    generalize c.state=s at hc hmove
    cases hmove with
    | maskInput hshares => exact ⟨_,rfl,(hshares.counted hc).enough_alive⟩
    | maskInputLate => exact ⟨_,rfl,(hc.1 _ _ _ rfl).enough_alive⟩
    | @stop _ _ _ _ earlySuccess => cases earlySuccess <;> cases hm
    | inputR0 | inputR1 | inputR2 | readShares => cases hm
    | advertise | abort | shareKeys | unmask => cases mem_singleton.mp hm
  · intro messages resp hsent hm
    obtain ⟨t,hmove,-,hm⟩:=hmessages messages _ hsent hm
    obtain ho | ⟨asyncAbort,fuel,shares,dead,_,hstate,he,hu,-⟩:=moves_response hmove
    · cases ho _ hm
    · rw [hstate] at hc
      exact ⟨asyncAbort,fuel,shares,dead,hstate,he,hu.enoughSurvive (hc.1 _ _ _ rfl)⟩
  · intro keys ins asyncAbort fuel enc hstate he
    subst he
    obtain ⟨t,hmove,rfl⟩:=exists_moves_of_orAbort (by rw [hstate]; rfl) hs
    rw [hstate] at hmove hc
    cases hmove with
    | abort reason => exact .inl ⟨reason,rfl⟩
    | readShares hshares => exact .inr ⟨_,.inr ⟨_,rfl⟩,(hshares.counted hc).enough_alive⟩
    | maskInput hshares => exact .inr ⟨_,.inl rfl,(hshares.counted hc).enough_alive⟩
  · intro shares asyncAbort fuel dead hstate he
    subst he
    obtain ⟨t,hmove,rfl⟩:=exists_moves_of_orAbort (by rw [hstate]; rfl) hs
    rw [hstate] at hmove hc
    cases hmove with
    | abort reason => exact .inl ⟨reason,rfl⟩
    | unmask hr => exact .inr ⟨rfl,hr.enoughSurvive (hc.1 _ _ _ rfl)⟩

/-- In every session, with arbitrary messages from the server, the counter is the number of
entries that are alive, and responses are sent only if these are enough. -/
theorem aliveNeighbors_exact {env : ClientEnv} {c : SecAggClient}
    (h : Reachable (step env) create c) :
    CountsAlive env c ∧ ∀ e c',c.step env e=.ok c' → RespectsMinimum env c e c' :=
  ⟨countsAlive_of_stateCounted (stateCounted_of_reachable h),
    fun _ _ hs => respectsMinimum_of_stateCounted (stateCounted_of_reachable h) hs⟩

theorem aliveNeighbors_exact_twoOfThree : ∃ c,Reachable (step (.toy 1 [])) create c ∧
      c.state.aliveNeighbors=some (2,3,[.alive,.deadAtRound2,.alive]) ∧
      CountsAlive (.toy 1 []) c ∧
      ∀ e c',c.step (.toy 1 []) e=.ok c' → RespectsMinimum (.toy 1 []) c e c' := by
  obtain ⟨history,c,hrun,ht⟩:=exists_run (step (.toy 1 [])) create
    (sessionEvents fun encrypted receive =>
      [receive (.maskedInputRequest [[],[],encrypted]),.setInput ∅])
    (P := fun c => c.state.aliveNeighbors=some (2,3,[.alive,.deadAtRound2,.alive]))
    (by decide +kernel)
  have hr:=hrun.reachable
  exact ⟨c,hr,ht,aliveNeighbors_exact hr⟩

end SecAggClient
end Fcp.SecAgg

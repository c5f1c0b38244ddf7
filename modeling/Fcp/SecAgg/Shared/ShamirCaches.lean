import Fcp.SecAgg.Shared.ShamirRoundTrip

/-!
# The caches of a sharing object (shared/shamir_secret_sharing.cc)

Over any sequence of calls the caches hold what their comments say, and no call can tell them from
empty ones.
-/

namespace Fcp.SecAgg.ShamirSecretSharing

open List

inductive Call where
  | share (threshold numShares : ℕ) (toShare : Bytes) (random : ℕ → ℕ → Fin kPrime)
  | reconstruct (threshold : ℕ) (shares : List ShamirShare) (secretLength : ℕ)
      (size_valid : shares.length<2^31)

inductive Answer where
  | shares (shares : List ShamirShare)
  | secret (secret : StatusOr Bytes)
  deriving DecidableEq

def call (o : ShamirSecretSharing) : Call → Checked (ShamirSecretSharing × Answer)
  | .share threshold numShares toShare random => do
    let shares ← share threshold numShares toShare random
    return (o,.shares shares)
  | .reconstruct threshold shares secretLength _ => do
    let (o,secret) ← o.reconstruct threshold shares secretLength
    return (o,.secret secret)

def calls (o : ShamirSecretSharing) : List Call → Checked (ShamirSecretSharing × List Answer)
  | [] => return (o,[])
  | c::rest => do
    let (o,answer) ← o.call c
    let (o,answers) ← o.calls rest
    return (o,answer::answers)

def answer (o : ShamirSecretSharing) (c : Call) : Checked Answer := do
  let (_,answer) ← o.call c
  return answer

/-- The invariant of an object, as far as it is not in `Valid`. -/
structure Coherent (o : ShamirSecretSharing) : Prop where
  valid : o.Valid
  length_lt : o.inverses.length<kPrime
  nodes : Nodes o.lastLcInput
  empty : o.lastLcInput=[] → o.lastLcOutput=[]

theorem coherent_create : Coherent create :=
  ⟨valid_create,by decide,⟨nofun,nofun,nodup_nil⟩,fun _ => rfl⟩

variable {o o' : ShamirSecretSharing}

theorem modInverse_length_lt {n inverse : ℕ} (h : o.modInverse n=.ok (o',inverse))
    (hlt : o.inverses.length<kPrime) : o'.inverses.length<kPrime := by
  simp only [modInverse,bind_eq_ok,fcpCheck_eq_ok,decide_eq_true_eq] at h
  obtain ⟨-,⟨-,hn⟩,h⟩:=h
  cases h
  rw [length_extendInverses]
  omega

variable {acc c : ℕ} {xs : List ℕ} {shares : List ShamirShare} {hist : List Call}

theorem lagrangeStep_length_lt {xi xj : ℕ} (h : o.lagrangeStep acc xi xj=.ok (o',c))
    (hlt : o.inverses.length<kPrime) : o'.inverses.length<kPrime := by
  unfold lagrangeStep at h
  dsimp only at h
  split at h
  · obtain ⟨⟨o₁,inverse⟩,hi,⟨⟩⟩:=bind_eq_ok.mp h
    exact modInverse_length_lt hi hlt
  · obtain ⟨⟨o₁,inverse⟩,hi,⟨⟩⟩:=bind_eq_ok.mp h
    exact modInverse_length_lt hi hlt

theorem lagrangeRow_length_lt {i : ℕ} {js : List ℕ}
    (h : lagrangeRow xs i o acc js=.ok (o',c)) (hlt : o.inverses.length<kPrime) :
    o'.inverses.length<kPrime := by
  induction js generalizing o acc with
  | nil =>
    cases h
    exact hlt
  | cons j js ih =>
    rw [lagrangeRow] at h
    split at h
    · exact ih h hlt
    · obtain ⟨⟨o₁,acc₁⟩,hs,h⟩:=bind_eq_ok.mp h
      exact ih h (lagrangeStep_length_lt hs hlt)

theorem lagrangeRows_length_lt {out output' : List ℕ} {is : List ℕ}
    (h : lagrangeRows xs o out is=.ok (o',output'))
    (hlt : o.inverses.length<kPrime) : o'.inverses.length<kPrime := by
  induction is generalizing o out with
  | nil =>
    cases h
    exact hlt
  | cons i is ih =>
    rw [lagrangeRows] at h
    obtain ⟨⟨o₁,c⟩,hr,h⟩:=bind_eq_ok.mp h
    exact ih h (lagrangeRow_length_lt hr hlt)

theorem lagrangeCoefficients_coherent {coefficients : List ℕ} (ho : o.Coherent) (hx : Nodes xs)
    (h : o.lagrangeCoefficients xs=.ok (o',coefficients)) : o'.Coherent := by
  have hc:=h
  simp only [lagrangeCoefficients,bind_eq_ok,fcpCheck_eq_ok,decide_eq_true_eq] at hc
  obtain ⟨-,hl,-,-,hc⟩:=hc
  have hv : o'.Valid := by
    obtain ⟨o₁,heq,hv⟩:=lagrangeCoefficients_eq hx hl ho.valid
    rw [h] at heq
    rwa [(Prod.mk.inj (Except.ok.inj heq)).1]
  split at hc
  · cases hc
    exact ho
  · obtain ⟨⟨o₂,out⟩,hr,hc⟩:=bind_eq_ok.mp hc
    have hlength:=lagrangeRows_length_lt hr ho.length_lt
    cases hc
    refine ⟨hv,hlength,hx,?_⟩
    intro he
    have hn : xs=[] := he
    rw [hn] at hl
    exact absurd hl (by decide)

theorem reconstruct_coherent {t len : ℕ}
    {r : StatusOr Bytes} (ho : o.Coherent) (hn : shares.length<2^31)
    (h : o.reconstruct t shares len=.ok (o',r)) : o'.Coherent := by
  obtain ⟨-,xs,rfl,⟨-,rfl,-⟩ | ⟨-,⟨_,hl⟩,-⟩⟩:=reconstruct_cases h
  · exact ho
  · exact lagrangeCoefficients_coherent ho (nodes_presentFrom shares hn t) hl

theorem call_coherent {c : Call} {a : Answer} (ho : o.Coherent) (h : o.call c=.ok (o',a)) :
    o'.Coherent := by
  cases c with
  | share t n toShare rnd =>
    obtain ⟨shares,-,⟨⟩⟩:=bind_eq_ok.mp h
    exact ho
  | reconstruct t shares len size_valid =>
    obtain ⟨⟨o₁,secret⟩,hr,⟨⟩⟩:=bind_eq_ok.mp h
    exact reconstruct_coherent ho size_valid hr

theorem calls_coherent {ans : List Answer} (ho : o.Coherent)
    (h : o.calls hist=.ok (o',ans)) : o'.Coherent := by
  induction hist generalizing o ans with
  | nil =>
    cases h
    exact ho
  | cons c rest ih =>
    obtain ⟨⟨o₁,a⟩,hc,h⟩:=bind_eq_ok.mp h
    obtain ⟨⟨o₂,as⟩,hr,⟨⟩⟩:=bind_eq_ok.mp h
    exact ih (call_coherent ho hc) hr

def reconstructUncached (threshold : ℕ) (shares : List ShamirShare) (secretLength : ℕ) :
    Checked (StatusOr Bytes) := do
  fcpCheck (decide (threshold>1))
  fcpCheck (decide (secretLength>0))
  fcpCheck (decide (shares.length≥threshold))
  let maxNum ← maxNumSubsecrets secretLength
  let (xValues,numSubsecrets) ← collectShares threshold maxNum shares 0 [] 0
  if xValues.length<threshold then
    return .error ⟨.failedPrecondition,"Only "++toString xValues.length ++
      " valid shares were provided, but threshold was specified as "++toString threshold⟩
  else
    return .ok (rebuildFromSubsecrets ((List.range numSubsecrets).map
      (reconstructSubsecret shares xValues (coefficientsOf xValues))) secretLength)

theorem reconstruct_uncached (ho : o.Valid) (t len : ℕ) (hn : shares.length<2^31) : (do
      let (_,r) ← o.reconstruct t shares len
      return r)=reconstructUncached t shares len := by
  rw [reconstruct,reconstructUncached]
  by_cases ht : t>1
  · rw [decide_eq_true ht,fcpCheck_true,ok_bind,ok_bind]
    cases fcpCheck (decide (len>0)) with
    | error fault => rfl
    | ok _ =>
      cases fcpCheck (decide (shares.length≥t)) with
      | error fault => rfl
      | ok _ =>
        cases maxNumSubsecrets len with
        | error fault => rfl
        | ok maxNum =>
          rw [ok_bind,ok_bind,ok_bind,ok_bind,ok_bind,ok_bind]
          cases hc : collectShares t maxNum shares 0 [] 0 with
          | error fault => rfl
          | ok collected =>
            have hxs:=collectShares_ok shares 0 [] 0 (Nat.zero_le _) hc
            rw [nil_append] at hxs
            rw [ok_bind,ok_bind]
            dsimp only
            split
            · rfl
            · obtain ⟨o₁,heq,-⟩:=lagrangeCoefficients_eq
                (hxs ▸ nodes_presentFrom shares hn t) (by omega) ho
              rw [heq]
              rfl
  · rw [decide_eq_false ht]
    rfl

theorem answer_eq (ho : o.Valid) (c : Call) : o.answer c=create.answer c := by
  cases c with
  | share t n toShare rnd =>
    show (do
      let (_,answer) ← (do
        let shares ← share t n toShare rnd
        return (o,Answer.shares shares))
      return answer)=_
    cases h : share t n toShare rnd with
    | error _ | ok _ =>
      simp only [answer,call,h]
      rfl
  | reconstruct t shares len size_valid =>
    have ha {o : ShamirSecretSharing} (ho : o.Valid) :
        o.answer (.reconstruct t shares len size_valid) =
          (reconstructUncached t shares len).map .secret := by
      rw [← reconstruct_uncached ho t len size_valid,answer,call]
      cases o.reconstruct t shares len with
      | error _ | ok _ => rfl
    rw [ha ho,ha valid_create]

theorem calls_eq (ho : o.Coherent) : (do
      let (_,ans) ← o.calls hist
      return ans)=hist.mapM create.answer := by
  induction hist generalizing o with
  | nil => rfl
  | cons c rest ih =>
    rw [mapM_cons,← answer_eq ho.valid c,calls,answer]
    cases hc : o.call c with
    | error fault => rfl
    | ok p =>
      obtain ⟨o₁,a⟩:=p
      rw [← ih (call_coherent ho hc)]
      simp only [ok_bind]
      cases o₁.calls rest with
      | error _ | ok _ => rfl

structure ExactCaches (o : ShamirSecretSharing) : Prop where
  inverses (i : ℕ) (hi : i<o.inverses.length) : o.inverses.getD i 0<kPrime ∧
    (o.inverses.getD i 0 : ZMod kPrime)*((i+1 : ℕ) : ZMod kPrime)=1
  length_eq : o.lastLcOutput.length=o.lastLcInput.length
  coefficients (i : ℕ) (hi : i<o.lastLcInput.length) : o.lastLcOutput.getD i 0<kPrime ∧
    (o.lastLcOutput.getD i 0 : ZMod kPrime)=∏ j∈(Finset.range o.lastLcInput.length).erase i,
        (o.lastLcInput.getD j 0 : ZMod kPrime) *
          ((o.lastLcInput.getD j 0 : ZMod kPrime)-o.lastLcInput.getD i 0)⁻¹

theorem inverseOf_lt_kPrime (n : ℕ) : inverseOf n<kPrime := by
  rw [inverseOf,modPow,modPowAux,if_neg (by decide)]
  dsimp only
  split <;> exact multiplyMod_lt _ _

theorem Coherent.lastLcOutput_eq (ho : o.Coherent) :
    o.lastLcOutput=coefficientsOf o.lastLcInput := by
  by_cases he : o.lastLcInput=[]
  · rw [ho.empty he,he]
    rfl
  · exact ho.valid.coefficients he

theorem Coherent.exact (ho : o.Coherent) : ExactCaches o where
  inverses i hi := by
    have hlt:=ho.length_lt
    have hne : ((i+1 : ℕ) : ZMod kPrime)≠0 := by
      rw [Ne,ZMod.natCast_eq_zero_iff]
      exact fun h => absurd (Nat.le_of_dvd (Nat.succ_pos i) h) (by omega)
    rw [ho.valid.inverses i hi,cast_inverseOf (Nat.succ_pos i) (by omega)]
    exact ⟨inverseOf_lt_kPrime (i+1),inv_mul_cancel₀ hne⟩
  length_eq := by rw [ho.lastLcOutput_eq,coefficientsOf,length_map,length_range]
  coefficients i hi := by
    have he : o.lastLcOutput.getD i 0 =
        rowOf o.lastLcInput i 1 (List.range o.lastLcInput.length) := by
      rw [ho.lastLcOutput_eq,coefficientsOf,getD_eq_getElem _ _ (by simpa using hi),
        getElem_map,getElem_range]
    obtain ⟨hlt,hc⟩:=cast_rowOf ho.nodes hi o.lastLcInput.length (Nat.le_refl _)
    rw [he]
    refine ⟨hlt,?_⟩
    rw [hc,Lib.weightAtZero,← Finset.mul_prod_erase _ _ (Finset.mem_range.mpr hi),
      if_pos rfl,one_mul]
    apply Finset.prod_congr rfl
    intro j hj
    rw [if_neg (Finset.ne_of_mem_erase hj).symm]

/-- A sequence of calls returns what its calls return on fresh objects, and leaves exact caches. -/
theorem caches_transparent (hist : List Call) : (do
      let (_,answers) ← create.calls hist
      return answers)=hist.mapM create.answer ∧
    ∀ o answers,create.calls hist=.ok (o,answers) →
      ExactCaches o ∧ ∀ next,o.answer next=create.answer next := by
  refine ⟨calls_eq coherent_create,fun o answers h => ?_⟩
  have ho:=calls_coherent coherent_create h
  exact ⟨ho.exact,answer_eq ho.valid⟩

/-- The second call has another set of shares: the table of inverses grows and the coefficients are
replaced. -/
theorem caches_transparent_twoShares :
    create.calls [.reconstruct 2 [[0,0,0,5],[0,0,0,7]] 1 (by decide),
        .reconstruct 2 [[0,0,0,5],[],[0,0,0,9]] 1 (by decide)] =
      .ok (⟨[1,1073741830],[1,3],[1073741831,1073741829]⟩,[.secret (.ok [3]),.secret (.ok [3])]) ∧
    ExactCaches ⟨[1,1073741830],[1,3],[1073741831,1073741829]⟩ ∧
    ∀ next,answer ⟨[1,1073741830],[1,3],[1073741831,1073741829]⟩ next=create.answer next := by
  exact (fun hr => ⟨hr,(caches_transparent _).2 _ _ hr⟩) (by decide +kernel)

end Fcp.SecAgg.ShamirSecretSharing

import Fcp.SecAgg.Server.DistributionUtilities

/-!
# Parameters of a Harary graph (server/graph_parameter_finder.cc)

Rates and probabilities are exact rationals, and compared themselves, not by their logarithms.
-/

namespace Fcp.SecAgg

open Hypergeometric (below)

inductive AdversaryClass where
  | none
  | curiousServer
  | semiMaliciousServer
  /-- A value of the open enumeration without a name. -/
  | unrecognized (value : ℤ)
  deriving DecidableEq

structure HararyGraphParameters where
  numberOfNodes : ℕ
  degree : ℕ
  threshold : ℤ
  deriving DecidableEq

def kMaxNumberOfClients : ℤ := 1000000

structure AdmittedRequirements (numberOfClients : ℤ) (adversarialRate dropoutRate : ℚ)
    (adversaryClass : AdversaryClass) : Prop where
  clients : 0<numberOfClients ∧ numberOfClients≤kMaxNumberOfClients
  adversarial : 0≤adversarialRate ∧ adversarialRate<1
  dropout : 0≤dropoutRate ∧ dropoutRate<1
  supported : adversaryClass=.curiousServer ∨ adversaryClass=.semiMaliciousServer ∨
    adversaryClass=.none
  noAdversary : adversaryClass=.none → adversarialRate=0
  feasible : adversaryClass=.curiousServer ∨ adversaryClass=.none → adversarialRate+dropoutRate≤9/10
  feasibleSemiMalicious : adversaryClass=.semiMaliciousServer → adversarialRate+2*dropoutRate≤9/10

structure HararyGraphParameterFinder where
  numberOfClients : ℕ
  adversarialRate : ℚ
  dropoutRate : ℚ
  adversaryClass : AdversaryClass
  admitted : AdmittedRequirements numberOfClients adversarialRate dropoutRate adversaryClass

namespace HararyGraphParameterFinder

def create (numberOfClients : ℤ) (adversarialRate dropoutRate : ℚ)
    (adversaryClass : AdversaryClass) : Checked (StatusOr HararyGraphParameterFinder) :=
  if hlow : numberOfClients≤0 then
    .ok (.error ⟨.failedPrecondition,
      "The number of clients should greater than zero. Value provided = " ++
        toString numberOfClients⟩)
  else if hhigh : numberOfClients>kMaxNumberOfClients then
    .ok (.error ⟨.failedPrecondition,
      "The valid number of clients is upper bounded by 1M. There is no fundamental reason for " ++
        "that, and this parameter finder should work for that setting. Just add the " ++
        "corresponding tests."⟩)
  else if hadversarial : adversarialRate<0 ∨ adversarialRate≥1 then
    .ok (.error ⟨.failedPrecondition,
      "The adversarial rate should be in [0,1). Value provided = "++toString adversarialRate⟩)
  else if hdropout : dropoutRate<0 ∨ dropoutRate≥1 then
    .ok (.error ⟨.failedPrecondition,
      "The dropout rate should be in [0,1). Value provided = "++toString dropoutRate⟩)
  else if hclass : ¬(adversaryClass=.curiousServer ∨ adversaryClass=.semiMaliciousServer ∨
      adversaryClass=.none) then
    .error .check
  else if hnone : adversaryClass=.none ∧ adversarialRate>0 then
    .ok (.error ⟨.failedPrecondition,
      "The no-adversary setting expects that adversarial_rate = 0. Value provided = " ++
        toString adversarialRate⟩)
  else if hfeasible : (adversaryClass=.curiousServer ∨ adversaryClass=.none) ∧
      adversarialRate+dropoutRate>9/10 then
    .ok (.error ⟨.failedPrecondition,
      "In the semi-honest and no-adversary settings, adversarial_rate + dropout_rate <= 0.9 " ++
        "must hold for the instance to be feasible. Values provided = " ++
        toString adversarialRate++" and "++toString dropoutRate⟩)
  else if hsemi : adversaryClass=.semiMaliciousServer ∧ adversarialRate+2*dropoutRate>9/10 then
    .ok (.error ⟨.failedPrecondition,
      "In the semi-malicious setting, adversarial_rate + 2*dropout_rate <= 0.9 must hold for " ++
        "the instance to be feasible. Values provided = "++toString adversarialRate ++
        " and "++toString dropoutRate⟩)
  else
    .ok (.ok ⟨numberOfClients.toNat,adversarialRate,dropoutRate,adversaryClass,{
      clients := by omega
      adversarial := by push Not at hadversarial; exact hadversarial
      dropout := by push Not at hdropout; exact hdropout
      supported := not_not.mp hclass
      noAdversary := fun h => by
        push Not at hadversarial
        exact le_antisymm (not_lt.mp fun hpos => hnone ⟨h,hpos⟩) hadversarial.1
      feasible := fun h => not_lt.mp fun hlt => hfeasible ⟨h,hlt⟩
      feasibleSemiMalicious := fun h => not_lt.mp fun hlt => hsemi ⟨h,hlt⟩ }⟩)

theorem create_eq_ok (f : HararyGraphParameterFinder) :
    create f.numberOfClients f.adversarialRate f.dropoutRate f.adversaryClass=.ok (.ok f) := by
  have h:=f.admitted
  unfold create
  rw [dif_neg (not_le.mpr h.clients.1),dif_neg (not_lt.mpr h.clients.2),
    dif_neg (not_or.mpr ⟨not_lt.mpr h.adversarial.1,not_le.mpr h.adversarial.2⟩),
    dif_neg (not_or.mpr ⟨not_lt.mpr h.dropout.1,not_le.mpr h.dropout.2⟩),
    dif_neg (not_not.mpr h.supported),
    dif_neg (fun hn => hn.2.ne' (h.noAdversary hn.1)),
    dif_neg (fun hi => not_lt.mpr (h.feasible hi.1) hi.2),
    dif_neg (fun hi => not_lt.mpr (h.feasibleSemiMalicious hi.1) hi.2)]
  rfl

def kSmall : ℚ := 1/10^14

variable (f : HararyGraphParameterFinder)

def maxAdversarialClients : ℤ := ⌊(f.adversarialRate+kSmall)*f.numberOfClients⌋

def maxDropoutClients : ℤ := ⌊(f.dropoutRate+kSmall)*f.numberOfClients⌋

variable (numberOfNeighbors : ℕ)

def probOfDisconnectedRandomHarary : ℚ :=
  let numberOfGapPairs : ℚ := f.numberOfClients*(f.numberOfClients-numberOfNeighbors-1)/2
  let maxBadClients := f.maxAdversarialClients+f.maxDropoutClients
  if numberOfNeighbors>maxBadClients then 0
  else
    numberOfGapPairs*maxBadClients.toNat.factorial *
        (f.numberOfClients-numberOfNeighbors).factorial /
      f.numberOfClients.factorial/(maxBadClients.toNat-numberOfNeighbors).factorial

def valueOf {α : Type} : StatusOr α → Checked α
  | .ok a => .ok a
  | .error _ => .error .badStatusOrAccess

noncomputable def thresholdRange : Checked (ℤ × ℤ) := do
  let upperBoundAdversarialClients := f.maxAdversarialClients
  let lowerBoundSurvivingClients := ⌈(1-f.dropoutRate-kSmall)*f.numberOfClients⌉
  let numAdversarialNeighbors ← valueOf (HypergeometricDistribution.create f.numberOfClients
    upperBoundAdversarialClients numberOfNeighbors)
  let numSurvivingNeighbors ← valueOf (HypergeometricDistribution.create f.numberOfClients
    lowerBoundSurvivingClients numberOfNeighbors)
  let t1 := numAdversarialNeighbors.findQuantile (1/2^41/f.numberOfClients) true
  let t2 := numSurvivingNeighbors.findQuantile (1/2^20/f.numberOfClients) false
  let t2 := if numSurvivingNeighbors.cdf t2<1/2^20/f.numberOfClients then t2+1 else t2
  let t1 := if f.adversaryClass=.semiMaliciousServer then
    ⌈((t1+numberOfNeighbors-5/4)/2 : ℚ)⌉ else t1
  return (t1,t2)

noncomputable def checkNumberOfNeighbors : Checked (Option ℤ) :=
  if f.probOfDisconnectedRandomHarary numberOfNeighbors≥1/2^41 then .ok none
  else do
    let (t1,t2) ← f.thresholdRange numberOfNeighbors
    return if t2≤t1 then none else some (max (t1+1) 2)

noncomputable def degreeLoop : ℕ → ℕ → Checked (StatusOr HararyGraphParameters)
  | 0, _ => notFound
  | fuel+1, numberOfNeighbors =>
    if numberOfNeighbors<f.numberOfClients-1 then do
      match ← f.checkNumberOfNeighbors numberOfNeighbors with
      | some threshold => return .ok ⟨f.numberOfClients,numberOfNeighbors,threshold⟩
      | none => degreeLoop fuel (numberOfNeighbors+2)
    else notFound
where
  notFound : Checked (StatusOr HararyGraphParameters) := .ok (.error ⟨.failedPrecondition,
      "Parameters consistent with the provided aggregation requirements were not found. " ++
        "Unless the number of clients is small (<500) and adversarial rate plus dropout rate are "
          ++
        "large (close to 1), this is an unlikely error that should be investigated as a bug."⟩)

noncomputable def computeDegreeAndThreshold : Checked (StatusOr HararyGraphParameters) :=
  f.degreeLoop f.numberOfClients 2

end HararyGraphParameterFinder
end Fcp.SecAgg

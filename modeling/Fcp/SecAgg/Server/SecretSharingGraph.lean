import Fcp.Base.Monitoring
import Mathlib.Data.List.Perm.Basic
import Mathlib.Data.List.Nodup

/-!
# Secret sharing graphs (secret_sharing_graph.h)

Nodes, indices and degrees are the `int` values of the source; the neighbor list of a Harary node
is recomputed through the permutation.
-/

namespace Fcp.SecAgg

def vecAt (v : List ℤ) (i : ℤ) : ℤ := v.getD i.toNat 0

structure SecretSharingCompleteGraph where
  numNodes : ℤ
  threshold : ℤ

namespace SecretSharingCompleteGraph
variable (g : SecretSharingCompleteGraph)

def isValidNode (node : ℤ) : Bool := decide (0≤node ∧ node<g.numNodes)

def getDegree : ℤ := g.numNodes

def getNeighbor (currNode i : ℤ) : Checked ℤ := do
  fcpCheck (g.isValidNode currNode)
  fcpCheck (g.isValidNode i)
  return i

variable (node1 node2 : ℤ)

def getNeighborIndex : Checked (Option ℤ) := do
  fcpCheck (g.isValidNode node1)
  fcpCheck (g.isValidNode node2)
  return some node2

def areNeighbors : Checked Bool := do
  fcpCheck (g.isValidNode node1)
  fcpCheck (g.isValidNode node2)
  return true

def isOutgoingNeighbor : Checked Bool := do
  fcpCheck (g.isValidNode node1)
  fcpCheck (g.isValidNode node2)
  return decide (node2≥node1)

end SecretSharingCompleteGraph

structure SecretSharingHararyGraph where
  numberOfNodes : ℤ
  degree : ℤ
  threshold : ℤ
  permutation : List ℤ
  inversePermutation : List ℤ

def invertPermutation (permutation : List ℤ) : List ℤ :=
  permutation.zipIdx.foldl (fun inverse p => inverse.set p.1.toNat (p.2 : ℤ))
    (List.replicate permutation.length 0)

namespace SecretSharingHararyGraph

def create (degree threshold : ℤ) (permutation : List ℤ) : SecretSharingHararyGraph where
  numberOfNodes := permutation.length
  degree := degree
  threshold := threshold
  permutation := permutation
  inversePermutation := invertPermutation permutation

variable (g : SecretSharingHararyGraph)

def isValidNode (node : ℤ) : Bool := decide (0≤node ∧ node<g.numberOfNodes)

def isValidNeighborIndex (index : ℤ) : Bool := decide (0 ≤ index ∧ index<g.degree)

def getDegree : ℤ := g.degree

def getNeighbor (currNode neighborIndex : ℤ) : Checked ℤ := do
  fcpCheck (g.isValidNode currNode)
  fcpCheck (g.isValidNeighborIndex neighborIndex)
  let currNodeBeforeRenaming := vecAt g.inversePermutation currNode
  let zerothNeighborBeforeRenaming ← checkInt (currNodeBeforeRenaming-g.degree/2)
  let neighbor ← checkInt (zerothNeighborBeforeRenaming+neighborIndex)
  let neighbor ← checkInt (neighbor+g.numberOfNodes)
  return vecAt g.permutation (neighbor%g.numberOfNodes)

def indexBeforeRenaming (n degree a b : ℤ) : Checked (Option ℤ) := do
  let difference ← checkInt (a-b)
  let subBeforeRenaming ← checkInt difference.natAbs
  let rest ← checkInt (n-subBeforeRenaming)
  let modDistBeforeRenaming := min subBeforeRenaming rest
  if modDistBeforeRenaming>degree/2 then return none
  else
    let back ← checkInt (a-modDistBeforeRenaming)
    let back ← checkInt (back+n)
    if back%n=b then return some (← checkInt (degree/2-modDistBeforeRenaming))
    else return some (← checkInt (degree/2+modDistBeforeRenaming))

variable (node1 node2 : ℤ)

def getNeighborIndex : Checked (Option ℤ) := do
  fcpCheck (g.isValidNode node1)
  fcpCheck (g.isValidNode node2)
  indexBeforeRenaming g.numberOfNodes g.degree
    (vecAt g.inversePermutation node1) (vecAt g.inversePermutation node2)

def areNeighbors : Checked Bool := do
  fcpCheck (g.isValidNode node1)
  fcpCheck (g.isValidNode node2)
  let index ← g.getNeighborIndex node1 node2
  return decide (index.getD (-1)≥0)

def isOutgoingNeighbor : Checked Bool := do
  fcpCheck (g.isValidNode node1)
  fcpCheck (g.isValidNode node2)
  let index ← g.getNeighborIndex node1 node2
  return decide (index.getD (-1)≥g.degree/2)

end SecretSharingHararyGraph

inductive SecretSharingGraph where
  | complete (g : SecretSharingCompleteGraph)
  | harary (g : SecretSharingHararyGraph)

namespace SecretSharingGraph

def getNumNodes : SecretSharingGraph → ℤ
  | complete g => g.numNodes
  | harary g => g.numberOfNodes

def getDegree : SecretSharingGraph → ℤ
  | complete g => g.getDegree
  | harary g => g.getDegree

def getThreshold : SecretSharingGraph → ℤ
  | complete g => g.threshold
  | harary g => g.threshold

def getNeighbor : SecretSharingGraph → ℤ → ℤ → Checked ℤ
  | complete g => g.getNeighbor
  | harary g => g.getNeighbor

def getNeighborIndex : SecretSharingGraph → ℤ → ℤ → Checked (Option ℤ)
  | complete g => g.getNeighborIndex
  | harary g => g.getNeighborIndex

def areNeighbors : SecretSharingGraph → ℤ → ℤ → Checked Bool
  | complete g => g.areNeighbors
  | harary g => g.areNeighbors

def isOutgoingNeighbor : SecretSharingGraph → ℤ → ℤ → Checked Bool
  | complete g => g.isOutgoingNeighbor
  | harary g => g.isOutgoingNeighbor

end SecretSharingGraph

structure Shuffle where
  apply : List ℤ → List ℤ
  perm : ∀ v,(apply v).Perm v

def identityPermutation (numNodes : ℤ) : List ℤ :=
  (List.range numNodes.toNat).map (fun i : ℕ => (i : ℤ))

def createCompleteGraph (numNodes threshold : ℤ) : Checked SecretSharingGraph := do
  fcpCheck (decide (numNodes≥1))
  fcpCheck (decide (threshold≥1))
  fcpCheck (decide (threshold≤numNodes))
  return .complete ⟨numNodes,threshold⟩

/-- `SecretSharingGraphFactory::CreateHararyGraph`; C++ `%` truncates towards zero. -/
def createHararyGraph (numNodes degree threshold : ℤ) (isRandom : Bool) (shuffle : Shuffle) :
    Checked SecretSharingGraph := do
  fcpCheck (decide (numNodes≥1))
  fcpCheck (decide (degree≤numNodes))
  fcpCheck (decide (degree.tmod 2=1))
  fcpCheck (decide (threshold≥1))
  fcpCheck (decide (threshold≤degree))
  let permutation := identityPermutation numNodes
  let permutation := if isRandom then shuffle.apply permutation else permutation
  return .harary (SecretSharingHararyGraph.create degree threshold permutation)

end Fcp.SecAgg

import Fcp.SecAgg.Server.SecretSharingGraphLaws

/-!
# Sharing graphs as the server holds them

The server owns one graph made by the factory. `SharingGraph` carries that fact, so that every
operation is total on it; the class function returns its value or overflows.
-/

namespace Fcp.SecAgg

structure SharingGraph where
  graph : SecretSharingGraph
  factory : FactoryGraph graph
  numNodes_int : graph.getNumNodes<2^31

namespace SharingGraph
variable (G : SharingGraph)

def numNodes : ℕ := G.graph.getNumNodes.toNat

def degree : ℕ := G.graph.getDegree.toNat

def threshold : ℕ := G.graph.getThreshold.toNat

theorem one_le_threshold : 1≤G.threshold := by
  have h:=G.factory.bounds
  unfold threshold
  omega

theorem threshold_le_degree : G.threshold≤G.degree := by
  have h:=G.factory.bounds
  unfold threshold degree
  omega

theorem degree_lt : G.degree<2^31 := by
  have h:=G.factory.bounds
  have hi:=G.numNodes_int
  unfold degree
  omega

theorem one_le_degree : 1≤G.degree := le_trans G.one_le_threshold G.threshold_le_degree

abbrev ClientId := Fin G.numNodes

abbrev Slot := Fin G.degree

variable {G} (u : G.ClientId) (i : G.Slot)

theorem node : G.graph.Node (u : ℕ) := by
  have h:=u.isLt
  unfold numNodes at h
  exact ⟨by omega,by omega⟩

theorem slot_lt : ((i : ℕ) : ℤ)<G.graph.getDegree := by
  have h:=i.isLt
  unfold degree at h
  omega

theorem toNat_lt {v : ℤ} (hv : G.graph.Node v) : v.toNat<G.numNodes := by
  unfold numNodes
  have h:=hv.1
  have h':=hv.2
  omega

theorem neighbor_node : G.graph.Node (G.graph.neighbor (u : ℕ) (i : ℕ)) :=
  G.factory.laws.neighbor_node _ _ (node u) (by omega) (slot_lt i)

def neighbor : G.ClientId := ⟨(G.graph.neighbor (u : ℕ) (i : ℕ)).toNat,toNat_lt (neighbor_node u i)⟩

theorem neighbor_eq : G.graph.neighbor (u : ℕ) (i : ℕ)=(neighbor u i : ℕ) :=
  (Int.toNat_of_nonneg (neighbor_node u i).1).symm

def neighborIndex (u v : G.ClientId) : Option G.Slot :=
  (G.graph.index (u : ℕ) (v : ℕ)).bind fun i =>
    if h : i.toNat<G.degree then some ⟨i.toNat,h⟩ else none

theorem index_eq (u v : G.ClientId) : G.graph.index (u : ℕ) (v : ℕ) =
      (neighborIndex u v).map fun i : G.Slot => ((i : ℕ) : ℤ) := by
  unfold neighborIndex
  cases ho : G.graph.index (u : ℕ) (v : ℕ) with
  | none => rfl
  | some i =>
    obtain ⟨h0,hd,-⟩:=(G.factory.laws.index_iff _ _ i (node u) (node v)).mp ho
    have hlt : i.toNat<G.degree := by
      unfold degree
      omega
    simp only [Option.bind_some,dif_pos hlt,Option.map_some]
    congr 1
    omega

theorem neighborIndex_eq_some {u v : G.ClientId} {i : G.Slot} :
    neighborIndex u v=some i ↔ neighbor u i=v := by
  have h:=G.factory.laws.index_iff _ _ ((i : ℕ) : ℤ) (node u) (node v)
  rw [index_eq,neighbor_eq] at h
  have hi:=slot_lt i
  constructor
  · intro he
    have h2:=(h.mp (by rw [he,Option.map_some])).2.2
    exact Fin.ext (by omega)
  · intro he
    have h2:=h.mpr ⟨by omega,hi,by rw [he]⟩
    obtain ⟨j,hj,hji⟩:=Option.map_eq_some_iff.mp h2
    have : j=i := Fin.ext (by omega)
    rw [hj,this]

theorem neighbor_injective : Function.Injective (neighbor u) := by
  intro i j h
  have h1:=neighborIndex_eq_some.mpr h
  have h2 : neighborIndex u (neighbor u j)=some j := neighborIndex_eq_some.mpr rfl
  exact Option.some.inj (h1.symm.trans h2)

def areNeighbors (u v : G.ClientId) : Bool := (neighborIndex u v).isSome

theorem isSome_index (u v : G.ClientId) :
    (G.graph.index (u : ℕ) (v : ℕ)).isSome=areNeighbors u v := by
  rw [index_eq,Option.isSome_map,areNeighbors]

theorem areNeighbors_comm (u v : G.ClientId) : areNeighbors u v=areNeighbors v u := by
  have h:=G.factory.laws.isSome_comm (node u) (node v)
  rwa [isSome_index,isSome_index] at h

theorem areNeighbors_neighbor : areNeighbors u (neighbor u i)=true := by
  rw [areNeighbors,neighborIndex_eq_some.mpr rfl,Option.isSome_some]

theorem areNeighbors_iff {u v : G.ClientId} : areNeighbors u v=true ↔ ∃ i,neighbor u i=v := by
  rw [areNeighbors,Option.isSome_iff_exists]
  simp only [neighborIndex_eq_some]

theorem exists_ownIndex : ∃ i,neighborIndex u u=some i := by
  obtain ⟨i,hi⟩:=G.factory.laws.self_index _ (node u)
  rw [index_eq] at hi
  obtain ⟨j,hj,-⟩:=Option.map_eq_some_iff.mp hi
  exact ⟨j,hj⟩

def ownIndex : G.Slot := (neighborIndex u u).getD ⟨0,G.one_le_degree⟩

theorem neighbor_ownIndex : neighbor u (ownIndex u)=u := by
  obtain ⟨i,hi⟩:=exists_ownIndex u
  rw [ownIndex,hi,Option.getD_some,neighborIndex_eq_some.mp hi]

def isOutgoingNeighbor (u v : G.ClientId) : Bool := G.graph.outgoing (u : ℕ) (v : ℕ)

/-- The class functions return these values, if no `int` overflows. -/
theorem operations_returned (u v : G.ClientId) (i : G.Slot) :
    Returns G.graph (G.graph.getNeighbor (u : ℕ) (i : ℕ)) ((neighbor u i : ℕ) : ℤ) ∧
    Returns G.graph (G.graph.getNeighborIndex (u : ℕ) (v : ℕ))
      ((neighborIndex u v).map fun i : G.Slot => ((i : ℕ) : ℤ)) ∧
    Returns G.graph (G.graph.areNeighbors (u : ℕ) (v : ℕ)) (areNeighbors u v) ∧
    Returns G.graph (G.graph.isOutgoingNeighbor (u : ℕ) (v : ℕ)) (isOutgoingNeighbor u v) := by
  have hc:=G.factory.computed G.numNodes_int
  rw [← neighbor_eq,← index_eq,← isSome_index]
  exact ⟨hc.neighbor _ _ (node u) (by omega) (slot_lt i),hc.index _ _ (node u) (node v),
    hc.are _ _ (node u) (node v),hc.outgoing _ _ (node u) (node v)⟩

def pair : SharingGraph := ⟨.complete ⟨2,2⟩,.complete (rfl : createCompleteGraph 2 2=_),by decide⟩

end SharingGraph
end Fcp.SecAgg

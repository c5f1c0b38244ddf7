import Fcp.SecAgg.Server.SecretSharingGraph
import Mathlib.Tactic.Linarith
import Mathlib.Tactic.Ring

/-!
# Laws of the sharing graphs

The neighbor relation is symmetric with a self edge, without duplicates, and an edge points the
opposite way when it is read from its other end.
-/

namespace Fcp.SecAgg

open List SecretSharingGraph

variable (ps : List (ℤ × ℕ)) (inverse : List ℤ)

theorem foldl_set_getD_of_notMem (k : ℕ) (hk : ∀ p∈ps,p.1.toNat≠k) :
    (ps.foldl (fun inverse p => inverse.set p.1.toNat (p.2 : ℤ)) inverse).getD k 0 =
      inverse.getD k 0 := by
  induction ps generalizing inverse with
  | nil => rfl
  | cons p ps ih =>
    have hp : p.1.toNat≠k := hk p (mem_cons_self ..)
    rw [foldl_cons,ih _ (fun q hq => hk q (mem_cons_of_mem _ hq))]
    simp only [getD_eq_getElem?_getD,getElem?_set_ne hp]

theorem foldl_set_getD_of_mem (a : ℤ) (i : ℕ)
    (hnd : (ps.map (fun p => p.1.toNat)).Nodup) (hm : (a,i)∈ps)
    (hl : a.toNat < inverse.length) :
    (ps.foldl (fun inverse p => inverse.set p.1.toNat (p.2 : ℤ)) inverse).getD a.toNat 0=i := by
  induction ps generalizing inverse with
  | nil => simp at hm
  | cons p ps ih =>
    simp only [map_cons,nodup_cons,mem_map,not_exists,not_and] at hnd
    rw [foldl_cons]
    rcases mem_cons.mp hm with rfl | hm
    · rw [foldl_set_getD_of_notMem ps _ _ hnd.1]
      simp only [getD_eq_getElem?_getD,getElem?_set_self hl,Option.getD_some]
    · exact ih _ hnd.2 hm (by simpa using hl)

theorem mem_identityPermutation (n x : ℤ) : x∈identityPermutation n ↔ 0≤x ∧ x<n := by
  simp only [identityPermutation,mem_map,mem_range]
  constructor
  · rintro ⟨i,hi,rfl⟩
    omega
  · intro hx
    exact ⟨x.toNat,by omega,by omega⟩

structure Renaming (n : ℤ) (permutation inverse : List ℤ) : Prop where
  before : ∀ u,0≤u → u<n → 0≤vecAt inverse u ∧ vecAt inverse u<n
  after : ∀ k,0≤k → k<n → 0≤vecAt permutation k ∧ vecAt permutation k<n
  permutation_inverse : ∀ u,0≤u → u<n → vecAt permutation (vecAt inverse u)=u
  inverse_permutation : ∀ k,0≤k → k<n → vecAt inverse (vecAt permutation k)=k

theorem renaming_of_perm (n : ℤ) (perm : List ℤ) (hp : perm.Perm (identityPermutation n)) :
    Renaming n perm (invertPermutation perm) := by
  have hl : perm.length=n.toNat := by rw [hp.length_eq,identityPermutation,length_map,length_range]
  have hm : ∀ x,x∈perm ↔ 0≤x ∧ x<n := fun x => by
    rw [hp.mem_iff,mem_identityPermutation]
  have hnd : perm.Nodup := hp.nodup_iff.mpr (nodup_range.map fun _ _ h => by exact_mod_cast h)
  -- entries are nonnegative, so distinct entries write to distinct slots
  have hslots : (perm.zipIdx.map (fun p => p.1.toNat)).Nodup := by
    have he : perm.zipIdx.map (fun p => p.1.toNat)=perm.map Int.toNat := by
      have : (fun p : ℤ × ℕ => p.1.toNat)=Int.toNat ∘ Prod.fst := rfl
      rw [this,← map_map,zipIdx_map_fst]
    rw [he]
    refine (nodup_map_iff_inj_on hnd).mpr ?_
    intro x hx y hy hxy
    have hx0:=(hm x).mp hx
    have hy0:=(hm y).mp hy
    omega
  have hslot : ∀ k : ℕ,k<perm.length → 0≤perm.getD k 0 ∧ perm.getD k 0<n ∧
        vecAt (invertPermutation perm) (perm.getD k 0)=k := by
    intro k hk
    have hget : perm.getD k 0=perm[k] := by simp [getD_eq_getElem?_getD,hk]
    have hr:=(hm perm[k]).mp (getElem_mem hk)
    rw [hget]
    refine ⟨hr.1,hr.2,?_⟩
    refine foldl_set_getD_of_mem _ _ perm[k] k hslots ?_ ?_
    · exact mem_zipIdx_iff_getElem?.mpr (getElem?_eq_getElem hk)
    · rw [length_replicate]
      omega
  have ha : ∀ k,0≤k → k<n → 0≤vecAt perm k ∧ vecAt perm k<n ∧
      vecAt (invertPermutation perm) (vecAt perm k)=k := by
    intro k h0 hn
    have h:=hslot k.toNat (by omega)
    refine ⟨h.1,h.2.1,?_⟩
    have h2:=h.2.2
    rwa [Int.toNat_of_nonneg h0] at h2
  have hs : ∀ u,0≤u → u<n → ∃ k,0≤k ∧ k<n ∧ vecAt perm k=u := by
    intro u h0 hn
    obtain ⟨k,hk,he⟩:=getElem_of_mem ((hm u).mpr ⟨h0,hn⟩)
    refine ⟨k,by omega,by omega,?_⟩
    simp [vecAt,getD_eq_getElem?_getD,hk,he]
  refine ⟨?_,fun k h0 hn => ⟨(ha k h0 hn).1,(ha k h0 hn).2.1⟩,?_,fun k h0 hn => (ha k h0 hn).2.2⟩
  · intro u h0 hn
    obtain ⟨k,hk0,hkn,rfl⟩:=hs u h0 hn
    rw [(ha k hk0 hkn).2.2]
    exact ⟨hk0,hkn⟩
  · intro u h0 hn
    obtain ⟨k,hk0,hkn,rfl⟩:=hs u h0 hn
    rw [(ha k hk0 hkn).2.2]

theorem emod_of_lt_three_mul (x n : ℤ) (h0 : 0≤x) (h3 : x<3*n) :
    (x<n ∧ x%n=x) ∨ (n≤x ∧ x<2*n ∧ x%n=x-n) ∨ (2*n≤x ∧ x%n=x-2*n) := by
  by_cases h1 : x<n
  · exact .inl ⟨h1,Int.emod_eq_of_lt h0 h1⟩
  · by_cases h2 : x<2*n
    · refine .inr (.inl ⟨by omega,h2,?_⟩)
      rw [← Int.sub_emod_right]
      exact Int.emod_eq_of_lt (by omega) (by omega)
    · refine .inr (.inr ⟨by omega,?_⟩)
      have he : x-2*n=x-n-n := by ring
      rw [← Int.sub_emod_right,← Int.sub_emod_right,he]
      exact Int.emod_eq_of_lt (by omega) (by omega)

/-- The distance of two places on the circle. -/
def distance (n a b : ℤ) : ℤ := min ((a-b).natAbs : ℤ) (n-(a-b).natAbs)

/-- `indexBeforeRenaming` without the bounds of `int`. -/
def indexOnCircle (n degree a b : ℤ) : Option ℤ :=
  if distance n a b>degree/2 then none
  else if (a-distance n a b+n)%n=b then some (degree/2-distance n a b)
  else some (degree/2+distance n a b)

theorem indexOnCircle_eq_some (n d a b i : ℤ) (ho : d%2=1) (hd : 1≤d) (hdn : d≤n)
    (ha0 : 0≤a) (han : a<n) (hb0 : 0≤b) (hbn : b<n) :
    indexOnCircle n d a b=some i ↔ 0 ≤ i ∧ i<d ∧ (a-d/2+i+n)%n=b := by
  have hdisk : distance n a b=min ((a-b).natAbs : ℤ) (n-(a-b).natAbs) := rfl
  have hs:=emod_of_lt_three_mul (a-distance n a b+n) n (by omega) (by omega)
  unfold indexOnCircle
  constructor
  · intro h
    split at h
    · cases h
    next hdist =>
      split at h
      all_goals
        rename_i hb
        have hi:=Option.some.inj h
        have hw:=emod_of_lt_three_mul (a-d/2+i+n) n (by omega) (by omega)
        refine ⟨by omega,by omega,?_⟩
        omega
  · rintro ⟨hi0,hid,hw⟩
    have hp:=emod_of_lt_three_mul (a-d/2+i+n) n (by omega) (by omega)
    rw [if_neg (by omega)]
    split
    all_goals
      rename_i hb
      congr 1
      omega

theorem indexOnCircle_mirror (n d a b i : ℤ) (ho : d%2=1) (hd : 1≤d) (hdn : d≤n)
    (ha0 : 0≤a) (han : a<n) (hb0 : 0≤b) (hbn : b<n)
    (h : indexOnCircle n d a b=some i) :
    indexOnCircle n d b a=some (2*(d/2)-i) := by
  obtain ⟨hi0,hid,hw⟩:=(indexOnCircle_eq_some n d a b i ho hd hdn ha0 han hb0 hbn).mp h
  refine (indexOnCircle_eq_some n d b a _ ho hd hdn hb0 hbn ha0 han).mpr ⟨by omega,by omega,?_⟩
  have hf:=emod_of_lt_three_mul (a-d/2+i+n) n (by omega) (by omega)
  have hb:=emod_of_lt_three_mul (b-d/2+(2*(d/2)-i)+n) n (by omega) (by omega)
  omega

theorem indexOnCircle_self (n d a : ℤ) (ho : d%2=1) (hd : 1≤d) (hdn : d≤n)
    (ha0 : 0≤a) (han : a<n) : indexOnCircle n d a a=some (d/2) := by
  refine (indexOnCircle_eq_some n d a a _ ho hd hdn ha0 han ha0 han).mpr ⟨by omega,by omega,?_⟩
  have hp:=emod_of_lt_three_mul (a-d/2+d/2+n) n (by omega) (by omega)
  omega

namespace SecretSharingGraph

def Node (g : SecretSharingGraph) (u : ℤ) : Prop := 0≤u ∧ u<g.getNumNodes

/-! The functions of the classes without the bounds of `int`. -/

def neighbor : SecretSharingGraph → ℤ → ℤ → ℤ
  | complete _, _, i => i
  | harary g, u, i => vecAt g.permutation
      ((vecAt g.inversePermutation u-g.degree/2+i+g.numberOfNodes)%g.numberOfNodes)

def index : SecretSharingGraph → ℤ → ℤ → Option ℤ
  | complete _, _, v => some v
  | harary g, u, v => indexOnCircle g.numberOfNodes g.degree
      (vecAt g.inversePermutation u) (vecAt g.inversePermutation v)

def outgoing : SecretSharingGraph → ℤ → ℤ → Bool
  | complete _, u, v => decide (v≥u)
  | harary g, u, v => decide (((harary g).index u v).getD (-1)≥g.degree/2)

/-- No sum of a Harary graph is beyond `int`. -/
def Fits : SecretSharingGraph → Prop
  | complete _ => True
  | harary g => 2*g.numberOfNodes+g.degree/2≤2^31

end SecretSharingGraph

/-- A function of the class returns the value, or an `int` overflows. -/
def Returns {α : Type} (g : SecretSharingGraph) (x : Checked α) (a : α) : Prop :=
  x=.ok a ∨ x=.error .signedOverflow ∧ ¬ g.Fits

structure GraphLaws (g : SecretSharingGraph) : Prop where
  neighbor_node : ∀ u i,g.Node u → 0 ≤ i → i<g.getDegree → g.Node (g.neighbor u i)
  index_iff : ∀ u v i,g.Node u → g.Node v →
    (g.index u v=some i ↔ 0 ≤ i ∧ i<g.getDegree ∧ g.neighbor u i=v)
  self_index : ∀ u,g.Node u → ∃ i,g.index u u=some i
  outgoing_iff : ∀ u v,g.Node u → g.Node v →
    (g.outgoing u v=true ↔ ∃ i j,g.index u u=some i ∧ g.index u v=some j ∧ i≤j)
  reversed : ∀ u v i j,g.Node u → g.Node v → g.index u u=some i → g.index u v=some j →
    ∃ i' j',g.index v v=some i' ∧ g.index v u=some j' ∧ (i<j → j' < i') ∧ (j < i → i'<j')

/-- What the class functions return. -/
structure Computed (g : SecretSharingGraph) : Prop where
  neighbor : ∀ u i,g.Node u → 0 ≤ i → i<g.getDegree → Returns g (g.getNeighbor u i) (g.neighbor u i)
  index : ∀ u v,g.Node u → g.Node v → Returns g (g.getNeighborIndex u v) (g.index u v)
  are : ∀ u v,g.Node u → g.Node v → Returns g (g.areNeighbors u v) (g.index u v).isSome
  outgoing : ∀ u v,g.Node u → g.Node v → Returns g (g.isOutgoingNeighbor u v) (g.outgoing u v)

variable {u v : ℤ}

theorem complete_graph_laws (g : SecretSharingCompleteGraph) : GraphLaws (.complete g) where
  neighbor_node _ _ _ h0 hd := ⟨h0,hd⟩
  index_iff u v i _ hv := by
    simp only [index,neighbor,Option.some.injEq]
    exact ⟨fun h => h ▸ ⟨hv.1,hv.2,rfl⟩,fun h => h.2.2.symm⟩
  self_index u _ := ⟨u,rfl⟩
  outgoing_iff u v _ _ := by simp [index,outgoing]
  reversed u v i j _ _ hi hj := by
    obtain rfl:=Option.some.inj hi
    obtain rfl:=Option.some.inj hj
    exact ⟨v,u,rfl,rfl,id,id⟩

theorem complete_graph_computed (g : SecretSharingCompleteGraph) : Computed (.complete g) := by
  have hvalid : ∀ u,(complete g).Node u → g.isValidNode u=true := fun u hu => decide_eq_true hu
  refine ⟨fun u i hu h0 hd => .inl ?_,fun u v hu hv => .inl ?_,fun u v hu hv => .inl ?_,
    fun u v hu hv => .inl ?_⟩
  · simp only [getNeighbor,SecretSharingCompleteGraph.getNeighbor,hvalid u hu,hvalid i ⟨h0,hd⟩]
    rfl
  · simp only [getNeighborIndex,SecretSharingCompleteGraph.getNeighborIndex,hvalid u hu,hvalid v hv]
    rfl
  · simp only [areNeighbors,SecretSharingCompleteGraph.areNeighbors,hvalid u hu,hvalid v hv]
    rfl
  · simp only [isOutgoingNeighbor,SecretSharingCompleteGraph.isOutgoingNeighbor,
      hvalid u hu,hvalid v hv]
    rfl

structure SecretSharingHararyGraph.Admitted (g : SecretSharingHararyGraph) : Prop where
  inverse : Renaming g.numberOfNodes g.permutation g.inversePermutation
  odd : g.degree%2=1
  pos : 1≤g.degree
  le : g.degree≤g.numberOfNodes

section Harary

variable {g : SecretSharingHararyGraph} (hg : g.Admitted)
include hg

theorem SecretSharingHararyGraph.Admitted.place (hu : (harary g).Node u) :
    0≤vecAt g.inversePermutation u ∧ vecAt g.inversePermutation u<g.numberOfNodes :=
  hg.inverse.before u hu.1 hu.2

theorem harary_index_self (hu : (harary g).Node u) : (harary g).index u u=some (g.degree/2) :=
  indexOnCircle_self _ _ _ hg.odd hg.pos hg.le (hg.place hu).1 (hg.place hu).2

theorem harary_graph_laws : GraphLaws (.harary g) := by
  have hn : 0<g.numberOfNodes := by have := hg.pos; have := hg.le; omega
  refine ⟨?_,?_,fun u hu => ⟨_,harary_index_self hg hu⟩,?_,?_⟩
  · intro u i hu h0 hd
    exact hg.inverse.after _ (Int.emod_nonneg _ hn.ne') (Int.emod_lt_of_pos _ hn)
  · intro u v i hu hv
    have hu':=hg.place hu
    have hv':=hg.place hv
    rw [index,indexOnCircle_eq_some _ _ _ _ _ hg.odd hg.pos hg.le hu'.1 hu'.2 hv'.1 hv'.2]
    -- the position on the circle determines the node and conversely, through the renaming
    refine and_congr_right fun h0 => and_congr_right fun hd => ⟨fun hw => ?_,fun h => ?_⟩
    · rw [neighbor,hw,hg.inverse.permutation_inverse v hv.1 hv.2]
    · rw [← h,neighbor,hg.inverse.inverse_permutation _
        (Int.emod_nonneg _ hn.ne') (Int.emod_lt_of_pos _ hn)]
  · intro u v hu hv
    rw [harary_index_self hg hu,outgoing]
    cases (harary g).index u v with
    | none =>
      have := hg.pos
      simp only [Option.getD_none,decide_eq_true_eq,reduceCtorEq,false_and,and_false,exists_false,
        iff_false]
      omega
    | some j => simp
  · intro u v i j hu hv hi hj
    have hu':=hg.place hu
    have hv':=hg.place hv
    rw [harary_index_self hg hu] at hi
    obtain rfl:=Option.some.inj hi
    exact ⟨_,2*(g.degree/2)-j,harary_index_self hg hv,indexOnCircle_mirror _ _ _ _ _ hg.odd hg.pos
      hg.le hu'.1 hu'.2 hv'.1 hv'.2 hj,by omega,by omega⟩

/-- The last sum is the largest one. -/
theorem harary_getNeighbor {i : ℤ} (hu : (harary g).Node u) (h0 : 0 ≤ i)
    (hd : i<g.degree) : g.getNeighbor u i =
      if vecAt g.inversePermutation u-g.degree/2+i+g.numberOfNodes<2^31 then
        .ok ((harary g).neighbor u i)
      else .error .signedOverflow := by
  have hv : g.isValidNode u=true := decide_eq_true hu
  have hi : g.isValidNeighborIndex i=true := decide_eq_true ⟨h0,hd⟩
  have hp:=hg.place hu
  have hle:=hg.le
  simp only [SecretSharingHararyGraph.getNeighbor,hv,hi,fcpCheck_true,ok_bind,checkInt_eq_ite]
  by_cases h : vecAt g.inversePermutation u-g.degree/2+i+g.numberOfNodes<2^31
  · rw [if_pos (by omega),ok_bind,if_pos (by omega),ok_bind,if_pos (by omega),ok_bind,if_pos h]
    rfl
  · rw [if_neg h]
    by_cases h1 : -2^31≤vecAt g.inversePermutation u-g.degree/2 ∧
        vecAt g.inversePermutation u-g.degree/2<2^31
    · rw [if_pos h1,ok_bind]
      by_cases h2 : vecAt g.inversePermutation u-g.degree/2+i<2^31
      · rw [if_pos ⟨by omega,h2⟩,ok_bind,if_neg (by omega)]
        rfl
      · rw [if_neg (by omega)]
        rfl
    · rw [if_neg h1]
      rfl

theorem harary_getNeighborIndex (hn : g.numberOfNodes<2^31)
    (hu : (harary g).Node u) (hv : (harary g).Node v) :
    Returns (.harary g) (g.getNeighborIndex u v) ((harary g).index u v) := by
  have hu' : g.isValidNode u=true := decide_eq_true hu
  have hv' : g.isValidNode v=true := decide_eq_true hv
  have hle:=hg.le
  have hp:=hg.pos
  obtain ⟨ha,han⟩:=hg.place hu
  obtain ⟨hb,hbn⟩:=hg.place hv
  simp only [SecretSharingHararyGraph.getNeighborIndex,hu',hv',fcpCheck_true,ok_bind]
  rw [index]
  generalize vecAt g.inversePermutation u=a at ha han ⊢
  generalize vecAt g.inversePermutation v=b at hb hbn ⊢
  have hd : min ((a-b).natAbs : ℤ) (g.numberOfNodes-(a-b).natAbs)=distance g.numberOfNodes a b :=
    rfl
  have hdn : 0≤distance g.numberOfNodes a b ∧ distance g.numberOfNodes a b≤g.numberOfNodes := by
    omega
  simp only [SecretSharingHararyGraph.indexBeforeRenaming,checkInt_eq_ite,indexOnCircle]
  rw [if_pos (by omega),ok_bind,if_pos (by omega),ok_bind,if_pos (by omega),ok_bind,hd]
  by_cases hf : distance g.numberOfNodes a b>g.degree/2
  · rw [if_pos hf,if_pos hf]
    exact .inl rfl
  rw [if_neg hf,if_neg hf,if_pos (by omega),ok_bind]
  by_cases hs : a-distance g.numberOfNodes a b+g.numberOfNodes<2^31
  · rw [if_pos (by omega),ok_bind]
    by_cases hback : (a-distance g.numberOfNodes a b+g.numberOfNodes)%g.numberOfNodes=b
    · rw [if_pos hback,if_pos hback,if_pos (by omega)]
      exact .inl rfl
    · rw [if_neg hback,if_neg hback,if_pos (by omega)]
      exact .inl rfl
  · rw [if_neg (by omega)]
    refine .inr ⟨rfl,fun h => ?_⟩
    have h : 2*g.numberOfNodes+g.degree/2≤2^31 := h
    omega

theorem harary_graph_computed (hn : g.numberOfNodes<2^31) : Computed (.harary g) := by
  have hvalid : ∀ u,(harary g).Node u → g.isValidNode u=true := fun u hu => decide_eq_true hu
  have hl:=harary_graph_laws hg
  refine ⟨fun u i hu h0 hd => ?_,fun u v hu hv => harary_getNeighborIndex hg hn hu hv,
    fun u v hu hv => ?_,fun u v hu hv => ?_⟩
  · rw [getNeighbor,harary_getNeighbor hg hu h0 hd]
    split
    · exact .inl rfl
    · refine .inr ⟨rfl,fun h => ?_⟩
      have h : 2*g.numberOfNodes+g.degree/2≤2^31 := h
      have hd : i<g.degree := hd
      have hp:=hg.place hu
      have ho:=hg.odd
      omega
  · simp only [areNeighbors,SecretSharingHararyGraph.areNeighbors,hvalid u hu,
      hvalid v hv,fcpCheck_true,ok_bind]
    refine (harary_getNeighborIndex hg hn hu hv).imp (fun h => ?_) fun h => ⟨by rw [h.1]; rfl,h.2⟩
    rw [h,ok_bind]
    cases hi : (harary g).index u v with
    | none => rfl
    | some i =>
      have h0:=((hl.index_iff u v i hu hv).mp hi).1
      simp [h0,pure,Except.pure]
  · simp only [isOutgoingNeighbor,SecretSharingHararyGraph.isOutgoingNeighbor,
      hvalid u hu,hvalid v hv,fcpCheck_true,ok_bind]
    refine (harary_getNeighborIndex hg hn hu hv).imp (fun h => ?_) fun h => ⟨by rw [h.1]; rfl,h.2⟩
    rw [h]
    rfl

/-- With one node or neighbor more than fits, the last place of the circle has no last neighbor. -/
theorem harary_overflow (h : ¬ (harary g).Fits) : ∃ u,(harary g).Node u ∧
      g.getNeighbor u (g.degree-1)=.error .signedOverflow := by
  have h : ¬ 2*g.numberOfNodes+g.degree/2≤2^31 := h
  have hle:=hg.le
  have hpos:=hg.pos
  have ho:=hg.odd
  have hu:=hg.inverse.after (g.numberOfNodes-1) (by omega) (by omega)
  have hp:=hg.inverse.inverse_permutation (g.numberOfNodes-1) (by omega) (by omega)
  refine ⟨vecAt g.permutation (g.numberOfNodes-1),hu,?_⟩
  rw [harary_getNeighbor hg hu (by omega) (by omega),hp,if_neg (by omega)]

end Harary

inductive FactoryGraph : SecretSharingGraph → Prop
  | complete {numNodes threshold : ℤ} {g : SecretSharingGraph}
      (h : createCompleteGraph numNodes threshold=.ok g) : FactoryGraph g
  | harary {numNodes degree threshold : ℤ} {isRandom : Bool} {shuffle : Shuffle}
      {g : SecretSharingGraph}
      (h : createHararyGraph numNodes degree threshold isRandom shuffle=.ok g) : FactoryGraph g

variable {g : SecretSharingGraph}

theorem createCompleteGraph_eq_ok {numNodes t : ℤ} (h : createCompleteGraph numNodes t=.ok g) :
    1≤t ∧ t≤numNodes ∧ g=.complete ⟨numNodes,t⟩ := by
  simp only [createCompleteGraph,bind_eq_ok,fcpCheck_eq_ok,decide_eq_true_eq] at h
  obtain ⟨-,-,-,ht,-,hn,hg⟩:=h
  exact ⟨ht,hn,(Except.ok.inj hg).symm⟩

theorem createHararyGraph_eq_ok {numNodes degree t : ℤ} {isRandom : Bool}
    {shuffle : Shuffle} (h : createHararyGraph numNodes degree t isRandom shuffle=.ok g) :
    1≤t ∧ t≤degree ∧ ∃ k : SecretSharingHararyGraph,
      g=.harary k ∧ k.Admitted ∧ k.degree=degree ∧ k.threshold=t := by
  simp only [createHararyGraph,bind_eq_ok,fcpCheck_eq_ok,decide_eq_true_eq] at h
  obtain ⟨-,hn,-,hd,-,ho,-,ht,-,htd,hg⟩:=h
  have hp : (if isRandom then shuffle.apply (identityPermutation numNodes)
      else identityPermutation numNodes).Perm (identityPermutation numNodes) := by
    split
    · exact shuffle.perm _
    · exact List.Perm.refl _
  have hl:=hp.length_eq
  rw [identityPermutation,length_map,length_range,← identityPermutation] at hl
  refine ⟨ht,htd,_,(Except.ok.inj hg).symm,⟨?_,?_,?_,?_⟩,rfl,rfl⟩
  · have hr:=renaming_of_perm numNodes _ hp
    have he : ((numNodes.toNat : ℕ) : ℤ)=numNodes := by omega
    simp only [SecretSharingHararyGraph.create,hl,he]
    exact hr
  · show degree%2=1
    rwa [Int.tmod_eq_emod_of_nonneg (by omega)] at ho
  · show 1≤degree
    omega
  · show degree≤((List.length _ : ℕ) : ℤ)
    rw [hl]
    omega

theorem FactoryGraph.bounds (hg : FactoryGraph g) :
    1≤g.getThreshold ∧ g.getThreshold≤g.getDegree ∧ g.getDegree≤g.getNumNodes := by
  cases hg with
  | complete h =>
    obtain ⟨ht,hn,rfl⟩:=createCompleteGraph_eq_ok h
    exact ⟨ht,hn,le_refl _⟩
  | harary h =>
    obtain ⟨ht,htd,k,rfl,hk,hd,hthr⟩:=createHararyGraph_eq_ok h
    have hle:=hk.le
    simp only [getThreshold,getDegree,getNumNodes,SecretSharingHararyGraph.getDegree]
    omega

theorem FactoryGraph.laws (hg : FactoryGraph g) : GraphLaws g := by
  cases hg with
  | complete h =>
    obtain ⟨-,-,rfl⟩:=createCompleteGraph_eq_ok h
    exact complete_graph_laws _
  | harary h =>
    obtain ⟨-,-,k,rfl,hk,-⟩:=createHararyGraph_eq_ok h
    exact harary_graph_laws hk

section

variable (hg : GraphLaws g) (hu : g.Node u) (hv : g.Node v)
include hg hu hv

theorem GraphLaws.isSome_comm : (g.index u v).isSome=(g.index v u).isSome := by
  have hs {u v : ℤ} (hu : g.Node u) (hv : g.Node v) (h : (g.index u v).isSome) :
      (g.index v u).isSome := by
    obtain ⟨j,hj⟩:=Option.isSome_iff_exists.mp h
    obtain ⟨i,hi⟩:=hg.self_index u hu
    obtain ⟨-,j',-,hj',-⟩:=hg.reversed u v i j hu hv hi hj
    exact Option.isSome_iff_exists.mpr ⟨j',hj'⟩
  exact Bool.eq_iff_iff.mpr ⟨hs hu hv,hs hv hu⟩

theorem GraphLaws.outgoing_eq {i j : ℤ} (hi : g.index u u=some i) (hj : g.index u v=some j)
    (hne : i≠j) : g.outgoing u v=decide (i<j) := by
  rw [Bool.eq_iff_iff,hg.outgoing_iff u v hu hv,hi,hj,decide_eq_true_eq]
  constructor
  · rintro ⟨x,y,⟨⟩,⟨⟩,hxy⟩
    omega
  · intro h
    exact ⟨i,j,rfl,rfl,h.le⟩

theorem GraphLaws.edge (huv : u≠v) (hn : (g.index u v).isSome) :
    ∃ i j i' j',g.index u u=some i ∧ g.index u v=some j ∧ g.index v v=some i' ∧
      g.index v u=some j' ∧ g.outgoing u v=decide (i<j) ∧ g.outgoing v u=decide (i'<j') ∧
      Xor (i<j) (i'<j') ∧ (i<j → j' < i') := by
  obtain ⟨i,hi⟩:=hg.self_index u hu
  obtain ⟨j,hj⟩:=Option.isSome_iff_exists.mp hn
  obtain ⟨i',j',hi',hj',hlt,hgt⟩:=hg.reversed u v i j hu hv hi hj
  -- equal positions would make the two nodes equal
  have hij : i≠j := by
    rintro rfl
    have h1:=((hg.index_iff u u i hu hu).mp hi).2.2
    have h2:=((hg.index_iff u v i hu hv).mp hj).2.2
    exact huv (h1.symm.trans h2)
  have hij' : i'≠j' := by omega
  refine ⟨i,j,i',j',hi,hj,hi',hj',hg.outgoing_eq hu hv hi hj hij,
    hg.outgoing_eq hv hu hi' hj' hij',?_,hlt⟩
  by_cases h : i<j
  · exact .inl ⟨h,by omega⟩
  · exact .inr ⟨by omega,h⟩

end

theorem FactoryGraph.computed (hg : FactoryGraph g) (hn : g.getNumNodes<2^31) : Computed g := by
  cases hg with
  | complete h =>
    obtain ⟨-,-,rfl⟩:=createCompleteGraph_eq_ok h
    exact complete_graph_computed _
  | harary h =>
    obtain ⟨-,-,k,rfl,hk,-⟩:=createHararyGraph_eq_ok h
    exact harary_graph_computed hk hn

theorem Returns.eq_ok {α : Type} {x : Checked α} {a : α} (h : Returns g x a) (hf : g.Fits) :
    x=.ok a :=
  h.resolve_right fun h => h.2 hf

/-- Neighbor lists have no duplicates, the relation is symmetric with one self edge, and
exactly one end of an edge between different nodes sees it as outgoing, as long as the sums of a
Harary graph are within `int`; otherwise some neighbor cannot be had. -/
theorem secret_sharing_graph_laws (g : SecretSharingGraph) (hg : FactoryGraph g)
    (hn : g.getNumNodes<2^31) :
    (g.Fits → ∀ u v,g.Node u → g.Node v → (∃ o,g.getNeighborIndex u v=.ok o) ∧
      (∀ i,g.getNeighborIndex u v=.ok (some i) ↔ 0 ≤ i ∧ i<g.getDegree ∧ g.getNeighbor u i=.ok v) ∧
      (∃ b,g.areNeighbors u v=.ok b ∧ g.areNeighbors v u=.ok b) ∧
      g.areNeighbors u u=.ok true ∧
      (∃! i,0 ≤ i ∧ i<g.getDegree ∧ g.getNeighbor u i=.ok u) ∧
      (u≠v → g.areNeighbors u v=.ok true →
        ∃ i j i' j',g.getNeighborIndex u u=.ok (some i) ∧ g.getNeighborIndex u v=.ok (some j) ∧
          g.getNeighborIndex v v=.ok (some i') ∧ g.getNeighborIndex v u=.ok (some j') ∧
          g.isOutgoingNeighbor u v=.ok (decide (i<j)) ∧
          g.isOutgoingNeighbor v u=.ok (decide (i'<j')) ∧
          Xor (i<j) (i'<j') ∧ (i<j → j' < i'))) ∧
    (¬ g.Fits → ∃ u,g.Node u ∧ g.getNeighbor u (g.getDegree-1)=.error .signedOverflow) := by
  have hl:=hg.laws
  have hc:=hg.computed hn
  refine ⟨fun hf u v hu hv => ?_,fun hf => ?_⟩
  · have hidx {u v : ℤ} (hu : g.Node u) (hv : g.Node v) :
        g.getNeighborIndex u v=.ok (g.index u v) := (hc.index u v hu hv).eq_ok hf
    have hiff {u v : ℤ} (hu : g.Node u) (hv : g.Node v) (i : ℤ) : g.index u v=some i ↔
        0 ≤ i ∧ i<g.getDegree ∧ g.getNeighbor u i=.ok v := by
      rw [hl.index_iff u v i hu hv]
      refine and_congr_right fun h0 => and_congr_right fun hd => ?_
      rw [(hc.neighbor u i hu h0 hd).eq_ok hf,Except.ok.injEq]
    simp only [hidx hu hu,hidx hu hv,hidx hv hu,hidx hv hv,(hc.are u v hu hv).eq_ok hf,
      (hc.are v u hv hu).eq_ok hf,(hc.are u u hu hu).eq_ok hf,(hc.outgoing u v hu hv).eq_ok hf,
      (hc.outgoing v u hv hu).eq_ok hf,Except.ok.injEq]
    obtain ⟨i,hi⟩:=hl.self_index u hu
    refine ⟨⟨_,rfl⟩,hiff hu hv,⟨_,rfl,(hl.isSome_comm hu hv).symm⟩,by rw [hi]; rfl,
      ⟨i,(hiff hu hu i).mp hi,fun j hj => ?_⟩,hl.edge hu hv⟩
    have hj:=(hiff hu hu j).mpr hj
    exact Option.some.inj (hj.symm.trans hi)
  · cases hg with
    | complete h =>
      obtain ⟨-,-,rfl⟩:=createCompleteGraph_eq_ok h
      exact absurd trivial hf
    | harary h =>
      obtain ⟨-,-,k,rfl,hk,-⟩:=createHararyGraph_eq_ok h
      exact harary_overflow hk hf

def reverseShuffle : Shuffle := ⟨List.reverse,reverse_perm⟩

theorem secret_sharing_graph_laws_five :
    ∃ g,createHararyGraph 5 3 2 true reverseShuffle=.ok g ∧ g.areNeighbors 0 4=.ok true ∧
      ∃ i j i' j',g.getNeighborIndex 0 0=.ok (some i) ∧ g.getNeighborIndex 0 4=.ok (some j) ∧
        g.getNeighborIndex 4 4=.ok (some i') ∧ g.getNeighborIndex 4 0=.ok (some j') ∧
        g.isOutgoingNeighbor 0 4=.ok (decide (i<j)) ∧
        g.isOutgoingNeighbor 4 0=.ok (decide (i'<j')) ∧
        Xor (i<j) (i'<j') ∧ (i<j → j' < i') := by
  have h : createHararyGraph 5 3 2 true reverseShuffle=.ok
      (.harary (SecretSharingHararyGraph.create 3 2 [4,3,2,1,0])) := rfl
  refine ⟨_,h,rfl,?_⟩
  exact ((secret_sharing_graph_laws _ (.harary h) (by decide)).1
    (show (2 : ℤ)*5+3/2≤2^31 by decide) 0 4 ⟨by decide,by decide⟩
      ⟨by decide,by decide⟩).2.2.2.2.2 (by decide) rfl

/-- For the last node the sum is `2^31 + 1`. -/
theorem neighbor_overflow : ∃ g u,createHararyGraph (2^30+1) 1 1 false reverseShuffle=.ok g ∧
    g.Node u ∧ g.getNeighbor u 0=.error .signedOverflow := by
  have h : createHararyGraph (2^30+1) 1 1 false reverseShuffle=.ok (.harary
      (SecretSharingHararyGraph.create 1 1 (identityPermutation (2^30+1)))) := rfl
  obtain ⟨-,-,k,hk,ha,-⟩:=createHararyGraph_eq_ok h
  obtain rfl:=harary.inj hk
  obtain ⟨u,hu,ho⟩:=harary_overflow ha (by
    show ¬ 2*((identityPermutation (2^30+1)).length : ℤ)+1/2≤2^31
    rw [identityPermutation,length_map,length_range]
    omega)
  exact ⟨_,u,h,hu,ho⟩

end Fcp.SecAgg

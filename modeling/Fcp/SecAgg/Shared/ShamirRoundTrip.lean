import Fcp.Lib.WrappingSum
import Fcp.SecAgg.Shared.ShamirField
import Fcp.SecAgg.Shared.Subsecrets

/-!
# Sharing and reconstructing (shared/shamir_secret_sharing.cc)

Each subsecret comes back as the interpolation at zero, except that its running sum lives in a
`uint32_t`: each overflow moves the result by 22.
-/

namespace Fcp.SecAgg.ShamirSecretSharing

open List
open Fcp.Lib

theorem horner_tail (x : ℕ) (hx : x<2^31) (cs : List ℕ) (hcs : ∀ c∈cs,c<kPrime) :
    cs.foldr (fun c sum => u64 (u64 (sum+c)*x)%kPrime) 0<kPrime ∧
      ((cs.foldr (fun c sum => u64 (u64 (sum+c)*x)%kPrime) 0 : ℕ) : ZMod kPrime) =
        x*horner (x : ZMod kPrime) (cs.map fun c : ℕ => (c : ZMod kPrime)) := by
  induction cs with
  | nil => exact ⟨kPrime_pos,by simp [horner]⟩
  | cons c cs ih =>
    obtain ⟨hlt,hcast⟩:=ih fun d hd => hcs d (mem_cons_of_mem _ hd)
    have hc:=hcs c (mem_cons_self ..)
    rw [foldr_cons]
    generalize cs.foldr (fun c sum => u64 (u64 (sum+c)*x)%kPrime) 0=sum at hlt hcast
    refine ⟨Nat.mod_lt _ kPrime_pos,?_⟩
    have hk : kPrime=2^31+11 := rfl
    have hp : (sum+c)*x<2^64 := by
      calc (sum+c)*x≤(sum+c)*2^31 := Nat.mul_le_mul_left _ hx.le
        _<2^33*2^31 := Nat.mul_lt_mul_of_pos_right (by omega) (by decide)
        _=2^64 := (Nat.pow_add 2 33 31).symm
    rw [u64_of_lt (x := sum+c) (by omega),u64_of_lt hp,ZMod.natCast_mod,map_cons,horner]
    push_cast
    rw [hcast]
    ring

theorem cast_evaluatePolynomial (x : ℕ) (hx : x<2^31) (c : ℕ) (cs : List ℕ)
    (hcs : ∀ d∈c::cs,d<kPrime) :
    evaluatePolynomial (c::cs) x<kPrime ∧ ((evaluatePolynomial (c::cs) x : ℕ) : ZMod kPrime) =
        horner (x : ZMod kPrime) ((c::cs).map fun c : ℕ => (c : ZMod kPrime)) := by
  obtain ⟨hlt,hcast⟩:=horner_tail x hx cs fun d hd => hcs d (mem_cons_of_mem _ hd)
  have hc:=hcs c (mem_cons_self ..)
  have hk : kPrime=2^31+11 := rfl
  rw [evaluatePolynomial,tail_cons,headD_cons]
  generalize cs.foldr (fun c sum => u64 (u64 (sum+c)*x)%kPrime) 0=sum at hlt hcast
  have hm:=Nat.mod_lt (sum+c) kPrime_pos
  rw [u64_of_lt (by omega),u32_of_lt (by omega)]
  refine ⟨hm,?_⟩
  rw [ZMod.natCast_mod,map_cons,horner,Nat.cast_add,hcast,add_comm]

theorem decode_intToByteString {v : ℕ} (hv : v<2^32) :
    (intToByteString v).foldl (fun acc b => u32 (u32 (acc <<< 8)+b.toNat)) 0=v := by
  simp only [intToByteString,foldl_cons,foldl_nil,UInt8.toNat_ofNat',u32,Nat.shiftLeft_eq]
  omega

theorem take_drop_flatMap {α : Type} (f : α → Bytes) (w : ℕ) (l : List α)
    (hf : ∀ a∈l,(f a).length=w) (i : ℕ) (hi : i<l.length) :
    ((l.flatMap f).drop (w*i)).take w=f l[i] := by
  induction l generalizing i with
  | nil => simp at hi
  | cons a l ih =>
    have ha:=hf a (mem_cons_self ..)
    rw [flatMap_cons]
    cases i with
    | zero =>
      rw [Nat.mul_zero,drop_zero,← ha,take_left]
      rfl
    | succ i =>
      rw [Nat.mul_succ,Nat.add_comm,← drop_drop,← ha,drop_left,ha]
      exact ih (fun b hb => hf b (mem_cons_of_mem _ hb)) i (by simpa using hi)

def shareOf (threshold : ℕ) (subsecrets : List ℕ) (random : ℕ → ℕ → Fin kPrime) (j : ℕ) :
    ShamirShare :=
  subsecrets.zipIdx.flatMap fun p =>
    intToByteString (evaluatePolynomial (polynomialOf threshold p.1 (random p.2)) (j+1))

theorem length_shareOf (t : ℕ) (subs : List ℕ) (rnd : ℕ → ℕ → Fin kPrime)
    (j : ℕ) : (shareOf t subs rnd j).length=4*subs.length := by
  simp [shareOf,length_flatMap,Nat.mul_comm]

theorem foldl_appendSubshares (f : ℕ × ℕ → List ℕ) (l : List (ℕ × ℕ)) (n : ℕ)
    (g : ℕ → ShamirShare) :
    l.foldl (fun shares p => appendSubshares shares (f p)) ((List.range n).map g) =
      (List.range n).map fun j =>
        g j++l.flatMap fun p => intToByteString (evaluatePolynomial (f p) (j+1)) := by
  induction l generalizing g with
  | nil => simp
  | cons p l ih =>
    have hs : appendSubshares ((List.range n).map g) (f p)=(List.range n).map fun j =>
        g j++intToByteString (evaluatePolynomial (f p) (j+1)) := by
      refine ext_getElem (by simp [appendSubshares]) fun i h1 h2 => ?_
      simp [appendSubshares]
    rw [foldl_cons,hs,ih]
    simp only [flatMap_cons,append_assoc]

variable {subs cs : List ℕ} {i k : ℕ} {shares : List ShamirShare}

theorem share_eq {t n : ℕ} {s : Bytes} (rnd : ℕ → ℕ → Fin kPrime) (hs : s≠[]) (ht : 2≤t) (hn : t≤n)
    (hsub : divideIntoSubsecrets s=.ok subs) :
    share t n s rnd=.ok ((List.range n).map (shareOf t subs rnd)) := by
  have hne : (!s.isEmpty)=true := by simpa using hs
  have hi : List.replicate n ([] : ShamirShare)=(List.range n).map fun _ => [] := by
    refine ext_getElem (by simp) fun i h1 h2 => ?_
    simp
  rw [share,hne,hsub,hi]
  simp only [show n>1 by omega,ht,hn,and_self,decide_true,fcpCheck_true,bind,
    Except.bind,foldl_appendSubshares,nil_append]
  rfl

theorem subshare_shareOf {t : ℕ} {rnd : ℕ → ℕ → Fin kPrime} {j : ℕ} (hi : i<subs.length)
    (hlt : evaluatePolynomial (polynomialOf t subs[i] (rnd i)) (j+1)<2^32) :
    subshare (shareOf t subs rnd j) i =
      evaluatePolynomial (polynomialOf t subs[i] (rnd i)) (j+1) := by
  have hc:=take_drop_flatMap (fun p : ℕ × ℕ => intToByteString
    (evaluatePolynomial (polynomialOf t p.1 (rnd p.2)) (j+1))) 4 subs.zipIdx
    (fun _ _ => length_intToByteString _) i (by simpa using hi)
  rw [subshare,kSubsecretSize,shareOf,hc]
  simp only [getElem_zipIdx,Nat.zero_add]
  exact decode_intToByteString hlt

def presentFrom : List ShamirShare → ℕ → List ℕ
  | [], _ => []
  | share::rest, i =>
    if share.isEmpty then presentFrom rest (i+1) else (i+1)::presentFrom rest (i+1)

theorem collectShares_eq (t maxNum m : ℕ) (hm : 0 < m) (hmax : m ≤ maxNum)
    (shares : List ShamirShare) (hs : ∀ sh∈shares,sh.isEmpty=false → sh.length=4*m)
    (i : ℕ) (xValues : List ℕ) (num : ℕ) (hl : xValues.length≤t)
    (hn : num = if xValues=[] then 0 else m) :
    collectShares t maxNum shares i xValues num=.ok ((xValues++presentFrom shares i).take t,
        if (xValues++presentFrom shares i).take t=[] then 0 else m) := by
  induction shares generalizing i xValues num with
  | nil => rw [collectShares,presentFrom,append_nil,take_of_length_le hl,hn]
  | cons sh rest ih =>
    have hr : ∀ sh'∈rest,sh'.isEmpty=false → sh'.length=4*m :=
      fun sh' h => hs sh' (mem_cons_of_mem _ h)
    rw [collectShares,presentFrom]
    by_cases hf : xValues.length<t
    · rw [if_pos hf]
      cases he : sh.isEmpty with
      | true => exact ih hr (i+1) xValues num hl hn
      | false =>
        have hlen4:=hs sh (mem_cons_self ..) he
        have hc : checkShare sh num maxNum=.ok m := by
          rw [checkShare,hlen4,kSubsecretSize,hn]
          by_cases hx : xValues=[]
          · simp [hx,hm,hmax]
          · simp [hx,hm.ne',Nat.mul_comm]
        simp only [hc,Bool.false_eq_true,if_false,bind,Except.bind]
        rw [ih hr (i+1) (xValues++[i+1]) m (by simp; omega) (by simp),append_assoc]
        rfl
    · have ha : xValues.length=t := by omega
      have ht : ∀ l : List ℕ,(xValues++l).take t=xValues := by
        intro l
        rw [← ha,take_left]
      rw [if_neg hf,ht,hn]

def blank (keep : ℕ → Bool) (shares : List ShamirShare) : List ShamirShare :=
  shares.zipIdx.map fun p => if keep p.2 then p.1 else []

def keptValues (keep : ℕ → Bool) (threshold numShares : ℕ) : List ℕ :=
  (((List.range numShares).filter keep).map fun j => j+1).take threshold

theorem blank_map_range (keep : ℕ → Bool) (n : ℕ) (g : ℕ → ShamirShare) :
    blank keep ((List.range n).map g)=(List.range n).map fun j => if keep j then g j else [] := by
  refine ext_getElem (by simp [blank]) fun i h1 h2 => ?_
  simp [blank]

theorem presentFrom_range' (keep : ℕ → Bool) (g : ℕ → ShamirShare) (hg : ∀ j,g j≠[]) (i n : ℕ) :
    presentFrom ((List.range' i n).map fun j => if keep j then g j else []) i =
      ((List.range' i n).filter keep).map fun j => j+1 := by
  induction n generalizing i with
  | zero => rfl
  | succ n ih =>
    rw [range'_succ,map_cons,presentFrom,ih]
    cases hk : keep i with
    | true =>
      have hne : (g i).isEmpty=false := by simpa using hg i
      simp [hk,hne]
    | false => simp [hk]

theorem presentFrom_blank (keep : ℕ → Bool) (n : ℕ) (g : ℕ → ShamirShare) (hg : ∀ j,g j≠[]) :
    presentFrom (blank keep ((List.range n).map g)) 0 =
      ((List.range n).filter keep).map fun j => j+1 := by
  rw [blank_map_range,range_eq_range',presentFrom_range' keep g hg]

theorem mem_keptValues {keep : ℕ → Bool} {t n x : ℕ} (h : x∈keptValues keep t n) :
    ∃ j,j<n ∧ keep j=true ∧ x=j+1 := by
  have hm:=mem_of_mem_take h
  obtain ⟨j,hj,rfl⟩:=mem_map.mp hm
  obtain ⟨hr,hk⟩:=mem_filter.mp hj
  exact ⟨j,mem_range.mp hr,hk,rfl⟩

theorem nodes_keptValues (keep : ℕ → Bool) (t n : ℕ)
    (hn : n<2^31) : Nodes (keptValues keep t n) := by
  refine ⟨?_,?_,?_⟩
  · intro x hx
    obtain ⟨j,-,-,rfl⟩:=mem_keptValues hx
    omega
  · intro x hx
    obtain ⟨j,hj,-,rfl⟩:=mem_keptValues hx
    omega
  · have hnd : (((List.range n).filter keep).map fun j => j+1).Nodup :=
      (nodup_range.filter _).map fun a b h => by simpa using h
    exact hnd.sublist (take_sublist _ _)

noncomputable def lagrangeTerms (xValues polynomial : List ℕ) : List ℕ :=
  (List.range xValues.length).map fun j =>
    (horner (xValues.getD j 0 : ZMod kPrime) (polynomial.map fun c : ℕ => (c : ZMod kPrime)) *
      weightAtZero (fun j => (xValues.getD j 0 : ZMod kPrime)) xValues.length j).val

noncomputable def sumOverflows (xValues polynomial : List ℕ) : ℕ :=
  overflows kPrime (2^32) 0 (lagrangeTerms xValues polynomial)

theorem two_pow_32_cast : ((2^32 : ℕ) : ZMod kPrime) = -22 := by
  have h : ((2^32+22 : ℕ) : ZMod kPrime)=0 := (ZMod.natCast_eq_zero_iff _ _).mpr ⟨2,by decide⟩
  rw [Nat.cast_add] at h
  exact eq_neg_of_add_eq_zero_left h

theorem sum_lagrangeTerms {xValues polynomial : List ℕ} (hx : Nodes xValues)
    (hl : polynomial.length=xValues.length) :
    ((lagrangeTerms xValues polynomial).map fun t : ℕ => (t : ZMod kPrime)).sum =
      (polynomial.headD 0 : ℕ) := by
  have hinj : Set.InjOn (fun j => (xValues.getD j 0 : ZMod kPrime))
      (Finset.range (polynomial.map fun c : ℕ => (c : ZMod kPrime)).length) := by
    intro i hi j hj hij
    rw [length_map,hl] at hi hj
    have hi' : i<xValues.length := by simpa using hi
    have hj' : j<xValues.length := by simpa using hj
    have hk : 2^31<kPrime := by decide
    have hlt:=hx.lt _ (Nodes.getD_mem hi')
    have hlt':=hx.lt _ (Nodes.getD_mem hj')
    by_contra hne
    refine hx.getD_ne hi' hj' hne ?_
    have hm:=(ZMod.natCast_eq_natCast_iff' _ _ _).mp hij
    rwa [Nat.mod_eq_of_lt (by omega),Nat.mod_eq_of_lt (by omega)] at hm
  have h:=sum_horner_mul_weightAtZero (fun j => (xValues.getD j 0 : ZMod kPrime))
    (polynomial.map fun c : ℕ => (c : ZMod kPrime)) hinj
  have hz : horner (0 : ZMod kPrime) (polynomial.map fun c : ℕ => (c : ZMod kPrime)) =
      (polynomial.headD 0 : ℕ) := by
    cases polynomial with
    | nil | cons _ _ => simp [horner]
  rw [hz,length_map,hl] at h
  rw [← h,lagrangeTerms,map_map,Finset.sum_eq_multiset_sum,Finset.range_val,
    ← Multiset.coe_range,Multiset.map_coe,Multiset.sum_coe]
  congr 1
  refine map_congr_left fun j _ => ?_
  simp only [Function.comp_apply,ZMod.natCast_val,ZMod.cast_id]

variable {subsecret : ℕ}

theorem polynomialOf_lt (t : ℕ) (hs : subsecret<2^31) (rnd : ℕ → Fin kPrime) :
    ∀ c∈polynomialOf t subsecret rnd,c<kPrime := by
  intro c hc
  rcases mem_cons.mp hc with rfl | hc
  · exact lt_trans hs (by decide)
  · obtain ⟨k,-,rfl⟩:=mem_map.mp hc
    exact (rnd k).isLt

variable {xValues : List ℕ}

theorem reconstructSubsecret_eq (hx : Nodes xValues) (hcs : ∀ c∈subsecret::cs,c<kPrime)
    (hs : ∀ x∈xValues,subshare (shares.getD (x-1) []) i=evaluatePolynomial (subsecret::cs) x) :
    reconstructSubsecret shares xValues (coefficientsOf xValues) i =
      wrappingSum kPrime (2^32) 0 (lagrangeTerms xValues (subsecret::cs)) := by
  have ht : (xValues.zip (coefficientsOf xValues)).map (fun p => multiplyMod
      (subshare (shares.getD (p.1-1) []) i) p.2 kPrime) =
        lagrangeTerms xValues (subsecret::cs) := by
    refine ext_getElem (by simp [coefficientsOf,lagrangeTerms]) fun j h1 h2 => ?_
    have hj : j<xValues.length := by simpa [lagrangeTerms] using h2
    have hm : xValues[j]∈xValues := getElem_mem hj
    obtain ⟨hclt,hc⟩:=cast_rowOf hx hj xValues.length le_rfl
    obtain ⟨helt,he⟩:=cast_evaluatePolynomial xValues[j] (hx.lt _ hm) subsecret cs hcs
    have hlt:=multiplyMod_lt (evaluatePolynomial (subsecret::cs) xValues[j])
      (rowOf xValues j 1 (List.range xValues.length))
    have hg : xValues.getD j 0=xValues[j] := getD_eq_getElem _ _ hj
    simp only [getElem_map,getElem_zip,coefficientsOf,getElem_range,lagrangeTerms,hs _ hm]
    rw [hg,← he,← hc,← cast_multiplyMod (lt_trans helt kPrime_lt)
      (lt_trans hclt kPrime_lt),ZMod.val_natCast,Nat.mod_eq_of_lt hlt]
  rw [← ht,wrappingSum,foldl_map]
  rfl

theorem wrappingSum_lagrangeTerms (hx : Nodes xValues)
    (hl : (subsecret::cs).length=xValues.length) :
    wrappingSum kPrime (2^32) 0 (lagrangeTerms xValues (subsecret::cs)) =
      (subsecret+22*sumOverflows xValues (subsecret::cs))%kPrime := by
  have h:=cast_wrappingSum kPrime (2^32) 0 (lagrangeTerms xValues (subsecret::cs))
  rw [sum_lagrangeTerms hx hl,two_pow_32_cast,← sumOverflows,headD_cons] at h
  have hc : ((wrappingSum kPrime (2^32) 0 (lagrangeTerms xValues (subsecret::cs)) : ℕ) :
      ZMod kPrime)=((subsecret+22*sumOverflows xValues (subsecret::cs) : ℕ) : ZMod kPrime) := by
    rw [h]
    push_cast
    ring
  rw [ZMod.natCast_eq_natCast_iff'] at hc
  rw [← hc,Nat.mod_eq_of_lt (wrappingSum_lt kPrime_pos kPrime_pos _)]

theorem two_mul_sumOverflows_le (xValues polynomial : List ℕ) :
    2*sumOverflows xValues polynomial≤xValues.length := by
  have hl : (lagrangeTerms xValues polynomial).length=xValues.length := by simp [lagrangeTerms]
  have hlt : ∀ t∈lagrangeTerms xValues polynomial,t<kPrime := by
    intro t ht
    obtain ⟨j,-,rfl⟩:=mem_map.mp ht
    exact ZMod.val_lt _
  have h3 : 3*kPrime<2*2^32+3 := by decide
  have h0 : 0+kPrime≤2^32 := by decide
  have h:=(overflows_le kPrime (2^32) kPrime_pos kPrime_lt.le h3 0 kPrime_pos _ hlt).2 h0
  rwa [hl,← sumOverflows] at h

theorem kPrime_dvd_of_dvd_mul {a : ℕ} (ha : Nat.Coprime kPrime a) (h : kPrime ∣ a*k)
    (hk : k<kPrime) : k=0 :=
  Nat.eq_zero_of_dvd_of_lt (ha.dvd_of_dvd_mul_left h) hk

/-- Fewer than `2^30` overflows never add up to a multiple of the prime, nor to `2^31`. -/
theorem full_subsecret {c : ℕ} (hk : 2*k<2^31) (h : (c+22*k)%kPrime%2^31=c) : k=0 := by
  have hp : kPrime=2^31+11 := rfl
  obtain ⟨v,hv⟩ : ∃ v,v=(c+22*k)%kPrime := ⟨_,rfl⟩
  have hlt : v<kPrime := hv ▸ Nat.mod_lt _ kPrime_pos
  have hs:=Nat.mod_add_div (c+22*k) kPrime
  rw [← hv] at h hs
  generalize (c+22*k)/kPrime=q at hs
  have hh:=Nat.mod_add_div v (2^31)
  have hd : v/2^31<2 := Nat.div_lt_of_lt_mul (by omega)
  rw [h] at hh
  generalize v/2^31=d at hh hd
  rcases (show d=0 ∨ d=1 by omega) with rfl | rfl
  · refine kPrime_dvd_of_dvd_mul (a := 22) (by decide) ⟨q,?_⟩ (by omega)
    omega
  · -- twice `2^31` is `2 * kPrime - 22`
    have hdvd : kPrime ∣ 11*(2*k+1) := ⟨q+1,by rw [Nat.mul_succ kPrime q]; omega⟩
    have h0:=kPrime_dvd_of_dvd_mul (by decide) hdvd (by omega)
    omega

inductive Constructed : ShamirSecretSharing → Prop
  | create : Constructed create
  | reconstruct {o o' : ShamirSecretSharing} {threshold : ℕ} {shares : List ShamirShare}
      {secretLength : ℕ} {r : StatusOr Bytes} (ho : Constructed o)
      (hn : shares.length<2^31)
      (h : o.reconstruct threshold shares secretLength=.ok (o',r)) : Constructed o'

def roundTrip (o : ShamirSecretSharing) (threshold numShares : ℕ) (s : Bytes)
    (random : ℕ → ℕ → Fin kPrime) (keep : ℕ → Bool) : Checked (StatusOr Bytes) := do
  let shares ← share threshold numShares s random
  let (_,r) ← o.reconstruct threshold (blank keep shares) s.length
  return r

theorem presentFrom_sorted (shares : List ShamirShare) (i : ℕ) :
    (presentFrom shares i).Pairwise (·<·) ∧ ∀ x∈presentFrom shares i,i<x ∧ x ≤ i+shares.length := by
  induction shares generalizing i with
  | nil => simp [presentFrom]
  | cons sh rest ih =>
    obtain ⟨hs,hr⟩:=ih (i+1)
    rw [presentFrom,length_cons]
    split
    · refine ⟨hs,fun x hx => ?_⟩
      have := hr x hx
      omega
    · refine ⟨pairwise_cons.mpr ⟨fun x hx => (hr x hx).1,hs⟩,fun x hx => ?_⟩
      rcases mem_cons.mp hx with rfl | hx
      · omega
      · have := hr x hx
        omega

theorem collectShares_ok {t maxNum : ℕ} (shares : List ShamirShare) (i : ℕ)
    (xValues : List ℕ) (num : ℕ) {xs : List ℕ} {m : ℕ} (hl : xValues.length≤t)
    (h : collectShares t maxNum shares i xValues num=.ok (xs,m)) :
    xs=(xValues++presentFrom shares i).take t := by
  induction shares generalizing i xValues num with
  | nil =>
    simp only [collectShares,Except.ok.injEq,Prod.mk.injEq] at h
    rw [presentFrom,append_nil,take_of_length_le hl,h.1]
  | cons sh rest ih =>
    rw [collectShares] at h
    rw [presentFrom]
    by_cases hf : xValues.length<t
    · rw [if_pos hf] at h
      cases he : sh.isEmpty with
      | true =>
        rw [he] at h
        exact ih (i+1) xValues num hl h
      | false =>
        rw [he,if_neg Bool.false_ne_true,bind_eq_ok] at h
        obtain ⟨num',-,h⟩:=h
        have hr:=ih (i+1) (xValues++[i+1]) num' (by simp; omega) h
        rw [hr,append_assoc]
        rfl
    · have ha : xValues.length=t := by omega
      simp only [if_neg hf,Except.ok.injEq,Prod.mk.injEq] at h
      rw [← ha,take_left,h.1]

theorem nodes_presentFrom (shares : List ShamirShare) (hn : shares.length<2^31) (t : ℕ) :
    Nodes ((presentFrom shares 0).take t) := by
  obtain ⟨hs,hr⟩:=presentFrom_sorted shares 0
  have hm:=fun x (hx : x∈(presentFrom shares 0).take t) => hr x (mem_of_mem_take hx)
  refine ⟨fun x hx => (hm x hx).1,fun x hx => ?_,?_⟩
  · have := (hm x hx).2
    omega
  · exact (hs.imp fun h => Nat.ne_of_lt h).sublist (take_sublist _ _)

theorem reconstruct_cases {o o' : ShamirSecretSharing} {t len : ℕ} {r : StatusOr Bytes}
    (h : o.reconstruct t shares len=.ok (o',r)) :
    1<t ∧ ∃ xs,xs=(presentFrom shares 0).take t ∧ (xs.length<t ∧ o'=o ∧ (∃ st,r=.error st) ∨
        t ≤ xs.length ∧ (∃ coefficients,o.lagrangeCoefficients xs=.ok (o',coefficients)) ∧
          ∃ subsecrets,r=.ok (rebuildFromSubsecrets subsecrets len)) := by
  simp only [reconstruct,bind_eq_ok,fcpCheck_eq_ok,decide_eq_true_eq] at h
  obtain ⟨-,ht,-,-,-,-,maxNum,-,⟨xs,m⟩,hc,h⟩:=h
  refine ⟨ht,xs,collectShares_ok shares 0 [] 0 (Nat.zero_le _) hc,?_⟩
  dsimp only at h
  split at h <;> rename_i hs
  · cases h
    exact .inl ⟨hs,rfl,_,rfl⟩
  · obtain ⟨⟨o₁,coefficients⟩,hl,⟨⟩⟩:=bind_eq_ok.mp h
    exact .inr ⟨not_lt.mp hs,⟨_,hl⟩,_,rfl⟩

theorem reconstruct_valid {o o' : ShamirSecretSharing} {t : ℕ}
    {len : ℕ} {r : StatusOr Bytes} (ho : o.Valid) (hn : shares.length<2^31)
    (h : o.reconstruct t shares len=.ok (o',r)) : o'.Valid := by
  obtain ⟨ht,xs,rfl,⟨-,rfl,-⟩ | ⟨hs,⟨_,hl⟩,-⟩⟩:=reconstruct_cases h
  · exact ho
  · obtain ⟨o₁,he,hv⟩:=lagrangeCoefficients_eq (nodes_presentFrom shares hn t) (by omega) ho
    cases hl.symm.trans he
    exact hv

theorem Constructed.valid {o : ShamirSecretSharing} (ho : Constructed o) : o.Valid := by
  induction ho with
  | create => exact valid_create
  | reconstruct _ hn h ih => exact reconstruct_valid ih hn h

/-- Overflows of the running sum of subsecret `k`, counted from the back. -/
noncomputable def overflowsOf (threshold numShares : ℕ) (s : Bytes) (random : ℕ → ℕ → Fin kPrime)
    (keep : ℕ → Bool) (k : ℕ) : ℕ :=
  sumOverflows (keptValues keep threshold numShares)
    (polynomialOf threshold (subsecretOf s k) (random (numSubsecrets s-1-k)))

noncomputable def returnedSubsecret (threshold numShares : ℕ) (s : Bytes)
    (random : ℕ → ℕ → Fin kPrime) (keep : ℕ → Bool) (k : ℕ) : ℕ :=
  (subsecretOf s k+22*overflowsOf threshold numShares s random keep k)%kPrime

section RoundTrip
variable {o : ShamirSecretSharing} {t n : ℕ} {s : Bytes}
  {rnd : ℕ → ℕ → Fin kPrime} {keep : ℕ → Bool}

theorem length_keptValues (hk : t≤((List.range n).filter keep).length) :
    (keptValues keep t n).length=t := by
  rw [keptValues,length_take,length_map]
  omega

theorem roundTrip_eq (ho : o.Valid) (hs : s≠[]) (hlen : 8*s.length+31<2^31)
    (ht : 2≤t) (hn : t≤n) (hint : n<2^31)
    (hkeep : t≤((List.range n).filter keep).length) :
    roundTrip o t n s rnd keep =
      .ok (.ok (rebuildFromSubsecrets ((List.range (numSubsecrets s)).map fun i =>
        returnedSubsecret t n s rnd keep (numSubsecrets s-1-i))
          s.length)) := by
  have hpos : 0<s.length := length_pos_iff.mpr hs
  have hm : 0<numSubsecrets s := by
    unfold numSubsecrets
    omega
  obtain ⟨subs,hsub⟩ : ∃ l,l=(List.range (numSubsecrets s)).map fun i =>
    subsecretOf s (numSubsecrets s-1-i) := ⟨_,rfl⟩
  have hd:=divideIntoSubsecrets_eq hs hlen
  rw [← hsub] at hd
  have hc : subs.length=numSubsecrets s := by simp [hsub]
  have hg : ∀ i (hi : i<subs.length),subs[i]=subsecretOf s (numSubsecrets s-1-i) := by
    intro i hi
    simp [hsub]
  have hnonempty : ∀ j,shareOf t subs rnd j≠[] := by
    intro j he
    have := length_shareOf t subs rnd j
    rw [he,length_nil] at this
    omega
  have hb:=blank_map_range keep n (shareOf t subs rnd)
  have hpresent:=presentFrom_blank keep n (shareOf t subs rnd) hnonempty
  have hnodes:=nodes_keptValues keep t n hint
  have hxlen:=length_keptValues hkeep
  have hmax : maxNumSubsecrets s.length=.ok (numSubsecrets s) := by
    rw [maxNumSubsecrets,kBitsPerSubsecret,toInt,if_pos hlen]
    rfl
  have hsizes : ∀ sh∈blank keep ((List.range n).map
      (shareOf t subs rnd)), sh.isEmpty=false → sh.length=4*numSubsecrets s := by
    intro sh hsh hne
    rw [hb] at hsh
    obtain ⟨j,-,rfl⟩:=mem_map.mp hsh
    cases hk : keep j with
    | true => simp [length_shareOf,hc]
    | false => simp [hk] at hne
  have hcol:=collectShares_eq t (numSubsecrets s) (numSubsecrets s) hm le_rfl
    (blank keep ((List.range n).map (shareOf t subs rnd))) hsizes 0 [] 0
    (Nat.zero_le _) (by simp)
  rw [nil_append,hpresent,← keptValues] at hcol
  have hne : keptValues keep t n≠[] := by
    intro he
    rw [he,length_nil] at hxlen
    omega
  rw [if_neg hne] at hcol
  obtain ⟨o',hl,-⟩:=lagrangeCoefficients_eq hnodes (by omega) ho
  have hr : ∀ i∈List.range (numSubsecrets s),reconstructSubsecret (blank keep ((List.range n).map
        (shareOf t subs rnd))) (keptValues keep t n)
          (coefficientsOf (keptValues keep t n)) i =
      returnedSubsecret t n s rnd keep (numSubsecrets s-1-i) := by
    intro i hi
    have hi' : i<subs.length := by
      rw [hc]
      exact mem_range.mp hi
    have hlt31:=subsecretOf_lt s (numSubsecrets s-1-i)
    have hp:=polynomialOf_lt t hlt31 (rnd i)
    have hback : numSubsecrets s-1-(numSubsecrets s-1-i)=i := by omega
    rw [returnedSubsecret,overflowsOf,hback]
    rw [polynomialOf] at hp ⊢
    rw [reconstructSubsecret_eq hnodes hp,wrappingSum_lagrangeTerms hnodes]
    · rw [length_cons,length_map,length_range,hxlen]
      omega
    · intro x hx
      obtain ⟨j,hj,hk,rfl⟩:=mem_keptValues hx
      have heval:=cast_evaluatePolynomial (j+1) (by omega) _ _ hp
      have hshare : (blank keep ((List.range n).map
          (shareOf t subs rnd))).getD (j+1-1) []=shareOf t subs rnd j := by
        rw [hb,Nat.add_sub_cancel,getD_eq_getElem _ _ (by simpa using hj),
          getElem_map,getElem_range,hk,if_pos rfl]
      rw [hshare,subshare_shareOf hi',hg i hi',polynomialOf]
      rw [hg i hi',polynomialOf]
      exact lt_trans heval.1 kPrime_lt
  have hlenb : (blank keep ((List.range n).map (shareOf t subs rnd))).length=n := by simp [blank]
  rw [roundTrip,share_eq rnd hs ht hn hd]
  simp only [ok_bind,reconstruct,show t>1 by omega,show s.length>0 from hpos,hlenb,
    ge_iff_le,hn,decide_true,fcpCheck_true,hmax,hcol,hxlen,lt_irrefl,if_false,
    hl,map_congr_left hr]
  rfl

/-- The bits of `int secret_length` are too few: `8 * secret_length` overflows. -/
theorem roundTrip_overflow (hl : ¬ 8*s.length+31<2^31) (r : StatusOr Bytes) :
    roundTrip o t n s rnd keep≠.ok r := by
  intro h
  simp only [roundTrip,reconstruct,bind_eq_ok] at h
  obtain ⟨shares,-,-,⟨-,-,-,-,-,-,maxNum,hm,-⟩,-⟩:=h
  rw [maxNumSubsecrets,kBitsPerSubsecret,toInt,if_neg hl] at hm
  cases hm

theorem subsecretOf_lt_usedBits (s : Bytes) (k : ℕ) : subsecretOf s k<2^usedBits s k := by
  refine Nat.lt_pow_two_of_testBit _ fun r hr => ?_
  rw [testBit_subsecretOf]
  by_cases hr31 : r<31
  · rw [testBit_of_lt (secretValue_lt s) (by unfold usedBits at hr; omega),Bool.and_false]
  · rw [decide_eq_false hr31,Bool.false_and]

/-- The secret comes back exactly when its bit length fits `int` and no running sum overflows,
except in an incomplete leading subsecret whose used bits the overflows leave alone. -/
theorem roundTrip_eq_secret_iff (ho : Constructed o) (hs : s≠[]) (ht : 2≤t) (hn : t≤n) (hi : n<2^31)
    (hk : t≤((List.range n).filter keep).length) :
    roundTrip o t n s rnd keep=.ok (.ok s) ↔ 8*s.length+31<2^31 ∧ ∀ k<numSubsecrets s,
        overflowsOf t n s rnd keep k=0 ∨ (usedBits s k<31 ∧
            (subsecretOf s k+22*overflowsOf t n s rnd keep k)%kPrime %
              2^usedBits s k=subsecretOf s k) := by
  by_cases hl : 8*s.length+31<2^31
  swap
  · exact ⟨fun h => absurd h (roundTrip_overflow hl _),fun h => absurd h.1 hl⟩
  have hfew : ∀ k,2*overflowsOf t n s rnd keep k<2^31 := by
    intro k
    have h:=two_mul_sumOverflows_le (keptValues keep t n)
      (polynomialOf t (subsecretOf s k) (rnd (numSubsecrets s-1-k)))
    rw [length_keptValues hk,← overflowsOf] at h
    omega
  have hr : ∀ k,overflowsOf t n s rnd keep k=0 →
      returnedSubsecret t n s rnd keep k=subsecretOf s k := by
    intro k h0
    rw [returnedSubsecret,h0,Nat.mul_zero,Nat.add_zero,
      Nat.mod_eq_of_lt (lt_trans (subsecretOf_lt s k) (by decide))]
  rw [roundTrip_eq ho.valid hs hl ht hn hi hk,Except.ok.injEq,Except.ok.injEq,
    rebuildFromSubsecrets_eq_iff s (returnedSubsecret t n s rnd keep)]
  · rw [and_iff_right hl]
    refine forall_congr' fun k => imp_congr_right fun _ => ?_
    constructor
    · intro h
      by_cases hf : usedBits s k<31
      · exact .inr ⟨hf,h⟩
      · have hu : usedBits s k=31 := by
          unfold usedBits at hf ⊢
          omega
        rw [hu] at h
        exact .inl (full_subsecret (hfew k) h)
    · rintro (h0 | ⟨-,h⟩)
      · rw [hr k h0,Nat.mod_eq_of_lt (subsecretOf_lt_usedBits s k)]
      · exact h
  · intro k _ h
    rw [hr k (full_subsecret (hfew k) h)]
    exact subsecretOf_lt s k

end RoundTrip

/-- A constant polynomial: the two terms of the interpolation from shares 1 and 2 are
`2 c` and `-c`. -/
theorem roundTrip_eq_secret_iff_two :
    roundTrip create 2 2 [1,2] (fun _ _ => 0) (fun _ => true)=.ok (.ok [1,2]) ∧
      (roundTrip create 2 2 [1,2] (fun _ _ => 0) (fun _ => true)=.ok (.ok [1,2]) ↔
        8*2+31<2^31 ∧ ∀ k<numSubsecrets [1,2],
          overflowsOf 2 2 [1,2] (fun _ _ => 0) (fun _ => true) k=0 ∨
            (usedBits [1,2] k<31 ∧ (subsecretOf [1,2] k +
              22*overflowsOf 2 2 [1,2] (fun _ _ => 0) (fun _ => true) k)%kPrime %
                2^usedBits [1,2] k=subsecretOf [1,2] k)) :=
  ⟨by decide +kernel,roundTrip_eq_secret_iff .create (by decide) (by decide) (by decide)
    (by decide) (by decide)⟩

/-- Four bytes of ones, and one coefficient for which the two terms of the low subsecret add
up to `2^32`: the secret comes back as another string. -/
theorem roundTrip_ne_secret : roundTrip create 2 2 [255,255,255,255]
        (fun c _ => if c=1 then ⟨1073741836,by decide⟩ else 0) (fun _ => true) =
      .ok (.ok [128,0,0,10]) ∧ ([128,0,0,10] : Bytes)≠[255,255,255,255] :=
  ⟨by decide +kernel,by decide⟩

end Fcp.SecAgg.ShamirSecretSharing

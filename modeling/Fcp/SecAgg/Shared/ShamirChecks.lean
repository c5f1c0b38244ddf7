import Fcp.SecAgg.Shared.ShamirRoundTrip
import Fcp.SecAgg.Shared.Crypto

/-!
# The fatal checks of reconstruction

`Reconstruct` and `CreateFromShares` end the process on shares of unexpected sizes. Only the first
`threshold` shares that are present are looked at.
-/

namespace Fcp.SecAgg

open List
namespace ShamirSecretSharing

def chosen (threshold : ℕ) (shares : List ShamirShare) : List ShamirShare :=
  (shares.filter fun share => !share.isEmpty).take threshold

theorem chosen_zero (shares : List ShamirShare) : chosen 0 shares=[] := rfl

variable {share : ShamirShare}

theorem chosen_empty {threshold : ℕ} (h : share.isEmpty=true) (shares : List ShamirShare) :
    chosen threshold (share::shares)=chosen threshold shares := by
  simp [chosen,h]

theorem chosen_cons {threshold : ℕ} (ht : 0<threshold) (h : share.isEmpty=false)
    (shares : List ShamirShare) :
    chosen threshold (share::shares)=share::chosen (threshold-1) shares := by
  obtain ⟨t,rfl⟩:=Nat.exists_eq_succ_of_ne_zero ht.ne'
  simp [chosen,h]

theorem length_presentFrom (shares : List ShamirShare) (i : ℕ) :
    (presentFrom shares i).length=(shares.filter fun share => !share.isEmpty).length := by
  induction shares generalizing i with
  | nil => rfl
  | cons share shares ih =>
    cases h : share.isEmpty with
    | true | false => simp [presentFrom,h,ih]

theorem checkShare_pos {num maxNum : ℕ} (hn : 0<num) :
    checkShare share num maxNum = if share.length=4*num then .ok num else .error .check := by
  unfold checkShare kSubsecretSize
  by_cases h : share.length=4*num
  · simp [h,hn.ne',Nat.mul_comm]
  · rw [if_neg h]
    by_cases hm : share.length%4=0
    · have hne : share.length≠num*4 := by omega
      simp [hm,hn.ne',hne]
    · simp [hm]

theorem checkShare_zero {m maxNum : ℕ} :
    checkShare share 0 maxNum=.ok m ↔ share.length=4*m ∧ 0 < m ∧ m ≤ maxNum := by
  unfold checkShare kSubsecretSize
  simp only [bind_eq_ok,fcpCheck_eq_ok,decide_eq_true_eq,if_true,pure_eq_ok]
  constructor
  · rintro ⟨-,hmod,-,hm,rfl⟩
    omega
  · rintro ⟨hl,hm⟩
    have hd : share.length/4=m := by omega
    exact ⟨(),by omega,(),by rw [hd]; exact hm,hd⟩

theorem collectShares_isOk_pos {threshold maxNum num : ℕ} (hn : 0<num)
    (shares : List ShamirShare) (i : ℕ) (xs : List ℕ) :
    (∃ r,collectShares threshold maxNum shares i xs num=.ok r) ↔
      ∀ share∈chosen (threshold-xs.length) shares,share.length=4*num := by
  induction shares generalizing i xs with
  | nil => simp [collectShares,chosen]
  | cons share shares ih =>
    rw [collectShares]
    by_cases hf : xs.length<threshold
    · rw [if_pos hf]
      cases he : share.isEmpty with
      | true =>
        rw [if_pos rfl,chosen_empty he]
        exact ih (i+1) xs
      | false =>
        rw [if_neg Bool.false_ne_true,chosen_cons (by omega) he,checkShare_pos hn,forall_mem_cons]
        by_cases hl : share.length=4*num
        · rw [if_pos hl,ok_bind,ih,length_append,length_singleton,Nat.sub_sub]
          exact (and_iff_right hl).symm
        · rw [if_neg hl,error_bind]
          refine iff_of_false ?_ fun h => hl h.1
          rintro ⟨r,hr⟩
          cases hr
    · rw [if_neg hf,Nat.sub_eq_zero_of_le (by omega),chosen_zero]
      simp

def SizesAgree (maxNum : ℕ) (shares : List ShamirShare) : Prop :=
  ∃ m,0 < m ∧ m ≤ maxNum ∧ ∀ share∈shares,share.length=4*m

theorem sizesAgree_nil {maxNum : ℕ} (hm : 0 < maxNum) : SizesAgree maxNum [] :=
  ⟨1,Nat.one_pos,hm,by simp⟩

theorem collectShares_isOk {threshold maxNum : ℕ} (hmax : 0 < maxNum)
    (shares : List ShamirShare) (i : ℕ) :
    (∃ r,collectShares threshold maxNum shares i [] 0=.ok r) ↔
      SizesAgree maxNum (chosen threshold shares) := by
  induction shares generalizing i with
  | nil => exact iff_of_true ⟨_,rfl⟩ (by simpa [chosen] using sizesAgree_nil hmax)
  | cons share shares ih =>
    rw [collectShares]
    by_cases ht : 0<threshold
    · rw [length_nil,if_pos ht]
      cases he : share.isEmpty with
      | true =>
        rw [if_pos rfl,chosen_empty he]
        exact ih (i+1)
      | false =>
        rw [if_neg Bool.false_ne_true,chosen_cons ht he]
        constructor
        · rintro ⟨r,hr⟩
          obtain ⟨m,hm,hr⟩:=bind_eq_ok.mp hr
          obtain ⟨hl,hp,hle⟩:=checkShare_zero.mp hm
          have hrest:=(collectShares_isOk_pos hp shares (i+1) ([]++[i+1])).mp ⟨r,hr⟩
          exact ⟨m,hp,hle,forall_mem_cons.mpr ⟨hl,hrest⟩⟩
        · rintro ⟨m,hp,hle,ha⟩
          obtain ⟨hl,hrest⟩:=forall_mem_cons.mp ha
          rw [checkShare_zero.mpr ⟨hl,hp,hle⟩,ok_bind]
          exact (collectShares_isOk_pos hp shares (i+1) ([]++[i+1])).mpr hrest
    · obtain rfl : threshold=0 := by omega
      exact iff_of_true ⟨_,rfl⟩ (sizesAgree_nil hmax)

section
variable {o : ShamirSecretSharing} {threshold len maxNum : ℕ} {shares : List ShamirShare}

theorem reconstruct_isOk (ho : o.Valid) (hn : shares.length<2^31) (hL : 0<len)
    (hm : maxNumSubsecrets len=.ok maxNum) (hp : 0 < maxNum) :
    (∃ r,o.reconstruct threshold shares len=.ok r) ↔
      1<threshold ∧ threshold ≤ shares.length ∧ SizesAgree maxNum (chosen threshold shares) := by
  constructor
  · rintro ⟨r,h⟩
    simp only [reconstruct,bind_eq_ok,fcpCheck_eq_ok,decide_eq_true_eq,hm] at h
    obtain ⟨-,ht,-,-,-,hlen,max',hm',c,hcol,-⟩:=h
    cases hm'
    exact ⟨ht,hlen,(collectShares_isOk hp shares 0).mp ⟨c,hcol⟩⟩
  · rintro ⟨ht,hlen,hs⟩
    obtain ⟨⟨xs,m⟩,hcol⟩:=(collectShares_isOk hp shares 0).mpr hs
    have hxs:=collectShares_ok shares 0 [] 0 (Nat.zero_le _) hcol
    rw [nil_append] at hxs
    rw [reconstruct,decide_eq_true ht,decide_eq_true hL,decide_eq_true hlen,hm]
    simp only [fcpCheck_true,ok_bind,hcol]
    by_cases hc : xs.length<threshold
    · rw [if_pos hc]
      exact ⟨_,rfl⟩
    · obtain ⟨o',hl,-⟩:=lagrangeCoefficients_eq
        (hxs ▸ nodes_presentFrom shares hn threshold) (by omega) ho
      rw [if_neg hc,hl]
      exact ⟨_,rfl⟩

def Short (threshold : ℕ) (shares : List ShamirShare) : Prop :=
  (chosen threshold shares).length<threshold

theorem reconstruct_result {o' : ShamirSecretSharing} {r : StatusOr Bytes}
    (h : o.reconstruct threshold shares len=.ok (o',r)) :
    Short threshold shares ∧ (∃ st,r=.error st) ∨
      ¬ Short threshold shares ∧ ∃ secret,r=.ok secret ∧ secret.length=len := by
  have hl : ((presentFrom shares 0).take threshold).length=(chosen threshold shares).length := by
    rw [chosen,length_take,length_take,length_presentFrom]
  obtain ⟨-,xs,rfl,⟨hs,-,hr⟩ | ⟨hs,-,subsecrets,rfl⟩⟩:=reconstruct_cases h
  · exact .inl ⟨hl.symm.trans_lt hs,hr⟩
  · exact .inr ⟨not_lt.mpr (hs.trans_eq hl),_,rfl,rebuildFromSubsecrets_length _ _⟩

end
end ShamirSecretSharing

namespace AesKey
open ShamirSecretSharing

theorem keyLength_eq (shares : List ShamirShare) :
    keyLength shares = match (shares.filter fun share => !share.isEmpty).head? with
      | none => .ok 0
      | some share =>
        if share.length=36 then .ok kSize
        else if share.length=20 then .ok kLegacyKeySize
        else .error .check := by
  induction shares with
  | nil => rfl
  | cons share shares ih =>
    rw [keyLength]
    cases he : share.isEmpty with
    | true =>
      have hn : share=[] := List.isEmpty_iff.mp he
      subst hn
      simpa using ih
    | false => simp [he]

def KeySizesAgree (shares : List ShamirShare) : Prop := shares≠[] ∧
    ((∀ share∈shares,share.length=36) ∨ ∀ share∈shares,share.length=20)

theorem stripLegacyKey_length (key : Bytes) (h : key≠[]) :
    0<(stripLegacyKey key).length ∧ (stripLegacyKey key).length≤key.length := by
  induction key using stripLegacyKey.induct with
  | case1 b c rest hb ih =>
    have := ih (by simp)
    rw [stripLegacyKey,if_pos hb]
    simp only [length_cons] at *
    omega
  | case2 b c rest hb =>
    rw [stripLegacyKey,if_neg hb]
    simp
  | case3 key hk =>
    have hp:=length_pos_iff.mpr h
    unfold stripLegacyKey
    split
    next b c rest => exact absurd rfl (hk b c rest)
    · exact ⟨hp,le_refl _⟩

theorem chosen_head {threshold : ℕ} (ht : 0<threshold) (shares : List ShamirShare) :
    (chosen threshold shares).head?=(shares.filter fun share => !share.isEmpty).head? := by
  rw [chosen,head?_take,if_neg ht.ne']

theorem createFromShares_eq_ok {shares : List ShamirShare} {threshold length : ℕ}
    (hlength : keyLength shares=.ok length) (hk : length=32 ∨ length=17) :
    (∃ r,createFromShares shares threshold=.ok r) ↔
      ∃ r,ShamirSecretSharing.create.reconstruct threshold shares length=.ok r := by
  have hne : length≠0 := by omega
  rw [createFromShares,hlength,ok_bind,decide_eq_true hne,fcpCheck_true,ok_bind]
  constructor
  · rintro ⟨r,h⟩
    obtain ⟨r',hr',-⟩:=bind_eq_ok.mp h
    exact ⟨r',hr'⟩
  · rintro ⟨⟨o',r⟩,hr⟩
    have hresult:=reconstruct_result hr
    rw [hr,ok_bind]
    cases r with
    | error st => exact ⟨_,rfl⟩
    | ok secret =>
      have hsecret : secret.length=length := by
        rcases hresult with ⟨-,st,hs⟩ | ⟨-,secret',hok,hlen⟩
        · cases hs
        · cases hok
          exact hlen
      have hn : secret≠[] := length_pos_iff.mp (by omega)
      have hstrip:=stripLegacyKey_length secret hn
      dsimp only
      rw [create,decide_eq_true,fcpCheck_true]
      · exact ⟨_,rfl⟩
      · split
        next hl =>
          rw [kLegacyKeySize] at hl
          omega
        next hl =>
          rw [kLegacyKeySize] at hl
          omega

theorem maxNumSubsecrets_kSize : maxNumSubsecrets kSize=.ok 9 := by decide

theorem maxNumSubsecrets_kLegacyKeySize : maxNumSubsecrets kLegacyKeySize=.ok 5 := by decide

theorem sizesAgree_of_head {maxNum m : ℕ} {shares : List ShamirShare} {share : ShamirShare}
    (hh : shares.head?=some share) (hl : share.length=4*m) (hm : 0 < m ∧ m ≤ maxNum) :
    SizesAgree maxNum shares ↔ ∀ share∈shares,share.length=4*m := by
  constructor
  · rintro ⟨m',-,-,ha⟩
    have hmem : share∈shares := mem_of_head? hh
    obtain rfl : m'=m := by
      have := ha share hmem
      omega
    exact ha
  · exact fun ha => ⟨m,hm.1,hm.2,ha⟩

theorem createFromShares_isOk {shares : List ShamirShare} (hn : shares.length<2^31)
    {threshold : ℕ} :
    (∃ r,createFromShares shares threshold=.ok r) ↔
      1<threshold ∧ threshold ≤ shares.length ∧ KeySizesAgree (chosen threshold shares) := by
  have hk:=keyLength_eq shares
  by_cases ht : 0<threshold
  · rw [← chosen_head ht] at hk
    cases hh : (chosen threshold shares).head? with
    | none =>
      rw [hh] at hk
      refine iff_of_false ?_ ?_
      · rintro ⟨r,h⟩
        rw [createFromShares,hk] at h
        cases h
      · rintro ⟨-,-,hne,-⟩
        exact hne (head?_eq_none_iff.mp hh)
    | some share =>
      have hm:=mem_of_head? hh
      have hne:=ne_nil_of_mem hm
      simp only [hh] at hk
      by_cases h36 : share.length=36
      · rw [if_pos h36] at hk
        rw [createFromShares_eq_ok hk (.inl rfl),reconstruct_isOk valid_create hn (by decide)
          maxNumSubsecrets_kSize (by decide),
          sizesAgree_of_head (m := 9) hh h36 (by decide)]
        have hnot : ¬ ∀ share∈chosen threshold shares,share.length=20 := by
          intro h
          have := h share hm
          omega
        simp [KeySizesAgree,hne,hnot]
      · rw [if_neg h36] at hk
        by_cases h20 : share.length=20
        · rw [if_pos h20] at hk
          rw [createFromShares_eq_ok hk (.inr rfl),reconstruct_isOk valid_create hn (by decide)
            maxNumSubsecrets_kLegacyKeySize (by decide),
            sizesAgree_of_head (m := 5) hh h20 (by decide)]
          have hnot : ¬ ∀ share∈chosen threshold shares,share.length=36 := fun h => h36 (h share hm)
          simp [KeySizesAgree,hne,hnot]
        · rw [if_neg h20] at hk
          refine iff_of_false ?_ ?_
          · rintro ⟨r,h⟩
            rw [createFromShares,hk] at h
            cases h
          · rintro ⟨-,-,-,ha | ha⟩
            · exact h36 (ha share hm)
            · exact h20 (ha share hm)
  · refine iff_of_false ?_ fun h => ht (by omega)
    rintro ⟨r,h⟩
    rw [createFromShares] at h
    obtain ⟨length,-,h⟩:=bind_eq_ok.mp h
    obtain ⟨_,-,h⟩:=bind_eq_ok.mp h
    obtain ⟨⟨o',r'⟩,hr,-⟩:=bind_eq_ok.mp h
    have := (reconstruct_cases hr).1
    omega

end AesKey
end Fcp.SecAgg

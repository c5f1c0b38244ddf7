import Fcp.SecAgg.Shared.SecAggVector
import Fcp.SecAgg.Shared.ShamirChecks

/-!
# Keys from shares (shared/aes_key.cc)

Keys of the older Java client are five subsecrets of a number and come back in the form of
`BigInteger.toByteArray`; keys of 32 bytes come back as they were shared.
-/

namespace Fcp.SecAgg

open ShamirSecretSharing List AesKey

/-- `BigInteger.toByteArray` of a number that is not negative: one bit for the sign, rounded up to
whole bytes. -/
def toByteArray (v : ℕ) : Bytes := (toLittleEndian (bitWidth v/8+1) v).reverse

theorem secretValue_cons (b : UInt8) (rest : Bytes) :
    secretValue (b::rest)=2^(8*rest.length)*b.toNat+secretValue rest := by
  have hl : littleEndian [b]=b.toNat := by simp [littleEndian]
  rw [secretValue,reverse_cons,littleEndian_append,length_reverse,secretValue,hl,Nat.add_comm]

theorem bitWidth_lt_iff (v n : ℕ) : bitWidth v≤n ↔ v<2^n := by
  unfold bitWidth
  split
  next hz => simp [hz]
  next hp => rw [Nat.succ_le_iff,Nat.log2_lt hp]

variable {n size : ℕ} {key : Bytes}

/-- The number of bytes that are needed: the sign bit is clear and one byte less is too short. -/
theorem bitWidth_div_eight {v : ℕ} (hsign : v<2^(8*n+7))
    (hs : n=0 ∨ 2^(8*n-1)≤v) : bitWidth v/8=n := by
  have hu:=(bitWidth_lt_iff v (8*n+7)).mpr hsign
  rcases hs with hz | hge
  · omega
  · have hl:=(bitWidth_lt_iff v (8*n-1)).not.mpr (Nat.not_lt.mpr hge)
    omega

theorem eq_toByteArray (hl : key.length=n+1)
    (hsign : secretValue key<2^(8*n+7)) (hs : n=0 ∨ 2^(8*n-1) ≤ secretValue key) :
    key=toByteArray (secretValue key) := by
  rw [toByteArray,bitWidth_div_eight hsign hs]
  have hb : key.reverse=toLittleEndian (n+1) (secretValue key) :=
    eq_toLittleEndian (by rw [length_reverse,hl]) rfl
  rw [← hb,reverse_reverse]

/-- Nothing shorter with a clear sign bit has this value. -/
theorem toByteArray_shortest (v : ℕ) :
    secretValue (toByteArray v)=v ∧ (∀ b∈(toByteArray v).head?,b<128) ∧
      ∀ b rest,secretValue (b::rest)=v → b<128 → (toByteArray v).length≤(b::rest).length := by
  have hl : (toByteArray v).length=bitWidth v/8+1 := by
    rw [toByteArray,length_reverse,length_toLittleEndian]
  have hw:=(bitWidth_lt_iff v (bitWidth v)).mp (Nat.le_refl _)
  have hv : secretValue (toByteArray v)=v := by
    rw [secretValue,toByteArray,reverse_reverse,littleEndian_toLittleEndian]
    exact Nat.mod_eq_of_lt (lt_two_pow_of_le hw (by omega))
  refine ⟨hv,?_,?_⟩
  · intro b hb
    cases hk : toByteArray v with
    | nil =>
      rw [hk] at hl
      simp at hl
    | cons b' rest =>
      rw [hk] at hb hv hl
      obtain rfl : b'=b := Option.some.inj hb
      rw [length_cons] at hl
      rw [secretValue_cons] at hv
      by_contra hge
      have hbyte : 128≤b'.toNat := Nat.not_lt.mp fun h => hge (UInt8.lt_iff_toNat_lt.mpr h)
      have ht : 2^(8*rest.length+7)≤v := by
        rw [Nat.pow_add]
        have := Nat.mul_le_mul_left (2^(8*rest.length)) hbyte
        omega
      have hless:=(bitWidth_lt_iff v (8*rest.length+7)).mp (by omega)
      omega
  · intro b rest heq hb
    have hbyte : b.toNat+1≤128 := UInt8.lt_iff_toNat_lt.mp hb
    have hr:=secretValue_lt rest
    have ht : v<2^(8*rest.length+7) := by
      rw [secretValue_cons] at heq
      rw [Nat.pow_add,← heq]
      have := Nat.mul_le_mul_left (2^(8*rest.length)) hbyte
      rw [Nat.mul_succ] at this
      omega
    have hless:=(bitWidth_lt_iff v (8*rest.length+7)).mpr ht
    rw [hl,length_cons]
    omega

theorem stripLegacyKey_eq (b : UInt8) (rest : Bytes) (hb : b<128) :
    stripLegacyKey (b::rest)=toByteArray (secretValue (b::rest)) := by
  have hbyte : b.toNat+1≤128 := UInt8.lt_iff_toNat_lt.mp hb
  induction rest generalizing b with
  | nil =>
    show [b]=toByteArray (secretValue [b])
    apply eq_toByteArray (n := 0) rfl _ (.inl rfl)
    rw [secretValue_cons]
    show 2^0*b.toNat+0<2^7
    omega
  | cons c rest ih =>
    rw [stripLegacyKey]
    split
    next hz =>
      have hv : secretValue (b::c::rest)=secretValue (c::rest) := by
        rw [secretValue_cons,hz.1]
        exact Nat.zero_add _
      have hc : c.toNat≤127 := UInt8.le_iff_toNat_le.mp hz.2
      rw [hv]
      exact ih c (UInt8.lt_iff_toNat_lt.mpr (Nat.lt_succ_of_le hc)) (by omega)
    next hk =>
      have hr:=secretValue_lt (c::rest)
      apply eq_toByteArray (n := rest.length+1) rfl
      · rw [secretValue_cons,Nat.pow_add]
        have := Nat.mul_le_mul_left (2^(8*(rest.length+1))) hbyte
        rw [Nat.mul_succ] at this
        rw [length_cons] at hr ⊢
        omega
      · right
        -- either the first byte is not zero or the second one has its high bit set
        by_cases hb0 : b=0
        · have hc : 128≤c.toNat := by
            by_contra hlt
            apply hk
            exact ⟨hb0,UInt8.le_iff_toNat_le.mpr (show c.toNat≤127 by omega)⟩
          have hs : 8*(rest.length+1)-1=8*rest.length+7 := by omega
          rw [hs,secretValue_cons,secretValue_cons,Nat.pow_add]
          have := Nat.mul_le_mul_left (2^(8*rest.length)) hc
          omega
        · have hp : 1≤b.toNat := by
            apply Nat.pos_of_ne_zero
            intro hz
            exact hb0 (UInt8.toNat_inj.mp hz)
          have hpow : 2^(8*(rest.length+1)-1)≤2^(8*(rest.length+1)) :=
            Nat.pow_le_pow_right (by decide) (by omega)
          rw [secretValue_cons,length_cons]
          have := Nat.mul_le_mul_left (2^(8*(rest.length+1))) hp
          omega

/-- Enough shares of the given subsecrets are present; interpolation at zero of those that take
part is taken to be exact. -/
structure SharesOf (threshold : ℕ) (subsecrets : List ℕ) (shares : List ShamirShare) : Prop where
  threshold_gt : 1<threshold
  size_valid : shares.length<2^31
  size (share : ShamirShare) (hmem : share∈shares) (hpresent : share.isEmpty=false) :
    share.length=4*subsecrets.length
  present : threshold≤(shares.filter fun share => !share.isEmpty).length
  interpolation (i : ℕ) (hi : i<subsecrets.length) :
    reconstructSubsecret shares ((presentFrom shares 0).take threshold)
      (coefficientsOf ((presentFrom shares 0).take threshold)) i=subsecrets.getD i 0

def subsecretsOf (s : Bytes) : List ℕ :=
  (List.range (numSubsecrets s)).map fun i => subsecretOf s (numSubsecrets s-1-i)

@[simp] theorem length_subsecretsOf (s : Bytes) : (subsecretsOf s).length=numSubsecrets s := by
  simp [subsecretsOf]

theorem rebuild_subsecretsOf (s : Bytes) : rebuildFromSubsecrets (subsecretsOf s) s.length=s := by
  apply (rebuildFromSubsecrets_eq_iff s (subsecretOf s) fun k _ _ => subsecretOf_lt s k).mpr
  intro k _
  exact Nat.mod_eq_of_lt (subsecretOf_lt_usedBits s k)

section Reconstruct
variable {t : ℕ} {shares : List ShamirShare} {s : Bytes}

theorem reconstruct_sharesOf (hs : s≠[]) (hlen : 8*s.length+31<2^31)
    (h : SharesOf t (subsecretsOf s) shares) :
    ∃ o,ShamirSecretSharing.create.reconstruct t shares s.length=.ok (o,.ok s) := by
  have hpos : 0<s.length := length_pos_iff.mpr hs
  have hn : 0<numSubsecrets s := by
    unfold numSubsecrets
    omega
  have hm : maxNumSubsecrets s.length=.ok (numSubsecrets s) := by
    rw [maxNumSubsecrets,kBitsPerSubsecret,toInt,if_pos hlen]
    rfl
  have hsizes : ∀ share∈shares,share.isEmpty=false → share.length=4*numSubsecrets s := by
    intro share hmem hp
    rw [h.size share hmem hp,length_subsecretsOf]
  have hcol:=collectShares_eq t (numSubsecrets s) (numSubsecrets s) hn
    (Nat.le_refl _) shares hsizes 0 [] 0 (Nat.zero_le _) rfl
  have hc : ((presentFrom shares 0).take t).length=t := by
    rw [length_take,length_presentFrom]
    exact Nat.min_eq_left h.present
  have hne : (presentFrom shares 0).take t≠[] := by
    intro he
    have := h.threshold_gt
    rw [he,length_nil] at hc
    omega
  rw [nil_append,if_neg hne] at hcol
  have henough : t ≤ shares.length := h.present.trans (length_filter_le _ _)
  obtain ⟨o,hl,-⟩:=lagrangeCoefficients_eq
    (nodes_presentFrom shares h.size_valid t) (by rw [hc]; exact h.threshold_gt)
    valid_create
  have hsub : (List.range (numSubsecrets s)).map (reconstructSubsecret shares
      ((presentFrom shares 0).take t)
      (coefficientsOf ((presentFrom shares 0).take t)))=subsecretsOf s := by
    rw [subsecretsOf]
    apply map_congr_left
    intro i hi
    have hi' : i<(subsecretsOf s).length := by
      rw [length_subsecretsOf]
      exact mem_range.mp hi
    rw [h.interpolation i hi',getD_eq_getElem _ _ hi']
    simp [subsecretsOf]
  refine ⟨o,?_⟩
  rw [reconstruct,decide_eq_true h.threshold_gt,decide_eq_true hpos,decide_eq_true henough,
    fcpCheck_true,ok_bind,ok_bind,ok_bind,hm,ok_bind,hcol,ok_bind]
  dsimp only
  rw [if_neg (by rw [hc]; exact Nat.lt_irrefl _),hl,ok_bind]
  dsimp only
  rw [hsub,rebuild_subsecretsOf]
  rfl

theorem keyLength_sharesOf {subs : List ℕ} (h : SharesOf t subs shares)
    (hk : subs.length=9 ∧ size=kSize ∨ subs.length=5 ∧ size=kLegacyKeySize) :
    keyLength shares=.ok size := by
  have hgt:=h.threshold_gt
  have hp:=h.present
  rw [keyLength_eq]
  cases hf : shares.filter fun share => !share.isEmpty with
  | nil =>
    rw [hf,length_nil] at hp
    omega
  | cons share rest =>
    have hm : share∈shares.filter fun share => !share.isEmpty := by
      rw [hf]
      exact mem_cons_self
    rw [mem_filter] at hm
    have hs:=h.size share hm.1 (by simpa using hm.2)
    show (if share.length=36 then .ok kSize else if share.length=20 then
      .ok kLegacyKeySize else .error .check : Checked ℕ)=_
    rcases hk with ⟨hn,rfl⟩ | ⟨hfive,rfl⟩
    · rw [if_pos (by omega)]
    · rw [if_neg (by omega),if_pos (by omega)]

theorem createFromShares_of_reconstruct {o : ShamirSecretSharing}
    (hs : AesKey.keyLength shares=.ok size) (hne : size≠0)
    (hr : ShamirSecretSharing.create.reconstruct t shares size=.ok (o,.ok s))
    (hk : (if size=AesKey.kLegacyKeySize then AesKey.stripLegacyKey s else s)=key)
    (ha : (key.length>0 ∧ key.length≤17) ∨ key.length=32) :
    AesKey.createFromShares shares t=.ok (.ok key) := by
  rw [AesKey.createFromShares,hs,ok_bind,decide_eq_true hne,fcpCheck_true,ok_bind,hr,ok_bind]
  dsimp only
  rw [hk,AesKey.create,decide_eq_true ha,fcpCheck_true]
  rfl

end Reconstruct

def legacyBytes (v : ℕ) : Bytes := (toLittleEndian kLegacyKeySize v).reverse

def legacyChunks (v : ℕ) : List ℕ := (List.range 5).map fun i => v/2^(31*(4-i))%2^31

variable {v : ℕ}

theorem secretValue_legacyBytes (hv : v<2^135) : secretValue (legacyBytes v)=v := by
  rw [secretValue,legacyBytes,reverse_reverse,littleEndian_toLittleEndian]
  exact Nat.mod_eq_of_lt (hv.trans (by decide))

@[simp] theorem length_legacyBytes (v : ℕ) : (legacyBytes v).length=17 := by
  rw [legacyBytes,length_reverse,length_toLittleEndian]
  rfl

theorem subsecretsOf_legacyBytes (hv : v<2^135) : subsecretsOf (legacyBytes v)=legacyChunks v := by
  have hn : numSubsecrets (legacyBytes v)=5 := by rw [numSubsecrets,length_legacyBytes]
  rw [subsecretsOf,hn,legacyChunks]
  simp only [subsecretOf,secretValue_legacyBytes hv]

theorem strip_legacyBytes (hv : v<2^135) : stripLegacyKey (legacyBytes v)=toByteArray v := by
  have hvalue:=secretValue_legacyBytes hv
  have hl:=length_legacyBytes v
  cases hk : legacyBytes v with
  | nil =>
    rw [hk] at hl
    simp at hl
  | cons b rest =>
    rw [hk] at hvalue hl
    have hr : rest.length=16 := by simpa using hl
    rw [stripLegacyKey_eq b rest,hvalue]
    rw [secretValue_cons,hr] at hvalue
    rw [UInt8.lt_iff_toNat_lt]
    show b.toNat<128
    omega

/-- Keys come back from their shares: a legacy key as the shortest encoding of its number, a key
of 32 bytes as it is. -/
theorem createFromShares_exact (t : ℕ) (shares : List ShamirShare) :
    (∀ v<2^135,SharesOf t (legacyChunks v) shares →
      createFromShares shares t=.ok (.ok (toByteArray v))) ∧
    (∀ key : Bytes,key.length=32 → SharesOf t (subsecretsOf key) shares →
      createFromShares shares t=.ok (.ok key)) := by
  constructor
  · intro v hv hs
    have hsize:=keyLength_sharesOf hs (.inr ⟨by simp [legacyChunks],rfl⟩)
    rw [← subsecretsOf_legacyBytes hv] at hs
    obtain ⟨o,hr⟩:=reconstruct_sharesOf (length_pos_iff.mp (by simp))
      (by rw [length_legacyBytes]; decide) hs
    have hstrip:=stripLegacyKey_length (legacyBytes v) (length_pos_iff.mp (by simp))
    rw [length_legacyBytes,strip_legacyBytes hv] at hstrip
    rw [length_legacyBytes] at hr
    exact createFromShares_of_reconstruct hsize (by decide) hr
      ((if_pos rfl).trans (strip_legacyBytes hv)) (.inl hstrip)
  · intro key hk hs
    have hn : (subsecretsOf key).length=9 := by rw [length_subsecretsOf,numSubsecrets,hk]
    have hsize:=keyLength_sharesOf hs (.inl ⟨hn,rfl⟩)
    obtain ⟨o,hr⟩:=reconstruct_sharesOf (length_pos_iff.mp (by omega)) (by rw [hk]; decide) hs
    rw [hk] at hr
    exact createFromShares_of_reconstruct hsize (by decide) hr (if_neg (by decide)) (.inr hk)

theorem createFromShares_exact_twoShares : createFromShares
        (List.replicate 2 ((legacyChunks 128).flatMap intToByteString)) 2=.ok (.ok [0,128]) ∧
      createFromShares
        (List.replicate 2 ((subsecretsOf (List.replicate 32 255)).flatMap intToByteString)) 2 =
          .ok (.ok (List.replicate 32 255)) := by
  constructor
  · exact (createFromShares_exact 2 _).1 128 (by decide)
      ⟨by decide,by decide,by decide +kernel,by decide +kernel,by decide +kernel⟩
  · exact (createFromShares_exact 2 _).2 (List.replicate 32 255) (by decide)
      ⟨by decide,by decide,by decide +kernel,by decide +kernel,by decide +kernel⟩

end Fcp.SecAgg

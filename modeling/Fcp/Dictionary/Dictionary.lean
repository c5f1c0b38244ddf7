import Fcp.Base.Monitoring
import Fcp.Lib.NameMap
import Mathlib.Data.Finset.Card

/-!
# The dictionary of tokens (dictionary/dictionary.cc)

The ids come from a hash map and the tokens from a vector beside it; the two agree exactly when no
token is repeated and all ids fit into an `int32_t`. The difference of an id and the first id of a
token overflows for the smallest ids.
-/

namespace Fcp.Dictionary

open List

structure SpecialIds where
  unk : Option ℤ
  bos : Option ℤ
  eos : Option ℤ

/-- An optional field with the default `-1`. -/
def orUnset (id : Option ℤ) : ℤ := id.getD (-1)

/-- The vocabulary may be missing, and so may its index. -/
structure DictionaryDescription where
  specialIds : SpecialIds
  vocabulary : Option (Option (List String))
  outputBlocklistIds : Option (List ℤ)

def kNotFound : ℤ := -1

structure HashVectorBimap where
  first : AList fun _ : String => ℤ
  second : List String

variable (bimap : HashVectorBimap) (specialIds : SpecialIds)

def mapLookup (tag : String) : ℤ := (bimap.first.lookup tag).getD kNotFound

def mapReverseLookup (id : ℤ) : String :=
  if id<0 ∨ id≥bimap.second.length then "" else bimap.second.getD id.toNat ""

def getSize : ℤ := (BitVec.ofNat 32 bimap.first.entries.length).toInt

def getMaxSpecialId : ℤ :=
  max (max (max (-1) (orUnset specialIds.bos)) (orUnset specialIds.eos)) (orUnset specialIds.unk)

structure DictionaryImpl where
  bimap : HashVectorBimap
  specialIds : SpecialIds
  maxSpecialId : ℤ
  outputBlocklistIds : List ℤ

def DictionaryImpl.construct
    (outputBlocklistIds : List ℤ) : Checked DictionaryImpl := do
  let maxSpecialId := getMaxSpecialId specialIds
  fcpCheck (specialIds.bos.isSome=decide (orUnset specialIds.bos≥0))
  fcpCheck (specialIds.eos.isSome=decide (orUnset specialIds.eos≥0))
  fcpCheck (specialIds.unk.isSome=decide (orUnset specialIds.unk≥0))
  let first ← checkInt (maxSpecialId+1)
  -- the number of elements to reserve
  let _ ← checkInt (first+outputBlocklistIds.length)
  return ⟨bimap,specialIds,maxSpecialId,(List.range first.toNat).map Int.ofNat++outputBlocklistIds⟩

namespace DictionaryImpl

/-- `n + max_special_id_ + 1` -/
def shifted (d : DictionaryImpl) (n : ℤ) : Checked ℤ := do
  let sum ← checkInt (n+d.maxSpecialId)
  checkInt (sum+1)

def size (d : DictionaryImpl) : Checked ℤ := d.shifted (getSize d.bimap)

def tokenToId (d : DictionaryImpl) (tag : String) : Checked ℤ :=
  let id := mapLookup d.bimap tag
  if id=kNotFound then .ok (orUnset d.specialIds.unk) else d.shifted id

def idToToken (d : DictionaryImpl) (id : ℤ) : Checked String := do
  let first ← checkInt (d.maxSpecialId+1)
  let place ← checkInt (id-first)
  return mapReverseLookup d.bimap place

def isSpecialId (d : DictionaryImpl) (tokenId : ℤ) : Bool := tokenId≤d.maxSpecialId

def getSortedOutputBlocklistIds (d : DictionaryImpl) : List ℤ := d.outputBlocklistIds

end DictionaryImpl

def checkBlocklistIds (maxSpecialId : ℤ) : Option ℤ → List ℤ → StatusOr Unit
  | _, [] => .ok ()
  | previous, id::ids =>
    if id ≤ maxSpecialId then
      .error ⟨.invalidArgument,"output_blocklist_ids should not overlap with special ids"⟩
    else if previous.any (id≤·) then
      .error ⟨.invalidArgument,"output_blocklist_ids not unique or sorted"⟩
    else checkBlocklistIds maxSpecialId (some id) ids

def isOutputBlocklistIdsSortedAndUnique (description : DictionaryDescription) : StatusOr Unit :=
  checkBlocklistIds (getMaxSpecialId description.specialIds) none
    (description.outputBlocklistIds.getD [])

def addTokens (bimap : HashVectorBimap) (i : ℤ) : List String → Checked HashVectorBimap
  | [] => .ok bimap
  | token::rest => do
    fcpCheck (token≠"")
    let next ← checkInt (i+1)
    addTokens ⟨bimap.first.insert token i,bimap.second++[token]⟩ next rest

def create (description : DictionaryDescription) : Checked (StatusOr DictionaryImpl) :=
  match description.vocabulary with
  | none => .ok (.error ⟨.invalidArgument,
      "Cannot create a dictionary that does not have vocabulary set"⟩)
  | some index =>
    match isOutputBlocklistIdsSortedAndUnique description, index with
    | .error status, _ => .ok (.error status)
    | .ok (), none => .ok (.error ⟨.invalidArgument,
        "Invalid DictionaryDescription: no vocabulary specified."⟩)
    | .ok (), some tokens => do
      let bimap ← addTokens ⟨∅,[]⟩ 0 tokens
      let d ← DictionaryImpl.construct bimap description.specialIds
        (description.outputBlocklistIds.getD [])
      .ok (.ok d)

/-- Tokens and ids correspond, and the ids from `lowest` on that are not those of tokens have the
empty string. -/
structure Bijection (tokens : List String) (lowest : ℤ) (d : DictionaryImpl) : Prop where
  size : d.size=.ok (d.maxSpecialId+1+tokens.length)
  token : ∀ t∈tokens,∃ id,d.tokenToId t=.ok id ∧ d.maxSpecialId+1 ≤ id ∧
    id<d.maxSpecialId+1+tokens.length ∧ d.idToToken id=.ok t
  id : ∀ id,d.maxSpecialId+1 ≤ id → id<d.maxSpecialId+1+tokens.length →
    ∃ t,d.idToToken id=.ok t ∧ d.tokenToId t=.ok id
  unknown : ∀ t,t∉tokens → d.tokenToId t=.ok (orUnset d.specialIds.unk)
  noToken : ∀ id,lowest ≤ id → id<2^31 →
    ¬ (d.maxSpecialId+1 ≤ id ∧ id<d.maxSpecialId+1+tokens.length) → d.idToToken id=.ok ""
  sorted : d.getSortedOutputBlocklistIds.Pairwise (·<·)
  special : ∀ id,0 ≤ id → id≤d.maxSpecialId → id∈d.getSortedOutputBlocklistIds

theorem checkBlocklistIds_ok {maxSpecialId : ℤ} {previous : Option ℤ} {ids : List ℤ}
    (h : checkBlocklistIds maxSpecialId previous ids=.ok ()) :
    (∀ id∈ids,maxSpecialId < id) ∧ (∀ p∈previous,∀ id∈ids,p < id) ∧ ids.Pairwise (·<·) := by
  induction ids generalizing previous with
  | nil => exact ⟨nofun,fun _ _ => nofun,.nil⟩
  | cons id ids ih =>
    simp only [checkBlocklistIds] at h
    split_ifs at h with hl hprevious
    obtain ⟨ha,hafter,hs⟩:=ih h
    have hid : ∀ x∈ids,id<x := hafter id rfl
    refine ⟨?_,?_,pairwise_cons.mpr ⟨hid,hs⟩⟩
    · intro x hx
      obtain rfl | hx:=mem_cons.mp hx
      · omega
      · exact ha x hx
    · rintro p hp
      have hlt : p < id := by
        rw [Option.mem_def.mp hp] at hprevious
        simpa using hprevious
      intro x hx
      obtain rfl | hx:=mem_cons.mp hx
      · exact hlt
      · exact hlt.trans (hid x hx)

/-- The bimap holds some tokens, with the place of one of its occurrences for each. -/
structure Numbered (tokens : List String) (bimap : HashVectorBimap) : Prop where
  second : bimap.second=tokens
  short : tokens.length<2^31
  keys : ∀ t,t∈bimap.first ↔ t∈tokens
  place : ∀ t i,bimap.first.lookup t=some i → ∃ n : ℕ,i=n ∧ tokens[n]?=some t

theorem Numbered.addTokens {before rest : List String} {bimap bimap' : HashVectorBimap}
    (h : Numbered before bimap) (ha : addTokens bimap before.length rest=.ok bimap') :
    Numbered (before++rest) bimap' := by
  induction rest generalizing before bimap with
  | nil =>
    cases ha
    rwa [append_nil]
  | cons token rest ih =>
    obtain ⟨-,-,ha⟩:=bind_eq_ok.mp ha
    obtain ⟨next,hn,ha⟩:=bind_eq_ok.mp ha
    obtain ⟨hs,rfl⟩:=ite_eq_ok.mp (checkInt_eq_ite _ ▸ hn)
    have hnext : Numbered (before++[token])
        ⟨bimap.first.insert token before.length,bimap.second++[token]⟩ := by
      refine ⟨by rw [h.second],?_,fun t => ?_,fun t i hi => ?_⟩
      · rw [length_append,length_singleton]
        omega
      · rw [AList.mem_insert,h.keys t,mem_append,mem_singleton,or_comm]
      · by_cases heq : t=token
        · subst heq
          rw [AList.lookup_insert] at hi
          cases hi
          exact ⟨before.length,rfl,by simp⟩
        · rw [AList.lookup_insert_ne heq] at hi
          obtain ⟨n,rfl,hn⟩:=h.place t i hi
          have hlt:=(List.getElem?_eq_some_iff.mp hn).1
          exact ⟨n,rfl,by rw [getElem?_append_left hlt,hn]⟩
    have hall:=ih hnext (by simpa using ha)
    rwa [append_assoc] at hall

theorem Numbered.length_eq {tokens : List String} {bimap : HashVectorBimap}
    (h : Numbered tokens bimap) : bimap.first.entries.length=tokens.toFinset.card := by
  have hk : bimap.first.keys.toFinset=tokens.toFinset := by
    ext t
    rw [mem_toFinset,mem_toFinset]
    exact h.keys t
  rw [← hk,toFinset_card_of_nodup bimap.first.keys_nodup,AList.keys,List.keys,length_map]

theorem le_getMaxSpecialId : -1≤getMaxSpecialId specialIds := by
  simp [getMaxSpecialId]

structure Created (description : DictionaryDescription) (tokens : List String)
    (d : DictionaryImpl) : Prop where
  numbered : Numbered tokens d.bimap
  maxSpecialId : d.maxSpecialId=getMaxSpecialId description.specialIds
  low : -1≤d.maxSpecialId
  high : d.maxSpecialId+1<2^31
  sorted : d.getSortedOutputBlocklistIds.Pairwise (·<·)
  special : ∀ id,0 ≤ id → id≤d.maxSpecialId → id∈d.getSortedOutputBlocklistIds

theorem created_of_create {description : DictionaryDescription} {tokens : List String}
    {d : DictionaryImpl} (ht : description.vocabulary=some (some tokens))
    (h : create description=.ok (.ok d)) : Created description tokens d := by
  simp only [create,ht] at h
  cases hi : isOutputBlocklistIdsSortedAndUnique description with
  | error st => simp [hi] at h
  | ok u =>
    simp only [hi,bind_eq_ok,DictionaryImpl.construct] at h
    obtain ⟨bimap,hbimap,d',⟨-,-,-,-,-,-,first,hf,-,-,hd⟩,heq⟩:=h
    obtain ⟨⟨-,hfit⟩,rfl⟩:=ite_eq_ok.mp (checkInt_eq_ite _ ▸ hf)
    cases heq
    cases pure_eq_ok.mp hd
    obtain ⟨habove,-,hs⟩:=checkBlocklistIds_ok hi
    have he : Numbered [] ⟨∅,[]⟩ := ⟨rfl,by decide,by simp,by simp⟩
    refine ⟨he.addTokens hbimap,rfl,le_getMaxSpecialId _,hfit,?_,fun id hl hh => ?_⟩
    · refine pairwise_append.mpr ⟨?_,hs,fun a ha b hb => ?_⟩
      · exact pairwise_map.mpr (pairwise_lt_range.imp Int.ofNat_lt.mpr)
      · obtain ⟨n,hn,rfl⟩:=mem_map.mp ha
        have := mem_range.mp hn
        have := habove b hb
        have := le_getMaxSpecialId description.specialIds
        simp only [Int.ofNat_eq_natCast]
        omega
    · refine mem_append_left _ (mem_map.mpr ⟨id.toNat,?_,?_⟩)
      · simp only at hh
        exact mem_range.mpr (by omega)
      · exact Int.toNat_of_nonneg hl

section Law

variable {description : DictionaryDescription} {tokens : List String} {d : DictionaryImpl}

theorem shifted_eq (h : Created description tokens d) {n : ℤ} (hn : 0≤n) :
    d.shifted n=if d.maxSpecialId+1+n<2^31 then .ok (d.maxSpecialId+1+n)
      else .error .signedOverflow := by
  have hl:=h.low
  rw [DictionaryImpl.shifted,checkInt_eq_ite]
  by_cases hs : n+d.maxSpecialId<2^31
  · have he : n+d.maxSpecialId+1=d.maxSpecialId+1+n := by omega
    rw [if_pos (by omega),ok_bind,checkInt_eq_ite,he]
    exact if_congr (by omega) rfl rfl
  · rw [if_neg (by omega),if_neg (by omega)]
    rfl

theorem size_eq (h : Created description tokens d) :
    d.size=if d.maxSpecialId+1+tokens.toFinset.card<2^31 then
      .ok (d.maxSpecialId+1+tokens.toFinset.card) else .error .signedOverflow := by
  have hc:=toFinset_card_le tokens
  have hs:=h.numbered.short
  have hg : getSize d.bimap=tokens.toFinset.card := by
    have hm : (BitVec.ofNat 32 tokens.toFinset.card).toNat=tokens.toFinset.card :=
      Nat.mod_eq_of_lt (by omega)
    rw [getSize,h.numbered.length_eq,BitVec.toInt_eq_toNat_of_lt (by omega),hm]
  rw [DictionaryImpl.size,hg,shifted_eq h (by omega)]

theorem fits_of_size (h : Created description tokens d)
    (hs : d.size=.ok (d.maxSpecialId+1+tokens.length)) :
    tokens.Nodup ∧ d.maxSpecialId+1+tokens.length<2^31 := by
  rw [size_eq h,ite_eq_ok] at hs
  have he : tokens.length=tokens.toFinset.card := by omega
  exact ⟨Multiset.toFinset_card_eq_card_iff_nodup.mp he.symm,by omega⟩

/-- Each id of the `int32_t` from which the first id of a token can be subtracted has a string. -/
theorem idToToken_eq (h : Created description tokens d) {id : ℤ} (hm : id<2^31) :
    d.idToToken id=if d.maxSpecialId+1 ≤ id+2^31 then
      .ok (mapReverseLookup d.bimap (id-(d.maxSpecialId+1))) else .error .signedOverflow := by
  have hl:=h.low
  have hh:=h.high
  rw [DictionaryImpl.idToToken,checkInt_eq_ite,if_pos (by omega),ok_bind,checkInt_eq_ite]
  by_cases hid : d.maxSpecialId+1 ≤ id+2^31
  · rw [if_pos (by omega),if_pos hid]
    rfl
  · rw [if_neg (by omega),if_neg hid]
    rfl

variable {n : ℕ} {t : String}

section

variable (h : Created description tokens d)
include h

theorem tokenToId_of_getElem? (hnodup : tokens.Nodup) (hf : d.maxSpecialId+1+tokens.length<2^31)
    (hn : tokens[n]?=some t) : d.tokenToId t=.ok (d.maxSpecialId+1+n) := by
  obtain ⟨hlt,-⟩:=List.getElem?_eq_some_iff.mp hn
  have hmem : t∈d.bimap.first := (h.numbered.keys t).mpr (mem_of_getElem? hn)
  obtain ⟨i,hi⟩:=exists_lookup hmem
  obtain ⟨m,rfl,hm⟩:=h.numbered.place t i hi
  have hs : m=n := (getElem?_inj (List.getElem?_eq_some_iff.mp hm).1 hnodup).mp (hm.trans hn.symm)
  subst hs
  simp only [DictionaryImpl.tokenToId,mapLookup,hi,Option.getD_some,kNotFound]
  rw [if_neg (by omega),shifted_eq h (by omega),if_pos (by omega)]

theorem idToToken_add (hf : d.maxSpecialId+1+tokens.length<2^31)
    (hn : tokens[n]?=some t) : d.idToToken (d.maxSpecialId+1+n)=.ok t := by
  obtain ⟨hlt,ht⟩:=List.getElem?_eq_some_iff.mp hn
  have hs : d.maxSpecialId+1+n-(d.maxSpecialId+1)=n := by omega
  rw [idToToken_eq h (by omega),if_pos (by omega),mapReverseLookup,h.numbered.second,hs,
    if_neg (by omega)]
  simp [hlt,ht]

theorem idToToken_outside {id : ℤ} (hmin : d.maxSpecialId+1 ≤ id+2^31) (hm : id<2^31)
    (hid : ¬ (d.maxSpecialId+1 ≤ id ∧ id<d.maxSpecialId+1+tokens.length)) :
    d.idToToken id=.ok "" := by
  rw [idToToken_eq h hm,if_pos hmin,mapReverseLookup,h.numbered.second,if_pos (by omega)]

end

/-- A created dictionary is a bijection exactly when its tokens are distinct, all ids fit, and the
strings of no ids are asked for that are too small for the subtraction. -/
theorem bijection_iff (htokens : description.vocabulary=some (some tokens))
    (hc : create description=.ok (.ok d)) {lowest : ℤ} :
    Bijection tokens lowest d ↔ tokens.Nodup ∧
      getMaxSpecialId description.specialIds+1+tokens.length<2^31 ∧
      getMaxSpecialId description.specialIds+1≤lowest+2^31 := by
  have h:=created_of_create htokens hc
  have hl:=h.low
  have hh:=h.high
  rw [← h.maxSpecialId]
  constructor
  · intro hb
    obtain ⟨hnodup,hf⟩:=fits_of_size h hb.size
    refine ⟨hnodup,hf,?_⟩
    by_contra hs
    have hnone:=hb.noToken lowest (by omega) (by omega) (by omega)
    rw [idToToken_eq h (by omega),if_neg hs] at hnone
    cases hnone
  · intro ⟨hnodup,hf,hs⟩
    refine ⟨?_,fun t ht => ?_,fun id hmin hm => ?_,fun t ht => ?_,
      fun id hmin hm hid => ?_,h.sorted,h.special⟩
    · rw [size_eq h,toFinset_card_of_nodup hnodup,if_pos hf]
    · obtain ⟨n,hn⟩:=mem_iff_getElem?.mp ht
      obtain ⟨hlt,-⟩:=List.getElem?_eq_some_iff.mp hn
      exact ⟨_,tokenToId_of_getElem? h hnodup hf hn,by omega,by omega,idToToken_add h hf hn⟩
    · obtain ⟨n,hn⟩:=Int.eq_ofNat_of_zero_le (sub_nonneg.mpr hmin)
      obtain rfl : id=d.maxSpecialId+1+n := by omega
      have hg:=getElem?_eq_getElem (show n<tokens.length by omega)
      exact ⟨_,idToToken_add h hf hg,tokenToId_of_getElem? h hnodup hf hg⟩
    · have hnone : d.bimap.first.lookup t=none := by
        rw [AList.lookup_eq_none,h.numbered.keys t]
        exact ht
      simp [DictionaryImpl.tokenToId,mapLookup,hnone,kNotFound]
    · exact idToToken_outside h (by omega) hm hid

end Law

def sampleDescription (tokens : List String) : DictionaryDescription :=
  ⟨⟨some 0,none,none⟩,some (some tokens),none⟩

theorem bijection_two_tokens : ∃ d,create (sampleDescription ["a","b"])=.ok (.ok d) ∧
    Bijection ["a","b"] (1-2^31) d := by
  have ht : (sampleDescription ["a","b"]).vocabulary=some (some ["a","b"]) := rfl
  exact ⟨_,rfl,(bijection_iff ht rfl).mpr (by decide)⟩

/-- A token that is listed twice has an id beyond the size, and there is an id from which one cannot
be subtracted. -/
theorem repeated_token_outside : ∃ d,create (sampleDescription ["b","a","b"])=.ok (.ok d) ∧
    d.size=.ok 3 ∧ d.tokenToId "b"=.ok 3 ∧ d.idToToken 1=.ok "b" ∧
    d.idToToken (-2^31)=.error .signedOverflow ∧
    ∀ lowest,¬ Bijection ["b","a","b"] lowest d := by
  refine ⟨_,rfl,rfl,rfl,rfl,rfl,fun lowest h => ?_⟩
  cases h.size

end Fcp.Dictionary

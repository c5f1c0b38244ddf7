import Fcp.Base.Monitoring

/-!
# Encoding of URI path segments (client/http/http_client_util.cc)

Characters become a percent sign and their number in hexadecimal digits, without a leading zero: one
below 16 has one digit only.
-/

namespace Fcp.Client.Http

open List

def isAscii (c : Char) : Bool := c.toNat<128

def upperHexDigit (n : ℕ) : Char := Char.ofNat (if n<10 then 48+n else 55+n)

/-- The conversion `%X` of an `unsigned char`. -/
def formatHex (n : ℕ) : List Char :=
  if n<16 then [upperHexDigit n] else [upperHexDigit (n/16),upperHexDigit (n%16)]

def encodedChar (unencodedChars : Char → Bool) (c : Char) : List Char :=
  if unencodedChars c then [c] else '%'::formatHex c.toNat

def percentEncode (unencodedChars : Char → Bool) : List Char → StatusOr (List Char)
  | [] => .ok []
  | c::input =>
    if !isAscii c then
      .error ⟨.invalidArgument,
        "Encountered unsupported char during URI encoding: "++toString c.toNat⟩
    else do
      let result ← percentEncode unencodedChars input
      .ok (encodedChar unencodedChars c++result)

def isUnreserved (c : Char) : Bool := c.isAlphanum || c = '-' || c = '_' || c = '.' || c = '~'

def encodeUriSinglePathSegment : List Char → StatusOr (List Char) := percentEncode isUnreserved

def encodeUriMultiplePathSegments : List Char → StatusOr (List Char) :=
  percentEncode fun c => isUnreserved c || c = '/'

def createByteStreamUploadUriSuffix (resourceName : List Char) : StatusOr (List Char) := do
  let encodedResourceName ← encodeUriMultiplePathSegments resourceName
  .ok ("/upload/v1/media/".toList++encodedResourceName)

def hexValue (c : Char) : Option ℕ :=
  let n := c.toNat
  if 48≤n ∧ n≤57 then some (n-48)
  else if 65≤n ∧ n≤70 then some (n-55)
  else if 97≤n ∧ n≤102 then some (n-87)
  else none

/-- Percent-decoding as URIs define it, which refuses a percent sign without two digits. -/
def percentDecode : List Char → Option (List Char)
  | [] => some []
  | c::rest =>
    if c = '%' then
      match rest with
      | a::b::rest => do
        let high ← hexValue a
        let low ← hexValue b
        (Char.ofNat (16*high+low)::·) <$> percentDecode rest
      | _ => none
    else (c::·) <$> percentDecode rest

/-- Characters that are left as they are, and percent signs with two digits. -/
inductive WellFormed (unencodedChars : Char → Bool) : List Char → Prop
  | nil : WellFormed unencodedChars []
  | plain {c : Char} {rest : List Char} (hc : unencodedChars c=true)
      (h : WellFormed unencodedChars rest) : WellFormed unencodedChars (c::rest)
  | escaped {a b : Char} {rest : List Char} (ha : (hexValue a).isSome)
      (hb : (hexValue b).isSome) (h : WellFormed unencodedChars rest) :
      WellFormed unencodedChars ('%'::a::b::rest)

/-- The encoding of a string is well formed and can be undone. -/
def Undone (encode : List Char → StatusOr (List Char)) (unencodedChars : Char → Bool)
    (s : List Char) : Prop :=
  ∃ t,encode s=.ok t ∧ WellFormed unencodedChars t ∧ percentDecode t=some s

theorem hexValue_upperHexDigit {n : ℕ} (h : n<16) : hexValue (upperHexDigit n)=some n := by
  have ha : ∀ n<16,hexValue (upperHexDigit n)=some n := by decide
  exact ha n h

section Encoding

variable {u : Char → Bool} {c : Char} {s t : List Char}

theorem percentEncode_eq (hs : ∀ c∈s,isAscii c=true) :
    percentEncode u s=.ok (s.flatMap (encodedChar u)) := by
  induction s with
  | nil => rfl
  | cons c s ih =>
    have ht:=ih fun x hx => hs x (mem_cons_of_mem _ hx)
    simp only [percentEncode,hs c mem_cons_self,ht]
    rfl

theorem percentDecode_cons (h : c ≠ '%') : percentDecode (c::t)=(c::·) <$> percentDecode t := by
  obtain _ | ⟨a,_ | ⟨b,t⟩⟩:=t <;> simp [percentDecode,h]

theorem encodedChar_long (huc : u c=false) (hc : 16≤c.toNat) :
    encodedChar u c=['%',upperHexDigit (c.toNat/16),upperHexDigit (c.toNat%16)] := by
  simp [encodedChar,huc,formatHex,Nat.not_lt.mpr hc]

theorem encodedChar_short (huc : u c=false) (hc : c.toNat<16) :
    encodedChar u c=['%',upperHexDigit c.toNat] := by
  simp [encodedChar,huc,formatHex,hc]

theorem wellFormed_encodedChar (ha : isAscii c=true) (hc : 16≤c.toNat)
    (ht : WellFormed u t) : WellFormed u (encodedChar u c++t) := by
  cases huc : u c with
  | true =>
    simp only [encodedChar,huc,if_true,singleton_append]
    exact .plain huc ht
  | false =>
    have hlt : c.toNat<128 := of_decide_eq_true ha
    rw [encodedChar_long huc hc]
    refine .escaped ?_ ?_ ht
    · rw [hexValue_upperHexDigit (by omega)]
      rfl
    · rw [hexValue_upperHexDigit (by omega)]
      rfl

variable (hu : ∀ c,u c=true → c ≠ '%' ∧ 16≤c.toNat)
include hu

theorem decode_encodedChar (ha : isAscii c=true) (hc : 16≤c.toNat) :
    percentDecode (encodedChar u c++t)=(c::·) <$> percentDecode t := by
  cases huc : u c with
  | true =>
    simp only [encodedChar,huc,if_true,singleton_append]
    exact percentDecode_cons (hu c huc).1
  | false =>
    have hlt : c.toNat<128 := of_decide_eq_true ha
    have hv : 16*(c.toNat/16)+c.toNat%16=c.toNat := Nat.div_add_mod _ _
    simp [encodedChar_long huc hc,percentDecode,hv,
      hexValue_upperHexDigit (show c.toNat/16<16 by omega),
      hexValue_upperHexDigit (show c.toNat%16<16 by omega)]

/-- The digit of a character below 16 is completed by the character after it. -/
theorem decode_short (hc : c.toNat<16) {r : List Char}
    (h : percentDecode ((c::s).flatMap (encodedChar u))=some r) :
    ∃ c' s' low r',s=c'::s' ∧ r=Char.ofNat (16*c.toNat+low)::r' ∧
      percentDecode (s'.flatMap (encodedChar u))=some r' := by
  have huc : u c=false := by
    rw [Bool.eq_false_iff]
    intro huc
    have := (hu c huc).2
    omega
  rw [flatMap_cons,encodedChar_short huc hc] at h
  cases s with
  | nil => simp [percentDecode] at h
  | cons c' s =>
    cases huc' : u c' with
    | true =>
      simp only [flatMap_cons,encodedChar,huc',if_true,cons_append,nil_append,
        percentDecode,hexValue_upperHexDigit hc,Option.bind_eq_bind,Option.bind_some,
        Option.bind_eq_some_iff,Option.map_eq_map,Option.map_eq_some_iff] at h
      obtain ⟨low,-,r',hr',rfl⟩:=h
      exact ⟨c',s,low,r',rfl,rfl,hr'⟩
    | false =>
      have hp : hexValue '%'=none := by decide
      simp [encodedChar,huc',percentDecode,hp] at h

section

variable (hs : ∀ c∈s,isAscii c=true)
include hs

theorem length_le_of_decode {r : List Char}
    (h : percentDecode (s.flatMap (encodedChar u))=some r) : r.length ≤ s.length := by
  induction hn : s.length using Nat.strong_induction_on generalizing s r with
  | _ n ih =>
    cases s with
    | nil =>
      cases h
      exact Nat.zero_le _
    | cons c s =>
      have ht : ∀ x∈s,isAscii x=true := fun x hx => hs x (mem_cons_of_mem _ hx)
      rw [length_cons] at hn
      by_cases hc : c.toNat<16
      · obtain ⟨c',s',low,r',rfl,rfl,hr'⟩:=decode_short hu hc h
        rw [length_cons] at hn ⊢
        have := ih s'.length (by omega) (fun x hx => ht x (mem_cons_of_mem _ hx)) hr' rfl
        omega
      · rw [flatMap_cons,decode_encodedChar hu (hs c mem_cons_self) (by omega),
          Option.map_eq_map,Option.map_eq_some_iff] at h
        obtain ⟨r',hr',rfl⟩:=h
        have := ih s.length (by omega) ht hr' rfl
        rw [length_cons]
        omega

theorem undone_of_le (hl : ∀ c∈s,16≤c.toNat) : Undone (percentEncode u) u s := by
  refine ⟨_,percentEncode_eq hs,?_⟩
  induction s with
  | nil => exact ⟨.nil,rfl⟩
  | cons c s ih =>
    obtain ⟨hw,hd⟩:=ih (fun x hx => hs x (mem_cons_of_mem _ hx))
      fun x hx => hl x (mem_cons_of_mem _ hx)
    have hc:=hl c mem_cons_self
    have ha:=hs c mem_cons_self
    rw [flatMap_cons,decode_encodedChar hu ha hc,hd]
    exact ⟨wellFormed_encodedChar ha hc hw,rfl⟩

theorem le_of_undone (h : percentDecode (s.flatMap (encodedChar u))=some s) : ∀ c∈s,16≤c.toNat := by
  induction s with
  | nil => exact nofun
  | cons c s ih =>
    have ht : ∀ x∈s,isAscii x=true := fun x hx => hs x (mem_cons_of_mem _ hx)
    by_cases hc : c.toNat<16
    · -- what is left after two characters would have to decode to one character more
      obtain ⟨c',s',low,r',rfl,heq,hr'⟩:=decode_short hu hc h
      obtain ⟨-,rfl⟩:=List.cons.inj heq
      have := length_le_of_decode hu (fun x hx => ht x (mem_cons_of_mem _ hx)) hr'
      rw [length_cons] at this
      omega
    · have ha:=hs c mem_cons_self
      rw [flatMap_cons,decode_encodedChar hu ha (by omega),Option.map_eq_map,
        Option.map_eq_some_iff] at h
      obtain ⟨r,hr,heq⟩:=h
      cases heq
      intro x hx
      obtain rfl | hx:=mem_cons.mp hx
      · omega
      · exact ih ht hr x hx

theorem undone_iff : Undone (percentEncode u) u s ↔ ∀ c∈s,16≤c.toNat := by
  refine ⟨?_,undone_of_le hu hs⟩
  rintro ⟨t,ht,-,hd⟩
  rw [percentEncode_eq hs] at ht
  cases ht
  exact le_of_undone hu hs hd

end

end Encoding

theorem unreserved_or_slash {c : Char} (h : (isUnreserved c || c = '/')=true) :
    c ≠ '%' ∧ 16≤c.toNat := by
  constructor
  · rintro rfl
    exact absurd h (by decide)
  · by_contra hl
    have ha : ∀ n<16,(isUnreserved (Char.ofNat n) || Char.ofNat n = '/')=false := by decide
    have := ha c.toNat (by omega)
    rw [Char.ofNat_toNat,h] at this
    cases this

theorem uri_encoding_undone_iff {s : List Char} (hs : ∀ c∈s,isAscii c=true) :
    (Undone encodeUriSinglePathSegment isUnreserved s ↔ ∀ c∈s,16≤c.toNat) ∧
    (Undone encodeUriMultiplePathSegments (fun c => isUnreserved c || c = '/') s ↔
      ∀ c∈s,16≤c.toNat) ∧
    ((∀ c∈s,16≤c.toNat) → ∀ t,(∀ c∈t,isAscii c=true) → (∀ c∈t,16≤c.toNat) →
      encodeUriSinglePathSegment s=encodeUriSinglePathSegment t ∨
        encodeUriMultiplePathSegments s=encodeUriMultiplePathSegments t → s=t) := by
  have hsingle : ∀ c,isUnreserved c=true → c ≠ '%' ∧ 16≤c.toNat := fun c h =>
    unreserved_or_slash (by rw [h]; rfl)
  have hm : ∀ c,(isUnreserved c || c = '/')=true → c ≠ '%' ∧ 16≤c.toNat :=
    fun c h => unreserved_or_slash h
  refine ⟨undone_iff hsingle hs,undone_iff hm hs,fun hl t ht htlow hsame => ?_⟩
  rcases hsame with hsame | hsame
  · obtain ⟨a,ha,-,hda⟩:=undone_of_le hsingle hs hl
    obtain ⟨b,hb,-,hdb⟩:=undone_of_le hsingle ht htlow
    cases ha.symm.trans (hsame.trans hb)
    exact Option.some.inj (hda.symm.trans hdb)
  · obtain ⟨a,ha,-,hda⟩:=undone_of_le hm hs hl
    obtain ⟨b,hb,-,hdb⟩:=undone_of_le hm ht htlow
    cases ha.symm.trans (hsame.trans hb)
    exact Option.some.inj (hda.symm.trans hdb)

theorem uri_encoding_undone_space : (∀ c∈"a /".toList,isAscii c=true) ∧
    Undone encodeUriSinglePathSegment isUnreserved "a /".toList := by
  have hs : ∀ c∈"a /".toList,isAscii c=true := List.all_eq_true.mp (by decide)
  exact ⟨hs,(uri_encoding_undone_iff hs).1.mpr (by simp)⟩

theorem control_characters_collide : [Char.ofNat 1,'0']≠[Char.ofNat 16] ∧
    encodeUriSinglePathSegment [Char.ofNat 1,'0']=.ok "%10".toList ∧
    encodeUriSinglePathSegment [Char.ofNat 16]=.ok "%10".toList ∧
    encodeUriMultiplePathSegments [Char.ofNat 1,'0']=.ok "%10".toList ∧
    encodeUriMultiplePathSegments [Char.ofNat 16]=.ok "%10".toList ∧
    encodeUriSinglePathSegment ['\n']=.ok "%A".toList ∧
    percentDecode "%A".toList=none := by
  refine ⟨by decide,?_,?_,?_,?_,?_,?_⟩ <;> rfl

end Fcp.Client.Http

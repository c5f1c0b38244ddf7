import Fcp.Client.Http.CurlHeaderParser
import Mathlib.Data.List.TakeWhile

/-!
# The headers of the final response

Curl delivers the headers of every response. The parser takes every response but a 301 for the
final one, and cuts the value of a header at its first colon.
-/

namespace Fcp.Client.Http.Curl

open List CurlHeaderParser

/-- A name is a token, so that no header line begins like a status line. -/
structure HeaderLine where
  name : Text
  value : Text
  token : ':'∉name ∧ '/'∉name

def HeaderLine.line (h : HeaderLine) : Text := h.name ++ ':'::h.value

structure Block where
  version : Text
  status : ℕ
  reason : Text
  headers : List HeaderLine
  noSpace : ' '∉version
  threeDigits : status<1000

def digits (n : ℕ) : Text := [n/100,n/10%10,n%10].map Nat.digitChar

namespace Block

def statusLine (b : Block) : Text := "HTTP/".toList++b.version ++ ' '::(digits b.status++b.reason)

def lines (b : Block) : List Text := b.statusLine::b.headers.map HeaderLine.line++["\r\n".toList]

end Block

def HeaderLine.IsKept (useCurlEncoding : Bool) (h : HeaderLine) : Prop :=
  (!useCurlEncoding || !kEncodingHdrs.any (equalsIgnoreCase h.name))=true

instance HeaderLine.decidableIsKept (useCurlEncoding : Bool) :
    DecidablePred (HeaderLine.IsKept useCurlEncoding) := fun _ => instDecidableEqBool _ _

def Block.headerList (useCurlEncoding : Bool) (b : Block) : HeaderList :=
  (b.headers.filter (HeaderLine.IsKept useCurlEncoding ·)).map fun h =>
    (h.name,stripAsciiWhitespace h.value)

def parseLines (useCurlEncoding : Bool) (lines : List Text) : CurlHeaderParser :=
  lines.foldl parseHeader { useCurlEncoding := useCurlEncoding }

def linesOf (earlier : List Block) (final : Block) : List Text :=
  earlier.flatMap Block.lines++final.lines

structure FinalHeaders (useCurlEncoding : Bool) (earlier : List Block) (final : Block) : Prop where
  notBefore : ∀ n<(linesOf earlier final).length,
    (parseLines useCurlEncoding ((linesOf earlier final).take n)).isLastHeaderLine=false
  last : (parseLines useCurlEncoding (linesOf earlier final)).isLastHeaderLine=true
  status : (parseLines useCurlEncoding (linesOf earlier final)).statusCode=final.status
  headers : (parseLines useCurlEncoding (linesOf earlier final)).headerList =
    final.headerList useCurlEncoding

section Strip

variable {c : Char} {s : Text}

theorem mem_of_mem_strip (h : c∈stripAsciiWhitespace s) : c∈s := by
  have hd:=(dropWhile_sublist _).mem (mem_reverse.mp h)
  exact (dropWhile_sublist _).mem (mem_reverse.mp hd)

theorem mem_dropWhile {p : Char → Bool} (hc : c∈s) (hp : p c=false) : c∈s.dropWhile p := by
  rw [← takeWhile_append_dropWhile (p := p) (l := s),mem_append] at hc
  obtain hc | hc:=hc
  · rw [mem_takeWhile_imp hc] at hp
    cases hp
  · exact hc

theorem mem_strip (hc : c∈s) (hs : isAsciiSpace c=false) : c∈stripAsciiWhitespace s :=
  mem_reverse.mpr (mem_dropWhile (mem_reverse.mpr (mem_dropWhile hc hs)) hs)

theorem strip_cut_iff : stripAsciiWhitespace (s.takeWhile (· ≠ ':'))=stripAsciiWhitespace s ↔
    ':'∉s := by
  constructor
  · intro h hm
    have hcut:=mem_of_mem_strip (h ▸ mem_strip hm (by decide))
    simpa using mem_takeWhile_imp hcut
  · intro h
    rw [takeWhile_eq_self_iff.mpr]
    intro c hc
    simpa using fun heq : c = ':' => h (heq ▸ hc)

theorem takeWhile_append_cons {a b : Text} (h : c∉a) :
    (a++c::b).takeWhile (·≠c)=a ∧ (a++c::b).dropWhile (·≠c)=c::b := by
  have ha : ∀ x∈a,decide (x≠c)=true := fun x hx => by simpa using ne_of_mem_of_not_mem hx h
  constructor
  · rw [takeWhile_append_of_pos ha]
    simp
  · rw [dropWhile_append_of_pos ha]
    simp

end Strip

variable {curl : Bool} {p : CurlHeaderParser}

theorem digitChar_spec : ∀ d<10,(Nat.digitChar d).isDigit=true ∧
    (Nat.digitChar d).toNat - '0'.toNat=d ∧ isAsciiSpace (Nat.digitChar d)=false ∧
    Nat.digitChar d ≠ '-' ∧ Nat.digitChar d ≠ '+' ∧ Nat.digitChar d ≠ ' ' := by decide

theorem simpleAtoi_digits {n : ℕ} (h : n<1000) :
    simpleAtoi (digits n)=some (n : ℤ) ∧ ∀ c∈digits n,decide (c ≠ ' ')=true := by
  obtain ⟨da,va,sa,hminus,hplus,ha⟩:=digitChar_spec (n/100) (by omega)
  obtain ⟨db,vb,-,-,-,hb⟩:=digitChar_spec (n/10%10) (by omega)
  obtain ⟨dc,vc,sc,-,-,hc⟩:=digitChar_spec (n%10) (by omega)
  refine ⟨?_,by simp [digits,ha,hb,hc]⟩
  have hs : stripAsciiWhitespace (digits n)=digits n := by
    simp [stripAsciiWhitespace,digits,sa,sc]
  have hv : parseDigits (digits n)=some (n : ℤ) := by
    simp only [parseDigits,digits,map_cons,map_nil,all_cons,all_nil,da,db,dc,foldl_cons,
      foldl_nil,va,vb,vc]
    simp
    omega
  rw [simpleAtoi,hs,← hv]
  split
  case h_1 hd => exact absurd (cons.inj hd).1 hminus
  case h_2 hd => exact absurd (cons.inj hd).1 hplus
  case h_3 => rfl

theorem parse_statusLine (b : Block) :
    p.parseHeader b.statusLine={ p with statusCode := b.status, headerList := [] } := by
  have hstart : "HTTP/".toList.isPrefixOf b.statusLine=true := by
    rw [List.isPrefixOf_iff_prefix,Block.statusLine,append_assoc]
    exact prefix_append _ _
  obtain ⟨hn,hd⟩:=simpleAtoi_digits b.threeDigits
  have hs : ' '∉"HTTP/".toList++b.version := by
    rw [mem_append,not_or]
    exact ⟨by decide,b.noSpace⟩
  have hc : (splitPair ' ' b.statusLine).2.take 3=digits b.status := by
    simp only [splitPair,Block.statusLine,(takeWhile_append_cons hs).2,tail_cons]
    rw [takeWhile_append_of_pos hd]
    exact take_left' rfl
  simp only [parseHeader,parseAsStatus,hstart,hc,hn,
    if_true,Option.map_some,Option.some_or,Option.getD_some]

def HeaderLine.parsed (useCurlEncoding : Bool) (h : HeaderLine) : HeaderList :=
  if h.IsKept useCurlEncoding then [(h.name,stripAsciiWhitespace (h.value.takeWhile (· ≠ ':')))]
  else []

theorem parse_headerLine (h : HeaderLine) : p.parseHeader h.line =
    { p with headerList := p.headerList++h.parsed p.useCurlEncoding } := by
  have hs : p.parseAsStatus h.line=none := by
    refine if_neg fun hstart => ?_
    obtain ⟨rest,hr⟩:=List.isPrefixOf_iff_prefix.mp hstart
    obtain ⟨more,hn,-⟩ | ⟨more,hh,hm⟩:=append_eq_append_iff.mp hr
    · exact h.token.2 (hn ▸ mem_append_left _ (by decide))
    · cases more with
      | nil => exact h.token.2 ((append_nil _ ▸ hh) ▸ by decide)
      | cons c more =>
        cases (List.cons.inj hm).1
        have : ':'∈"HTTP/".toList := hh ▸ mem_append_right _ mem_cons_self
        exact absurd this (by decide)
  have hp : splitPair ':' h.line=(h.name,h.value.takeWhile (· ≠ ':')) := by
    simp only [splitPair,HeaderLine.line,takeWhile_append_cons h.token.1,tail_cons]
  have hcol : ':'∈h.line := by simp [HeaderLine.line]
  by_cases hk : h.IsKept p.useCurlEncoding
  · have hc:=hk
    unfold HeaderLine.IsKept at hc
    simp only [parseHeader,hs,parseAsHeader,hcol,hp,
      if_true,hc,HeaderLine.parsed,if_pos hk,Option.none_or,Option.some_or,
      Option.getD_some]
  · have hc:=hk
    unfold HeaderLine.IsKept at hc
    simp only [parseHeader,hs,parseAsHeader,hcol,hp,
      if_true,if_neg hc,HeaderLine.parsed,if_neg hk,Option.none_or,Option.some_or,
      Option.getD_some,append_nil]

theorem parse_headerLines (headers : List HeaderLine) :
    (headers.map HeaderLine.line).foldl parseHeader p =
      { p with headerList := p.headerList++headers.flatMap (·.parsed p.useCurlEncoding) } := by
  induction headers generalizing p with
  | nil => simp
  | cons h headers ih => simp [parse_headerLine,ih]

theorem parse_emptyLine : p.parseHeader "\r\n".toList =
    { p with isLastHeaderLine := p.isLastHeaderLine || p.statusCode != kHttpMovedPermanently } := by
  have hs : p.parseAsStatus "\r\n".toList=none := rfl
  have hh : p.parseAsHeader "\r\n".toList=none := rfl
  by_cases h : p.statusCode=kHttpMovedPermanently
  · have hl : p.parseAsLastLine "\r\n".toList=none := if_neg fun hc => hc.2 h
    simp only [parseHeader,hs,hh,hl,Option.none_or,Option.getD_none]
    rw [h,bne_self_eq_false,Bool.or_false,← h]
  · have hl : p.parseAsLastLine "\r\n".toList=some { p with isLastHeaderLine := true } :=
      if_pos ⟨rfl,h⟩
    simp only [parseHeader,hs,hh,hl,Option.none_or,Option.getD_some]
    simp [h]

theorem parse_head (b : Block) : (b.statusLine::b.headers.map HeaderLine.line).foldl parseHeader p =
      { p with
        statusCode := b.status
        headerList := b.headers.flatMap (·.parsed p.useCurlEncoding) } := by
  rw [foldl_cons,parse_statusLine,parse_headerLines]
  rfl

theorem parse_blocks (blocks : List Block) :
    ((blocks.flatMap Block.lines).foldl parseHeader p).isLastHeaderLine =
        (p.isLastHeaderLine || blocks.any fun b => b.status != 301) ∧
      ((blocks.flatMap Block.lines).foldl parseHeader p).useCurlEncoding=p.useCurlEncoding := by
  induction blocks generalizing p with
  | nil => simp
  | cons b blocks ih =>
    rw [flatMap_cons,Block.lines,foldl_append,foldl_append,parse_head,
      foldl_cons,foldl_nil,parse_emptyLine]
    refine ⟨?_,ih.2⟩
    rw [ih.1,any_cons,Bool.or_assoc]
    congr 2
    rw [Bool.eq_iff_iff]
    simp [kHttpMovedPermanently]
    omega

theorem isLastHeaderLine_parseHeader {line : Text} (h : p.isLastHeaderLine=true) :
    (p.parseHeader line).isLastHeaderLine=true := by
  have hk : ∀ q,p.parseAsStatus line=some q ∨ p.parseAsHeader line=some q ∨
      p.parseAsLastLine line=some q → q.isLastHeaderLine=true := by
    rintro q (hq | hq | hq)
    · simp only [parseAsStatus,Option.ite_none_right_eq_some,Option.map_eq_some_iff] at hq
      obtain ⟨-,_,-,rfl⟩:=hq
      exact h
    · simp only [parseAsHeader,Option.ite_none_right_eq_some] at hq
      obtain ⟨-,hq⟩:=hq
      split_ifs at hq <;> cases hq <;> exact h
    · simp only [parseAsLastLine,Option.ite_none_right_eq_some] at hq
      obtain ⟨-,hq⟩:=hq
      cases hq
      rfl
  unfold parseHeader
  cases hq : ((p.parseAsStatus line).or (p.parseAsHeader line)).or (p.parseAsLastLine line) with
  | none => exact h
  | some q =>
    refine hk q ?_
    simp only [Option.or_eq_some_iff] at hq
    tauto

theorem isLastHeaderLine_foldl (lines : List Text) (h : p.isLastHeaderLine=true) :
    (lines.foldl parseHeader p).isLastHeaderLine=true := by
  induction lines generalizing p with
  | nil => exact h
  | cons line lines ih => exact ih (isLastHeaderLine_parseHeader h)

theorem parsed_eq_iff (headers : List HeaderLine) : headers.flatMap (·.parsed curl) =
        (headers.filter (HeaderLine.IsKept curl ·)).map
          (fun h => (h.name,stripAsciiWhitespace h.value)) ↔
      ∀ h∈headers,h.IsKept curl → ':'∉h.value := by
  induction headers with
  | nil => simp
  | cons h headers ih =>
    by_cases hk : h.IsKept curl
    · have hp : h.parsed curl=[_] := if_pos hk
      rw [flatMap_cons,hp,filter_cons_of_pos (by simpa using hk),
        map_cons,singleton_append,List.cons.injEq,Prod.mk.injEq,ih,strip_cut_iff,
        forall_mem_cons]
      simp [hk]
    · have hp : h.parsed curl=[] := if_neg hk
      rw [flatMap_cons,hp,filter_cons_of_neg (by simpa using hk),nil_append,ih,forall_mem_cons]
      simp [hk]

def linesBefore (earlier : List Block) (final : Block) : List Text :=
  earlier.flatMap Block.lines++final.statusLine::final.headers.map HeaderLine.line

theorem linesOf_eq (earlier : List Block) (final : Block) :
    linesOf earlier final=linesBefore earlier final++["\r\n".toList] := by
  simp [linesOf,linesBefore,Block.lines]

theorem parse_linesBefore (earlier : List Block) (final : Block) :
    parseLines curl (linesBefore earlier final) =
      { statusCode := final.status
        headerList := final.headers.flatMap (·.parsed curl)
        isLastHeaderLine := earlier.any fun b => b.status != 301
        useCurlEncoding := curl } := by
  obtain ⟨hl,hu⟩:=parse_blocks (p := { useCurlEncoding := curl }) earlier
  rw [parseLines,linesBefore,foldl_append,parse_head,hl,hu,Bool.false_or]

theorem finalHeaders_iff (curl : Bool) (earlier : List Block) (final : Block) :
    FinalHeaders curl earlier final ↔ (∀ b∈earlier,b.status=301) ∧
      final.status≠301 ∧ ∀ h∈final.headers,h.IsKept curl → ':'∉h.value := by
  have ha : parseLines curl (linesOf earlier final) =
      (parseLines curl (linesBefore earlier final)).parseHeader "\r\n".toList := by
    rw [linesOf_eq,parseLines,foldl_append]
    rfl
  rw [parse_linesBefore,parse_emptyLine] at ha
  have hany : (earlier.any fun b => b.status != 301)=false ↔ ∀ b∈earlier,b.status=301 := by simp
  constructor
  · intro h
    have hb:=h.notBefore (linesBefore earlier final).length (by simp [linesOf_eq])
    rw [linesOf_eq,take_left,parse_linesBefore] at hb
    have hnone : (earlier.any fun b => b.status != 301)=false := hb
    have hlast:=h.last
    have hh:=h.headers
    rw [ha] at hlast hh
    refine ⟨hany.mp hnone,?_,(parsed_eq_iff _).mp hh⟩
    simp only [hnone,Bool.false_or,bne_iff_ne,kHttpMovedPermanently] at hlast
    exact_mod_cast hlast
  · rintro ⟨he,hf,hh⟩
    refine ⟨fun n hn => ?_,?_,by rw [ha],?_⟩
    · -- the flag is never taken back, so it would still be set before the last line
      rw [← Bool.not_eq_true]
      intro hs
      rw [linesOf_eq,length_append,length_singleton] at hn
      rw [linesOf_eq,take_append_of_le_length (by omega)] at hs
      have hl:=isLastHeaderLine_foldl ((linesBefore earlier final).drop n) hs
      rw [parseLines,← foldl_append,take_append_drop] at hl
      rw [← parseLines,parse_linesBefore,hany.mpr he] at hl
      cases hl
    · rw [ha]
      have hc : (final.status : ℤ)≠301 := by exact_mod_cast hf
      simp [kHttpMovedPermanently,hc]
    · rw [ha]
      exact (parsed_eq_iff _).mpr hh

def sampleBlock (status : ℕ) (value : Text) (h : status<1000) : Block :=
  ⟨"1.1".toList,status," \r\n".toList,[⟨"Location".toList,value,by decide⟩],by decide,h⟩

theorem found_taken_for_final :
    (parseLines false (sampleBlock 302 "/b\r\n".toList (by decide)).lines).isLastHeaderLine=true ∧
    ¬ FinalHeaders false [sampleBlock 302 "/b\r\n".toList (by decide)]
      (sampleBlock 200 "/c\r\n".toList (by decide)) ∧
    (parseLines false (sampleBlock 200 " http://host\r\n".toList (by decide)).lines).headerList =
      [("Location".toList,"http".toList)] := by
  refine ⟨by decide +kernel,fun h => ?_,by decide +kernel⟩
  exact absurd (h.notBefore 3 (by decide +kernel)) (by decide +kernel)

end Fcp.Client.Http.Curl

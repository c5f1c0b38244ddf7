import Fcp.Client.Http.CurlHttpRequestHandle

/-!
# The contract of the callback

The handle keeps the contract of `HttpRequestCallback` on orderly steps. The result of a transfer is
only logged, so a truncated download is reported as complete.
-/

namespace Fcp.Client.Http.Curl

open List CurlHttpRequestHandle

def Call.isStarted : Call → Bool
  | .onResponseStarted .. => true
  | _ => false

def Call.isBody : Call → Bool
  | .onResponseBody .. => true
  | _ => false

def Call.isFinal : Call → Bool
  | .onResponseError _ | .onResponseBodyError _ | .onResponseCompleted => true
  | _ => false

def Call.isFailed : Call → Bool
  | .onResponseStarted _ result | .onResponseBody _ result => !result.isOk
  | _ => false

structure ObeysContract (h : CurlHttpRequestHandle) : Prop where
  once : h.calls.countP Call.isStarted≤1
  first : (∃ c∈h.calls,c.isBody=true) → ∃ c,h.calls.head?=some c ∧ c.isStarted=true
  closed : h.calls.Pairwise fun earlier _ => earlier.isFinal=false ∧ earlier.isFailed=false
  ends {result : CurlCode} : h.transfer=.done result → (∀ c∈h.calls,c.isFailed=false) →
    ∃ c,h.calls.getLast?=some c ∧ c.isFinal=true
  completed : .onResponseCompleted∈h.calls → h.transfer=.done .ok

def Orderly (h : CurlHttpRequestHandle) : Event → Prop
  | .addToMulti .. => h.isCancelled=false
  | .header _ => h.headerParser.isLastHeaderLine=false ∧ h.isCancelled=false
  | .start result | .download _ result => result.isOk=true ∧ h.isCancelled=false
  | .done result => result=.ok ∨ h.response=none ∨ h.isCancelled=true
  | .cancel => h.transfer≠.refused
  | _ => True

instance Orderly.decidable (h : CurlHttpRequestHandle) (event : Event) :
    Decidable (Orderly h event) := by
  cases event <;> unfold Orderly <;> infer_instance

/-- What has been told: nothing or the response and parts of its body, and then perhaps the end. -/
inductive Told : (started done : Bool) → List Call → Prop
  | nothing : Told false false []
  | started {response : HttpResponse} {result : Status} (hok : result.isOk=true) :
      Told true false [.onResponseStarted response result]
  | body {calls : List Call} {data : Bytes} {result : Status} (h : Told true false calls)
      (hok : result.isOk=true) : Told true false (calls++[.onResponseBody data result])
  | final {started : Bool} {calls : List Call} {c : Call} (h : Told started false calls)
      (hfinal : c.isFinal=true) : Told started true (calls++[c])

variable {started done : Bool} {calls : List Call}

section

variable (h : Told started done calls)
include h

theorem Told.open (ho : done=false) : ∀ c∈calls,c.isFinal=false ∧ c.isFailed=false := by
  induction h with
  | nothing => exact nofun
  | started hok => simp [Call.isFinal,Call.isFailed,hok]
  | body _ hok ih =>
    intro c hc
    obtain hold | hn:=mem_append.mp hc
    · exact ih rfl c hold
    · rw [mem_singleton.mp hn]
      simp [Call.isFinal,Call.isFailed,hok]
  | final => cases ho

theorem Told.closed :
    calls.Pairwise fun earlier _ => earlier.isFinal=false ∧ earlier.isFailed=false := by
  cases h with
  | nothing => exact .nil
  | started => exact pairwise_singleton _ _
  | body h | final h =>
    have ho:=h.open rfl
    rw [pairwise_append]
    refine ⟨?_,pairwise_singleton _ _,fun c hc _ _ => ho c hc⟩
    exact pairwise_of_forall_mem_list fun c hc _ _ => ho c hc

theorem Told.head :
    if started then ∃ c,calls.head?=some c ∧ c.isStarted=true
    else ∀ c∈calls,c.isStarted=false ∧ c.isBody=false := by
  induction h with
  | nothing => exact nofun
  | started => exact ⟨_,rfl,rfl⟩
  | body _ _ ih =>
    obtain ⟨c,hc,hs⟩:=ih
    exact ⟨c,by simp [hc],hs⟩
  | @final started calls last _ hf ih =>
    cases started with
    | true =>
      obtain ⟨c,hc,hs⟩:=ih
      exact ⟨c,by simp [hc],hs⟩
    | false =>
      intro c hc
      obtain ho | hn:=mem_append.mp hc
      · exact ih c ho
      · rw [mem_singleton.mp hn]
        cases last <;> first | exact ⟨rfl,rfl⟩ | cases hf

theorem Told.once : calls.countP Call.isStarted=started.toNat := by
  induction h with
  | nothing | started => rfl
  | body _ _ ih => simpa [Call.isStarted] using ih
  | @final _ _ last _ hf ih =>
    rw [countP_append,ih]
    cases last <;> first | rfl | cases hf

theorem Told.last (ho : done=true) : ∃ c,calls.getLast?=some c ∧ c.isFinal=true := by
  cases h with
  | final _ hf => exact ⟨_,getLast?_concat ..,hf⟩
  | nothing | started | body => cases ho

end

theorem Told.eq_nil (h : Told false false calls) : calls=[] := by
  cases h
  rfl

namespace CurlHttpRequestHandle

def isStarted (h : CurlHttpRequestHandle) : Bool := h.response.isSome && h.position=.inCurl

def isOver (h : CurlHttpRequestHandle) : Bool :=
  h.isCancelled || h.isCompleted || h.transfer=.refused

structure Kept (useCurlEncoding : Bool) (h : CurlHttpRequestHandle) : Prop where
  told : Told h.isStarted h.isOver h.calls
  completed : .onResponseCompleted∈h.calls → h.transfer=.done .ok
  fresh : h.isBeingPerformed=false → h=create useCurlEncoding
  response : h.response.isSome=h.headerParser.isLastHeaderLine
  position : h.position=.inCurl ∨ h.position=.starting ∧ (h.transfer=.headers ∨ h.transfer=.body)
  done : h.isCompleted=true ↔ ∃ result,h.transfer=.done result

variable {curl : Bool} {h h' : CurlHttpRequestHandle} {e : Event}

theorem kept_create : Kept curl (create curl) where
  told := .nothing
  completed := nofun
  fresh _ := rfl
  response := rfl
  position := .inl rfl
  done := ⟨nofun,nofun⟩

theorem Kept.obeysContract (hk : Kept curl h) : ObeysContract h where
  once := by
    rw [hk.told.once]
    exact Bool.toNat_le _
  first := by
    rintro ⟨c,hc,hb⟩
    have hh:=hk.told.head
    cases hs : h.isStarted with
    | true => simpa [hs] using hh
    | false =>
      rw [hs] at hh
      rw [(hh c hc).2] at hb
      cases hb
  closed := hk.told.closed
  ends hd _ := by
    have ho : h.isOver=true := by simp [isOver,hk.done.mpr ⟨_,hd⟩]
    exact hk.told.last ho
  completed := hk.completed

theorem Kept.cancel (hk : Kept curl h) (hr : h.transfer≠.refused) : Kept curl h.cancel := by
  unfold CurlHttpRequestHandle.cancel
  split
  · exact hk
  next ho =>
    simp only [Bool.or_eq_true,Bool.not_eq_true',not_or,Bool.not_eq_true] at ho
    have hover : h.isOver=false := by simp [isOver,ho,hr]
    have ht:=hk.told
    rw [hover] at ht
    refine ⟨?_,fun hm => ?_,fun hf => ?_,hk.response,hk.position,hk.done⟩
    · refine Told.final ht ?_
      split <;> rfl
    · obtain hold | hn:=mem_append.mp hm
      · exact hk.completed hold
      · split at hn <;> cases mem_singleton.mp hn
    · rw [hk.fresh hf] at ho
      exact absurd ho.1.1 (by simp [create])

structure Live (h : CurlHttpRequestHandle) : Prop where
  transfer : h.transfer=.headers ∨ h.transfer=.body ∨ h.transfer=.aborted
  performed : h.isBeingPerformed=true
  incomplete : h.isCompleted=false
  unended : .onResponseCompleted∉h.calls

theorem Kept.live (hk : Kept curl h)
    (ht : h.transfer=.headers ∨ h.transfer=.body ∨ h.transfer=.aborted) :
    Live h where
  transfer := ht
  performed := by
    rw [← Bool.not_eq_false]
    intro hf
    simp [hk.fresh hf,create] at ht
  incomplete := by
    rw [Bool.eq_false_iff]
    intro hc
    obtain ⟨_,hd⟩:=hk.done.mp hc
    simp [hd] at ht
  unended := by
    intro hm
    simp [hk.completed hm] at ht

theorem Live.isOver (hl : Live h) : h.isOver=h.isCancelled := by
  obtain ht | ht | ht:=hl.transfer <;> simp [CurlHttpRequestHandle.isOver,hl.incomplete,ht]

theorem Live.kept (hl : Live h) (ht : Told h.isStarted h.isCancelled h.calls)
    (hr : h.response.isSome=h.headerParser.isLastHeaderLine)
    (hp : h.position=.inCurl ∨ h.position=.starting ∧ (h.transfer=.headers ∨ h.transfer=.body)) :
    Kept curl h where
  told := by
    rw [hl.isOver]
    exact ht
  completed hm := absurd hm hl.unended
  fresh hf := by cases hl.performed.symm.trans hf
  response := hr
  position := hp
  done := by
    rw [hl.incomplete]
    refine ⟨nofun,?_⟩
    rintro ⟨result,hd⟩
    simpa [hd] using hl.transfer

section

variable (hk : Kept curl h)
include hk

theorem Kept.told_live (hl : Live h) : Told h.isStarted h.isCancelled h.calls := by
  rw [← hl.isOver]
  exact hk.told

theorem Kept.done_step (hp : h.position=.inCurl) (hl : Live h) {result : CurlCode}
    (hr : result=.ok ∨ h.response=none ∨ h.isCancelled=true) :
    Kept curl { h.markAsCompleted with transfer := .done result } := by
  have ht:=hk.told_live hl
  unfold markAsCompleted
  rw [hl.incomplete,Bool.or_false]
  split
  next hc =>
    rw [hc] at ht
    refine ⟨?_,fun hm => absurd hm hl.unended,fun hf => ?_,hk.response,.inl hp,by simp⟩
    · simpa [isStarted,isOver,hc] using ht
    · cases hl.performed.symm.trans hf
  next ho =>
    rw [Bool.not_eq_true] at ho
    rw [ho] at ht
    refine ⟨?_,fun hm => ?_,fun hf => ?_,hk.response,.inl hp,by simp⟩
    · show Told h.isStarted (h.isCancelled || true || _) _
      rw [Bool.or_true,Bool.true_or]
      exact ht.final (by split <;> rfl)
    · -- a transfer that fails after its response would be taken for a complete one
      obtain hold | hnew:=mem_append.mp hm
      · exact absurd hold hl.unended
      · obtain rfl | hn | hc:=hr
        · rfl
        · simp [hn] at hnew
        · cases ho.symm.trans hc
    · cases hl.performed.symm.trans hf

theorem Kept.header_step (hf : h.headerParser.isLastHeaderLine=false) (hp : h.position=.inCurl)
    (ht : h.transfer=.headers ∨ h.transfer=.body) {line : Text} {transfer : Transfer}
    (hn : transfer=.headers ∨ transfer=.body) :
    Kept curl { h.headerCallback line with transfer := transfer } := by
  have hl : Live h := hk.live (by tauto)
  have hnone : h.response=none := by
    rw [← Option.not_isSome_iff_eq_none,hk.response,hf]
    exact Bool.false_ne_true
  have htold:=hk.told_live hl
  rw [show h.isStarted=false by simp [isStarted,hnone]] at htold
  cases hlast : (h.headerParser.parseHeader line).isLastHeaderLine with
  | true =>
    simp only [headerCallback,hlast,if_true]
    refine Live.kept ⟨by tauto,hl.performed,hl.incomplete,hl.unended⟩ ?_ hlast.symm (.inr ⟨rfl,hn⟩)
    exact htold
  | false =>
    simp only [headerCallback,hlast,Bool.false_eq_true,if_false]
    refine Live.kept ⟨by tauto,hl.performed,hl.incomplete,hl.unended⟩ ?_ ?_ (.inl hp)
    · simpa [isStarted,hnone] using htold
    · simp [hnone,hlast]

theorem Kept.step (ho : Orderly h e) (hs : h.step e=.ok h') : Kept curl h' := by
  cases e with
  | addToMulti added errorBuffer =>
    cases hs
    unfold addToMulti
    rw [if_neg (Bool.eq_false_iff.mp ho)]
    split
    · exact hk
    next hi =>
      simp only [Bool.or_eq_true,not_or,Bool.not_eq_true] at hi
      rw [hk.fresh hi.1]
      cases added with
      | true => exact ⟨.nothing,nofun,nofun,rfl,.inl rfl,by simp [create]⟩
      | false =>
        refine ⟨.final .nothing rfl,fun hm => ?_,nofun,rfl,.inl rfl,by simp [create,call]⟩
        cases mem_singleton.mp hm
  | header line =>
    simp only [step,guard_eq_ok,delivers,decide_eq_true_eq] at hs
    obtain ⟨⟨hp,ht⟩,hs⟩:=hs
    cases hs
    refine hk.header_step ho.1 hp ht ?_
    split_ifs
    · exact .inr rfl
    · exact .inl rfl
    · exact ht
  | start result =>
    simp only [step] at hs
    split at hs
    next response hp hr =>
      obtain ⟨-,hs⟩:=guard_eq_ok.mp hs
      cases hs
      have ht : h.transfer=.headers ∨ h.transfer=.body := by simpa [hp] using hk.position
      have hl:=hk.live (by tauto)
      have htold:=hk.told_live hl
      rw [show h.isStarted=false by simp [isStarted,hp],ho.2] at htold
      have hc : h.calls=[] := htold.eq_nil
      refine Live.kept ⟨hl.transfer,hl.performed,hl.incomplete,?_⟩ ?_ hk.response
        (.inl (if_pos ho.1))
      · simp [onResponseStarted,call,hc]
      · simpa [onResponseStarted,call,hc,isStarted,hr,ho.1,ho.2] using Told.started ho.1
    · cases hs
  | download body result =>
    simp only [step,guard_eq_ok] at hs
    obtain ⟨⟨hp,ht⟩,hr,hs⟩:=hs
    cases hs
    have hl:=hk.live (.inr (.inl ht))
    have htold:=hk.told_live hl
    rw [show h.isStarted=true by simp [isStarted,hp,hr],ho.2] at htold
    refine Live.kept ⟨hl.transfer,hl.performed,hl.incomplete,?_⟩ ?_ hk.response (.inl (if_pos ho.1))
    · simpa [downloadCallback,call] using hl.unended
    · simpa [downloadCallback,call,isStarted,hr,ho.1,ho.2] using Told.body htold ho.1
  | reportFailure =>
    simp only [step] at hs
    obtain hp | ⟨hp,-⟩:=hk.position <;> simp [hp] at hs
  | progress =>
    simp only [step,guard_eq_ok,delivers,decide_eq_true_eq] at hs
    obtain ⟨⟨hp,ht⟩,hs⟩:=hs
    cases hs
    split
    · have hl:=hk.live (by tauto)
      exact Live.kept ⟨.inr (.inr rfl),hl.performed,hl.incomplete,hl.unended⟩
        (hk.told_live hl) hk.response (.inl hp)
    · exact hk
  | done result =>
    simp only [step,guard_eq_ok,delivers,decide_eq_true_eq] at hs
    obtain ⟨hread,-,hs⟩:=hs
    cases hs
    exact hk.done_step (by tauto) (hk.live (by tauto)) ho
  | cancel =>
    cases hs
    exact hk.cancel ho

end

theorem obeysContract_of_orderly {history : List (CurlHttpRequestHandle × Event)}
    (hr : Run step (create curl) history h)
    (ho : ∀ entry∈history,Orderly entry.1 entry.2) : ObeysContract h := by
  have hk : Kept curl h := hr.invariant (P := fun _ h => Kept curl h)
    ho kept_create fun _ _ _ _ hk ho hs => hk.step ho hs
  exact hk.obeysContract

def download (result : CurlCode) : List Event :=
  [.addToMulti true "",.header "HTTP/1.1 200 OK\r\n".toList,
    .header "Content-Length: 2\r\n".toList,.header "\r\n".toList,.start .okStatus,
    .download [1] .okStatus,.done result]

theorem obeysContract_of_download : ∃ history h,Run step (create false) history h ∧
      (∀ entry∈history,Orderly entry.1 entry.2) ∧ .onResponseCompleted∈h.calls ∧
      ObeysContract h := by
  obtain ⟨history,h,hr,-,ho,ht⟩:=exists_recorded step
    (create false) (download .ok) (P := fun history h =>
      (∀ entry∈history,Orderly entry.1 entry.2) ∧ .onResponseCompleted∈h.calls) (by decide +kernel)
  exact ⟨history,h,hr,ho,ht,obeysContract_of_orderly hr ho⟩

/-- `CURLE_PARTIAL_FILE` in the middle of a body. -/
theorem truncated_download_completed : ∃ history h,Run step (create false) history h ∧
      h.transfer=.done (.error 18) ∧ ¬ ObeysContract h := by
  obtain ⟨history,h,hr,ht,hm⟩:=exists_run step (create false) (download (.error 18))
    (P := fun h => h.transfer=.done (.error 18) ∧ .onResponseCompleted∈h.calls)
    (by decide +kernel)
  refine ⟨history,h,hr,ht,fun hc => ?_⟩
  cases ht.symm.trans (hc.completed hm)

end CurlHttpRequestHandle

end Fcp.Client.Http.Curl

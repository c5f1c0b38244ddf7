import Fcp.Client.Http.InMemoryRequests
import Fcp.Lib.Run

/-!
# Fetching resources with a cache (client/http/in_memory_request_response.cc)

The cache is the list of all that was ever put; a lookup finds one of these entries with its id, or
nothing. It keeps the body as it was received.
-/

namespace Fcp.Client.Http.Caching

open List

structure CacheEntry where
  resource : Bytes
  compressionFormat : CompressionFormat

abbrev Log := List (String × CacheEntry)

/-- A call: each resource with the entry that a lookup finds for it, what becomes of the request
for a URI, and the response to a request by its index. -/
structure Fetch where
  cachingEnabled : Bool
  resources : List (Option ℕ × UriOrInlineData)
  created : String → Status
  performed : Status
  response : ℕ → String → StatusOr InMemoryHttpResponse

variable (uncompressWithGzip : Bytes → Except String Bytes)

def CacheEntry.content (entry : CacheEntry) : Option Bytes :=
  match entry.compressionFormat with
  | .uncompressed => some entry.resource
  | .gzip => (uncompressWithGzip entry.resource).toOption

def tryGetResourceFromCache (log : Log) (found : Option ℕ) (clientCacheId : String) :
    Option Bytes := do
  let entry ← log[← found]?
  if entry.1=clientCacheId then entry.2.content uncompressWithGzip else none

def entryOf (response : InMemoryHttpResponse) : CacheEntry :=
  ⟨response.body,if endsWithIgnoreCase response.contentType kClientDecodedGzipSuffix then .gzip
    else .uncompressed⟩

def tryPutResourceInCache (log : Log) (clientCacheId : String) (response : InMemoryHttpResponse) :
    Log :=
  log++[(clientCacheId,entryOf response)]

def Fetch.sources (call : Fetch) (log : Log) : Sources (Option ℕ) :=
  ⟨call.cachingEnabled,tryGetResourceFromCache uncompressWithGzip log,fun _ => call.created⟩

def Fetch.responses (call : Fetch) (requests : List (Option ℕ × String)) :
    List (StatusOr InMemoryHttpResponse) :=
  requests.mapIdx fun i request => call.response i request.2

def fetchResourcesInMemory (log : Log) (call : Fetch) :
    Checked (StatusOr (List (StatusOr InMemoryHttpResponse)) × Log) :=
  match compileRequests (call.sources uncompressWithGzip log) [] call.resources with
  | .error status => .ok (.error status,log)
  | .ok (accessors,requests) =>
    if call.performed.isOk then do
      let (results,log) ← gatherResponses uncompressWithGzip tryPutResourceInCache
        (call.responses requests) log accessors
      .ok (.ok results,log)
    else .ok (.error call.performed,log)

def fetchStep (log : Log) (call : Fetch) : Checked Log :=
  (fetchResourcesInMemory uncompressWithGzip log call).map Prod.snd

/-- A cache id stands for one resource in all calls. -/
def Fetch.Identified (uriOf : String → String) (call : Fetch) : Prop :=
  ∀ found uri clientCacheId,(found,.uri uri clientCacheId)∈call.resources → clientCacheId≠"" →
    uri=uriOf clientCacheId

variable {uncompressWithGzip} {log log' : Log} {call : Fetch}
  {ress : List (Option ℕ × UriOrInlineData)} {accs : List AccessorAndCacheMetadata}
  {reqs : List (Option ℕ × String)} {resp : InMemoryHttpResponse}

theorem decodeResponse_of_content {body : Bytes}
    (h : (entryOf resp).content uncompressWithGzip=some body) :
    decodeResponse uncompressWithGzip (.ok resp)=.ok { resp with body := body } := by
  by_cases hg : endsWithIgnoreCase resp.contentType kClientDecodedGzipSuffix
  · simp only [CacheEntry.content,entryOf,if_pos hg] at h
    cases hb : uncompressWithGzip resp.body with
    | error text =>
      rw [hb] at h
      cases h
    | ok decoded =>
      rw [hb] at h
      cases h
      simp only [decodeResponse,if_pos hg,hb]
  · simp only [CacheEntry.content,entryOf,if_neg hg] at h
    cases h
    rw [decodeResponse,if_neg hg]

variable (uncompressWithGzip) in
/-- The result for a resource: its inline data, the response to a request for its own URI, or what
the cache holds for its URI and id. -/
inductive Served (held : String → String → Bytes → Prop) (call : Fetch)
    (requests : List (Option ℕ × String)) :
    Option ℕ × UriOrInlineData → StatusOr InMemoryHttpResponse → Prop where
  | inline (found : Option ℕ) (data : Bytes) (format : CompressionFormat) :
      Served held call requests (found,.inlineData data format)
        (decodeResponse uncompressWithGzip (.ok ⟨"",kOctetStream++format.suffix,data⟩))
  | noUri (found : Option ℕ) (clientCacheId : String) :
      Served held call requests (found,.uri "" clientCacheId) (.ok ⟨"",kOctetStream,[]⟩)
  | network {found : Option ℕ} {uri : String} (clientCacheId : String) {i : ℕ}
      (hrequest : requests[i]?=some (found,uri)) :
      Served held call requests (found,.uri uri clientCacheId)
        (decodeResponse uncompressWithGzip (call.response i uri))
  | cached (found : Option ℕ) {uri clientCacheId : String} {body : Bytes}
      (henabled : call.cachingEnabled) (hid : clientCacheId≠"")
      (hheld : held uri clientCacheId body) :
      Served held call requests (found,.uri uri clientCacheId) (.ok ⟨"",kOctetStream,body⟩)

variable (uncompressWithGzip) in
/-- A body that an earlier call returned for a resource with the URI and the id. -/
def Returned (history : List (Log × Fetch)) (uri clientCacheId : String) (body : Bytes) : Prop :=
  ∃ earlier∈history,∃ results log' found response,
    fetchResourcesInMemory uncompressWithGzip earlier.1 earlier.2=.ok (.ok results,log') ∧
      ((found,.uri uri clientCacheId),.ok response)∈earlier.2.resources.zip results ∧
      response.body=body

variable (uncompressWithGzip) in
def Holds (uriOf : String → String) (log : Log) (held : String → String → Bytes → Prop) : Prop :=
  ∀ entry∈log,∀ body∈entry.2.content uncompressWithGzip,held (uriOf entry.1) entry.1 body

variable {uriOf : String → String} {held : String → String → Bytes → Prop}

theorem served_of_available (hh : Holds uncompressWithGzip uriOf log held)
    {res : Option ℕ × UriOrInlineData} (hi : ∀ uri clientCacheId,
      res.2=.uri uri clientCacheId → clientCacheId≠"" → uri=uriOf clientCacheId)
    (h : availableResponse (call.sources uncompressWithGzip log) res=some resp) :
    Served uncompressWithGzip held call reqs res
      (decodeResponse uncompressWithGzip (.ok resp)) := by
  have ho : ¬ endsWithIgnoreCase kOctetStream kClientDecodedGzipSuffix := by decide
  have hp (body : Bytes) : decodeResponse uncompressWithGzip (.ok ⟨"",kOctetStream,body⟩) =
      .ok ⟨"",kOctetStream,body⟩ := if_neg ho
  obtain ⟨found,⟨uri,clientCacheId⟩ | ⟨data,format⟩⟩:=res
  · simp only [availableResponse] at h
    split at h
    next hempty =>
      cases h
      rw [hp,hempty]
      exact .noUri found clientCacheId
    split at h
    next he =>
      obtain ⟨body,hg,rfl⟩:=Option.map_eq_some_iff.mp h
      simp only [Fetch.sources,tryGetResourceFromCache,Option.bind_eq_bind,
        Option.bind_eq_some_iff] at hg
      obtain ⟨k,-,entry,hentry,hc⟩:=hg
      obtain ⟨rfl,hb⟩:=Option.ite_none_right_eq_some.mp hc
      rw [Bool.and_eq_true,bne_iff_ne] at he
      rw [hp,hi uri entry.1 rfl he.2]
      exact .cached found he.1 he.2 (hh entry (mem_of_getElem? hentry) body hb)
    · cases h
  · cases h
    exact .inline found data format

theorem gatherResponses_served (hh : Holds uncompressWithGzip uriOf log held)
    (hi : ∀ found uri clientCacheId,(found,.uri uri clientCacheId)∈ress → clientCacheId≠"" →
      uri=uriOf clientCacheId)
    (h : List.Forall₂ (Compiled (call.sources uncompressWithGzip log) reqs) ress accs)
    (before : Log) :
    ∃ rs log',gatherResponses uncompressWithGzip tryPutResourceInCache (call.responses reqs) before
        accs=.ok (rs,log') ∧
      List.Forall₂ (Served uncompressWithGzip held call reqs) ress rs ∧
      ∀ entry∈log',entry∈before ∨ ∃ found resp,((found,.uri (uriOf entry.1) entry.1),
        decodeResponse uncompressWithGzip (.ok resp))∈ress.zip rs ∧ entry.2=entryOf resp := by
  induction h generalizing before with
  | nil => exact ⟨[],before,rfl,.nil,fun entry => .inl⟩
  | @cons res a ress accs hc _ ih =>
    have hown:=fun found uri id hm => hi found uri id (List.mem_cons.mpr hm)
    obtain ⟨resp,ha,hs,hp⟩ : ∃ resp,accessResponse (call.responses reqs) a.accessor=.ok resp ∧
        Served uncompressWithGzip held call reqs res
          (decodeResponse uncompressWithGzip resp) ∧
        (a.clientCacheId="" ∨ ∃ found uri,res=(found,.uri uri a.clientCacheId)) := by
      cases hc with
      | available h =>
        refine ⟨_,rfl,served_of_available hh (fun uri id hrest => ?_) h,.inl rfl⟩
        exact hown res.1 uri id (.inl (Prod.ext rfl hrest.symm))
      | @requested found uri clientCacheId putId i hnone hr hp =>
        refine ⟨_,elementAt_eq_ok.mpr ?_,.network clientCacheId hr,?_⟩
        · rw [Fetch.responses,getElem?_mapIdx,hr]
          rfl
        · exact hp.imp_right fun h => ⟨found,uri,by rw [h]⟩
    obtain ⟨rs,log',hg,hall,hl⟩:=ih (fun found uri id hm => hown found uri id (.inr hm))
      (putResponse tryPutResourceInCache a.clientCacheId before resp)
    refine ⟨_,log',?_,.cons hs hall,fun entry he => ?_⟩
    · rw [gatherResponses,ha,ok_bind,hg]
      rfl
    · rcases hl entry he with ho | ⟨found,r,hm,heq⟩
      · unfold putResponse at ho
        split at ho
        · split at ho
          · exact .inl ho
          next hid =>
            rcases mem_append.mp ho with ho | hn
            · exact .inl ho
            · obtain rfl:=mem_singleton.mp hn
              obtain ⟨found,uri,rfl⟩:=hp.resolve_left hid
              rw [← hown found uri _ (.inl rfl) hid]
              exact .inr ⟨found,_,mem_cons_self,rfl⟩
        · exact .inl ho
      · exact .inr ⟨found,r,mem_cons_of_mem _ hm,heq⟩

theorem fetchResourcesInMemory_eq (hh : Holds uncompressWithGzip uriOf log held)
    (hi : call.Identified uriOf) :
    ∃ outcome log',fetchResourcesInMemory uncompressWithGzip log call=.ok (outcome,log') ∧
      (∀ rs,outcome=.ok rs → ∃ accs reqs,
        compileRequests (call.sources uncompressWithGzip log) [] call.resources=.ok (accs,reqs) ∧
        List.Forall₂ (Served uncompressWithGzip held call reqs) call.resources rs) ∧
      ∀ entry∈log',entry∈log ∨ ∃ rs found resp,outcome=.ok rs ∧
        ((found,.uri (uriOf entry.1) entry.1),decodeResponse uncompressWithGzip (.ok resp)) ∈
          call.resources.zip rs ∧ entry.2=entryOf resp := by
  unfold fetchResourcesInMemory
  split
  · exact ⟨_,_,rfl,nofun,fun entry => .inl⟩
  next accs reqs hc =>
    split
    · obtain ⟨rs,log',hg,ha,hl⟩:=gatherResponses_served hh hi (compiled_of_compileRequests hc).2 log
      refine ⟨.ok rs,log',by rw [hg]; rfl,?_,?_⟩
      · rintro _ ⟨⟩
        exact ⟨accs,reqs,hc,ha⟩
      · exact fun entry he => (hl entry he).imp_right fun ⟨found,resp,h⟩ => ⟨rs,found,resp,rfl,h⟩
    · exact ⟨_,_,rfl,nofun,fun entry => .inl⟩

theorem holds_of_run {hist : List (Log × Fetch)}
    (hr : Run (fetchStep uncompressWithGzip) [] hist log)
    (hi : ∀ entry∈hist,entry.2.Identified uriOf) :
    Holds uncompressWithGzip uriOf log (Returned uncompressWithGzip hist) := by
  refine hr.invariant (G := fun _ call => call.Identified uriOf)
    (P := fun hist log => Holds uncompressWithGzip uriOf log (Returned uncompressWithGzip hist))
    hi nofun ?_
  intro hist log log' call hh hc hs
  have hg {uri id body} : Returned uncompressWithGzip hist uri id body →
      Returned uncompressWithGzip (hist++[(log,call)]) uri id body :=
    fun ⟨earlier,hm,h⟩ => ⟨earlier,mem_append_left _ hm,h⟩
  obtain ⟨outcome,log'',heq,-,hl⟩:=fetchResourcesInMemory_eq hh hc
  rw [fetchStep,heq] at hs
  cases hs
  intro entry he body hb
  rcases hl entry he with ho | ⟨rs,found,resp,rfl,hm,hp⟩
  · exact hg (hh entry ho body hb)
  · rw [hp] at hb
    rw [decodeResponse_of_content hb] at hm
    exact ⟨(log,call),mem_append_right _ (mem_singleton_self _),rs,_,found,_,heq,hm,rfl⟩

/-- After any calls in which a cache id stands for one resource a call does not fault, and the
results it returns are one for each resource, in the order of the resources, each from its own
source. -/
theorem results_from_own_source {history : List (Log × Fetch)}
    (hr : Run (fetchStep uncompressWithGzip) [] history log)
    (hi : ∀ entry∈history,entry.2.Identified uriOf) (hc : call.Identified uriOf) :
    ∃ outcome log',fetchResourcesInMemory uncompressWithGzip log call=.ok (outcome,log') ∧
      ∀ results,outcome=.ok results → ∃ accs reqs,
        compileRequests (call.sources uncompressWithGzip log) [] call.resources=.ok (accs,reqs) ∧
        List.Forall₂ (Served uncompressWithGzip (Returned uncompressWithGzip history) call reqs)
          call.resources results := by
  obtain ⟨outcome,log',heq,hs,-⟩:=fetchResourcesInMemory_eq (holds_of_run hr hi) hc
  exact ⟨outcome,log',heq,hs⟩

def gzipped : Bytes → Except String Bytes := fun bytes => .ok bytes.reverse

def planFetch (uri : String) (found : Option ℕ) : Fetch where
  cachingEnabled := true
  resources := [(found,.uri uri "id"),(none,.inlineData [1,2] .gzip)]
  created _ := .okStatus
  performed := .okStatus
  response _ uri := .ok ⟨"","application/octet-stream+GZIP",if uri="b" then [9] else [7,8]⟩

theorem results_from_cache :
    ∃ history log reqs,Run (fetchStep gzipped) [] history log ∧ List.Forall₂
      (Served gzipped (Returned gzipped history) (planFetch "a" (some 0)) reqs)
      (planFetch "a" (some 0)).resources
      [.ok ⟨"",kOctetStream,[8,7]⟩,.ok ⟨"",kOctetStream++"+gzip",[2,1]⟩] := by
  have hr : Run (fetchStep gzipped) [] [([],planFetch "a" none)] [("id",⟨[7,8],.gzip⟩)] :=
    .snoc .nil rfl
  have hi (found : Option ℕ) : (planFetch "a" found).Identified fun _ => "a" := by
    simp +contextual [Fetch.Identified,planFetch]
  obtain ⟨outcome,log',heq,hs⟩:=results_from_own_source hr
    (forall_mem_singleton.mpr (hi none)) (hi (some 0))
  cases heq
  obtain ⟨-,reqs,-,ha⟩:=hs _ rfl
  exact ⟨_,_,reqs,hr,ha⟩

/-- Two URIs with one cache id: the second is served the body of the first. -/
theorem other_uri_served : ∃ log log',Run (fetchStep gzipped) [] [([],planFetch "a" none)] log ∧
      fetchResourcesInMemory gzipped log (planFetch "b" (some 0)) =
        .ok (.ok [.ok ⟨"",kOctetStream,[8,7]⟩,.ok ⟨"",kOctetStream++"+gzip",[2,1]⟩],log') ∧
      ∀ i,decodeResponse gzipped ((planFetch "b" (some 0)).response i "b") =
        .ok ⟨"","application/octet-stream+GZIP",[9]⟩ :=
  ⟨[("id",⟨[7,8],.gzip⟩)],_,.snoc .nil rfl,rfl,fun _ => rfl⟩

end Fcp.Client.Http.Caching

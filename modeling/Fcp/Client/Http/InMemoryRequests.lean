import Fcp.Base.Monitoring
import Fcp.Lib.Program

/-!
# Requests of the HTTP protocol (in_memory_request_response.cc, protocol_request_helper.cc)

What the network does with a request is an input. An operation keeps a log of the responses it was
given, each with its status and with whether the operation depends on it.
-/

namespace Fcp.Client.Http

open Program

inductive Request where
  | eligibilityEvalTask
  | planFetch
  | checkpointFetch
  | populationEligibilitySpecFetch
  | reportEligibilityEvalTaskResult
  | startTaskAssignment
  | startAggregationDataUpload
  | reportTaskResult
  | dataUpload
  | submitAggregationResult
  | abortAggregation
  | startSecureAggregation
  | advertiseKeys
  | shareKeys
  | maskedResultUpload
  | nonmaskedResultUpload
  | submitSecureAggregationResult
  | unmask
  | abortSecureAggregation
  deriving Repr, DecidableEq

structure InMemoryHttpResponse where
  contentEncoding : String
  contentType : String
  body : Bytes
  deriving Repr, DecidableEq

structure Answers where
  created : Request → Status
  performed : Request → Status
  status : Request → Status
  response : Request → InMemoryHttpResponse
  /-- `TryGetResourceFromCache`; nothing without a cache. -/
  cached : Request → Option Bytes

/-- A request of an operation with the status of the response that the operation was given. The
operation does not depend on a request that is sent as a best effort. -/
structure Issued where
  request : Request
  mandatory : Bool
  status : Status
  deriving Repr, DecidableEq

inductive ProdDiagCode where
  | httpReportEligibilityEvalResultRequestFailed
  | httpReportTaskResultRequestFailed
  | httpCancellationOrAbortRequestFailed
  deriving Repr, DecidableEq

structure World (σ : Type) where
  session : σ
  issued : List Issued
  diags : List ProdDiagCode

abbrev Operation (σ α : Type) := Program Fault Status (World σ) α

variable {σ : Type}

section Statements

variable {α : Type}

def ofChecked : Checked α → Operation σ α
  | .ok a => pure a
  | .error fault => crash fault

def returnIfError (status : Status) : Operation σ Unit :=
  if status.isOk then pure () else fail status

def valueOf : StatusOr α → Operation σ α
  | .ok a => pure a
  | .error _ => crash .badStatusOrAccess

def logDiag (code : ProdDiagCode) : Operation σ Unit :=
  update fun w => { w with diags := w.diags++[code] }

end Statements

section Batches

variable (answers : Answers) (request : Request) (batch : Request)
  (requests : List (Request × Bool))

def Answers.responseTo : StatusOr InMemoryHttpResponse :=
  if (answers.status request).isOk then .ok (answers.response request)
  else .error (answers.status request)

def performMultipleRequestsInMemory (requests : List Request) :
    StatusOr (List (StatusOr InMemoryHttpResponse)) :=
  if (answers.performed batch).isOk then .ok (requests.map answers.responseTo)
  else .error (answers.performed batch)

def giveResponses
    (responses : List (StatusOr InMemoryHttpResponse)) :
    Operation σ (List (StatusOr InMemoryHttpResponse)) := do
  update fun w => { w with
    issued := w.issued++List.zipWith (fun request response =>
      ⟨request.1,request.2,statusOf response⟩) requests responses }
  pure responses

def failRequests (status : Status) : Operation σ (List (StatusOr InMemoryHttpResponse)) := do
  update fun w => { w with
    issued := w.issued++requests.map fun request => ⟨request.1,request.2,status⟩ }
  fail status

def checkResponseContentEncoding : StatusOr InMemoryHttpResponse → StatusOr InMemoryHttpResponse
  | .error status => .error status
  | .ok response =>
    if response.contentEncoding="" then .ok response
    else .error ⟨.unavailable,"HTTP response unexpectedly has a Content-Encoding"⟩

def performMultipleProtocolRequests : Operation σ (List (StatusOr InMemoryHttpResponse)) :=
  match performMultipleRequestsInMemory answers batch (requests.map Prod.fst) with
  | .error status => failRequests requests status
  | .ok responses => giveResponses requests (responses.map checkResponseContentEncoding)

def performProtocolRequest ( mandatory : Bool) : Operation σ InMemoryHttpResponse := do
  let response ← performMultipleProtocolRequests answers request [(request,mandatory)]
  let first ← ofChecked (elementAt response 0)
  ofExcept first

end Batches

section Resources

inductive CompressionFormat where
  | uncompressed
  | gzip
  deriving Repr, DecidableEq

inductive UriOrInlineData where
  | uri (uri clientCacheId : String)
  | inlineData (data : Bytes) (compressionFormat : CompressionFormat)
  deriving Repr, DecidableEq

def kOctetStream : String := "application/octet-stream"

def kClientDecodedGzipSuffix : String := "+gzip"

def endsWithIgnoreCase (text suffix : String) : Bool :=
  (suffix.toList.map Char.toLower).isSuffixOf (text.toList.map Char.toLower)

def CompressionFormat.suffix : CompressionFormat → String
  | .uncompressed => ""
  | .gzip => kClientDecodedGzipSuffix

inductive ResponseAccessor where
  | available (response : InMemoryHttpResponse)
  | fetched (responseIndex : ℕ)

structure AccessorAndCacheMetadata where
  accessor : ResponseAccessor
  clientCacheId : String

variable {κ ς : Type}

/-- What a resource meets that is known by a key: the cache, as `TryGetResourceFromCache` answers
for a cache id, and the creation of a request for a URI. -/
structure Sources (κ : Type) where
  cachingEnabled : Bool
  cached : κ → String → Option Bytes
  created : κ → String → Status

variable (src : Sources κ) (uncompressWithGzip : Bytes → Except String Bytes)

def availableResponse : κ × UriOrInlineData → Option InMemoryHttpResponse
  | (_,.inlineData data format) => some ⟨"",kOctetStream++format.suffix,data⟩
  | (key,.uri uri clientCacheId) =>
    if uri="" then some ⟨"",kOctetStream,[]⟩
    else if src.cachingEnabled && clientCacheId != "" then
      (src.cached key clientCacheId).map fun body => ⟨"",kOctetStream,body⟩
    else none

def compileRequests (requests : List (κ × String)) : List (κ × UriOrInlineData) →
    StatusOr (List AccessorAndCacheMetadata × List (κ × String))
  | [] => .ok ([],requests)
  | resource::resources =>
    match availableResponse src resource, resource.2 with
    | some response, _ => do
      let (accessors,requests) ← compileRequests requests resources
      .ok (⟨.available response,""⟩::accessors,requests)
    | none, .uri uri clientCacheId =>
      if (src.created resource.1 uri).isOk then do
        let (accessors,requests') ← compileRequests (requests++[(resource.1,uri)]) resources
        .ok (⟨.fetched requests.length,if src.cachingEnabled then clientCacheId else ""⟩ ::
          accessors,requests')
      else .error (src.created resource.1 uri)
    | none, .inlineData .. => compileRequests requests resources

def accessResponse (responses : List (StatusOr InMemoryHttpResponse)) :
    ResponseAccessor → Checked (StatusOr InMemoryHttpResponse)
  | .available response => .ok (.ok response)
  | .fetched responseIndex => elementAt responses responseIndex

def decodeResponse : StatusOr InMemoryHttpResponse → StatusOr InMemoryHttpResponse
  | .error status => .error status
  | .ok response =>
    if endsWithIgnoreCase response.contentType kClientDecodedGzipSuffix then
      match uncompressWithGzip response.body with
      | .ok body => .ok { response with body := body }
      | .error text => .error ⟨.internal,"An error has occurred during decompression:"++text⟩
    else .ok response

-- What `TryPutResourceInCache` makes of a cache.
variable (put : ς → String → InMemoryHttpResponse → ς)

def putResponse (clientCacheId : String) (cache : ς) : StatusOr InMemoryHttpResponse → ς
  | .ok response => if clientCacheId="" then cache else put cache clientCacheId response
  | .error _ => cache

def gatherResponses (responses : List (StatusOr InMemoryHttpResponse)) (cache : ς) :
    List AccessorAndCacheMetadata → Checked (List (StatusOr InMemoryHttpResponse) × ς)
  | [] => .ok ([],cache)
  | a::accessors => do
    let response ← accessResponse responses a.accessor
    let (results,cache) ←
      gatherResponses responses (putResponse put a.clientCacheId cache response) accessors
    .ok (decodeResponse uncompressWithGzip response::results,cache)

inductive Compiled (requests : List (κ × String)) :
    κ × UriOrInlineData → AccessorAndCacheMetadata → Prop where
  | available {resource : κ × UriOrInlineData} {response : InMemoryHttpResponse}
      (h : availableResponse src resource=some response) :
      Compiled requests resource ⟨.available response,""⟩
  | requested {key : κ} {uri clientCacheId putId : String} {i : ℕ}
      (hnone : availableResponse src (key,.uri uri clientCacheId)=none)
      (hrequest : requests[i]?=some (key,uri)) (hput : putId="" ∨ putId=clientCacheId) :
      Compiled requests (key,.uri uri clientCacheId) ⟨.fetched i,putId⟩

variable {src} {ress : List (κ × UriOrInlineData)} {accs : List AccessorAndCacheMetadata}
  {reqs before : List (κ × String)}

/-- Each resource has its data or the index of its own request. -/
theorem compiled_of_compileRequests (h : compileRequests src before ress=.ok (accs,reqs)) :
    before <+: reqs ∧ List.Forall₂ (Compiled src reqs) ress accs := by
  induction ress generalizing before accs with
  | nil =>
    cases h
    exact ⟨List.prefix_refl _,.nil⟩
  | cons res ress ih =>
    rw [compileRequests] at h
    split at h
    next ha =>
      obtain ⟨_,hr,⟨⟩⟩:=bind_eq_ok.mp h
      obtain ⟨hb,hall⟩:=ih hr
      exact ⟨hb,.cons (.available ha) hall⟩
    next uri clientCacheId hn hu =>
      obtain ⟨⟨_,_⟩,hr,⟨⟩⟩:=bind_eq_ok.mp (guard_eq_ok.mp h).2
      obtain ⟨⟨more,hm⟩,hall⟩:=ih hr
      obtain ⟨key,_⟩:=res
      subst hu hm
      refine ⟨⟨(key,uri)::more,by simp⟩,.cons (.requested hn (by simp) ?_) hall⟩
      cases src.cachingEnabled <;> simp
    next ha hi =>
      rw [← Prod.eta res,hi] at ha
      cases ha

/-- Only resources of the list are requested. -/
theorem compileRequests_subset (h : compileRequests src before ress=.ok (accs,reqs)) :
    ∀ req∈reqs,req∈before ∨ req.1∈ress.map Prod.fst := by
  induction ress generalizing before accs with
  | nil =>
    cases h
    exact fun _ => .inl
  | cons res ress ih =>
    rw [compileRequests] at h
    intro req hr
    rw [List.map_cons,List.mem_cons]
    split at h
    · obtain ⟨_,hres,⟨⟩⟩:=bind_eq_ok.mp h
      exact (ih hres req hr).imp_right .inr
    · obtain ⟨⟨_,_⟩,hres,⟨⟩⟩:=bind_eq_ok.mp (guard_eq_ok.mp h).2
      rcases ih hres req hr with hn | hrest
      · exact (List.mem_append.mp hn).imp_right fun ho => .inl (by rw [List.mem_singleton.mp ho])
      · exact .inr (.inr hrest)
    · exact (ih h req hr).imp_right .inr

end Resources

section Fetching

variable (answers : Answers) (uncompressWithGzip : Bytes → Except String Bytes)
  (resource : Request × UriOrInlineData)

/-- What is put in the cache is not seen by an operation. -/
def Answers.sources : Sources Request :=
  ⟨true,fun request _ => answers.cached request,fun request _ => answers.created request⟩

def fetchResourcesInMemory (batch : Request) (resources : List (Request × UriOrInlineData)) :
    Operation σ (List (StatusOr InMemoryHttpResponse)) := do
  let wanted := resources.map fun resource => (resource.1,true)
  let (accessors,requests) ← ofExcept (compileRequests answers.sources [] resources)
  match performMultipleRequestsInMemory answers batch (requests.map Prod.fst) with
  | .error status => failRequests wanted status
  | .ok httpResponses => do
    let responses ← ofChecked
      (gatherResponses uncompressWithGzip (fun _ _ _ => ()) httpResponses () accessors)
    giveResponses wanted responses.1

def resourceResponse : StatusOr InMemoryHttpResponse := decodeResponse uncompressWithGzip <|
    match availableResponse answers.sources resource with
    | some response => .ok response
    | none => answers.responseTo resource.1

theorem gatherResponses_compiled {ress : List (Request × UriOrInlineData)}
    {accs : List AccessorAndCacheMetadata} {reqs : List (Request × String)}
    (h : List.Forall₂ (Compiled answers.sources reqs) ress accs) :
    gatherResponses uncompressWithGzip (fun _ _ _ => ())
      ((reqs.map Prod.fst).map answers.responseTo) () accs =
      .ok (ress.map (resourceResponse answers uncompressWithGzip),()) := by
  induction h with
  | nil => rfl
  | @cons res a ress accs hc _ ih =>
    obtain ⟨resp,ha,hrest⟩ : ∃ resp,
        accessResponse ((reqs.map Prod.fst).map answers.responseTo) a.accessor=.ok resp ∧
        decodeResponse uncompressWithGzip resp =
          resourceResponse answers uncompressWithGzip res := by
      cases hc with
      | available h => exact ⟨_,rfl,by simp only [resourceResponse,h]⟩
      | @requested key _ _ _ _ hn hr =>
        refine ⟨answers.responseTo key,elementAt_eq_ok.mpr ?_,by simp only [resourceResponse,hn]⟩
        simp [hr]
    rw [gatherResponses,ha,ok_bind,ih,ok_bind,hrest,List.map_cons]

end Fetching

end Fcp.Client.Http

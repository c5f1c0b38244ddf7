import Fcp.Base.Monitoring
import Fcp.Client.Http.CurlHeaderParser
import Fcp.Lib.Run

/-!
# The curl request handle (curl_http_request_handle.cc)

One thread performs the request, and curl calls back on it. `Cancel` comes from other threads, also
between two statements of `HeaderCallback` and `DownloadCallback`, which do not take the lock.
-/

namespace Fcp.Client.Http.Curl

structure HttpResponse where
  code : ℤ
  headers : HeaderList
  deriving DecidableEq

inductive CurlCode where
  | ok
  | error (number : ℕ)
  deriving DecidableEq

inductive Call where
  | onResponseStarted (response : HttpResponse) (result : Status)
  | onResponseError (error : Status)
  | onResponseBody (data : Bytes) (result : Status)
  | onResponseBodyError (error : Status)
  | onResponseCompleted
  deriving DecidableEq

inductive Position where
  | inCurl
  /-- `response_` is set and `OnResponseStarted` not yet called. -/
  | starting
  | startFailed (status : Status)
  | bodyFailed (status : Status)
  deriving DecidableEq

inductive Transfer where
  | idle
  | refused
  | headers
  | body
  | aborted
  | done (result : CurlCode)
  deriving DecidableEq

structure CurlHttpRequestHandle where
  headerParser : CurlHeaderParser := {}
  response : Option HttpResponse := none
  hasCallback : Bool := false
  isBeingPerformed : Bool := false
  isCompleted : Bool := false
  isCancelled : Bool := false
  position : Position := .inCurl
  transfer : Transfer := .idle
  calls : List Call := []

inductive Stop where
  | notDelivered
  | fault (fault : Fault)

inductive Event where
  | addToMulti (added : Bool) (errorBuffer : String)
  | header (line : Text)
  | start (result : Status)
  | download (body : Bytes) (result : Status)
  | reportFailure
  | progress
  | done (result : CurlCode)
  | cancel

namespace CurlHttpRequestHandle

def create (useCurlEncoding : Bool) : CurlHttpRequestHandle :=
  { headerParser := { useCurlEncoding := useCurlEncoding } }

variable (h : CurlHttpRequestHandle)

def call (c : Call) : CurlHttpRequestHandle :=
  { h with calls := h.calls++[c] }

def cancelledError : Status := ⟨.cancelled,""⟩

def addToMulti (added : Bool) (errorBuffer : String) : Status × CurlHttpRequestHandle :=
  if h.isCancelled then (cancelledError,h.call (.onResponseError cancelledError))
  else if h.isBeingPerformed || h.isCompleted then
    (⟨.resourceExhausted,"The handle was previously passed to another PerformRequests call."⟩,h)
  else
    let h := { h with isBeingPerformed := true, hasCallback := true }
    if added then (.okStatus,{ h with transfer := .headers })
    else
      (⟨.internal,errorBuffer⟩,
        { h.call (.onResponseError ⟨.internal,errorBuffer⟩) with transfer := .refused })

def headerCallback (line : Text) : CurlHttpRequestHandle :=
  let parser := h.headerParser.parseHeader line
  if parser.isLastHeaderLine then
    { h with
      headerParser := parser
      response := some ⟨parser.statusCode,parser.headerList⟩
      position := .starting }
  else { h with headerParser := parser }

def onResponseStarted (h : CurlHttpRequestHandle) (response : HttpResponse)
    (result : Status) : CurlHttpRequestHandle :=
  { h.call (.onResponseStarted response result) with
    position := if result.isOk then .inCurl else .startFailed result }

def downloadCallback (body : Bytes) (result : Status) : CurlHttpRequestHandle :=
  { h.call (.onResponseBody body result) with
    position := if result.isOk then .inCurl else .bodyFailed result }

def cancel : CurlHttpRequestHandle :=
  if !h.hasCallback || h.isCancelled || h.isCompleted then h
  else
    let c := if h.response.isSome then .onResponseBodyError cancelledError
      else .onResponseError cancelledError
    { h.call c with isCancelled := true }

def markAsCompleted : CurlHttpRequestHandle :=
  if h.isCancelled || h.isCompleted then { h with isCompleted := true }
  else
    let c := if h.response.isSome then .onResponseCompleted
      else .onResponseError ⟨.internal,"response_ is nullptr"⟩
    { h.call c with isCompleted := true }

def delivers : Bool := h.position=.inCurl ∧ (h.transfer=.headers ∨ h.transfer=.body)

def step : Event → Except Stop CurlHttpRequestHandle
  | .addToMulti added errorBuffer => .ok (h.addToMulti added errorBuffer).2
  | .header line =>
    if h.delivers then
      .ok { h.headerCallback line with
        transfer := if line="\r\n".toList then .body
          else if "HTTP/".toList.isPrefixOf line then .headers else h.transfer }
    else .error .notDelivered
  | .start result =>
    match h.position, h.response with
    | .starting, some response =>
      if h.hasCallback then .ok (h.onResponseStarted response result)
      else .error (.fault .check)
    | _, _ => .error .notDelivered
  | .download body result =>
    if h.position=.inCurl ∧ h.transfer=.body then
      if h.response.isSome then .ok (h.downloadCallback body result)
      else .error (.fault .nullDereference)
    else .error .notDelivered
  | .reportFailure =>
    match h.position with
    | .startFailed status => .ok { h.call (.onResponseError status) with position := .inCurl }
    | .bodyFailed status => .ok { h.call (.onResponseBodyError status) with position := .inCurl }
    | _ => .error .notDelivered
  | .progress =>
    if h.delivers then .ok (if h.isCancelled then { h with transfer := .aborted } else h)
    else .error .notDelivered
  | .done result =>
    if h.delivers ∨ (h.position=.inCurl ∧ h.transfer=.aborted ∧ result≠.ok) then
      if h.hasCallback then .ok { h.markAsCompleted with transfer := .done result }
      else .error (.fault .check)
    else .error .notDelivered
  | .cancel => .ok h.cancel

end CurlHttpRequestHandle

end Fcp.Client.Http.Curl

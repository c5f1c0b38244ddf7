import Fcp.Base.Monitoring
import Fcp.Lib.Run

/-!
# Receiving over a chunked stream (protocol/grpc_chunked_bidi_stream.h)

Whether a reassembly is in progress is read off the size that the peer's Start announced.
-/

namespace Fcp.Protocol

open List

inductive ChunkedTransferMessage where
  | start (uncompressedSize : ℤ) (compressionLevel : ℕ) (blobSizeBytes : ℤ)
  | data (chunkIndex : ℤ) (chunkBytes : Bytes)
  | end_ (chunkCount : ℤ)
  | ack (chunkIndex : ℤ)
  | notSet
  deriving DecidableEq

-- The kinds of messages other than chunks.
variable {M : Type}

inductive Incoming (M : Type) where
  | chunkedTransfer (chunk : ChunkedTransferMessage)
  | message (m : M)
  deriving DecidableEq

structure IncomingState where
  uncompressedSize : ℤ := -1
  compressionLevel : ℕ := 0
  blobSizeBytes : ℤ := -1
  deque : List Bytes := []
  composite : Bytes := []

structure Stream where
  closed : Bool := false
  incoming : IncomingState := {}

/-- What reading from and writing to the connection give. -/
structure Exchange (M : Type) where
  read : Option (Incoming M)
  written : Bool := true

def endOfStream : Status := ⟨.aborted,"End of stream."⟩

-- Parsing, after decompression unless the level is 0.
variable (parse : ℕ → Bytes → Option (Incoming M))

def assemblePending (s : Stream) : Stream × StatusOr (Option (Incoming M)) :=
  match parse s.incoming.compressionLevel s.incoming.composite with
  | some m => ({ s with incoming := { compressionLevel := s.incoming.compressionLevel } },.ok m)
  | none => (s,.error ⟨.internal,if s.incoming.compressionLevel=0 then
      "Could not parse from string. "++toString s.incoming.composite.length
    else "Could not parse proto from input stream."⟩)

def sendRaw (s : Stream) (written : Bool) : Stream × StatusOr (Option (Incoming M)) :=
  if written then (s,.ok none) else ({ s with closed := true },.error endOfStream)

def tryAssemblePending (s : Stream) (chunk : ChunkedTransferMessage) (written : Bool) :
    Stream × StatusOr (Option (Incoming M)) :=
  let incoming := s.incoming
  match chunk with
  | .start size level blobSize =>
    if incoming.deque≠[] ∨ incoming.uncompressedSize ≠ -1 then
      (s,.error ⟨.internal,"Unexpected Start."⟩)
    else ({ s with incoming := { incoming with
      uncompressedSize := size, compressionLevel := level, blobSizeBytes := blobSize } },.ok none)
  | .data chunkIndex chunkBytes =>
    if chunkIndex≠incoming.deque.length then (s,.error ⟨.internal,"Unexpected Data."⟩)
    else sendRaw { s with incoming := { incoming with
      deque := incoming.deque++[chunkBytes]
      composite := incoming.composite++chunkBytes } } written
  | .end_ chunkCount =>
    if incoming.deque=[] ∨ chunkCount≠incoming.deque.length then
      (s,.error ⟨.internal,"Unexpected End."⟩)
    else assemblePending parse s
  | .ack _ => (s,.error ⟨.internal,"Unexpected Ack."⟩)
  | .notSet => (s,.error ⟨.internal,"Unexpected message subtype: 0"⟩)

/-- One round of the loop of `Receive`. A call ends with the first round that gives a message or an
error. -/
def receive (s : Stream) (e : Exchange M) : Stream × StatusOr (Option (Incoming M)) :=
  if s.closed then (s,.error ⟨.failedPrecondition,"Receive on closed stream."⟩)
  else match e.read with
    | none => ({ s with closed := true },.error endOfStream)
    | some (.chunkedTransfer (.ack _)) => sendRaw s e.written
    | some (.chunkedTransfer chunk) => tryAssemblePending parse s chunk e.written
    | some (.message m) =>
      if s.incoming.uncompressedSize ≠ -1 then
        (s,.error ⟨.invalidArgument,"Chunk reassembly in progress."⟩)
      else (s,.ok (some (.message m)))

/-- A stream with what came since the last delivery, acks apart. -/
structure Observed (M : Type) where
  stream : Stream := {}
  since : List (Incoming M) := []
  failed : Bool := false

def Exchange.relevant (e : Exchange M) : List (Incoming M) :=
  match e.read with
  | none | some (.chunkedTransfer (.ack _)) => []
  | some m => [m]

def receiveStep (s : Observed M) (e : Exchange M) : Except Unit (Observed M) :=
  match receive parse s.stream e with
  | (stream,.ok none) => .ok { s with stream, since := s.since++e.relevant }
  | (stream,.ok (some _)) => .ok { s with stream, since := [] }
  | (stream,.error _) => .ok { stream, since := s.since++e.relevant, failed := true }

def chunksOf (chunks : List Bytes) : List (Incoming M) :=
  chunks.mapIdx fun i bytes => .chunkedTransfer (.data i bytes)

/-- The streams that deliver: a message that is not a chunk, or one Start, at least one Data and
the End. -/
inductive Delivers : List (Incoming M) → Incoming M → Prop where
  | message (m : M) : Delivers [.message m] (.message m)
  | assembled (size : ℤ) {level : ℕ} (blobSize : ℤ) {chunks : List Bytes} {m : Incoming M}
      (hne : chunks≠[]) (hparse : parse level chunks.flatten=some m) :
      Delivers (.chunkedTransfer (.start size level blobSize)::chunksOf chunks ++
        [.chunkedTransfer (.end_ chunks.length)]) m

/-- The streams that may still become one that delivers. -/
inductive Begins : List (Incoming M) → Prop where
  | nil : Begins []
  | chunks (size : ℤ) (level : ℕ) (blobSize : ℤ) (chunks : List Bytes) :
      Begins (.chunkedTransfer (.start size level blobSize)::chunksOf chunks)

def Admitted (incoming : IncomingState) : Incoming M → Prop
  | .chunkedTransfer (.start size ..) => size ≠ -1
  | .chunkedTransfer (.data ..) => incoming.uncompressedSize ≠ -1
  | _ => True

instance (incoming : IncomingState) : DecidablePred (Admitted (M := M) incoming)
  | .chunkedTransfer (.start ..) | .chunkedTransfer (.data ..) =>
    inferInstanceAs (Decidable (_≠_))
  | .chunkedTransfer (.end_ _) | .chunkedTransfer (.ack _) | .chunkedTransfer .notSet |
    .message _ => inferInstanceAs (Decidable True)

/-- The condition: no call follows an error, no Start announces the size that stands for none, and
Data comes after a Start only. -/
def Proper (s : Observed M) (e : Exchange M) : Prop :=
  s.failed=false ∧ ∀ m∈e.relevant,Admitted s.stream.incoming m

instance (s : Observed M) : DecidablePred (Proper s) := fun e =>
  inferInstanceAs (Decidable (_ ∧ ∀ m∈e.relevant,_))

/-- What the state says about the messages since the last delivery. -/
inductive Tells (incoming : IncomingState) : List (Incoming M) → Prop where
  | idle (hsize : incoming.uncompressedSize = -1) (hdeque : incoming.deque=[])
      (hcomposite : incoming.composite=[]) : Tells incoming []
  | progress (hsize : incoming.uncompressedSize ≠ -1)
      (hcomposite : incoming.composite=incoming.deque.flatten) :
      Tells incoming (.chunkedTransfer (.start incoming.uncompressedSize
        incoming.compressionLevel incoming.blobSizeBytes)::chunksOf incoming.deque)

theorem Tells.begins {incoming : IncomingState} {since : List (Incoming M)}
    (h : Tells incoming since) : Begins since := by
  cases h with
  | idle => exact .nil
  | progress => exact .chunks ..

inductive Round (incoming : IncomingState) :
    List (Incoming M) → IncomingState → Option (Incoming M) → Prop where
  | ack : Round incoming [] incoming none
  | message (m : M) (hsize : incoming.uncompressedSize = -1) :
      Round incoming [.message m] incoming (some (.message m))
  | start (size : ℤ) (level : ℕ) (blobSize : ℤ) (hdeque : incoming.deque=[])
      (hsize : incoming.uncompressedSize = -1) :
      Round incoming [.chunkedTransfer (.start size level blobSize)] { incoming with
        uncompressedSize := size, compressionLevel := level, blobSizeBytes := blobSize } none
  | data (bytes : Bytes) :
      Round incoming [.chunkedTransfer (.data incoming.deque.length bytes)] { incoming with
        deque := incoming.deque++[bytes], composite := incoming.composite++bytes } none
  | end_ {m : Incoming M} (hne : incoming.deque≠[])
      (hparse : parse incoming.compressionLevel incoming.composite=some m) :
      Round incoming [.chunkedTransfer (.end_ incoming.deque.length)]
        { compressionLevel := incoming.compressionLevel } (some m)

variable {parse} {s s' : Observed M} {e : Exchange M} {m : Incoming M} {r : Option (Incoming M)}

theorem round_of_receive {stream stream' : Stream} (h : receive parse stream e=(stream',.ok r)) :
    Round parse stream.incoming e.relevant stream'.incoming r := by
  obtain ⟨read,written⟩:=e
  have hs {sending : Stream} (h : sendRaw sending written=(stream',.ok r)) :
      stream'=sending ∧ r=none := by
    unfold sendRaw at h
    split at h <;> cases h
    exact ⟨rfl,rfl⟩
  simp only [receive,Exchange.relevant] at h ⊢
  split at h
  · cases h
  · split at h
    · cases h
    · obtain ⟨rfl,rfl⟩:=hs h
      exact .ack
    next chunk _ =>
      cases chunk <;> simp only [tryAssemblePending] at h
      case start =>
        split at h <;> cases h
        next hidle =>
          simp only [not_or,not_not] at hidle
          exact .start _ _ _ hidle.1 hidle.2
      case data =>
        split at h
        · cases h
        next hi =>
          obtain ⟨rfl,rfl⟩:=hs h
          rw [not_not.mp hi]
          exact .data _
      case end_ =>
        split at h
        · cases h
        next hc =>
          simp only [not_or,not_not] at hc
          rw [hc.2]
          unfold assemblePending at h
          split at h <;> cases h
          exact .end_ hc.1 ‹_›
      all_goals cases h
    · split at h <;> cases h
      exact .message _ (by omega)

theorem chunksOf_concat (chunks : List Bytes) (bs : Bytes) : chunksOf (M := M) (chunks++[bs]) =
      chunksOf chunks++[.chunkedTransfer (.data chunks.length bs)] := mapIdx_concat

theorem Tells.round {incoming incoming' : IncomingState} {since relevant : List (Incoming M)}
    (h : Tells incoming since)
    (hr : Round parse incoming relevant incoming' r)
    (ha : ∀ m∈relevant,Admitted incoming m) :
    Tells incoming' (r.elim (since++relevant) fun _ => []) ∧
      ∀ m∈r,Delivers parse (since++relevant) m := by
  cases hr with
  | ack =>
    rw [append_nil]
    exact ⟨h,nofun⟩
  | message m hi =>
    cases h with
    | idle hs hd hc =>
      refine ⟨.idle hs hd hc,?_⟩
      rintro _ ⟨⟩
      exact .message m
    | progress hs => exact absurd hi hs
  | start size level blobSize hd hi =>
    cases h with
    | idle _ _ hc =>
      have he : incoming.composite=incoming.deque.flatten := by rw [hc,hd]; rfl
      have hchunks : []=chunksOf (M := M) incoming.deque := by rw [hd]; rfl
      refine ⟨?_,nofun⟩
      rw [Option.elim,nil_append,hchunks]
      exact .progress (ha _ (mem_singleton_self _)) he
    | progress hs => exact absurd hi hs
  | data bs =>
    have hs:=ha _ (mem_singleton_self _)
    cases h with
    | idle hi => exact absurd hi hs
    | progress _ hc =>
      refine ⟨?_,nofun⟩
      rw [Option.elim,cons_append,← chunksOf_concat]
      exact .progress hs (by simp [hc])
  | end_ hne hp =>
    cases h with
    | idle _ hd => exact absurd hd hne
    | progress _ hc =>
      rw [hc] at hp
      refine ⟨.idle rfl rfl rfl,?_⟩
      rintro _ ⟨⟩
      exact .assembled _ _ hne hp

theorem tells_of_run {hist : List (Observed M × Exchange M)}
    (hrun : Run (receiveStep parse) {} hist s)
    (hp : ∀ entry∈hist,Proper entry.1 entry.2) :
    s.failed=false → Tells s.stream.incoming s.since := by
  refine hrun.invariant (G := Proper)
    (P := fun _ s => s.failed=false → Tells s.stream.incoming s.since) hp
    (fun _ => .idle rfl rfl rfl) ?_
  rintro _ s s' e ht ⟨hok,ha⟩ hs
  unfold receiveStep at hs
  split at hs <;> cases hs <;> intro hf
  next hr => exact ((ht hok).round (round_of_receive hr) ha).1
  next hr => exact ((ht hok).round (round_of_receive hr) ha).1
  cases hf

/-- In every run under the condition only well-formed streams deliver, and what neither delivers nor
begins such a stream is an error. -/
theorem delivers_of_receive {history : List (Observed M × Exchange M)}
    (hrun : Run (receiveStep parse) {} history s)
    (hp : ∀ entry∈history,Proper entry.1 entry.2) (hn : Proper s e) :
    (∀ m,(receive parse s.stream e).2=.ok (some m) → Delivers parse (s.since++e.relevant) m) ∧
      (¬ Begins (s.since++e.relevant) → (∀ m,¬ Delivers parse (s.since++e.relevant) m) →
        ∃ status,(receive parse s.stream e).2=.error status) := by
  have ht:=tells_of_run hrun hp hn.1
  cases hr : receive parse s.stream e with
  | mk stream result =>
    cases result with
    | error status => exact ⟨nofun,fun _ _ => ⟨status,rfl⟩⟩
    | ok r =>
      obtain ⟨hgoes,hg⟩:=ht.round (round_of_receive hr) hn.2
      refine ⟨fun m hm => hg m (Except.ok.inj hm),fun hb hnone => ?_⟩
      cases r with
      | none => exact absurd hgoes.begins hb
      | some m => exact absurd (hg m rfl) (hnone m)

def parsePlain : ℕ → Bytes → Option (Incoming Bytes) := fun _ bytes => some (.message bytes)

def chunk (c : ChunkedTransferMessage) : Exchange Bytes := ⟨some (.chunkedTransfer c),true⟩

theorem delivers_two_chunks :
    ∃ history s,Run (receiveStep parsePlain) {} history s ∧ s.since.length=3 ∧
      Delivers parsePlain (s.since++(chunk (.end_ 2)).relevant) (.message [7,8]) := by
  obtain ⟨history,s,hrun,-,hp,hn,hl,hr⟩:=exists_recorded (receiveStep parsePlain) {}
    [chunk (.start 2 0 2),chunk (.data 0 [7]),chunk (.ack 0),chunk (.data 1 [8])]
    (P := fun history s => (∀ entry∈history,Proper entry.1 entry.2) ∧
      Proper s (chunk (.end_ 2)) ∧ s.since.length=3 ∧
      (receive parsePlain s.stream (chunk (.end_ 2))).2=.ok (some (.message [7,8])))
    (by decide +kernel)
  exact ⟨history,s,hrun,hl,(delivers_of_receive hrun hp hn).1 _ hr⟩

theorem chunks_without_start_delivered :
    ∃ history s stream,Run (receiveStep parsePlain) {} history s ∧ s.failed=false ∧
      receive parsePlain s.stream (chunk (.end_ 1))=(stream,.ok (some (.message [7]))) ∧
      ¬ Delivers parsePlain (s.since++(chunk (.end_ 1)).relevant) (.message [7]) := by
  have hr : Run (receiveStep parsePlain) {} [({},chunk (.data 0 [7]))] _ := .snoc .nil rfl
  exact ⟨_,_,_,hr,rfl,rfl,nofun⟩

end Fcp.Protocol

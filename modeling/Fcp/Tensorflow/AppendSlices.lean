import Fcp.Base.Monitoring
import Fcp.Lib.LittleEndian
import Mathlib.Data.List.Induction
import Mathlib.Data.List.Sort

/-!
# Merging appended checkpoint slices (tensorflow/append_slices_op.cc)

A file holds tables one after the other, each followed by the position where it starts. They are
read from the back and merged. An iterator is the list of the entries it has still to give.
-/

namespace Fcp.Tensorflow

open List

-- Keys in their order; the metadata has the empty key, which comes first.
variable {K : Type} [LinearOrder K] [OrderBot K]

structure SavedTensorSlices where
  versions : Bytes
  tensor : List (String × Bytes)

/-- What `Read` of a `RandomAccessFile` gives for an offset and a number of bytes. -/
abbrev Reader := ℕ → ℕ → Bytes × Status

/-- What TensorFlow makes of a file and its size: a table that opens and lists its entries; and of
the bytes of metadata. -/
structure Format (K : Type) where
  openTable : Reader → ℕ → Option (List (K × Bytes))
  parse : Bytes → Option SavedTensorSlices
  serialize : SavedTensorSlices → Bytes

/-- `Read` of the whole file gives what there is, and says so if it is less. -/
def readFile (file : Bytes) : Reader := fun offset n =>
  let result := (file.drop offset).take n
  (result,if result.length<n then ⟨.outOfRange,"Read less bytes than requested"⟩ else .okStatus)

def toUnsigned (x : ℤ) : ℕ := (x%2^64).toNat

structure PartialRandomAccessFile where
  file : Bytes
  start : ℤ
  end_ : ℤ

def PartialRandomAccessFile.read (f : PartialRandomAccessFile) : Reader := fun offset n =>
  let maxAllowableN := toUnsigned (f.end_-(f.start+offset))
  let readTooLong := maxAllowableN<n
  let (result,status) := readFile f.file (toUnsigned (offset+f.start))
    (if readTooLong then maxAllowableN else n)
  if status.code≠.ok then
    (result,⟨status.code,status.message++"\n\tReading from PartialRandomAccessFile at offset " ++
      toString offset++" from start position "++toString f.start⟩)
  else if readTooLong then (result,⟨.outOfRange,"Attempted to read past end of file chunk."⟩)
  else (result,.okStatus)

def kSavedTensorSlicesKey : K := ⊥

/-- Whether `i1` comes after `i2` in the priority queue. -/
def tableIteratorComparator : List (K × Bytes) → List (K × Bytes) → Bool
  | _, [] => false
  | [], _ => true
  | e1::_, e2::_ =>
    (decide (e2.1=kSavedTensorSlicesKey) && decide (e1.1≠kSavedTensorSlicesKey)) ||
      decide (e1.1>e2.1)

def Precedes (i1 i2 : List (K × Bytes)) : Prop := tableIteratorComparator i1 i2=false

instance : DecidableRel (Precedes (K := K)) := fun _ _ => inferInstanceAs (Decidable (_=_))

/-- The queue as the list of its elements in order. -/
def push (iterator : List (K × Bytes)) (queue : List (List (K × Bytes))) :
    List (List (K × Bytes)) := queue.orderedInsert Precedes iterator

theorem push_perm (iterator : List (K × Bytes)) (queue : List (List (K × Bytes))) :
    (push iterator queue).Perm (iterator::queue) := perm_orderedInsert _ _ _

def mergeEntries (queue : List (List (K × Bytes))) : List (K × Bytes) :=
  match queue with
  | (entry::iterator)::queue => entry::mergeEntries (push iterator queue)
  | _ => []
termination_by queue.flatten.length
decreasing_by
  rw [(push_perm iterator queue).flatten.length_eq]
  simp

structure Merged (K : Type) where
  versions : Option Bytes := none
  tensor : List (String × Bytes) := []
  slicesAdded : List String := []
  queue : List (List (K × Bytes)) := []

def duplicate (name : String) : Status :=
  ⟨.invalidArgument,"Attempted to merge two checkpoint entries for slice name: `"++name ++
    "`. Only one entry per name is permitted."⟩

def addSlices (slicesAdded : List String) : List (String × Bytes) → StatusOr (List String)
  | [] => .ok slicesAdded
  | slice::tensor =>
    if slice.1∈slicesAdded then .error (duplicate slice.1)
    else addSlices (slicesAdded++[slice.1]) tensor

def Merged.add (m : Merged K) (sts : SavedTensorSlices) (entries : List (K × Bytes)) :
    StatusOr (Merged K) := do
  let slicesAdded ← addSlices m.slicesAdded sts.tensor
  .ok { versions := m.versions.or sts.versions
        tensor := m.tensor++sts.tensor
        slicesAdded := slicesAdded
        queue := push entries m.queue }

variable (format : Format K)

def readChunk (chunk : Reader) (chunkLen : ℕ) (m : Merged K) : StatusOr (Merged K) :=
  match format.openTable chunk chunkLen with
  | none => .error ⟨.internal,"Error opening sub-table"⟩
  | some [] => .error ⟨.internal,"Unexpected immediately-invalid iterator. Expected table to " ++
      "iterator to have at least a single entry (metadata)"⟩
  | some (entry::iterator) =>
    if entry.1≠kSavedTensorSlicesKey then .error ⟨.internal,
      "Expected table iterator to have an initial metadata entry with key"⟩
    else match format.parse entry.2 with
      | none => .error ⟨.internal,"Failed to parse table entry as `SavedTensorSlices`: "⟩
      | some sts => m.add sts iterator

def int64FromHostEndianBytes (bytes : Bytes) : ℤ := (BitVec.ofNat 64 (littleEndian bytes)).toInt

/-- The loop over the footers, for a number of rounds. A file may have footers that do not lead to
its beginning. -/
def readChunks (file : Bytes) : ℕ → ℤ → Merged K → Checked (StatusOr (Merged K))
  | 0, _, _ => .error .noReturn
  | rounds+1, chunkFooterEnd, m =>
    if chunkFooterEnd≤0 then .ok (.ok m)
    else
      let (chunkFooter,status) := readFile file (toUnsigned (chunkFooterEnd-8)) 8
      if status.code≠.ok then .ok (.error status)
      else
        let chunkStart := int64FromHostEndianBytes chunkFooter
        let chunkEnd := chunkFooterEnd-8
        let chunkFile : PartialRandomAccessFile := ⟨file,chunkStart,chunkEnd⟩
        match readChunk format chunkFile.read (toUnsigned (chunkEnd-chunkStart)) m with
        | .error status => .ok (.error status)
        | .ok m => readChunks file rounds chunkStart m

/-- The entries of the table that replaces the file; an empty file stays as it is. -/
def loadAndMergeAppendedSlices (rounds : ℕ) (file : Bytes) :
    Checked (StatusOr (Option (List (K × Bytes)))) :=
  if file=[] then .ok (.ok none)
  else do
    match ← readChunks format file rounds file.length {} with
    | .error status => .ok (.error status)
    | .ok m =>
      let metadata := format.serialize ⟨m.versions.getD [],m.tensor⟩
      .ok (.ok (some ((kSavedTensorSlicesKey,metadata)::mergeEntries m.queue)))

structure Chunk (K : Type) where
  body : Bytes
  metadata : Bytes
  sts : SavedTensorSlices
  data : List (K × Bytes)

/-- A reader gives what is asked of a body. -/
def Serves (read : Reader) (body : Bytes) : Prop :=
  ∀ offset n,offset+n≤body.length → read offset n=((body.drop offset).take n,.okStatus)

structure Chunk.Stored (c : Chunk K) : Prop where
  opens : ∀ read,Serves read c.body →
    format.openTable read c.body.length=some ((kSavedTensorSlicesKey,c.metadata)::c.data)
  parses : format.parse c.metadata=some c.sts
  ascending : c.data.Pairwise fun e e' => e.1≤e'.1

/-- A chunk behind what the file has, with the position where it starts. -/
def appendChunk (file : Bytes) (c : Chunk K) : Bytes := file++c.body++toLittleEndian 8 file.length

def fileOf (chunks : List (Chunk K)) : Bytes := chunks.foldl appendChunk []

def namesOf (chunks : List (Chunk K)) : List String :=
  chunks.flatMap fun c => c.sts.tensor.map Prod.fst

omit [LinearOrder K] [OrderBot K] in
theorem fileOf_concat (chunks : List (Chunk K)) (c : Chunk K) : fileOf (chunks++[c]) =
      fileOf chunks++(c.body++toLittleEndian 8 (fileOf chunks).length) := by
  simp [fileOf,appendChunk]

variable {format} {chunks : List (Chunk K)} {m : Merged K}

/-- The place in the queue: the next key, and the last place when there is none. -/
def rank : List (K × Bytes) → WithTop K
  | [] => ⊤
  | entry::_ => entry.1

theorem precedes_iff (i1 i2 : List (K × Bytes)) : Precedes i1 i2 ↔ rank i1≤rank i2 := by
  rcases i1 with _ | ⟨e1,i1⟩ <;> rcases i2 with _ | ⟨e2,i2⟩ <;>
    simp only [Precedes,tableIteratorComparator,rank,le_refl,le_top,top_le_iff,
      WithTop.coe_ne_top,WithTop.coe_le_coe]
  · simp
  · have hb : e2.1=kSavedTensorSlicesKey → e1.1≠kSavedTensorSlicesKey → e2.1<e1.1 := by
      intro h2 h1
      rw [h2]
      exact bot_lt_iff_ne_bot.mpr h1
    simp only [Bool.or_eq_false_iff,Bool.and_eq_false_iff,decide_eq_false_iff_not,not_lt]
    refine ⟨fun h => h.2,fun h => ⟨?_,h⟩⟩
    by_contra hc
    push Not at hc
    exact absurd (hb hc.1 hc.2) (not_lt.mpr h)

instance precedesTotal : Std.Total (Precedes (K := K)) :=
  ⟨fun i1 i2 => by rw [precedes_iff,precedes_iff]; exact le_total _ _⟩

instance precedesTrans : IsTrans (List (K × Bytes)) Precedes :=
  ⟨fun i1 i2 i3 => by simp only [precedes_iff]; exact le_trans⟩

theorem mergeEntries_spec (queue : List (List (K × Bytes))) (hq : queue.Pairwise Precedes)
    (ha : ∀ i∈queue,i.Pairwise fun e e' => e.1≤e'.1) :
    (mergeEntries queue).Perm queue.flatten ∧
      (mergeEntries queue).Pairwise fun e e' => e.1≤e'.1 := by
  induction queue using mergeEntries.induct with
  | case1 entry iterator queue ih =>
    obtain ⟨hf,hr⟩:=pairwise_cons.mp hq
    obtain ⟨hn,hl⟩:=forall_mem_cons.mp ha
    obtain ⟨hleast,hiterator⟩:=pairwise_cons.mp hn
    obtain ⟨hp,hs⟩:=ih (hr.orderedInsert iterator queue) fun i hi => by
      rcases mem_cons.mp ((push_perm iterator queue).mem_iff.mp hi) with rfl | hi
      · exact hiterator
      · exact hl i hi
    have hall:=hp.trans (push_perm iterator queue).flatten
    rw [mergeEntries]
    refine ⟨hall.cons entry,pairwise_cons.mpr ⟨fun e he => ?_,hs⟩⟩
    rcases mem_append.mp (hall.mem_iff.mp he) with he | he
    · exact hleast e he
    · obtain ⟨i,hi,he⟩:=mem_flatten.mp he
      obtain ⟨e',i',rfl⟩:=exists_cons_of_ne_nil (ne_nil_of_mem he)
      have hle : entry.1≤e'.1 := WithTop.coe_le_coe.mp ((precedes_iff _ _).mp (hf _ hi))
      rcases mem_cons.mp he with rfl | he
      · exact hle
      · exact hle.trans (rel_of_pairwise_cons (hl _ hi) he)
  | case2 queue hexhausted =>
    have hempty : queue.flatten=[] := by
      rcases queue with _ | ⟨_ | ⟨e,i⟩,queue⟩
      · rfl
      · refine flatten_eq_nil_iff.mpr (forall_mem_cons.mpr ⟨rfl,fun i hi => ?_⟩)
        have hle:=(precedes_iff _ _).mp (rel_of_pairwise_cons hq hi)
        rcases i with _ | ⟨e,i⟩
        · rfl
        · exact absurd (top_le_iff.mp hle) (WithTop.coe_ne_top)
      · exact absurd rfl (hexhausted e i queue)
    rw [hempty,mergeEntries]
    · exact ⟨.nil,.nil⟩
    · exact hexhausted

theorem readFile_eq {before body after : Bytes} {offset n : ℕ} (h : offset+n≤body.length) :
    readFile (before++(body++after)) (before.length+offset) n =
      ((body.drop offset).take n,.okStatus) := by
  have hl : ((body.drop offset).take n).length=n := by
    rw [length_take,length_drop]
    omega
  rw [readFile,drop_append,drop_of_length_le (by omega),nil_append,Nat.add_sub_cancel_left,
    drop_append_of_le_length (by omega),take_append_of_le_length (by rw [length_drop]; omega),hl,
    if_neg (Nat.lt_irrefl n)]

theorem toUnsigned_eq {x : ℤ} {n : ℕ} (hx : x=n) (h : n<2^64) : toUnsigned x=n := by
  unfold toUnsigned
  omega

/-- The window on a chunk gives the bytes of the chunk. -/
theorem read_serves {before body : Bytes} (after : Bytes) (h : before.length+body.length<2^63) :
    Serves (PartialRandomAccessFile.read
      ⟨before++(body++after),before.length,(before.length+body.length : ℕ)⟩) body := by
  intro offset n hin
  have hm : toUnsigned ((before.length+body.length : ℕ)-((before.length : ℤ)+offset)) =
      body.length-offset := toUnsigned_eq (by omega) (by omega)
  have ho : toUnsigned ((offset : ℤ)+before.length)=before.length+offset :=
    toUnsigned_eq (by omega) (by omega)
  have hf : ¬ body.length-offset<n := by omega
  simp only [PartialRandomAccessFile.read,hm,ho,if_neg hf,readFile_eq hin]
  rfl

theorem readChunk_stored {c : Chunk K} {read : Reader} (hc : c.Stored format)
    (hr : Serves read c.body) : readChunk format read c.body.length m=m.add c.sts c.data := by
  simp [readChunk,hc.opens read hr,hc.parses]

theorem int64FromHostEndianBytes_eq {n : ℕ} (h : n<2^63) :
    int64FromHostEndianBytes (toLittleEndian 8 n)=n := by
  rw [int64FromHostEndianBytes,littleEndian_toLittleEndian,Nat.mod_eq_of_lt (by omega),
    BitVec.toInt_eq_toNat_of_lt (by rw [BitVec.toNat_ofNat]; omega),BitVec.toNat_ofNat,
    Nat.mod_eq_of_lt (by omega)]

/-- The footers lead through the chunks from the last to the first. -/
theorem readChunks_fileOf (hstored : ∀ c∈chunks,c.Stored format)
    (hs : (fileOf chunks).length<2^63) (rest : Bytes) (m : Merged K) {rounds : ℕ}
    (hrounds : chunks.length<rounds) :
    readChunks format (fileOf chunks++rest) rounds (fileOf chunks).length m =
      .ok (chunks.reverse.foldlM (fun m c => m.add c.sts c.data) m) := by
  obtain ⟨rounds,rfl⟩:=Nat.exists_eq_succ_of_ne_zero (Nat.ne_zero_of_lt hrounds)
  induction chunks using List.reverseRecOn generalizing rest m rounds with
  | nil => rfl
  | append_singleton chunks c ih =>
    rw [length_append,length_singleton] at hrounds
    obtain ⟨rounds,rfl⟩:=Nat.exists_eq_succ_of_ne_zero (n := rounds) (by omega)
    rw [fileOf_concat] at hs ⊢
    generalize hfile : fileOf chunks=file at hs ih ⊢
    have hl : (file++(c.body++toLittleEndian 8 file.length)).length =
        file.length+c.body.length+8 := by
      simp [Nat.add_assoc]
    rw [hl] at hs ⊢
    have he : ((file.length+c.body.length+8 : ℕ) : ℤ)-8=(file.length+c.body.length : ℕ) := by omega
    have hsplit : file++(c.body++toLittleEndian 8 file.length)++rest =
        file++(c.body++(toLittleEndian 8 file.length++rest)) := by simp
    have hf : readFile (file++(c.body++(toLittleEndian 8 file.length++rest)))
        (file.length+c.body.length) 8=(toLittleEndian 8 file.length,.okStatus) := by
      have hr:=@readFile_eq (file++c.body) (toLittleEndian 8 file.length) rest 0 8 (by simp)
      rw [append_assoc,length_append,Nat.add_zero,drop_zero,
        take_of_length_le (length_toLittleEndian 8 _).le] at hr
      exact hr
    have hchunk : toUnsigned (((file.length+c.body.length : ℕ) : ℤ)-file.length) =
        c.body.length := toUnsigned_eq (by omega) (by omega)
    have hb : file.length+c.body.length<2^63 := by omega
    have hr:=@readChunk_stored _ _ _ _ m _ _ (hstored c (by simp))
      (read_serves (toLittleEndian 8 file.length++rest) hb)
    rw [readChunks,if_neg (by omega),he,toUnsigned_eq rfl (by omega),hsplit,hf]
    simp only [int64FromHostEndianBytes_eq (show file.length<2^63 by omega),hchunk,hr]
    rw [if_neg (by simp [Status.okStatus]),reverse_append,reverse_singleton,singleton_append,
      foldlM_cons]
    cases m.add c.sts c.data with
    | error st => rfl
    | ok m' => exact ih (fun c hc => hstored c (mem_append_left _ hc)) (by omega) _ m' _ (by omega)

theorem addSlices_cases (added : List String) (t : List (String × Bytes)) (ha : added.Nodup) :
    (addSlices added t=.ok (added++t.map Prod.fst) ∧ (added++t.map Prod.fst).Nodup) ∨
    ∃ name,addSlices added t=.error (duplicate name) ∧ ¬ (added++t.map Prod.fst).Nodup := by
  induction t generalizing added with
  | nil => simpa [addSlices] using ha
  | cons slice t ih =>
    rw [addSlices,map_cons]
    split
    next hm => exact .inr ⟨slice.1,rfl,fun h => disjoint_of_nodup_append h hm (by simp)⟩
    next hnew =>
      rw [append_cons added slice.1 (t.map Prod.fst)]
      refine ih _ (nodup_append.mpr ⟨ha,nodup_singleton _,?_⟩)
      intro name hn other ho heq
      rw [heq,mem_singleton.mp ho] at hn
      exact hnew hn

theorem addChunks_cases (chunks : List (Chunk K)) (m : Merged K) (ha : m.slicesAdded.Nodup)
    (hq : m.queue.Pairwise Precedes) :
    (∃ m',chunks.foldlM (fun m c => m.add c.sts c.data) m=.ok m' ∧
      (m.slicesAdded++namesOf chunks).Nodup ∧
      m'.tensor=m.tensor++chunks.flatMap (·.sts.tensor) ∧
      m'.queue.Perm (m.queue++chunks.map (·.data)) ∧ m'.queue.Pairwise Precedes) ∨
    ∃ name,chunks.foldlM (fun m c => m.add c.sts c.data) m=.error (duplicate name) ∧
      ¬ (m.slicesAdded++namesOf chunks).Nodup := by
  induction chunks generalizing m with
  | nil => exact .inl ⟨m,rfl,by simpa [namesOf] using ha,by simp,by simp,hq⟩
  | cons c chunks ih =>
    have hn : m.slicesAdded++namesOf (c::chunks) =
        m.slicesAdded++c.sts.tensor.map Prod.fst++namesOf chunks := by simp [namesOf]
    rw [foldlM_cons,hn,Merged.add]
    rcases addSlices_cases m.slicesAdded c.sts.tensor ha with
      ⟨hok,hnodup⟩ | ⟨name,he,hd⟩
    · rw [hok,ok_bind,ok_bind]
      refine (ih _ hnodup (hq.orderedInsert c.data m.queue)).imp_left ?_
      rintro ⟨m',hm',hall,ht,hp,hs⟩
      refine ⟨m',hm',hall,by simp [ht],?_,hs⟩
      refine (hp.trans ((push_perm c.data m.queue).append_right _)).trans ?_
      exact perm_middle.symm
    · rw [he]
      exact .inr ⟨name,rfl,fun h => hd (nodup_append.mp h).1⟩

/-- With distinct slice names the merged table has the metadata of all chunks first and then all
their entries in the order of the keys; a name that occurs twice is refused. Nothing is written for
a file without chunks. A round for each chunk and one more are enough. -/
theorem merge_appended_chunks (hs : ∀ c∈chunks,c.Stored format)
    (hsize : (fileOf chunks).length<2^63) {rounds : ℕ} (hr : chunks.length<rounds) :
    (chunks=[] → loadAndMergeAppendedSlices format rounds (fileOf chunks)=.ok (.ok none)) ∧
    (chunks≠[] → (namesOf chunks).Nodup → ∃ versions entries,
      loadAndMergeAppendedSlices format rounds (fileOf chunks) =
        .ok (.ok (some ((kSavedTensorSlicesKey,
          format.serialize ⟨versions,chunks.reverse.flatMap (·.sts.tensor)⟩)::entries))) ∧
      entries.Perm (chunks.flatMap (·.data)) ∧ entries.Pairwise fun e e' => e.1≤e'.1) ∧
    (¬ (namesOf chunks).Nodup → ∃ name,
      loadAndMergeAppendedSlices format rounds (fileOf chunks)=.ok (.error (duplicate name))) := by
  by_cases hne : chunks=[]
  · subst hne
    exact ⟨fun _ => rfl,fun h => absurd rfl h,fun h => absurd nodup_nil h⟩
  have hf : fileOf chunks≠[] := by
    obtain ⟨init,c,rfl⟩:=eq_nil_or_concat chunks |>.resolve_left hne
    intro h
    have hl:=congrArg List.length h
    simp [fileOf_concat] at hl
  have hread:=readChunks_fileOf hs hsize [] {} hr
  rw [append_nil] at hread
  have hn : (namesOf chunks.reverse).Nodup ↔ (namesOf chunks).Nodup :=
    (List.Perm.flatMap_right _ (reverse_perm chunks)).nodup_iff
  rw [loadAndMergeAppendedSlices,if_neg hf,hread,ok_bind]
  refine ⟨fun h => absurd h hne,?_⟩
  rcases addChunks_cases chunks.reverse {} nodup_nil .nil with
    ⟨m,hm,hnodup,ht,hp,hq⟩ | ⟨name,herror,hd⟩
  · refine ⟨fun _ _ => ?_,fun h => absurd (hn.mp hnodup) h⟩
    have ha : ∀ i∈m.queue,i.Pairwise fun e e' => e.1≤e'.1 := by
      intro i hi
      obtain ⟨c,hc,rfl⟩:=mem_map.mp (hp.mem_iff.mp hi)
      exact (hs c (mem_reverse.mp hc)).ascending
    obtain ⟨he,hsorted⟩:=mergeEntries_spec m.queue hq ha
    rw [hm]
    simp only [ht]
    refine ⟨_,_,rfl,?_,hsorted⟩
    refine (he.trans hp.flatten).trans ?_
    rw [nil_append,← flatMap_def]
    exact List.Perm.flatMap_right _ (reverse_perm chunks)
  · refine ⟨fun _ h => absurd (hn.mpr h) hd,fun _ => ⟨name,?_⟩⟩
    rw [herror]

def sampleChunk (id : UInt8) (name : String) (data : List (ℕ × Bytes)) : Chunk ℕ :=
  ⟨[id],[id],⟨[],[(name,[])]⟩,data⟩

def sampleChunks : List (Chunk ℕ) :=
  [sampleChunk 1 "a" [(2,[5]),(4,[6])],sampleChunk 2 "b" [(3,[7])]]

def sampleFormat : Format ℕ where
  openTable read size := (sampleChunks.find? (·.body=(read 0 size).1)).map fun c =>
    (0,c.metadata)::c.data
  parse value := (sampleChunks.find? (·.metadata=value)).map (·.sts)
  serialize sts := [UInt8.ofNat sts.tensor.length]

theorem merge_two_chunks : ∃ versions entries,
    loadAndMergeAppendedSlices sampleFormat 3 (fileOf sampleChunks)=.ok (.ok (some ((0,
      sampleFormat.serialize ⟨versions,[("b",[]),("a",[])]⟩)::entries))) ∧
    entries.Perm [(2,[5]),(4,[6]),(3,[7])] ∧ entries.Pairwise fun e e' => e.1≤e'.1 := by
  have ho {c : Chunk ℕ} {read : Reader} (h : Serves read c.body) :
      (read 0 c.body.length).1=c.body := by
    rw [h 0 _ (by simp)]
    simp
  refine (merge_appended_chunks (fun c hc => ?_) (by decide) (by decide)).2.1 (by decide)
    (by decide)
  rcases mem_cons.mp hc with rfl | hc
  · exact ⟨fun read hr => by simp only [sampleFormat,ho hr]; rfl,rfl,by decide⟩
  · rcases mem_singleton.mp hc with rfl
    exact ⟨fun read hr => by simp only [sampleFormat,ho hr]; rfl,rfl,by decide⟩

/-- Nothing is written for a file without chunks. -/
theorem no_chunks_no_table :
    loadAndMergeAppendedSlices sampleFormat 1 (fileOf (K := ℕ) [])=.ok (.ok none) := rfl

end Fcp.Tensorflow

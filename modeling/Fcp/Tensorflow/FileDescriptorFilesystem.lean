import Fcp.Base.Monitoring

/-!
# Reads of the fd filesystem (tensorflow/file_descriptor_filesystem.cc)

The kernel answers each `pread` with some of the bytes that are left or with an error. The loop
takes its answers from a list and has not returned when the list ends first.
-/

namespace Fcp.Tensorflow.Fd

open List

inductive Answer where
  | bytes (more : ℕ)
  | error (errno : ℕ)

def eINTR : ℕ := 4

def eAGAIN : ℕ := 11

def eINVAL : ℕ := 22

/-- The offset is cast to the signed `off_t`, and a negative one is refused. -/
def pread (file : Bytes) (n offset : ℕ) : Answer → Except ℕ Bytes
  | .bytes more =>
    if offset<2^63 then .ok ((file.drop offset).take (min n (more+1))) else .error eINVAL
  | .error errno => .error errno

def retried (errno : ℕ) : Bool := errno=eINTR || errno=eAGAIN

def readBytesFromFd (file : Bytes) (offset n : ℕ) (dst : Bytes) :
    List Answer → Option (Status × Bytes)
  | [] => if n=0 then some (.okStatus,dst) else none
  | answer::answers =>
    if n=0 then some (.okStatus,dst)
    else match pread file n offset answer with
      | .ok [] => some (⟨.outOfRange,
          "Read fewer bytes than requested. Total read bytes "++toString offset⟩,dst)
      | .ok bytes =>
        readBytesFromFd file (offset+bytes.length) (n-bytes.length) (dst++bytes) answers
      | .error errno =>
        if retried errno then readBytesFromFd file offset n dst answers
        else some (⟨.unknown,"Failed to read: errno "++toString errno⟩,dst)

/-- `FdRandomAccessFile::Read` with the value that `*result` has before it. -/
def read (file : Bytes) (offset n : ℕ) (result : Bytes) (answers : List Answer) :
    Option (Status × Bytes) :=
  (readBytesFromFd file offset n [] answers).map fun (s,sv) =>
    if s.isOk then (.okStatus,sv) else (s,result)

def requested (file : Bytes) (offset n : ℕ) : Bytes := (file.drop offset).take n

def contractCode (file : Bytes) (offset n : ℕ) : StatusCode :=
  if (requested file offset n).length=n then .ok else .outOfRange

/-- What is demanded of a read whose `pread`s do not fail. -/
structure Contract (file : Bytes) (offset n : ℕ) (status : Status) (result : Bytes) : Prop where
  bytes : result=requested file offset n
  code : status.code=contractCode file offset n

/-- An answer that is not followed by the same request. -/
def Answer.settles : Answer → Bool
  | .bytes _ => true
  | .error errno => !retried errno

/-- Some `pread` may fail for good. -/
def MayFail (offset : ℕ) (answers : List Answer) : Prop :=
  2^63≤offset ∨ ∃ errno,Answer.error errno∈answers ∧ ¬retried errno

/-- A `pread` of the loop fails for good, with bytes of the request still to be read. -/
def meetsError (file : Bytes) (offset n : ℕ) : List Answer → Bool
  | [] => false
  | answer::answers => n≠0 &&
    match pread file n offset answer with
    | .ok [] => false
    | .ok bytes => meetsError file (offset+bytes.length) (n-bytes.length) answers
    | .error errno => !retried errno || meetsError file offset n answers

variable {file : Bytes} {ans : List Answer} {off n : ℕ}

theorem requested_eq_append {k : ℕ} (hk : k≤n) : requested file off n=
    requested file off k ++ requested file (off+(requested file off k).length)
      (n-(requested file off k).length) := by
  have hlen : (requested file off k).length=min k (file.drop off).length := length_take
  have hs : requested file off k=(file.drop off).take (requested file off k).length :=
    take_eq_take_iff.mpr (by omega)
  obtain ⟨left,hl⟩:=Nat.exists_eq_add_of_le (hlen.trans_le ((Nat.min_le_left ..).trans hk))
  generalize (requested file off k).length=i at *
  rw [hs,hl,requested,requested,take_add,drop_drop,Nat.add_sub_cancel_left]

theorem pread_eq_ok {answer : Answer} {bytes : Bytes} (hn : n≠0)
    (h : pread file n off answer=.ok bytes) : answer.settles=true ∧ off<2^63 ∧
      ∃ k,0<k ∧ k≤n ∧ bytes=requested file off k := by
  cases answer with
  | error errno => cases h
  | bytes more =>
    rw [pread] at h
    split at h
    next ho =>
      cases h
      exact ⟨rfl,ho,_,Nat.lt_min.mpr ⟨Nat.pos_of_ne_zero hn,Nat.succ_pos _⟩,Nat.min_le_left ..,rfl⟩
    next => cases h

theorem pread_eq_error {answer : Answer} {errno : ℕ} (h : pread file n off answer=.error errno) :
    (2^63≤off ∧ errno=eINVAL) ∨ answer=.error errno := by
  cases answer with
  | error errno =>
    cases h
    exact .inr rfl
  | bytes more =>
    rw [pread] at h
    split at h
    next => cases h
    next ho =>
      cases h
      exact .inl ⟨Nat.not_lt.mp ho,rfl⟩

theorem mayFail_cons {answer : Answer} (h : MayFail off ans) : MayFail off (answer::ans) :=
  h.imp_right fun ⟨errno,hm,hf⟩ => ⟨errno,mem_cons_of_mem _ hm,hf⟩

theorem readBytesFromFd_eq (hfile : file.length<2^63) (hn : n<ans.countP Answer.settles)
    (dst : Bytes) : ∃ st bytes,readBytesFromFd file off n dst ans=some (st,bytes) ∧
      if meetsError file off n ans then MayFail off ans ∧ st.code=.unknown
      else bytes=dst++requested file off n ∧ st.code=contractCode file off n := by
  induction ans generalizing off n dst with
  | nil => simp at hn
  | cons answer ans ih =>
    rw [readBytesFromFd,meetsError]
    rw [countP_cons] at hn
    split
    next hz =>
      subst hz
      exact ⟨_,_,rfl,by simp [requested,contractCode,Status.okStatus]⟩
    next hp =>
      rw [decide_eq_true hp,Bool.true_and]
      split
      next hread =>
        -- End of file: nothing of the request is left.
        obtain ⟨-,-,k,hk,-,he⟩:=pread_eq_ok hp hread
        have hnone : requested file off n=[] := by
          rw [requested,(take_eq_nil_iff.mp he.symm).resolve_left hk.ne',take_nil]
        rw [contractCode,hnone]
        exact ⟨_,_,rfl,(append_nil dst).symm,(if_neg (Ne.symm hp)).symm⟩
      next bytes hb hread =>
        obtain ⟨hs,hlow,k,-,hk,rfl⟩:=pread_eq_ok hp hread
        have hposition:=length_pos_iff.mpr hb
        have hl : (requested file off k).length=min k (file.length-off) := by
          rw [requested,length_take,length_drop]
        rw [if_pos hs] at hn
        rw [contractCode,requested_eq_append hk,← append_assoc,length_append]
        generalize requested file off k=bytes at *
        obtain ⟨st,result,heq,hc⟩ := @ih (off+bytes.length) (n-bytes.length) (by omega) (dst++bytes)
        refine ⟨st,result,heq,?_⟩
        split
        next hm =>
          rw [if_pos hm] at hc
          refine hc.imp_left fun hf => mayFail_cons (hf.imp_left fun hbeyond => ?_)
          omega
        next hm =>
          rw [if_neg hm] at hc
          refine hc.imp_right fun hcode => hcode.trans (if_congr ?_ rfl rfl)
          omega
      next errno hread =>
        split
        next hr =>
          simp only [hr,Bool.not_true,Bool.false_or]
          rcases pread_eq_error hread with ⟨-,rfl⟩ | rfl
          · cases hr
          · obtain ⟨st,bytes,heq,hc⟩:=ih (by simpa [Answer.settles,hr] using hn) dst
            refine ⟨st,bytes,heq,?_⟩
            split
            next hm =>
              rw [if_pos hm] at hc
              exact hc.imp_left mayFail_cons
            next hm => rwa [if_neg hm] at hc
        next hr =>
          rw [Bool.not_eq_true] at hr
          simp only [hr,Bool.not_false,Bool.true_or,if_true]
          refine ⟨_,_,rfl,?_,rfl⟩
          rcases pread_eq_error hread with ⟨ho,-⟩ | rfl
          · exact .inl ho
          · exact .inr ⟨errno,mem_cons_self,by rw [hr]; decide⟩

/-- A read ends however the kernel splits it, unless only `EINTR` and `EAGAIN` come. An error that
it meets gives UNKNOWN. Without one the status is right, and the contract is kept exactly if all
bytes are there or `*result` is right before the call. -/
theorem read_contract_iff (hfile : file.length<2^63) (hn : n<ans.countP Answer.settles)
    (result : Bytes) : ∃ status result',read file off n result ans=some (status,result') ∧
      if meetsError file off n ans then
        MayFail off ans ∧ status.code=.unknown ∧ result'=result
      else status.code=contractCode file off n ∧ (Contract file off n status result' ↔
          (requested file off n).length=n ∨ result=requested file off n) := by
  obtain ⟨status,bytes,heq,hc⟩:=@readBytesFromFd_eq file ans off n hfile hn []
  rw [read,heq]
  split
  next hm =>
    rw [if_pos hm] at hc
    obtain ⟨hf,hcode⟩:=hc
    exact ⟨status,result,by simp [Status.isOk,hcode],hf,hcode,rfl⟩
  next hm =>
    rw [if_neg hm] at hc
    obtain ⟨rfl,hcode⟩:=hc
    by_cases ha : (requested file off n).length=n
    · have hok : status.code=.ok := hcode.trans (if_pos ha)
      refine ⟨.okStatus,requested file off n,by simp [Status.isOk,hok],(if_pos ha).symm,?_⟩
      exact ⟨fun _ => .inl ha,fun _ => ⟨rfl,(if_pos ha).symm⟩⟩
    · have ho : status.code=.outOfRange := hcode.trans (if_neg ha)
      refine ⟨status,result,by simp [Status.isOk,ho],hcode,?_⟩
      exact ⟨fun h => .inr h.bytes,fun h => ⟨h.resolve_left ha,hcode⟩⟩

theorem read_in_two_pieces : ∃ status result',
    read [1,2,3,4] 1 3 [] [.bytes 0,.error eINTR,.bytes 5,.bytes 0,.bytes 0]=some (status,result') ∧
      Contract [1,2,3,4] 1 3 status result' := by
  obtain ⟨status,result',heq,hc⟩:=@read_contract_iff [1,2,3,4]
    [.bytes 0,.error eINTR,.bytes 5,.bytes 0,.bytes 0] 1 3 (by decide) (by decide) []
  exact ⟨status,result',heq,hc.2.mpr (.inl rfl)⟩

/-- Three bytes of a file of two: the status is right, but the two bytes are not returned. -/
theorem short_read_lost : ∃ status,
    read [1,2] 0 3 [] [.bytes 9,.bytes 9]=some (status,[]) ∧ status.code=.outOfRange ∧
      requested [1,2] 0 3=[1,2] :=
  ⟨_,rfl,rfl,rfl⟩

end Fcp.Tensorflow.Fd

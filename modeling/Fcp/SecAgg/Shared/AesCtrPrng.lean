import Fcp.Lib.Run
import Fcp.SecAgg.Shared.MapOfMasks

/-!
# The budget of a generator (shared/aes_ctr_prng.cc)

The blocks generated so far are compared with `kMaxBlocks` before a batch of up to a whole cache.
-/

namespace Fcp.SecAgg

open List

structure AesCtrPrng where
  /-- The blocks that the cipher context has put out. -/
  ctx : ℕ
  cache : Bytes
  nextBytePos : ℕ
  blocksGenerated : ℕ

namespace AesCtrPrng

inductive Call where
  | rand8
  | rand64
  | randBuffer (bufferSize : ℤ)

/-- The members `cache_` are not initialised. -/
def create (cache : Bytes) : AesCtrPrng := ⟨0,cache,kCacheSize,0⟩

variable (stream : ℕ → UInt8)

/-- `EVP_EncryptUpdate` refuses a negative size. -/
def generateBytes (s : AesCtrPrng) (cacheSize : ℤ) : Checked (Bytes × AesCtrPrng) := do
  fcpCheck (cacheSize%kBlockSize=0)
  fcpCheck (cacheSize≤kCacheSize)
  fcpCheck (s.blocksGenerated≤kMaxBlocks)
  fcpCheck (0≤cacheSize)
  let blocks := cacheSize.toNat/kBlockSize
  .ok ((range cacheSize.toNat).map fun i => stream (kBlockSize*s.ctx+i),
    { s with ctx := s.ctx+blocks,blocksGenerated := s.blocksGenerated+blocks })

def refill (s : AesCtrPrng) : Checked AesCtrPrng :=
  if kCacheSize ≤ s.nextBytePos then do
    let (cache,s) ← generateBytes stream s kCacheSize
    .ok { s with cache := cache,nextBytePos := 0 }
  else .ok s

def rand8 (s : AesCtrPrng) : Checked (UInt8 × AesCtrPrng) := do
  let s ← refill stream s
  let byte ← elementAt s.cache s.nextBytePos
  .ok (byte,{ s with nextBytePos := s.nextBytePos+1 })

/-- The loop of `Rand64`, with the number of iterations left. -/
def rand64Loop (s : AesCtrPrng) (output : ℕ) : ℕ → Checked (ℕ × AesCtrPrng)
  | 0 => .ok (output,s)
  | left+1 => do
    let (byte,s) ← rand8 stream s
    rand64Loop s (output ||| byte.toNat <<< (8*(7-left))) left

def rand64 (s : AesCtrPrng) : Checked (ℕ × AesCtrPrng) := rand64Loop stream s 0 8

def randBuffer (s : AesCtrPrng) (bufferSize : ℤ) : Checked (Bytes × AesCtrPrng) :=
  generateBytes stream s (min bufferSize kCacheSize)

def step (s : AesCtrPrng) : Call → Checked AesCtrPrng
  | .rand8 => (rand8 stream s).map Prod.snd
  | .rand64 => (rand64 stream s).map Prod.snd
  | .randBuffer bufferSize => (randBuffer stream s bufferSize).map Prod.snd

/-- A request for a number of bytes that is a multiple of the block size. -/
def Call.Whole : Call → Prop
  | .randBuffer bufferSize => 0≤bufferSize ∧ bufferSize%kBlockSize=0
  | _ => True

/-- The blocks that a loop of `Rand8` has to generate. -/
def bytesDemand (s : AesCtrPrng) (n : ℕ) : ℕ :=
  if kCacheSize<s.nextBytePos+n then kCacheSize/kBlockSize else 0

def demand (s : AesCtrPrng) : Call → ℕ
  | .rand8 => bytesDemand s 1
  | .rand64 => bytesDemand s 8
  | .randBuffer bufferSize => (min bufferSize kCacheSize).toNat/kBlockSize

/-- A call within the budget of one seed. -/
structure Budgeted (s : AesCtrPrng) (call : Call) : Prop where
  before : s.ctx≤kMaxBlocks
  after : ∀ s',step stream s call=.ok s' → s'.ctx≤kMaxBlocks
  refused : kMaxBlocks<s.ctx+demand s call → step stream s call=.error .check

structure Sound (s : AesCtrPrng) : Prop where
  counted : s.blocksGenerated=s.ctx
  position : s.nextBytePos≤kCacheSize
  cached : s.nextBytePos<kCacheSize → s.cache.length=kCacheSize
  bound : s.ctx≤kMaxBlocks+kCacheSize/kBlockSize

def nextPosition (s : AesCtrPrng) (n : ℕ) : ℕ :=
  if kCacheSize<s.nextBytePos+n then s.nextBytePos+n-kCacheSize else s.nextBytePos+n

def Spends {α : Type} (s : AesCtrPrng) (n : ℕ) (r : Checked (α × AesCtrPrng)) : Prop :=
  (r=.error .check ∧ 0<bytesDemand s n ∧ kMaxBlocks<s.ctx) ∨
    ∃ a s',r=.ok (a,s') ∧ Sound s' ∧ s'.ctx=s.ctx+bytesDemand s n ∧ s'.nextBytePos=nextPosition s n

variable {s s' : AesCtrPrng}

theorem generateBytes_cases {size : ℕ} (hs : Sound s) (hw : size%kBlockSize=0)
    (hsize : size≤kCacheSize) :
    (generateBytes stream s size=.error .check ∧ kMaxBlocks<s.ctx) ∨ ∃ bs : Bytes,
      bs.length=size ∧ s.ctx≤kMaxBlocks ∧ generateBytes stream s size=.ok (bs,{ s with
        ctx := s.ctx+size/kBlockSize,blocksGenerated := s.blocksGenerated+size/kBlockSize }) := by
  have hz : (size : ℤ)%kBlockSize=0 := by exact_mod_cast hw
  rcases Nat.lt_or_ge kMaxBlocks s.ctx with hu | hu
  · refine .inl ⟨?_,hu⟩
    simp [generateBytes,hs.counted,hz,hsize,Nat.not_le.mpr hu]
  · refine .inr ⟨(range size).map fun i => stream (kBlockSize*s.ctx+i),by simp,hu,?_⟩
    simp [generateBytes,hs.counted,hz,hsize,hu]

theorem exists_elementAt {bs : Bytes} {i : ℕ} (h : i<bs.length) : ∃ byte,elementAt bs i=.ok byte :=
  ⟨bs[i],elementAt_eq_ok.mpr (getElem?_eq_getElem h)⟩

theorem rand8_spends (hs : Sound s) : Spends s 1 (rand8 stream s) := by
  by_cases hp : kCacheSize ≤ s.nextBytePos
  · have hd : bytesDemand s 1=kCacheSize/kBlockSize := if_pos (Nat.lt_succ_of_le hp)
    rw [Spends,rand8,refill,if_pos hp,hd]
    rcases generateBytes_cases stream hs rfl le_rfl with ⟨heq,hu⟩ | ⟨bs,hl,hu,heq⟩
    · exact .inl ⟨by rw [heq]; rfl,by decide,hu⟩
    · obtain ⟨byte,hb⟩:=exists_elementAt (hl.symm ▸ (by decide : 0<kCacheSize))
      refine .inr ⟨byte,_,by rw [heq]; simp only [ok_bind,hb]; rfl,?_,rfl,?_⟩
      · exact ⟨congrArg (·+_) hs.counted,(by decide : 1≤kCacheSize),fun _ => hl,
          Nat.add_le_add_right hu _⟩
      · rw [nextPosition,if_pos (Nat.lt_succ_of_le hp),Nat.le_antisymm hs.position hp]
        rfl
  · have hlt:=Nat.not_le.mp hp
    obtain ⟨byte,hb⟩:=exists_elementAt (hs.cached hlt ▸ hlt)
    rw [Spends,rand8,refill,if_neg hp]
    refine .inr ⟨byte,_,by simp only [ok_bind,hb]; rfl,?_,?_,?_⟩
    · exact ⟨hs.counted,hlt,fun _ => hs.cached hlt,hs.bound⟩
    · rw [bytesDemand,if_neg (Nat.not_lt.mpr hlt)]
      rfl
    · exact (if_neg (Nat.not_lt.mpr hlt)).symm

theorem bytesDemand_succ {n : ℕ} (hn : n≤8) (hs : Sound s)
    (hnext : s'.nextBytePos=nextPosition s 1) :
    bytesDemand s (n+1)=bytesDemand s 1+bytesDemand s' n ∧
      (bytesDemand s 1=0 ∨ bytesDemand s' n=0) ∧ nextPosition s (n+1)=nextPosition s' n := by
  have hp:=hs.position
  have hl : 8<kCacheSize := by decide
  rw [nextPosition] at hnext
  simp only [bytesDemand,nextPosition]
  split at hnext <;> split_ifs <;> omega

theorem rand64Loop_spends {n : ℕ} (hn : n≤8) (hs : Sound s) (out : ℕ) :
    Spends s n (rand64Loop stream s out n) := by
  induction n generalizing s out with
  | zero =>
    have hf : ¬kCacheSize<s.nextBytePos+0 := Nat.not_lt.mpr hs.position
    exact .inr ⟨out,s,rfl,hs,by rw [bytesDemand,if_neg hf]; rfl,(if_neg hf).symm⟩
  | succ n ih =>
    rw [rand64Loop]
    rcases rand8_spends stream hs with ⟨heq,ho,hu⟩ | ⟨byte,s',heq,hs',hc,hnext⟩
    · refine .inl ⟨by rw [heq]; rfl,?_,hu⟩
      rw [(@bytesDemand_succ _ { s with nextBytePos := _ } n (Nat.le_of_succ_le hn) hs rfl).1]
      exact Nat.add_pos_left ho _
    · obtain ⟨hsum,he,hl⟩ := bytesDemand_succ (Nat.le_of_succ_le hn) hs hnext
      rw [heq]
      rcases ih (Nat.le_of_succ_le hn) hs' (out ||| byte.toNat <<< (8*(7-n))) with
        ⟨heq',hm,hu⟩ | ⟨a,s'',heq',hs'',hc',hn'⟩
      · exact .inl ⟨heq',by omega,by omega⟩
      · exact .inr ⟨a,s'',heq',hs'',by omega,by rw [hn',hl]⟩

theorem Spends.map {α : Type} {n : ℕ} {r : Checked (α × AesCtrPrng)} (h : Spends s n r) :
    (r.map Prod.snd=.error .check ∧ kMaxBlocks<s.ctx) ∨ ∃ s',r.map Prod.snd=.ok s' ∧
      Sound s' ∧ s'.ctx=s.ctx+bytesDemand s n := by
  rcases h with ⟨heq,-,hu⟩ | ⟨a,s',heq,hs,hc,-⟩
  · exact .inl ⟨by rw [heq]; rfl,hu⟩
  · exact .inr ⟨s',by rw [heq]; rfl,hs,hc⟩

theorem step_cases (hs : Sound s) {call : Call} (hc : call.Whole) :
    (step stream s call=.error .check ∧ kMaxBlocks<s.ctx) ∨ ∃ s',step stream s call=.ok s' ∧
      Sound s' ∧ s'.ctx=s.ctx+demand s call := by
  cases call with
  | rand8 => exact (rand8_spends stream hs).map
  | rand64 => exact (rand64Loop_spends stream le_rfl hs 0).map
  | randBuffer bufferSize =>
    obtain ⟨size,hsize,hw,hle⟩ : ∃ size : ℕ,min bufferSize kCacheSize=size ∧
        size%kBlockSize=0 ∧ size≤kCacheSize := by
      obtain ⟨hn,hw⟩:=hc
      simp only [kBlockSize,kCacheSize] at hw ⊢
      exact ⟨(min bufferSize (3*5*7*16 : ℕ)).toNat,by omega⟩
    rw [step,randBuffer,demand,hsize]
    rcases generateBytes_cases stream hs hw hle with ⟨heq,hu⟩ | ⟨bs,-,hu,heq⟩
    · exact .inl ⟨by rw [heq]; rfl,hu⟩
    · refine .inr ⟨_,by rw [heq]; rfl,?_,rfl⟩
      exact ⟨congrArg (·+_) hs.counted,hs.position,hs.cached,
        Nat.add_le_add hu (Nat.div_le_div_right hle)⟩

variable {stream} {cache : Bytes} {hist : List (AesCtrPrng × Call)}

theorem sound_of_run (hr : Run (step stream) (create cache) hist s)
    (hw : ∀ entry∈hist,entry.2.Whole) : Sound s := by
  refine hr.invariant (G := fun _ call => call.Whole) (P := fun _ s => Sound s) hw ?_ ?_
  · exact ⟨rfl,le_rfl,fun h => absurd h (Nat.lt_irrefl _),Nat.zero_le _⟩
  · intro hist s s' call hs hc hstep
    rcases step_cases stream hs hc with ⟨heq,-⟩ | ⟨s'',heq,hs'',-⟩
    · cases heq.symm.trans hstep
    · cases heq.symm.trans hstep
      exact hs''

/-- After any calls the blocks are counted, and at most one batch is beyond the budget; a call is
within the budget exactly if the blocks that it needs are. -/
theorem budgeted_iff (hr : Run (step stream) (create cache) hist s)
    (hw : ∀ entry∈hist,entry.2.Whole) {call : Call} (hcall : call.Whole) :
    s.blocksGenerated=s.ctx ∧ s.ctx≤kMaxBlocks+kCacheSize/kBlockSize ∧
      (Budgeted stream s call ↔ s.ctx+demand s call≤kMaxBlocks) := by
  have hs:=sound_of_run hr hw
  refine ⟨hs.counted,hs.bound,?_⟩
  rcases step_cases stream hs hcall with ⟨heq,hu⟩ | ⟨s',heq,-,hc⟩
  · exact ⟨fun h => absurd h.before (Nat.not_le.mpr hu),fun h => by omega⟩
  · constructor
    · intro h
      rw [← hc]
      exact h.after s' heq
    · intro h
      refine ⟨by omega,fun s'' hstep => ?_,fun he => absurd h (Nat.not_le.mpr he)⟩
      cases heq.symm.trans hstep
      rwa [hc]

theorem exists_full_batches (stream : ℕ → UInt8) (n : ℕ)
    (h : n*(kCacheSize/kBlockSize)≤kMaxBlocks+kCacheSize/kBlockSize) :
    ∃ hist s,Run (step stream) (create []) hist s ∧
      (∀ entry∈hist,entry.2=.randBuffer kCacheSize) ∧ s.ctx=n*(kCacheSize/kBlockSize) := by
  induction n with
  | zero => exact ⟨[],_,.nil,by simp,by simp [create]⟩
  | succ n ih =>
    rw [Nat.succ_mul] at h
    have hu:=Nat.le_of_add_le_add_right h
    obtain ⟨hist,s,hr,ha,hc⟩:=ih (Nat.le_add_right_of_le hu)
    have hcall : (Call.randBuffer kCacheSize).Whole := ⟨by decide,by decide⟩
    have hs:=sound_of_run hr fun entry he => ha entry he ▸ hcall
    rcases step_cases stream hs hcall with ⟨-,hm⟩ | ⟨s',hstep,-,hc'⟩
    · omega
    · refine ⟨_,s',.snoc hr hstep,forall_mem_append.mpr ⟨ha,forall_mem_singleton.mpr rfl⟩,?_⟩
      rw [hc',hc,Nat.succ_mul]
      rfl

/-- A full batch more would be beyond the budget. -/
theorem budgeted_after_batches :
    ∃ s : AesCtrPrng,s.ctx=40904449*105 ∧ Budgeted (fun _ => 0) s .rand64 := by
  obtain ⟨hist,s,hr,ha,hc⟩:=exists_full_batches (fun _ => 0) 40904449 (by decide)
  have hw : ∀ entry∈hist,entry.2.Whole := by
    intro entry he
    rw [ha entry he]
    exact ⟨by decide,by decide⟩
  have hcall : Call.rand64.Whole := trivial
  refine ⟨s,hc,(budgeted_iff hr hw hcall).2.2.mpr ?_⟩
  · have hd : bytesDemand s 8≤kCacheSize/kBlockSize := by
      unfold bytesDemand
      split
      · exact le_rfl
      · exact Nat.zero_le _
    rw [hc]
    exact (Nat.add_le_add_left hd _).trans (by decide)

/-- The batch after 40904450 full ones is generated, 60 blocks beyond the budget. -/
theorem batch_beyond_budget : ∃ hist s,Run (step fun _ => 0) (create []) hist s ∧
      (∀ entry∈hist,entry.2=.randBuffer kCacheSize) ∧ s.ctx=kMaxBlocks+60 :=
  exists_full_batches _ 40904451 (by decide)

end AesCtrPrng

end Fcp.SecAgg

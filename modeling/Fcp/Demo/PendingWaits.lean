import Fcp.Demo.UploadRelease
import Mathlib.Data.List.Nodup

/-!
# Waits on a session

The future of a wait is resolved or still to be resolved, and never both.
-/

namespace Fcp.Demo

open List Session

def Ending.isResolving : Ending → Bool
  | .resolving _ _ => true
  | .clearingWaits => true
  | _ => false

namespace Session

/-- The handlers whose futures the session, or the clean-up of it, has still to resolve. -/
def unresolved (s : Session) : List ℕ :=
  match s.ending with
  | .resolving _ left => left
  | .clearingWaits => []
  | .returned => []
  | _ => s.pendingWaits.map WaitData.handler

def futures (s : Session) : List ℕ := s.resolved++s.unresolved

/-- The session has failed while it is listed, or the handler that ends it has returned. -/
def Settled (s : Session) : Prop := s.ending=.listed ∧ s.status≠.pending ∨ s.ending=.returned

end Session

/-- A wait is not registered after the aggregation has failed, and no handler looks for satisfied
waits while the clean-up resolves them. -/
def isServed (s : Session) : SessionEvent → Bool
  | .call (.wait (some _)) => !s.isListed || s.status=.pending
  | .proceed h _ _ => !s.ending.isResolving || s.handlers[h]?≠some .notifying
  | _ => true

structure Waiting (s : Session) : Prop where
  nodup : s.futures.Nodup
  awaited : ∀ h,s.handlers[h]?=some .awaiting → h∈s.futures
  called : ∀ h∈s.futures,h<s.handlers.length
  sized : ∀ size left,s.ending=.resolving size left → s.pendingWaits.length=size
  failed : s.ending=.listed → s.status≠.pending → s.pendingWaits=[]
  smooth : s.ending≠.raised
  emptied : s.ending=.returned → s.pendingWaits=[]

variable {s s' : Session} {h : ℕ} {p q : Point} {minimum : ℤ} {e : SessionEvent}

theorem Session.unresolved_eq (s : Session) (hn : s.ending.isResolving=false)
    (hr : s.ending≠.returned) : s.unresolved=s.pendingWaits.map WaitData.handler := by
  unfold unresolved
  cases he : s.ending <;> simp_all [Ending.isResolving]

theorem Waiting.move (hs : Waiting s) (hf : s'.futures.Perm s.futures)
    (ha : ∀ h : ℕ,s'.handlers[h]?=some Point.awaiting → s.handlers[h]?=some Point.awaiting)
    (hl : s.handlers.length ≤ s'.handlers.length)
    (hsized : ∀ size left,s'.ending=.resolving size left → s'.pendingWaits.length=size)
    (hfair : s'.ending=.listed → s'.status≠.pending → s'.pendingWaits=[])
    (hsmooth : s'.ending≠.raised) (he : s'.ending=.returned → s'.pendingWaits=[]) : Waiting s' := by
  refine ⟨hf.nodup_iff.mpr hs.nodup,fun h hh => ?_,fun h hh => ?_,hsized,hfair,hsmooth,he⟩
  · exact hf.mem_iff.mpr (hs.awaited h (ha h hh))
  · exact (hs.called h (hf.mem_iff.mp hh)).trans_le hl

variable {handlers : List Point} {i : ℕ}

theorem awaiting_of_set (hq : q≠.awaiting)
    (hset : (handlers.set h q)[i]?=some .awaiting) : handlers[i]?=some .awaiting := by
  rw [getElem?_set] at hset
  split at hset
  · split at hset <;> cases hset
    exact absurd rfl hq
  · exact hset

theorem awaiting_of_append (hn : (handlers++[p])[i]?=some .awaiting) :
    handlers[i]?=some .awaiting ∨ i=handlers.length ∧ p=.awaiting := by
  rw [getElem?_append] at hn
  split at hn
  · exact .inl hn
  · obtain ⟨hlt,heq⟩:=List.getElem?_eq_some_iff.mp hn
    rw [length_singleton] at hlt
    rw [getElem_singleton] at heq
    exact .inr ⟨by omega,heq⟩

section

variable (hs : Waiting s)
include hs

section

variable (hsame : (s'.resolved,s'.pendingWaits,s'.ending,s'.status) =
  (s.resolved,s.pendingWaits,s.ending,s.status))
include hsame

theorem Waiting.frame
    (ha : ∀ h : ℕ,s'.handlers[h]?=some Point.awaiting → s.handlers[h]?=some Point.awaiting)
    (hl : s.handlers.length ≤ s'.handlers.length) : Waiting s' := by
  simp only [Prod.mk.injEq] at hsame
  obtain ⟨hr,hw,he,hstatus⟩:=hsame
  refine hs.move (.of_eq ?_) ha hl ?_ ?_ ?_ ?_
  · simp only [futures,unresolved,hr,hw,he]
  · rw [he,hw]
    exact hs.sized
  · rw [he,hw,hstatus]
    exact hs.failed
  · rw [he]
    exact hs.smooth
  · rw [he,hw]
    exact hs.emptied

theorem Waiting.goOn (hset : s'.handlers=s.handlers.set h q) (hq : q≠.awaiting) : Waiting s' := by
  refine hs.frame hsame ?_ ?_ <;> rw [hset]
  · exact fun i => awaiting_of_set hq
  · rw [length_set]

theorem Waiting.call (hn : s'.handlers=s.handlers++[p]) (hp : p≠.awaiting) : Waiting s' := by
  refine hs.frame hsame ?_ ?_ <;> rw [hn]
  · exact fun i hi => (awaiting_of_append hi).resolve_right fun h => hp h.2
  · rw [length_append]
    exact Nat.le_add_right _ _

end

theorem Waiting.wait {n : ℤ} (hl : s.ending=.listed) (hstatus : s.status=.pending) :
    Waiting ({ s with pendingWaits := s.pendingWaits++[WaitData.mk s.handlers.length n] }.call
      .awaiting) := by
  have hfutures : ({ s with pendingWaits := s.pendingWaits++[WaitData.mk s.handlers.length n] }.call
      .awaiting).futures=s.futures++[s.handlers.length] := by
    simp [Session.futures,Session.unresolved,Session.call,hl]
  refine ⟨?_,?_,?_,by simp [Session.call,hl],fun _ hf => absurd hstatus hf,hs.smooth,
    by simp [Session.call,hl]⟩ <;> rw [hfutures]
  · refine (perm_append_singleton _ _).nodup_iff.mpr (nodup_cons.mpr ⟨fun hm => ?_,hs.nodup⟩)
    exact (hs.called _ hm).false
  · intro i hi
    rcases awaiting_of_append hi with hi | ⟨rfl,-⟩
    · exact mem_append_left _ (hs.awaited i hi)
    · exact mem_append_right _ (mem_singleton_self _)
  · intro i hi
    rw [Session.call,length_append,length_singleton]
    rcases mem_append.mp hi with hi | hi
    · exact (hs.called i hi).trans (Nat.lt_succ_self _)
    · rw [mem_singleton.mp hi]
      exact Nat.lt_succ_self _

theorem Waiting.notify (hn : s.ending.isResolving=false) : Waiting ({ s with
      resolved := s.resolved++(s.pendingWaits.filter s.isSatisfied).map WaitData.handler
      pendingWaits := s.pendingWaits.filter (!s.isSatisfied ·) }.goOn h .returned) := by
  have hf {q : WaitData → Bool} (h : s.pendingWaits=[]) : s.pendingWaits.filter q=[] := by
    rw [h]
    rfl
  refine hs.move ?_ (fun i => awaiting_of_set nofun) length_set.ge ?_
    (fun hl hfair => hf (hs.failed hl hfair)) hs.smooth (fun hr => hf (hs.emptied hr))
  · by_cases hr : s.ending=.returned
    · simp [Session.futures,Session.unresolved,Session.goOn,hr,hs.emptied hr]
    · have ha (t : Session) (ht : t.ending=s.ending) :
          t.unresolved=t.pendingWaits.map WaitData.handler :=
        t.unresolved_eq (ht ▸ hn) (ht ▸ hr)
      rw [Session.futures,Session.futures,ha s rfl,ha]
      · simp only [Session.goOn,append_assoc,← map_append]
        exact ((filter_append_perm _ _).map _).append_left _
      · rfl
  · intro size left hrest
    rw [show s.ending=.resolving size left from hrest] at hn
    cases hn

theorem Waiting.enter {req : Request} (hserved : isServed s (.call req)) :
    Waiting (s.enter req) := by
  have ht {ending : Ending} (he : ending=.completing ∨ ending=.aborting) :
      Waiting (s.take ending) := by
    unfold Session.take
    split
    next hl =>
      have hl:=of_decide_eq_true hl
      rcases he with rfl | rfl <;> exact hs.move
        (by simp [Session.futures,Session.unresolved,hl]) (fun _ => id) le_rfl (by simp) (by simp)
        (by simp) (by simp)
    next => exact hs.call rfl rfl (by simp)
  cases req with
  | wait n =>
    cases n with
    | none => exact hs.call rfl rfl (by simp)
    | some n =>
      simp only [Session.enter]
      split
      next hn =>
        rw [isServed,hn.1] at hserved
        exact hs.wait (of_decide_eq_true hn.1) (of_decide_eq_true hserved)
      next => exact hs.call rfl rfl (by simp)
  | submitAggregationResult _ _ | abortAggregation _ =>
    simp only [Session.enter,Session.takeClient]
    split <;> exact hs.call rfl rfl (by simp)
  | completeSession => exact ht (.inl rfl)
  | abortSession => exact ht (.inr rfl)
  | preAuthorizeClients _ | startAggregationDataUpload _ =>
    simp only [Session.enter]
    split <;> exact hs.call rfl rfl (by simp)

theorem Waiting.proceed {uuid : String} {accepted : Bool}
    (hp : s.handlers[h]?=some p) (hserved : isServed s (.proceed h uuid accepted))
    (hstep : s.proceed h uuid accepted p=.ok s') : Waiting s' := by
  cases p <;> simp only [proceed] at hstep
  case awaiting | returned => cases hstep
  case adding | taking | registering | inserting | checking =>
    split at hstep <;> cases hstep <;> exact hs.goOn rfl rfl (by simp)
  case receiving =>
    split at hstep
    next =>
      cases hstep
      exact hs.goOn rfl rfl (by simp)
    next => split at hstep <;> cases hstep <;> exact hs.goOn rfl rfl (by simp)
  case finalizing =>
    cases hstep
    refine hs.goOn rfl rfl ?_
    split <;> simp
  case releasing | closing =>
    cases hstep
    exact hs.goOn rfl rfl (by simp)
  case notifying =>
    cases hstep
    rw [isServed,hp] at hserved
    exact hs.notify (by simpa using hserved)

theorem Waiting.goEnding (hf : s'.futures=s.futures)
    (hsized : ∀ size left,s'.ending=.resolving size left → s'.pendingWaits.length=size)
    (hend : s'.ending≠.listed ∧ s'.ending≠.raised)
    (he : s'.ending=.returned → s'.pendingWaits=[]) (hsame : s'.handlers=s.handlers) :
    Waiting s' := by
  refine hs.move (.of_eq hf) ?_ ?_ hsized (fun hl => absurd hl hend.1) hend.2 he <;> rw [hsame]
  exact fun _ => id

theorem Waiting.proceedEnding {succeeded : Bool} (ht : Tracked s)
    (hstep : s.proceedEnding minimum succeeded s.ending=.ok s') : Waiting s' := by
  have hf : s.futures=s.futures := rfl
  have hsized:=hs.sized
  have hc:=ht.sized
  have hp:=ht.perm
  have hr:=ht.running
  nth_rewrite 1 [Session.futures,Session.unresolved] at hf
  rw [Session.owned] at hp
  cases he : s.ending <;> rw [he] at hstep hf hsized hc hp hr
  case listed | returned | raised => cases hstep
  case completing =>
    cases hstep
    split
    · exact hs.goEnding hf (by simp) ⟨by simp,by simp⟩ (by simp) rfl
    · split <;> exact hs.goEnding hf (by simp) ⟨by simp,by simp⟩ (by simp) rfl
  case cleaning | clearingClients | clearingWaits =>
    cases hstep
    exact hs.goEnding hf (by simp) ⟨by simp,by simp⟩ (by simp) rfl
  case aborting | failing | finishing =>
    rw [Session.proceedEnding] at hstep
    split at hstep <;> cases hstep <;>
      exact hs.goEnding hf (by simp) ⟨by simp,by simp⟩ (by simp) rfl
  case abortingProtocol =>
    rw [Session.proceedEnding,if_pos (hr trivial)] at hstep
    cases hstep
    exact hs.goEnding hf (by simp) ⟨by simp,by simp⟩ (by simp) rfl
  case finalizing size left =>
    have hl:=hc size left rfl
    cases left with
    | nil =>
      rw [Session.proceedEnding,if_neg (not_not.mpr hl)] at hstep
      cases hstep
      exact hs.goEnding hf (by simp) ⟨by simp,by simp⟩ (by simp) rfl
    | cons c left =>
      have hm:=hp.symm.subset mem_cons_self
      rw [Session.proceedEnding,if_neg (not_not.mpr hl),if_pos hm] at hstep
      cases hstep
      exact hs.goEnding hf (by simp) ⟨by simp,by simp⟩ (by simp) rfl
  case checkingWaits =>
    rw [Session.proceedEnding] at hstep
    split at hstep
    next hn =>
      cases hstep
      rw [hn] at hf
      exact hs.goEnding hf (by simp) ⟨by simp,by simp⟩ (fun _ => hn) rfl
    next =>
      cases hstep
      refine hs.goEnding hf ?_ ⟨by simp,by simp⟩ (by simp) rfl
      rintro size left ⟨⟩
      rfl
  case resolving size left =>
    -- The handlers under the lock leave the set of waits as it is, so the loop goes to its end.
    have hl:=hsized size left rfl
    cases left with
    | nil =>
      rw [Session.proceedEnding,if_neg (not_not.mpr hl)] at hstep
      cases hstep
      exact hs.goEnding hf (by simp) ⟨by simp,by simp⟩ (by simp) rfl
    | cons wait left =>
      rw [Session.proceedEnding,if_neg (not_not.mpr hl)] at hstep
      cases hstep
      refine hs.goEnding ((append_assoc ..).trans hf) ?_ ⟨by simp,by simp⟩ (by simp) rfl
      rintro size left ⟨⟩
      exact hl

theorem Waiting.step (ht : Tracked s) (hserved : isServed s e)
    (hstep : sessionStep minimum s e=.ok s') : Waiting s' := by
  cases e with
  | call req =>
    cases hstep
    exact hs.enter hserved
  | proceed h uuid accepted =>
    rw [sessionStep] at hstep
    split at hstep
    next p hp => exact hs.proceed hp hserved hstep
    next => cases hstep
  | proceedEnding succeeded => exact hs.proceedEnding ht hstep
  | upload _ _ | closeClient _ =>
    cases hstep
    exact hs.frame rfl (fun _ => id) le_rfl
  | protocolAbort =>
    cases hstep
    unfold protocolAbort
    split
    next hl =>
      have hl:=of_decide_eq_true hl
      refine hs.move (.of_eq ?_) (fun _ => id) le_rfl ?_ (fun _ _ => rfl) hs.smooth (fun _ => rfl)
      · simp [futures,unresolved,discardAll,closeAll,hl]
      · simp [discardAll,closeAll,hl]
    next => exact hs.frame rfl (fun _ => id) le_rfl

end

variable {hist : List (Session × SessionEvent)}

/-- Each wait is resolved once, when its session has failed or has ended at the latest, and the loop
over the waits is not disturbed, in orderly runs in which no wait begins after the aggregation has
failed and no handler looks for satisfied waits while the clean-up resolves them. -/
theorem waits_resolved (hr : Run (sessionStep minimum) {} hist s)
    (ho : ∀ entry∈hist,isOrderly entry.1 entry.2 && isServed entry.1 entry.2) :
    s.resolved.Nodup ∧ s.ending≠.raised ∧
      (∀ size left,s.ending=.resolving size left → s.pendingWaits.length=size) ∧
      (s.Settled → ∀ h,s.handlers[h]?=some .awaiting → s.resolved.count h=1) := by
  obtain ⟨-,hs⟩:=hr.invariant (G := fun s e => isOrderly s e && isServed s e)
    (P := fun _ s => Tracked s ∧ Waiting s) ho
    ⟨.init,.nil,nofun,nofun,nofun,fun _ _ => rfl,nofun,nofun⟩ fun _ _ _ _ hs he hstep => by
      rw [Bool.and_eq_true] at he
      exact ⟨hs.1.step he.1 hstep,hs.2.step hs.1 he.2 hstep⟩
  have hn:=(nodup_append.mp hs.nodup).1
  refine ⟨hn,hs.smooth,hs.sized,fun hset h hh => count_eq_one_of_mem hn ?_⟩
  have hnone : s.unresolved=[] := by
    rcases hset with ⟨hl,hf⟩ | hend
    · rw [unresolved,hl,hs.failed hl hf]
      rfl
    · rw [unresolved,hend]
  have hm:=hs.awaited h hh
  rwa [futures,hnone,append_nil] at hm

theorem waits_resolved_by_abort : ∃ s : Session,s.status=.failed ∧ s.resolved.count 0=1 := by
  obtain ⟨hist,s,hrun,-,ho,hl,hf,hh⟩:=exists_recorded (sessionStep 1) {}
    [.call (.wait (some 1)),.protocolAbort]
    (P := fun hist s => (∀ entry∈hist,isOrderly entry.1 entry.2 && isServed entry.1 entry.2) ∧
      s.ending=.listed ∧ s.status=.failed ∧ s.handlers=[.awaiting]) (by decide)
  obtain ⟨-,-,-,hr⟩:=waits_resolved hrun ho
  exact ⟨s,hf,hr (.inl ⟨hl,by simp [hf]⟩) 0 (by rw [hh]; rfl)⟩

/-- A wait that begins after the aggregation has failed, one that is satisfied while the clean-up of
a completed session resolves it, and one that is left when `Abort` finds the protocol ended. -/
theorem waits_left_or_repeated :
    (∃ hist s,Run (sessionStep 1) {} hist s ∧ (s.ending=.listed ∧ s.status=.failed ∧
      s.handlers=[.awaiting] ∧ s.resolved=[])) ∧
    (∃ hist s,Run (sessionStep 1) {} hist s ∧
      (s.ending=.raised ∧ s.status=.completed ∧ s.resolved=[2,2])) ∧
    ∃ hist s,Run (sessionStep 1) {} hist s ∧ (s.ending=.raised ∧ s.status=.aborted ∧
      s.handlers=[.awaiting] ∧ s.resolved=[]) := by
  refine ⟨?_,?_,?_⟩
  · exact exists_run _ _ [.protocolAbort,.call (.wait (some 1))] (by decide +kernel)
  · exact exists_run _ _
      ([.call (.preAuthorizeClients ["t"]),.call (.startAggregationDataUpload "t"),
        .call (.wait (some 1)),.proceed 1 "" true,.proceed 1 "" true,.proceed 1 "u" true,
        .proceed 1 "c" true,.upload "u" [7],.call (.submitAggregationResult "c" "u"),
        .proceed 3 "" true,.proceed 3 "" true,.proceed 3 "" true,.call .completeSession] ++
        replicate 7 (.proceedEnding true)++[.proceed 3 "" true,.proceedEnding true])
      (by decide +kernel)
  · exact exists_run _ _
      [.call (.wait (some 1)),.call .abortSession,.proceedEnding true,.protocolAbort,
        .proceedEnding true] (by decide +kernel)

end Fcp.Demo

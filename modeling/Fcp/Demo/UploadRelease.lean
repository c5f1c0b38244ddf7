import Fcp.Demo.Aggregations
import Fcp.Lib.ListUpdate

/-!
# Uploads and clients of a session that has ended

A registered upload belongs to an active client or to a handler that is about to finalize it or to
insert its client.
-/

namespace Fcp.Demo

open List Session

def Point.isStarting : Point → Bool
  | .adding => true
  | .taking => true
  | .registering _ => true
  | .inserting _ => true
  | _ => false

/-- The upload that a handler has to release. -/
def Point.held : Point → List String
  | .inserting client => [client.resourceName]
  | .checking client _ => [client.resourceName]
  | .finalizing client _ => [client.resourceName]
  | .releasing client => [client.resourceName]
  | _ => []

def Ending.Cleared : Ending → Prop
  | .checkingWaits => True
  | .resolving _ _ => True
  | .clearingWaits => True
  | .returned => True
  | .raised => True
  | _ => False

/-- While `abort_session` may still abort the protocol. -/
def Ending.MustRun (status : AggregationStatus) : Ending → Prop
  | .listed => status=.pending
  | .aborting => status=.pending
  | .abortingProtocol => True
  | _ => False

namespace Session

/-- The uploads of clients that the clean-up has still to release. -/
def owned (s : Session) : List String :=
  match s.ending with
  | .finalizing _ left => left.map (·.resourceName)
  | .clearingClients => []
  | _ => s.activeClients.map (·.2.resourceName)

def isQuiet (s : Session) : Bool := s.handlers.all (!·.isStarting)

end Session

/-- Requests name the resource that the client was given, a session is ended while no upload is
being started, and the protocol does not abort itself while `abort_session` is about to. -/
def isOrderly (s : Session) : SessionEvent → Bool
  | .call .completeSession => !s.isListed || s.isQuiet
  | .call .abortSession => !s.isListed || s.isQuiet
  | .proceed h _ _ =>
    match s.handlers[h]? with
    | some (.checking client resourceName) => resourceName=client.resourceName
    | _ => true
  | .protocolAbort => s.ending≠.aborting && s.ending≠.abortingProtocol
  | _ => true

structure Tracked (s : Session) : Prop where
  perm : s.names.Perm (s.owned++s.handlers.flatMap Point.held)
  nodup : s.names.Nodup
  sized : ∀ size left,s.ending=.finalizing size left → s.activeClients.length=size
  cleared : s.ending.Cleared → s.activeClients=[]
  quiet : s.ending=.listed ∨ s.isQuiet
  running : s.ending.MustRun s.status → s.started

variable {s s' : Session} {h : ℕ} {p q : Point} {minimum : ℤ} {e : SessionEvent}

theorem Tracked.listed (hs : Tracked s) (hp : s.handlers[h]?=some p) (hstart : p.isStarting) :
    s.ending=.listed := by
  refine hs.quiet.resolve_right fun hq => ?_
  have hn:=all_eq_true.mp hq p (mem_of_getElem? hp)
  rw [hstart] at hn
  cases hn

theorem quiet_set (hs : Tracked s) (hq : q.isStarting → s.ending=.listed) :
    s.ending=.listed ∨ (s.handlers.set h q).all (!·.isStarting) := by
  by_cases he : s.ending=.listed
  · exact .inl he
  · refine .inr (all_eq_true.mpr fun p hp => ?_)
    rcases mem_or_eq_of_mem_set hp with hp | rfl
    · exact all_eq_true.mp (hs.quiet.resolve_left he) p hp
    · simpa using fun hstart => he (hq hstart)

section
variable (hs : Tracked s)
  (hsame : (s'.uploads,s'.activeClients,s'.ending,s'.status,s'.started) =
    (s.uploads,s.activeClients,s.ending,s.status,s.started))
include hs hsame

theorem Tracked.of_handlers
    (hheld : (s.handlers.flatMap Point.held).Perm (s'.handlers.flatMap Point.held))
    (hquiet : s.ending=.listed ∨ s'.isQuiet) : Tracked s' := by
  simp only [Prod.mk.injEq] at hsame
  obtain ⟨hup,ha,he,hstatus,hstarted⟩:=hsame
  constructor
  · rw [names,hup,owned,he,ha]
    exact hs.perm.trans (hheld.append_left _)
  · rw [names,hup]
    exact hs.nodup
  · rw [he,ha]
    exact hs.sized
  · rw [he,ha]
    exact hs.cleared
  · rw [he]
    exact hquiet
  · rw [he,hstatus,hstarted]
    exact hs.running

theorem Tracked.goOn (hp : s.handlers[h]?=some p) (hset : s'.handlers=s.handlers.set h q)
    (hh : q.held=p.held) (hq : q.isStarting → s.ending=.listed) : Tracked s' := by
  have hperm:=flatMap_set_perm hp q Point.held
  rw [hh,perm_append_left_iff] at hperm
  refine hs.of_handlers hsame (hset ▸ hperm.symm) ?_
  rw [isQuiet,hset]
  exact quiet_set hs hq

theorem Tracked.call (hn : s'.handlers=s.handlers++[p]) (hh : p.held=[])
    (hp : p.isStarting → s.ending=.listed) : Tracked s' := by
  refine hs.of_handlers hsame (by simp [hn,hh]) ?_
  rw [isQuiet,hn,all_append,Bool.and_eq_true]
  by_cases hl : s.ending=.listed
  · exact .inl hl
  · refine .inr ⟨hs.quiet.resolve_left hl,?_⟩
    simpa using fun hstart => hl (hp hstart)

end

variable {uuid : String} {clientId : ℕ} {c : Client} {req : Request}
  {accepted succeeded : Bool}

theorem Tracked.register (hs : Tracked s)
    (hp : s.handlers[h]?=some (.registering clientId)) (hn : uuid∉s.names) :
    Tracked ({ s with uploads := (uuid,none)::s.uploads }.goOn h (.inserting ⟨clientId,uuid⟩)) := by
  have hset : ((s.handlers.set h (.inserting ⟨clientId,uuid⟩)).flatMap Point.held).Perm
      ([uuid]++s.handlers.flatMap Point.held) := flatMap_set_add hp rfl
  refine ⟨?_,nodup_cons.mpr ⟨hn,hs.nodup⟩,hs.sized,hs.cleared,.inl (hs.listed hp rfl),hs.running⟩
  exact ((hs.perm.cons uuid).trans perm_middle.symm).trans (hset.symm.append_left s.owned)

theorem Tracked.insert (hs : Tracked s) (hp : s.handlers[h]?=some (.inserting c)) :
    Tracked ({ s with activeClients := s.activeClients++[(uuid,c)] }.goOn h .returned) := by
  have hl:=hs.listed hp rfl
  have hset : (s.handlers.flatMap Point.held).Perm
      ([c.resourceName]++(s.handlers.set h .returned).flatMap Point.held) :=
    flatMap_set_drop hp rfl
  have hperm:=hs.perm
  refine ⟨?_,hs.nodup,by simp [Session.goOn,hl],by simp [Session.goOn,hl,Ending.Cleared],
    .inl hl,hs.running⟩
  simp only [Session.owned,Session.goOn,hl,map_append,map_singleton,append_assoc] at hperm ⊢
  exact hperm.trans (hset.append_left _)

theorem finalizeUpload_perm {name : String} {names : List String} (hn : s.names.Nodup)
    (hp : s.names.Perm (name::names)) : (s.finalizeUpload name).names.Perm names ∧
      (s.finalizeUpload name).names.Nodup := by
  have he : (s.finalizeUpload name).names=s.names.erase name := by
    rw [hn.erase_eq_filter,Session.names,Session.names,filter_map,Session.finalizeUpload]
    refine congrArg _ (filter_congr fun upload _ => ?_)
    by_cases h : upload.1=name <;> simp [h]
  rw [he]
  refine ⟨(hp.erase name).trans ?_,hn.erase name⟩
  rw [erase_cons_head]

section

variable (hs : Tracked s)
include hs

theorem Tracked.release (hp : s.handlers[h]?=some p)
    (hh : p.held=[c.resourceName]) (hq : q.held=[]) (hstart : q.isStarting=false) :
    Tracked ((s.finalizeUpload c.resourceName).goOn h q) := by
  have hset : (s.handlers.flatMap Point.held).Perm
      ([c.resourceName]++(s.handlers.set h q).flatMap Point.held) :=
    flatMap_set_drop hp (by rw [hh,hq,append_nil])
  obtain ⟨hperm,hn⟩:=finalizeUpload_perm hs.nodup
    ((hs.perm.trans (hset.append_left s.owned)).trans perm_middle)
  exact ⟨hperm,hn,hs.sized,hs.cleared,quiet_set hs (by simp [hstart]),hs.running⟩

theorem Tracked.takeClient {clientToken : String} {next : Client → Point}
    (hh : ∀ c,(next c).held=[c.resourceName]) :
    Tracked (s.takeClient clientToken next) := by
  unfold Session.takeClient
  split
  next entry hl hf =>
    have hl:=of_decide_eq_true hl
    have hp:=hs.perm
    have ha:=((perm_cons_erase (mem_of_find?_eq_some hf)).map (·.2.resourceName)).append_right
      (s.handlers.flatMap Point.held)
    refine ⟨?_,hs.nodup,by simp [Session.call,hl],
      by simp [Session.call,hl,Ending.Cleared],.inl hl,hs.running⟩
    simp only [Session.owned,Session.call,hl,flatMap_append,flatMap_singleton,hh] at hp ⊢
    refine (hp.trans ha).trans ?_
    rw [← append_assoc]
    exact (perm_append_singleton _ _).symm
  next => exact hs.call rfl rfl rfl nofun

theorem Tracked.take {ending : Ending}
    (he : ending=.completing ∨ ending=.aborting) (hq : !s.isListed || s.isQuiet) :
    Tracked (s.take ending) := by
  unfold Session.take
  split
  next hl =>
    rw [hl] at hq
    have hp:=hs.perm
    have hr:=hs.running
    simp only [Session.owned,of_decide_eq_true hl] at hp hr
    rcases he with rfl | rfl
    · exact ⟨hp,hs.nodup,nofun,nofun,.inr hq,nofun⟩
    · exact ⟨hp,hs.nodup,nofun,nofun,.inr hq,hr⟩
  next => exact hs.call rfl rfl rfl nofun

theorem Tracked.enter (ho : isOrderly s (.call req)) : Tracked (s.enter req) := by
  cases req with
  | preAuthorizeClients tokens =>
    simp only [enter]
    split <;> exact hs.call rfl rfl rfl nofun
  | wait n =>
    cases n with
    | none => exact hs.call rfl rfl rfl nofun
    | some n =>
      simp only [enter]
      split <;> exact hs.call rfl rfl rfl nofun
  | startAggregationDataUpload token =>
    simp only [enter]
    split
    next hf => exact hs.call rfl rfl rfl fun _ => of_decide_eq_true hf.1
    next => exact hs.call rfl rfl rfl nofun
  | submitAggregationResult clientToken resourceName =>
    rw [enter]
    exact hs.takeClient fun _ => rfl
  | abortAggregation clientToken => exact hs.takeClient fun _ => rfl
  | completeSession => exact hs.take (.inl rfl) ho
  | abortSession => exact hs.take (.inr rfl) ho

theorem Tracked.proceed (hp : s.handlers[h]?=some p) (ho : isOrderly s (.proceed h uuid accepted))
    (hstep : s.proceed h uuid accepted p=.ok s') : Tracked s' := by
  have hl:=hs.listed hp
  cases p <;> simp only [proceed] at hstep
  case awaiting | returned => cases hstep
  case adding =>
    split at hstep <;> cases hstep
    · exact hs.goOn rfl hp rfl rfl fun _ => hl rfl
    · exact hs.goOn rfl hp rfl rfl nofun
  case taking =>
    split at hstep <;> cases hstep
    · exact hs.goOn rfl hp rfl rfl nofun
    · exact hs.goOn rfl hp rfl rfl fun _ => hl rfl
  case registering clientId =>
    split at hstep
    next => cases hstep
    next hn =>
      cases hstep
      exact hs.register hp hn
  case inserting c =>
    split at hstep <;> cases hstep
    exact hs.insert hp
  case checking c resourceName =>
    rw [isOrderly,hp] at ho
    rw [if_pos (of_decide_eq_true ho)] at hstep
    cases hstep
    exact hs.goOn rfl hp rfl rfl nofun
  case finalizing c closed =>
    cases hstep
    refine hs.release hp rfl ?_ ?_ <;> split <;> rfl
  case receiving clientId =>
    split at hstep
    next =>
      cases hstep
      exact hs.goOn rfl hp rfl rfl nofun
    next => split at hstep <;> cases hstep <;> exact hs.goOn rfl hp rfl rfl nofun
  case notifying | closing =>
    cases hstep
    exact hs.goOn rfl hp rfl rfl nofun
  case releasing c =>
    cases hstep
    exact hs.release hp rfl rfl rfl

theorem Tracked.goEnding (hq : s.isQuiet) (ho : s'.owned=s.owned)
    (hsized : ∀ size left,s'.ending=.finalizing size left → s'.activeClients.length=size)
    (hc : s'.ending.Cleared → s'.activeClients=[])
    (hr : s'.ending.MustRun s'.status → s'.started)
    (hsame : (s'.uploads,s'.handlers)=(s.uploads,s.handlers)) : Tracked s' := by
  simp only [Prod.mk.injEq] at hsame
  refine ⟨?_,?_,hsized,hc,?_,hr⟩
  · rw [names,hsame.1,ho,hsame.2]
    exact hs.perm
  · rw [names,hsame.1]
    exact hs.nodup
  · rw [isQuiet,hsame.2]
    exact .inr hq

theorem Tracked.proceedEnding
    (hstep : s.proceedEnding minimum succeeded s.ending=.ok s') : Tracked s' := by
  have hq : s.isQuiet := hs.quiet.resolve_left fun hl => by
    rw [hl] at hstep
    cases hstep
  have ho : s.owned=s.owned := rfl
  have hsized:=hs.sized
  have hc:=hs.cleared
  have hr:=hs.running
  nth_rewrite 1 [Session.owned] at ho
  cases he : s.ending <;> rw [he] at hstep ho hsized hc hr
  case listed | returned | raised => cases hstep
  case completing =>
    cases hstep
    split
    · exact hs.goEnding hq ho nofun nofun nofun rfl
    · split <;> exact hs.goEnding hq ho nofun nofun nofun rfl
  case failing | finishing =>
    rw [Session.proceedEnding] at hstep
    split at hstep <;> cases hstep <;> exact hs.goEnding hq ho nofun nofun nofun rfl
  case abortingProtocol =>
    rw [Session.proceedEnding,if_pos (hr trivial)] at hstep
    cases hstep
    exact hs.goEnding hq ho nofun nofun nofun rfl
  case aborting =>
    rw [Session.proceedEnding] at hstep
    split at hstep
    next hstatus =>
      cases hstep
      exact hs.goEnding hq ho nofun nofun (fun _ => hr hstatus) rfl
    next =>
      cases hstep
      exact hs.goEnding hq ho nofun nofun nofun rfl
  case cleaning =>
    cases hstep
    refine hs.goEnding hq (map_map.trans ho) ?_ nofun nofun rfl
    rintro size left ⟨⟩
    rfl
  case finalizing size left =>
    -- Nothing is inserted any more, so the loop goes to its end, and every name is registered.
    have hlen:=hsized size left rfl
    cases left with
    | nil =>
      rw [Session.proceedEnding,if_neg (not_not.mpr hlen)] at hstep
      cases hstep
      exact hs.goEnding hq ho nofun nofun nofun rfl
    | cons c left =>
      have hp:=hs.perm
      rw [← ho] at hp
      have hm:=hp.symm.subset mem_cons_self
      rw [Session.proceedEnding,if_neg (not_not.mpr hlen),if_pos hm] at hstep
      cases hstep
      obtain ⟨hp,hn⟩:=finalizeUpload_perm hs.nodup hp
      refine ⟨hp,hn,?_,nofun,.inr hq,nofun⟩
      rintro size left ⟨⟩
      exact hlen
  case clearingClients =>
    cases hstep
    exact hs.goEnding hq ho nofun (fun _ => rfl) nofun rfl
  case checkingWaits =>
    rw [Session.proceedEnding] at hstep
    split at hstep <;> cases hstep <;> exact hs.goEnding hq ho nofun (fun _ => hc trivial) nofun rfl
  case resolving size left =>
    cases left <;> rw [Session.proceedEnding] at hstep <;> split at hstep <;> cases hstep <;>
      exact hs.goEnding hq ho nofun (fun _ => hc trivial) nofun rfl
  case clearingWaits =>
    cases hstep
    exact hs.goEnding hq ho nofun (fun _ => hc trivial) nofun rfl

theorem Tracked.step (ho : isOrderly s e)
    (hstep : sessionStep minimum s e=.ok s') : Tracked s' := by
  cases e with
  | call req =>
    cases hstep
    exact hs.enter ho
  | proceed h uuid accepted =>
    rw [sessionStep] at hstep
    split at hstep
    next p hp => exact hs.proceed hp ho hstep
    next => cases hstep
  | proceedEnding succeeded => exact hs.proceedEnding hstep
  | upload name body =>
    cases hstep
    have hn : (s.upload name body).names=s.names := by
      rw [names,upload,map_map]
      refine map_congr_left fun upload _ => ?_
      by_cases h : upload=(name,none) <;> simp [h]
    exact ⟨hn ▸ hs.perm,hn ▸ hs.nodup,hs.sized,hs.cleared,hs.quiet,hs.running⟩
  | closeClient clientId =>
    cases hstep
    exact ⟨hs.perm,hs.nodup,hs.sized,hs.cleared,hs.quiet,hs.running⟩
  | protocolAbort =>
    cases hstep
    unfold protocolAbort
    split
    next hl =>
      refine ⟨hs.perm,hs.nodup,hs.sized,hs.cleared,hs.quiet,fun hr => ?_⟩
      have hf : Ending.MustRun .failed s.ending := hr
      rw [of_decide_eq_true hl] at hf
      cases hf
    next hl =>
      refine ⟨hs.perm,hs.nodup,hs.sized,hs.cleared,hs.quiet,fun hr => ?_⟩
      have he : Ending.MustRun s.status s.ending := hr
      rw [isOrderly] at ho
      cases hend : s.ending <;> simp_all [isListed,Ending.MustRun]

end

/-- When the protocol has ended at the latest. -/
def Ending.MustStop (status : AggregationStatus) : Ending → Prop
  | .listed => status≠.pending
  | .completing => status≠.pending
  | .aborting => status≠.pending
  | .failing => False
  | .finishing => False
  | .abortingProtocol => False
  | _ => True

/-- The report of the protocol can be made. -/
def isReported (s : Session) : SessionEvent → Bool
  | .proceedEnding succeeded => s.ending≠.finishing || succeeded
  | _ => true

structure Stopping (s : Session) : Prop where
  closed : s.started=false → ∀ c∈s.clients,c=true
  stopped : s.ending.MustStop s.status → s.started=false

theorem Stopping.frame (hs : Stopping s)
    (hsame : (s'.started,s'.clients,s'.ending,s'.status)=(s.started,s.clients,s.ending,s.status)) :
    Stopping s' := by
  simp only [Prod.mk.injEq] at hsame
  obtain ⟨hstates,hc,he,hstatus⟩:=hsame
  constructor
  · rw [hstates,hc]
    exact hs.closed
  · rw [he,hstatus,hstates]
    exact hs.stopped

theorem Stopping.of_closeAll (hsame : (s'.started,s'.clients)=(false,s.closeAll.clients)) :
    Stopping s' := by
  simp only [Prod.mk.injEq] at hsame
  refine ⟨fun _ c hc => ?_,fun _ => hsame.1⟩
  rw [hsame.2] at hc
  obtain ⟨-,-,rfl⟩:=mem_map.mp hc
  rfl

section

variable (hs : Stopping s)
include hs

theorem Stopping.closeClient (hclient : s'.clients=s.clients.set clientId true)
    (hsame : (s'.started,s'.ending,s'.status)=(s.started,s.ending,s.status)) : Stopping s' := by
  simp only [Prod.mk.injEq] at hsame
  obtain ⟨hstate,he,hstatus⟩:=hsame
  constructor
  · rw [hstate,hclient]
    intro hstored c hc
    exact (mem_or_eq_of_mem_set hc).elim (hs.closed hstored c) id
  · rw [he,hstatus,hstate]
    exact hs.stopped

theorem Stopping.enter : Stopping (s.enter req) := by
  have ht {ending : Ending} (he : ending.MustStop s.status=Ending.MustStop s.status .listed) :
      Stopping (s.take ending) := by
    unfold Session.take
    split
    next hl =>
      have hstored:=hs.stopped
      rw [of_decide_eq_true hl,← he] at hstored
      exact ⟨hs.closed,hstored⟩
    next => exact hs.frame rfl
  cases req with
  | wait n =>
    cases n with
    | none => exact hs.frame rfl
    | some n =>
      simp only [Session.enter]
      split <;> exact hs.frame rfl
  | submitAggregationResult _ _ | abortAggregation _ =>
    simp only [Session.enter,Session.takeClient]
    split <;> exact hs.frame rfl
  | completeSession | abortSession => exact ht rfl
  | preAuthorizeClients _ | startAggregationDataUpload _ =>
    simp only [Session.enter]
    split <;> exact hs.frame rfl

theorem Stopping.proceed (hstep : s.proceed h uuid accepted p=.ok s') : Stopping s' := by
  cases p <;> simp only [proceed] at hstep
  case awaiting | returned => cases hstep
  case adding =>
    split at hstep
    next hstate =>
      cases hstep
      refine ⟨fun hstored => ?_,hs.stopped⟩
      exact absurd (hstate.symm.trans hstored) nofun
    next =>
      cases hstep
      exact hs.frame rfl
  case taking | registering | inserting | checking =>
    split at hstep <;> cases hstep <;> exact hs.frame rfl
  case finalizing | notifying | releasing =>
    cases hstep
    exact hs.frame rfl
  case receiving clientId =>
    split at hstep
    next =>
      cases hstep
      exact hs.frame rfl
    next => split at hstep <;> cases hstep <;> exact hs.closeClient rfl rfl
  case closing clientId =>
    cases hstep
    exact hs.closeClient rfl rfl

theorem Stopping.proceedEnding (hr : isReported s (.proceedEnding succeeded))
    (hstep : s.proceedEnding minimum succeeded s.ending=.ok s') : Stopping s' := by
  have hstored:=hs.stopped
  rw [isReported] at hr
  cases hend : s.ending <;> rw [hend] at hstep hstored
  case listed | returned | raised => cases hstep
  case failing | abortingProtocol =>
    rw [Session.proceedEnding] at hstep
    split at hstep
    next =>
      cases hstep
      exact .of_closeAll rfl
    next he =>
      cases hstep
      exact ⟨hs.closed,fun _ => Bool.not_eq_true _ ▸ he⟩
  case finishing =>
    rw [Session.proceedEnding] at hstep
    split at hstep
    next =>
      cases hstep
      exact .of_closeAll rfl
    next he =>
      cases hstep
      rw [hend] at hr
      refine ⟨hs.closed,fun _ => ?_⟩
      simpa [show succeeded=true from hr] using he
  case completing =>
    cases hstep
    split
    next hstatus => exact ⟨hs.closed,fun _ => hstored hstatus⟩
    next => split <;> exact ⟨hs.closed,nofun⟩
  case aborting =>
    rw [Session.proceedEnding] at hstep
    split at hstep
    next =>
      cases hstep
      exact ⟨hs.closed,nofun⟩
    next hstatus =>
      cases hstep
      exact ⟨hs.closed,fun _ => hstored hstatus⟩
  case cleaning | clearingClients | clearingWaits =>
    cases hstep
    exact ⟨hs.closed,fun _ => hstored trivial⟩
  case checkingWaits =>
    rw [Session.proceedEnding] at hstep
    split at hstep <;> cases hstep <;> exact ⟨hs.closed,fun _ => hstored trivial⟩
  case finalizing size left =>
    cases left <;> rw [Session.proceedEnding] at hstep <;> split at hstep
    all_goals try split at hstep
    all_goals
      cases hstep
      exact ⟨hs.closed,fun _ => hstored trivial⟩
  case resolving size left =>
    cases left <;> rw [Session.proceedEnding] at hstep <;> split at hstep <;> cases hstep <;>
      exact ⟨hs.closed,fun _ => hstored trivial⟩

theorem Stopping.step (hr : isReported s e)
    (hstep : sessionStep minimum s e=.ok s') : Stopping s' := by
  cases e with
  | call req =>
    cases hstep
    exact hs.enter
  | proceed h uuid accepted =>
    rw [sessionStep] at hstep
    split at hstep
    next => exact hs.proceed hstep
    next => cases hstep
  | proceedEnding succeeded => exact hs.proceedEnding hr hstep
  | upload name body =>
    cases hstep
    exact hs.frame rfl
  | closeClient clientId =>
    cases hstep
    exact hs.closeClient rfl rfl
  | protocolAbort =>
    cases hstep
    unfold protocolAbort
    split <;> exact .of_closeAll rfl

end

variable {hist : List (Session × SessionEvent)}

theorem Tracked.init : Tracked {} := ⟨.nil,.nil,nofun,fun _ => rfl,.inl rfl,fun _ => rfl⟩

theorem tracked_of_run (hr : Run (sessionStep minimum) {} hist s)
    (ho : ∀ entry∈hist,isOrderly entry.1 entry.2) : Tracked s :=
  hr.invariant (P := fun _ s => Tracked s) ho .init
    fun _ _ _ _ hs he hstep => hs.step he hstep

theorem stopping_of_run (hrun : Run (sessionStep minimum) {} hist s)
    (hr : ∀ entry∈hist,isReported entry.1 entry.2) : Stopping s :=
  hrun.invariant (P := fun _ s => Stopping s) hr ⟨fun _ => nofun,fun h => absurd rfl h⟩
    fun _ _ _ _ hs he hstep => hs.step he hstep

structure Session.Over (s : Session) : Prop where
  ending : s.ending=.returned ∨ s.ending=.raised
  handlers : ∀ p∈s.handlers,p=.returned ∨ p=.awaiting

/-- No upload is left of a session that is over, if its run was orderly, and no client open if the
report of the protocol could be made. -/
theorem uploads_released (hrun : Run (sessionStep minimum) {} hist s)
    (ho : ∀ entry∈hist,isOrderly entry.1 entry.2) (hover : s.Over) :
    s.uploads=[] ∧ ((∀ entry∈hist,isReported entry.1 entry.2) → ∀ c∈s.clients,c=true) := by
  have hs:=tracked_of_run hrun ho
  constructor
  · have hh : s.handlers.flatMap Point.held=[] := by
      refine flatMap_eq_nil_iff.mpr fun p hp => ?_
      rcases hover.handlers p hp with rfl | rfl <;> rfl
    have hc : s.ending.Cleared := by rcases hover.ending with he | he <;> rw [he] <;> trivial
    have howned : s.owned=[] := by
      rcases hover.ending with he | he <;> rw [owned,he,hs.cleared hc] <;> rfl
    have hperm:=hs.perm
    rw [hh,howned] at hperm
    exact map_eq_nil_iff.mp hperm.eq_nil
  · intro hr
    have hstop:=stopping_of_run hrun hr
    refine hstop.closed (hstop.stopped ?_)
    rcases hover.ending with he | he <;> rw [he] <;> trivial

def uploadEvents : List SessionEvent :=
  [.call (.preAuthorizeClients ["t"]),.call (.startAggregationDataUpload "t"),
    .proceed 1 "" true,.proceed 1 "" true,.proceed 1 "u" true,.proceed 1 "c" true]

theorem uploads_released_after_abort : ∃ s : Session,s.clients.length=1 ∧ s.uploads=[] ∧
    ∀ c∈s.clients,c=true := by
  obtain ⟨hist,s,hr,-,ha,hend,hh,hc⟩:=exists_recorded (sessionStep 1) {}
    (uploadEvents++[.upload "u" [7],.call .abortSession]++replicate 7 (.proceedEnding true))
    (P := fun hist s => (∀ entry∈hist,isOrderly entry.1 entry.2 ∧ isReported entry.1 entry.2) ∧
      s.ending=.returned ∧ s.handlers=[.returned,.returned] ∧ s.clients.length=1) (by decide)
  obtain ⟨hu,hclosed⟩:=uploads_released hr (fun entry he => (ha entry he).1)
    ⟨.inl hend,by simp [hh]⟩
  exact ⟨s,hc,hu,hclosed fun entry he => (ha entry he).2⟩

/-- A request with a wrong resource name, an upload that is started while the session ends, and a
client that is not closed because the report could not be made. -/
theorem uploads_left_over : (∃ hist s,Run (sessionStep 1) {} hist s ∧ (s.ending=.returned ∧
      s.handlers=[.returned,.returned,.returned] ∧ s.uploads=[("u",some [7])])) ∧
    (∃ hist s,Run (sessionStep 1) {} hist s ∧ (s.ending=.returned ∧
      s.handlers=[.returned,.returned] ∧ s.uploads=[("u",none)])) ∧
    ∃ hist s,Run (sessionStep 0) {} hist s ∧ (s.ending=.returned ∧
      s.handlers=[.returned,.returned] ∧ s.clients=[false]) := by
  refine ⟨?_,?_,?_⟩
  · exact exists_run _ _
      (uploadEvents++[.upload "u" [7],.call (.submitAggregationResult "c" "v"),.proceed 2 "" true,
        .call .abortSession]++replicate 6 (.proceedEnding true)) (by decide +kernel)
  · exact exists_run _ _
      ([.call (.preAuthorizeClients ["t"]),.call (.startAggregationDataUpload "t"),
        .proceed 1 "" true,.call .abortSession]++replicate 6 (.proceedEnding true) ++
        [.proceed 1 "" true,.proceed 1 "u" true,.proceed 1 "c" true]) (by decide +kernel)
  · exact exists_run _ _
      (uploadEvents++[.call .completeSession,.proceedEnding true,.proceedEnding false] ++
        replicate 5 (.proceedEnding true)) (by decide +kernel)

end Fcp.Demo

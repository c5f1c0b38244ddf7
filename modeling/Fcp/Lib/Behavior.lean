import Fcp.Lib.Run
import Mathlib.Algebra.Order.Ring.Nat

/-!
# Behaviours of a machine

A behaviour is an infinite run; at an instant without an event nothing changes. Weakly fair: an
event that stays possible from some instant on happens.
-/

namespace Fcp

open List

variable {ε σ α : Type}

structure Behavior (step : σ → α → Except ε σ) (init : σ) where
  state : ℕ → σ
  event : ℕ → Option α
  start : state 0=init
  next : ∀ t e,event t=some e → step (state t) e=.ok (state (t+1))
  idle : ∀ t,event t=none → state (t+1)=state t

namespace Behavior

variable {step : σ → α → Except ε σ} {init : σ} (b : Behavior step init)

theorem reachable (t : ℕ) : Reachable step init (b.state t) := by
  induction t with
  | zero =>
    rw [b.start]
    exact .init
  | succ t ih =>
    cases he : b.event t with
    | none =>
      rw [b.idle t he]
      exact ih
    | some e => exact .step ih (b.next t e he)

variable {P : σ → Prop}

theorem keeps (hs : ∀ s s' e,Reachable step init s → P s → step s e=.ok s' → P s') {t u : ℕ}
    (hle : t≤u) (ht : P (b.state t)) : P (b.state u) := by
  induction u, hle using Nat.le_induction with
  | base => exact ht
  | succ u _ ih =>
    cases he : b.event u with
    | none =>
      rw [b.idle u he]
      exact ih
    | some e => exact hs _ _ e (b.reachable u) ih (b.next u e he)

/-- Events that are possible from some instant on happen. -/
def WeakFair (enabled : σ → Prop) (occurs : α → Prop) : Prop :=
  ∀ t,(∀ u,t≤u → enabled (b.state u)) → ∃ u,t≤u ∧ ∃ e,b.event u=some e ∧ occurs e

variable {b} {t : ℕ} {enabled Q : σ → Prop} {occurs : α → Prop}

/-- Under a condition that makes some events possible and lasts until the goal is reached or one of
them happens, one of the two comes about. -/
theorem WeakFair.happens (hf : b.WeakFair enabled occurs)
    (hl : ∀ s s' e,Reachable step init s → P s → step s e=.ok s' → ¬ occurs e → P s' ∨ Q s')
    (henabled : ∀ s,Reachable step init s → P s → enabled s) (ht : P (b.state t)) :
    (∃ u,t≤u ∧ (∀ w,t≤w → w≤u → P (b.state w)) ∧ ∃ e,b.event u=some e ∧ occurs e) ∨
      ∃ u,t≤u ∧ Q (b.state u) := by
  by_contra hn
  obtain ⟨hevent,hg⟩:=not_or.mp hn
  have ha : ∀ u,t≤u → ∀ w,t≤w → w≤u → P (b.state w) := by
    intro u hu
    induction u, hu using Nat.le_induction with
    | base =>
      intro w hw hle
      rw [Nat.le_antisymm hle hw]
      exact ht
    | succ u hu ih =>
      intro w hw hle
      by_cases hearlier : w≤u
      · exact ih w hw hearlier
      have hlast : w=u+1 := by omega
      have hu':=ih u hu (Nat.le_refl u)
      cases he : b.event u with
      | none =>
        rw [hlast,b.idle u he]
        exact hu'
      | some e =>
        have hnot : ¬ occurs e := fun ho => hevent ⟨u,hu,ih,e,he,ho⟩
        obtain hp | hq:=hl _ _ e (b.reachable u) hu' (b.next u e he) hnot
        · exact hlast ▸ hp
        · exact (hg ⟨u+1,by omega,hq⟩).elim
  obtain ⟨u,hu,e,he,ho⟩ :=
    hf t fun u hu => henabled _ (b.reachable u) (ha u hu u hu (Nat.le_refl u))
  exact hevent ⟨u,hu,ha u hu,e,he,ho⟩

theorem WeakFair.eventually (hf : b.WeakFair enabled occurs)
    (hl : ∀ s s' e,Reachable step init s → P s → step s e=.ok s' → ¬ occurs e → P s' ∨ Q s')
    (henabled : ∀ s,Reachable step init s → P s → enabled s)
    (hleads : ∀ s s' e,Reachable step init s → P s → occurs e → step s e=.ok s' → Q s')
    (ht : P (b.state t)) : ∃ u,t≤u ∧ Q (b.state u) := by
  obtain ⟨u,hu,hp,e,he,ho⟩ | hg:=hf.happens hl henabled ht
  · have hlast:=hp u hu (Nat.le_refl u)
    exact ⟨u+1,by omega,hleads _ _ e (b.reachable u) hlast ho (b.next u e he)⟩
  · exact hg

variable (b)

/-- A counter that grows whenever it is short of its goal reaches it. -/
theorem eventually_reaches (counter : σ → ℕ) (goal : ℕ)
    (hgrows : ∀ u,t≤u → counter (b.state u)<goal →
      ∃ v,u≤v ∧ counter (b.state u)<counter (b.state v)) :
    ∃ u,t≤u ∧ goal≤counter (b.state u) := by
  suffices hf : ∀ missing u,t≤u → goal-counter (b.state u)=missing →
      ∃ v,u≤v ∧ goal≤counter (b.state v) from hf _ t (Nat.le_refl _) rfl
  intro missing
  induction missing using Nat.strong_induction_on with
  | _ missing ih =>
    intro u hu hm
    by_cases hd : goal≤counter (b.state u)
    · exact ⟨u,Nat.le_refl _,hd⟩
    · obtain ⟨v,hv,hmore⟩:=hgrows u hu (by omega)
      obtain ⟨w,hw,hg⟩:=ih (goal-counter (b.state v)) (by omega) v (by omega) rfl
      exact ⟨w,Nat.le_trans hv hw,hg⟩

theorem exists_crossing (counter : σ → ℕ) {k w : ℕ} (hs : counter (b.state 0)≤k)
    (hw : k<counter (b.state w)) :
    ∃ u,u<w ∧ counter (b.state u)≤k ∧ k<counter (b.state (u+1)) := by
  induction w with
  | zero => omega
  | succ w ih =>
    by_cases hb : k<counter (b.state w)
    · obtain ⟨u,hu,hc⟩:=ih hb
      exact ⟨u,by omega,hc⟩
    · exact ⟨w,Nat.lt_succ_self w,Nat.le_of_not_lt hb,hw⟩

theorem eventually_all {ι : Type} {P : ι → σ → Prop}
    (hl : ∀ i s s' e,Reachable step init s → P i s → step s e=.ok s' → P i s')
    (hr : ∀ i,∃ u,t≤u ∧ P i (b.state u)) (indices : List ι) :
    ∃ u,t≤u ∧ ∀ i∈indices,P i (b.state u) := by
  induction indices with
  | nil => exact ⟨t,Nat.le_refl _,nofun⟩
  | cons i indices ih =>
    obtain ⟨u,hu,hrest⟩:=ih
    obtain ⟨v,hv,hi⟩:=hr i
    refine ⟨max u v,by omega,?_⟩
    intro j hj
    obtain rfl | hj:=mem_cons.mp hj
    · exact b.keeps (hl j) (Nat.le_max_right u v) hi
    · exact b.keeps (hl j) (Nat.le_max_left u v) (hrest j hj)

section OfEvents

variable {b} {events : List α} {s : σ}

theorem exists_take (h : events.foldlM step init=.ok s) (t : ℕ) :
    ∃ s',(events.take t).foldlM step init=.ok s' := by
  rw [← take_append_drop t events,foldlM_append] at h
  cases ht : (events.take t).foldlM step init with
  | error e =>
    rw [ht] at h
    cases h
  | ok s' => exact ⟨s',rfl⟩

theorem take_next (h : events.foldlM step init=.ok s) (t : ℕ) (e : α) (he : events[t]?=some e) :
    step (((events.take t).foldlM step init).toOption.getD init) e =
      .ok (((events.take (t+1)).foldlM step init).toOption.getD init) := by
  obtain ⟨s₁,hs₁⟩:=exists_take h t
  obtain ⟨s₂,hs₂⟩:=exists_take h (t+1)
  have hb:=hs₂
  rw [take_add_one,he,foldlM_append,hs₁] at hb
  rw [hs₁,hs₂]
  cases hs : step s₁ e with
  | error e' => simp [bind,Except.bind,hs] at hb
  | ok s' => simpa [bind,Except.bind,pure,Except.pure,hs,Except.toOption] using hb

theorem take_idle (step : σ → α → Except ε σ) (init : σ) (events : List α) (t : ℕ)
    (ht : events[t]?=none) :
    ((events.take (t+1)).foldlM step init).toOption.getD init =
      ((events.take t).foldlM step init).toOption.getD init := by
  have hl:=List.getElem?_eq_none_iff.mp ht
  rw [take_of_length_le hl,take_of_length_le (by omega)]

def ofEvents (step : σ → α → Except ε σ) (init : σ) (events : List α) (s : σ)
    (h : events.foldlM step init=.ok s) : Behavior step init where
  state t := ((events.take t).foldlM step init).toOption.getD init
  event t := events[t]?
  start := rfl
  next := take_next h
  idle := take_idle step init events

theorem ofEvents_state (h : events.foldlM step init=.ok s) (ht : events.length≤t) :
    (ofEvents step init events s h).state t=s := by
  show ((events.take t).foldlM step init).toOption.getD init=s
  rw [take_of_length_le ht,h]
  rfl

theorem weakFair_ofEvents (h : events.foldlM step init=.ok s)
    (hn : ¬ enabled s) (occurs : α → Prop) :
    (ofEvents step init events s h).WeakFair enabled occurs := by
  intro t ht
  have he:=ht (max t events.length) (by omega)
  rw [ofEvents_state h (by omega)] at he
  exact (hn he).elim

end OfEvents

end Behavior

end Fcp

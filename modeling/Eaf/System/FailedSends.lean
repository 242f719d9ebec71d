import Eaf.System.Balance

/-!
# Failed sends

A send takes a reference for the record it makes.  When the send fails, it has
given this reference back and has put nothing into a queue; only a send that
reports success leaves anything behind.
-/

namespace Eaf
namespace Core

open LabelledRun

variable {L : Layout} {s s' : Sys} {t : Tid} {a : Act} {events tr : List Event}
  {b : SendArgs} {own : List (Sys × Sys)} {m : MsgRef}

/-- The action is a step of the call that thread `t` is in. -/
def Act.ofCall (t : Tid) : Act → Bool
  | .call t' _ => decide (t' = t)
  | _ => false

/-- A step of the system while thread `t` is inside a call.  The steps of the
call itself show the states before and after. -/
def During (L : Layout) (t : Tid) (s : Sys) (own : List (Sys × Sys))
    (s' : Sys) : Prop :=
  (s.call t).free = false ∧ ∃ a events, serial L s a ∧
    step L s a = some (s', events) ∧
    own = if a.ofCall t then [(s, s')] else []

/-- A run is continued by what happens during a call. -/
theorem Trace.extend (h : Trace L (serial L) tr s)
    (hduring : Run (During L t) s own s') :
    ∃ tr', Trace L (serial L) tr' s' := by
  refine hduring.preserved (P := fun s => ∃ tr', Trace L (serial L) tr' s)
    ⟨tr, h⟩ ?_
  rintro s own s' ⟨tr', hrun⟩ ⟨-, a, events, hserial, hstep, -⟩
  exact ⟨tr' ++ events, hrun.snoc ⟨a, hserial, hstep⟩⟩

/-- What the step after the hooks of a send can do. -/
theorem callStep_sendHook {o : Outcome} (hcall : s.call t = .sendHook b)
    (h : s.callStep L t o = some (s', events)) :
    (o.ret < 0 ∧ s' = (s.takeBack b).setCall t (.done o.ret) ∧
        events = [.ret t b.kind.api o.ret]) ∨
      (0 ≤ o.ret ∧ s' = s.setCall t (.sendFind b) ∧ events = []) := by
  unfold Sys.callStep at h
  split at h
  · simp only [hcall, Sys.sendStep, Sys.sendReturn] at h
    split at h <;> obtain ⟨rfl, rfl⟩ := Prod.mk.inj (Option.some.inj h)
    · next hneg => exact .inl ⟨hneg, rfl, rfl⟩
    · next hneg => exact .inr ⟨Int.not_lt.mp hneg, rfl, rfl⟩
  · cases h

/-- The reference of a record that is on its way into a queue. -/
def Call.pending (m : MsgRef) : Call → Nat
  | .pushLock _ _ _ r => here m r.msg
  | .pushRevert b _ => here m b.msg
  | _ => 0

/-- The record of the send is in a queue. -/
def Call.sent : Call → Bool
  | .pushPost _ _ => true
  | .sendAfter _ code | .done code => decide (code = Errno.success)
  | _ => false

/-- The count of a message that exists is positive. -/
theorem Balanced.count_pos (h : Balanced L s) (hlive : (s.msg m).isSome) :
    0 < s.count m := by
  obtain ⟨x, hx⟩ := Option.isSome_iff_exists.mp hlive
  simpa only [Sys.count, hx] using h.positive m x hx

/-- A send step changes counts by the reference of its record only, unless it
delivers. -/
theorem CallTrans.nets (h : CallTrans L s t events s') (bal : Balanced L s)
    (hlive : (s.msg b.msg).isSome) (hplaced : (s.call t).Placed L)
    (hb : (s.call t).send? = some b) :
    (s'.call t).sent = true ∨ (s.call t).sent = false ∧
      s'.group = s.group ∧ ∀ m, s'.count m + (s.call t).pending m =
        s.count m + (s'.call t).pending m := by
  cases h
  case sendRefused b' h _ | sendVeto b' ret h _ =>
    right
    refine ⟨by simp [h, Call.sent], by simp, fun m => ?_⟩
    rw [Sys.count_congr (s := s) (by simp)]
    simp [h, Call.pending]
  case sendNotFound b' h | sendFound b' _ _ _ h _ =>
    right
    refine ⟨by simp [h, Call.sent], by simp, fun m => ?_⟩
    rw [Sys.count_congr (s := s.stampSender b') (by simp),
      Sys.count_stampSender]
    simp [h, Call.pending]
  case pushRecord b' g i fn h =>
    obtain rfl : b' = b := by simpa [h, Call.send?] using hb
    right
    refine ⟨by simp [h, Call.sent], by simp, fun m => ?_⟩
    rw [Sys.count_congr (s := s.addRef b'.msg) (by simp), Sys.count_addRef hlive]
    simp [h, Call.pending]
  case pushRefused b' g i r h _ =>
    rw [h] at hplaced
    right
    refine ⟨by simp [h, Call.sent], by simp, fun m => ?_⟩
    rw [Sys.count_congr (s := s) (by simp)]
    simp [h, Call.pending, hplaced.2.2]
  case pushReverted b' r h =>
    obtain rfl : b' = b := by simpa [h, Call.send?] using hb
    right
    refine ⟨by simp [h, Call.sent], by simp, fun m => ?_⟩
    have hback := Sys.count_decRef m (bal.count_pos hlive)
    rw [Sys.count_congr (s := s.decRef b'.msg) (by simp)]
    simp only [h, Call.pending, Sys.setCall_call, Function.update_self]
    omega
  case pushAccepted | pushPosted =>
    left
    simp [Call.sent]
  case sendDone b' code h =>
    by_cases hcode : code = Errno.success
    · left
      simp [Call.sent, hcode]
    · right
      refine ⟨by simp [h, Call.sent, hcode], by simp, fun m => ?_⟩
      rw [Sys.count_congr (s := s) (by simp)]
      simp [h, Call.pending]
  all_goals
    first
      | (exfalso
         simp [*, Call.send?] at hb
         done)
      | (right
         refine ⟨by simp [*, Call.sent], by simp, fun m => ?_⟩
         rw [Sys.count_congr (s := s) (by simp)]
         simp [*, Call.pending])

/-- What the steps of a send that has delivered nothing add up to. -/
structure Nets (own : List (Sys × Sys)) (call : Call) : Prop where
  groups : ∀ p ∈ own, p.2.group = p.1.group
  counts : ∀ m, Ledger.total own (fun p => p.2.count m) =
    Ledger.total own (fun p => p.1.count m) + call.pending m

/-- One more step of the send. -/
theorem Nets.step {call call' : Call} (h : Nets own call)
    (hgroup : s'.group = s.group)
    (hcount : ∀ m, s'.count m + call.pending m =
      s.count m + call'.pending m) : Nets (own ++ [(s, s')]) call' where
  groups p hp := by
    rcases List.mem_append.mp hp with hp | hp
    · exact h.groups p hp
    · obtain rfl := List.mem_singleton.mp hp
      exact hgroup
  counts m := by
    have hold := h.counts m
    have hnew := hcount m
    simp only [Ledger.total_append, Ledger.total_cons, Ledger.total_nil]
    omega

/-- The steps of other threads leave a call as it is. -/
theorem SysTrans.call_of_other (h : SysTrans L s a events s')
    (hrun : Trace L (serial L) tr s) (hbusy : (s.call t).free = false)
    (hact : a.ofCall t = false) : s'.call t = s.call t := by
  cases h with
  | worker hg hw => exact hrun.call_kept hw hbusy
  | @call t' _ _ _ _ hc =>
      refine hc.call_of_ne ?_
      rintro rfl
      simp [Act.ofCall] at hact
  | @enter t' _ _ _ he =>
      refine he.call_of_ne ?_
      rintro rfl
      simp [he.free] at hbusy
  | user hu => rw [hu.call_eq]

/-- As long as a send has delivered nothing, its steps add up to nothing but
the reference of its record. -/
theorem Trace.nets (h : Trace L (serial L) tr s)
    (hstart : s.call t = .sendTest b) (hduring : Run (During L t) s own s') :
    ((s'.call t).free = false → (s'.call t).send? = some b) ∧
      ((s'.call t).sent = true ∨ Nets own (s'.call t)) := by
  refine hduring.invariant (P := fun own s' =>
    ((s'.call t).free = false → (s'.call t).send? = some b) ∧
      ((s'.call t).sent = true ∨ Nets own (s'.call t)))
    ⟨by simp [hstart, Call.send?], .inr ⟨by simp, by simp [hstart, Call.pending]⟩⟩
    ?_
  rintro own s events s' hsofar ⟨hsend, hnets⟩
    ⟨hbusy, a, events, hserial, hstep, rfl⟩
  obtain ⟨tr', hrun⟩ := h.extend hsofar
  have hb := hsend hbusy
  have htrans := step_trans hstep
  cases hact : a.ofCall t with
  | false =>
      rw [htrans.call_of_other hrun hbusy hact]
      simp only [Bool.false_eq_true, if_false, List.append_nil]
      exact ⟨hsend, hnets⟩
  | true =>
      cases htrans with
      | @call t' _ _ _ _ hc =>
          obtain rfl : t' = t := by simpa [Act.ofCall] using hact
          refine ⟨fun hbusy' => ?_, ?_⟩
          · rcases hc.send hb with hsame | ⟨code, hdone⟩
            · exact hsame
            · simp [hdone, Call.free] at hbusy'
          · have bal := hrun.balanced
            rcases hc.nets bal (hrun.live_of_send bal hb)
              (hrun.guards.calls.placed t') hb with
              hsent | ⟨hunsent, hgroup, hcount⟩
            · exact .inl hsent
            · rcases hnets with hsent | hnets
              · simp [hunsent] at hsent
              · exact .inr (hnets.step hgroup hcount)
      | _ => simp [Act.ofCall] at hact

/-- **Failed sends.**  Whatever else happens while a send is in progress: if
it fails, its own steps have changed no group, and have raised the count of
each message as often as they have lowered it. -/
theorem Trace.failed_send (h : Trace L (serial L) tr s)
    (hstart : s.call t = .sendTest b) (hduring : Run (During L t) s own s')
    {code : Int} (hdone : s'.call t = .done code)
    (hcode : code ≠ Errno.success) :
    (∀ p ∈ own, p.2.group = p.1.group) ∧
      ∀ m, Ledger.total own (fun p => p.2.count m) =
        Ledger.total own fun p => p.1.count m := by
  rcases (h.nets hstart hduring).2 with hsent | hnets
  · simp [hdone, Call.sent, hcode] at hsent
  · exact ⟨hnets.groups, by simpa [hdone, Call.pending] using hnets.counts⟩

end Core
end Eaf

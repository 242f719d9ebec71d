import Eaf.Powerpack.CallReferences
import Mathlib.Data.Multiset.AddSub

/-!
# The tables of calls by message

Which records there are, which of them are in which table, and which answers
are still under way.  A record keeps its request alive, so the addresses of
the requests tell the records apart.
-/

namespace Eaf
namespace Powerpack

open Core KeyedTable

/-- The response the message service has not yet stored. -/
def HandlerPc.unstored : HandlerPc → List MsgRef
  | .entered m | .counted m => [m]
  | .idle | .resume _ _ | .leave _ => []

/-- The requests whose receivers have not answered. -/
def unanswered (inbox : List Request) : List MsgRef :=
  (inbox.filter fun e => !e.answered).map fun e => e.req

/-- The requests whose response is still to be stored, when `f` tells which
request a response is for. -/
def outstandingBy (f : MsgRef → MsgRef) (inbox : List Request)
    (queue : List MsgRef) (handler : HandlerPc) : Multiset MsgRef :=
  (unanswered inbox : Multiset MsgRef) +
    (handler.unstored ++ queue).map f

namespace Calls

/-- The `uuid` in a message. -/
def uuidOf (s : Calls) (m : MsgRef) : MsgRef :=
  ((s.msg m).map fun x => x.uuid).getD 0

def outstanding (s : Calls) : Multiset MsgRef :=
  outstandingBy s.uuidOf s.inbox s.queue s.handler

/-- A message that is used as a request. -/
def Requested (s : Calls) (m : MsgRef) : Prop :=
  (∃ c, (s.pc c).req = some m) ∨
    (∃ r rec, s.record r = some rec ∧ rec.origReq = m) ∨
      ∃ e ∈ s.inbox, e.req = m

/-- The records and the tables fit together. -/
structure Keyed (s : Calls) : Prop where
  rec_uuid : ∀ {r rec}, s.record r = some rec → rec.uuid = rec.origReq
  rec_inj : ∀ {r r' rec rec'}, s.record r = some rec →
    s.record r' = some rec' → rec.origReq = rec'.origReq → r = r'
  req_rec : ∀ {c m r rec}, (s.pc c).req = some m → s.record r = some rec →
    rec.origReq ≠ m
  req_inj : ∀ {c c' m}, (s.pc c).req = some m → (s.pc c').req = some m → c = c'
  self : ∀ {m x}, s.Requested m → s.msg m = some x → x.uuid = m
  pend : ∀ {u r}, s.pendTable u = some r →
    ∃ rec, s.record r = some rec ∧ rec.uuid = u ∧ rec.origRsp = none
  ready : ∀ {u r}, s.readyTable u = some r →
    ∃ rec, s.record r = some rec ∧ rec.uuid = u
  disjoint : ∀ {u r}, s.pendTable u = some r → s.readyTable u = none

/-- Every answer under way is the only one, and waited for. -/
structure Due (s : Calls) : Prop where
  nodup : s.outstanding.Nodup
  pend : ∀ {u}, u ∈ s.outstanding → ∃ r, s.pendTable u = some r

/-- The record of the current call of `c`. -/
def Own (s : Calls) (c : UInt32) (r : RecordRef) (rsp : Option MsgRef) : Prop :=
  ∃ ret, s.record r = some ⟨s.unsafe0 c, s.unsafe0 c, rsp, c, ret⟩

end Calls

variable {calm : Prop} {s s' : Calls} {events : List CallEvent}
  {c c' idTo : UInt32} {m a u : MsgRef} {r r' : RecordRef} {x x' : Msg} {n : Nat}
  {rec rec' : MessageRecord} {pc : CallerPc} {rsp rsp' : Option MsgRef}

/-! ## Messages keep what is written in them -/

theorem withRefs_uuid (h : withRefs x n = some x') : x'.uuid = x.uuid := by
  cases n <;> simp [withRefs] at h
  rw [← h]

/-- No step changes the `uuid` of a message. -/
theorem CallTrans.keeps_uuid (h : CallTrans calm s events s')
    (hx : s.msg m = some x) (hx' : s'.msg m = some x') : x'.uuid = x.uuid := by
  have hset : ∀ {a y k}, s.msg a = some y →
      (s.setMsg a (withRefs y k)).msg m = some x' → x'.uuid = x.uuid := by
    intro a y k hy h'
    by_cases hm : m = a
    · subst hm
      rw [hx] at hy
      cases hy
      rw [Calls.setMsg_msg, Function.update_self] at h'
      exact withRefs_uuid h'
    · rw [Calls.setMsg_msg, Function.update_of_ne hm, hx] at h'
      cases h'
      rfl
  have hnew : ∀ {a o}, s.msg a = none →
      (s.setMsg a o).msg m = some x' → x'.uuid = x.uuid := by
    intro a o ha h'
    have hne : m ≠ a := by
      rintro rfl
      rw [hx] at ha
      cases ha
    rw [Calls.setMsg_msg, Function.update_of_ne hne, hx] at h'
    cases h'
    rfl
  have hsame : s.msg m = some x' → x'.uuid = x.uuid := by
    intro h'
    rw [hx] at h'
    cases h'
    rfl
  have hresume : ∀ c, (s.eafResume c).1.msg = s.msg := by
    intro c
    unfold Calls.eafResume
    split <;> rfl
  cases h with
  | begin _ _ _ _ _ hfree | respond _ _ hfree => exact hnew hfree hx'
  | send _ _ _ hmsg | found _ _ hmsg | release _ hmsg | forget _ hmsg
  | entered _ hmsg | leave _ hmsg => exact hset hmsg hx'
  | wakeUp _ | resumeOther _ => exact hsame (by rw [← hresume]; exact hx')
  | _ => exact hsame hx'

/-- A message that is held before and after a step keeps its `uuid`. -/
theorem CallTrans.uuidOf_eq (h : CallTrans calm s events s')
    (hx : ∃ x, s.msg m = some x) (hx' : ∃ x, s'.msg m = some x) :
    s'.uuidOf m = s.uuidOf m := by
  obtain ⟨x, hx⟩ := hx
  obtain ⟨x', hx'⟩ := hx'
  simp only [Calls.uuidOf, hx, hx', Option.map_some, Option.getD_some]
  exact h.keeps_uuid hx hx'

theorem Calls.Balanced.live_unstored (h : s.Balanced)
    (hm : m ∈ s.handler.unstored) : ∃ x, s.msg m = some x := by
  refine h.live (p := .handler) ?_
  cases hpc : s.handler <;> rw [hpc] at hm <;>
    simp_all [Calls.held, HandlerPc.held, HandlerPc.unstored, one_self]

/-- What is outstanding after a step, read with the messages before it. -/
theorem CallTrans.outstanding_eq (h : CallTrans calm s events s')
    (bal' : s'.Balanced)
    (hold : ∀ m ∈ s'.handler.unstored ++ s'.queue, ∃ x, s.msg m = some x) :
    s'.outstanding =
      outstandingBy s.uuidOf s'.inbox s'.queue s'.handler := by
  unfold Calls.outstanding outstandingBy
  refine congrArg _ (congrArg _ (List.map_congr_left fun m hm => ?_))
  refine h.uuidOf_eq (hold m hm) ?_
  rcases List.mem_append.mp hm with hm | hm
  · exact bal'.live_unstored hm
  · exact bal'.live_queue hm

end Powerpack
end Eaf

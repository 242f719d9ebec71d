import Eaf.Foundation.Ledger
import Eaf.Powerpack.CallSteps

/-!
# The references of calls by message

Who holds a reference to a message while calls are made, and that the counts
in the messages are right.  So a message is there as long as anybody can use
it, and an address that is free is known to nobody.
-/

namespace Eaf
namespace Powerpack

open Core KeyedTable

/-- Where references are. -/
inductive Place
  | caller (c : UInt32)
  | record (r : RecordRef)
  | inbox
  | queue
  | handler
  deriving DecidableEq

/-- A reference to the message `a`. -/
def one (a m : MsgRef) : Nat := if a = m then 1 else 0

/-- The request a caller has not yet put into a record. -/
def CallerPc.req : CallerPc → Option MsgRef
  | .yielding req | .proxy req => some req
  | _ => none

def CallerPc.held (pc : CallerPc) (m : MsgRef) : Nat :=
  match pc with
  | .yielding a | .proxy a | .deserialize (some a) | .release (some a) =>
      one a m
  | _ => 0

def MessageRecord.held (rec : MessageRecord) (m : MsgRef) : Nat :=
  one rec.origReq m + (rec.origRsp.map fun a => one a m).getD 0

def HandlerPc.held (pc : HandlerPc) (m : MsgRef) : Nat :=
  match pc with
  | .idle => 0
  | .counted a => 2 * one a m
  | .entered a | .resume a _ | .leave a => one a m

/-- The references to a message that are held at a place. -/
def Calls.held (s : Calls) : Place → MsgRef → Nat
  | .caller c, m => (s.pc c).held m
  | .record r, m => ((s.record r).map fun rec => rec.held m).getD 0
  | .inbox, m => s.inbox.countP fun e => e.req = m
  | .queue, m => s.queue.count m
  | .handler, m => s.handler.held m

/-- The count in a message, `0` where there is none. -/
def Calls.refcnt (s : Calls) (m : MsgRef) : Nat :=
  ((s.msg m).map fun x => x.refcnt).getD 0

/-- The counts are right, and no message is there that nobody refers to. -/
structure Calls.Balanced (s : Calls) : Prop where
  accounts : Ledger.Balances s.held s.refcnt
  pos : ∀ m x, s.msg m = some x → 0 < x.refcnt

variable {calm : Prop} {s s' : Calls} {events : List CallEvent} {c : UInt32}
  {m a : MsgRef} {r : RecordRef} {x : Msg} {p : Place} {n : Nat}
  {rec : MessageRecord} {pc : CallerPc}

theorem one_self (a : MsgRef) : one a a = 1 := if_pos rfl

/-- A message that somebody holds is there. -/
theorem Calls.Balanced.live (h : s.Balanced) (hheld : 0 < s.held p m) :
    ∃ x, s.msg m = some x := by
  cases hmsg : s.msg m with
  | some x => exact ⟨x, rfl⟩
  | none =>
      have hzero : s.refcnt m = 0 := by simp [Calls.refcnt, hmsg]
      have hnone := h.accounts.eq_zero hzero p
      omega

/-- Nobody holds a message that is not there. -/
theorem Calls.Balanced.free (h : s.Balanced) (hmsg : s.msg m = none)
    (p : Place) : s.held p m = 0 :=
  h.accounts.eq_zero (by simp [Calls.refcnt, hmsg]) p

theorem Calls.Balanced.live_record (h : s.Balanced)
    (hrec : s.record r = some rec) : ∃ x, s.msg rec.origReq = some x :=
  h.live (p := .record r) (by
    simp only [Calls.held, hrec, Option.map_some, Option.getD_some,
      MessageRecord.held, one_self]
    omega)

theorem Calls.Balanced.live_req (h : s.Balanced)
    (hreq : (s.pc c).req = some m) : ∃ x, s.msg m = some x := by
  refine h.live (p := .caller c) ?_
  unfold CallerPc.req at hreq
  split at hreq <;> cases hreq <;>
    simp_all [Calls.held, CallerPc.held, one_self]

theorem Calls.Balanced.live_inbox (h : s.Balanced) {e : Request}
    (he : e ∈ s.inbox) : ∃ x, s.msg e.req = some x :=
  h.live (p := .inbox) (List.countP_pos_iff.mpr ⟨e, he, by simp⟩)

theorem Calls.Balanced.live_queue (h : s.Balanced) (hm : m ∈ s.queue) :
    ∃ x, s.msg m = some x :=
  h.live (p := .queue) (List.count_pos_iff.mpr hm)

/-! ## Steps -/

/-- A count is changed. -/
theorem Calls.refcnt_setMsg :
    (s.setMsg a (withRefs x n)).refcnt m =
      if m = a then n else s.refcnt m := by
  by_cases hm : m = a
  · subst hm
    cases n <;> simp [Calls.refcnt, Calls.setMsg, withRefs]
  · simp [Calls.refcnt, Calls.setMsg, hm]

/-- What is left of a message has a count. -/
theorem Calls.pos_setMsg (h : ∀ m x, s.msg m = some x → 0 < x.refcnt) :
    ∀ m x', (s.setMsg a (withRefs x n)).msg m = some x' → 0 < x'.refcnt := by
  intro m x' hx'
  by_cases hm : m = a
  · subst hm
    cases n with
    | zero => simp [Calls.setMsg, withRefs] at hx'
    | succ n =>
        simp only [Calls.setMsg_msg, withRefs, Function.update_self,
          Option.some.injEq] at hx'
        rw [← hx']
        exact Nat.succ_pos n
  · rw [Calls.setMsg_msg, Function.update_of_ne hm] at hx'
    exact h m x' hx'

theorem Calls.refcnt_of_some (h : s.msg m = some x) : s.refcnt m = x.refcnt := by
  simp [Calls.refcnt, h]

theorem Calls.held_setPc (hp : p ≠ .caller c) : (s.setPc c pc).held p = s.held p := by
  cases p with
  | caller c' =>
      have hne : c' ≠ c := fun heq => hp (heq ▸ rfl)
      funext m
      simp only [Calls.held, Calls.setPc_pc, Function.update_of_ne hne]
  | _ => rfl

theorem Calls.held_setPc_self : (s.setPc c pc).held (.caller c) = pc.held := by
  funext m
  simp only [Calls.held, Calls.setPc_pc, Function.update_self]

theorem Calls.held_setRecord {o : Option MessageRecord} (hp : p ≠ .record r) :
    (s.setRecord r o).held p = s.held p := by
  cases p with
  | record r' =>
      have hne : r' ≠ r := fun heq => hp (heq ▸ rfl)
      funext m
      simp only [Calls.held, Calls.setRecord_record, Function.update_of_ne hne]
  | _ => rfl

theorem Calls.held_setMsg {o : Option Msg} : (s.setMsg a o).held p = s.held p := by
  cases p <;> rfl

/-- A step that moves no reference and changes no count. -/
theorem Calls.Balanced.same (h : s.Balanced) (hheld : s'.held = s.held)
    (hmsg : s'.msg = s.msg) : s'.Balanced where
  accounts := by
    have hcount : s'.refcnt = s.refcnt := by
      funext m
      rw [Calls.refcnt, Calls.refcnt, hmsg]
    rw [hheld, hcount]
    exact h.accounts
  pos := by
    rw [hmsg]
    exact h.pos

/-- A caller goes on with the references it has. -/
theorem Calls.Balanced.setPc (h : s.Balanced)
    (hheld : pc.held = (s.pc c).held) : (s.setPc c pc).Balanced := by
  refine h.same ?_ rfl
  funext p
  by_cases hp : p = .caller c
  · subst hp
    rw [Calls.held_setPc_self, hheld]
    rfl
  · exact Calls.held_setPc hp

/-- Every step keeps the accounts. -/
theorem CallTrans.balanced (h : CallTrans calm s events s') (bal : s.Balanced)
    (hpend : ∀ u r rec, s.pendTable u = some r → s.record r = some rec →
      rec.origRsp = none) : s'.Balanced := by
  cases h with
  | @begin c a dst msgId size hpc hstate hfree =>
      refine ⟨bal.accounts.change (.caller c) (fun p hp => ?_) fun m => ?_, ?_⟩
      · rw [Calls.held_setPc hp, Calls.held_setMsg]
        cases p <;> rfl
      · have hzero : s.refcnt a = 0 := by simp [Calls.refcnt, hfree]
        have hcount : ((((s.setWord c (setW1 (s.unsafe0 c) dst)).setMsg a
            (some (msgCreateReq a msgId size responseHandler))).setPc c
              (.yielding a)).refcnt m) = if m = a then 1 else s.refcnt m := by
          by_cases hm : m = a <;> simp [Calls.refcnt, hm]
        rw [hcount, Calls.held_setPc_self]
        simp only [Calls.held, hpc, CallerPc.held, one]
        by_cases hm : m = a
        · subst hm
          simp [hzero]
        · simp [hm, Ne.symm hm]
      · intro m x hx
        by_cases hm : m = a
        · subst hm
          simp only [Calls.setPc_msg, Calls.setMsg_msg, Function.update_self,
            Option.some.injEq] at hx
          rw [← hx]
          exact Nat.one_pos
        · simp only [Calls.setPc_msg, Calls.setMsg_msg,
            Function.update_of_ne hm] at hx
          exact bal.pos m x hx
  | noMemory => exact bal
  | @yield c req hpc =>
      have hstate : (s.setState c .yield).Balanced :=
        bal.same (by funext p; cases p <;> rfl) rfl
      exact hstate.setPc (by simp only [Calls.setState_pc, hpc]; rfl)
  | @proxy c req r x hpc hfree hmsg =>
      -- the reference goes from the caller to its record
      refine ⟨bal.accounts.change₂ (a := .caller c) (b := .record r) (by simp)
        (fun p hp hp' => ?_) fun m => ?_, bal.pos⟩
      · rw [Calls.held_setPc hp, Calls.held_setRecord hp']
        cases p <;> rfl
      · rw [Calls.held_setPc_self, Calls.held_setPc (by simp)]
        simp only [Calls.held, Calls.setRecord_record, Function.update_self,
          hpc, hfree, CallerPc.held, MessageRecord.held, Option.map_some,
          Option.map_none, Option.getD_some, Option.getD_none, Calls.refcnt,
          Calls.setPc_msg, Calls.setRecord_msg, Calls.setWord_msg]
        omega
  | @insert c idTo r rec hpc hrec hnone =>
      have htables : (s.setTables (Function.update s.pendTable rec.uuid (some r))
          s.readyTable).Balanced :=
        bal.same (by funext p; cases p <;> rfl) rfl
      exact htables.setPc (by simp only [Calls.setTables_pc, hpc]; rfl)
  | sendFails hpc => exact bal.setPc (by rw [hpc]; rfl)
  | @send c idTo r code rec x hpc hcode hrec hmsg =>
      refine ⟨bal.accounts.change .inbox (fun p hp => ?_) fun m => ?_,
        Calls.pos_setMsg bal.pos⟩
      · by_cases hp' : p = .caller c
        · subst hp'
          funext m
          simp only [Calls.held, Calls.setPc_pc, Function.update_self, hpc]
          rfl
        · have hsame : ((s.setMsg rec.origReq
              (withRefs x (x.refcnt + 1))).setPc c .sent).held p =
                (s.setMsg rec.origReq (withRefs x (x.refcnt + 1))).held p :=
            Calls.held_setPc hp'
          rw [Calls.held_setMsg] at hsame
          rw [← hsame]
          cases p with
          | inbox => exact absurd rfl hp
          | _ => rfl
      · show (s.setMsg rec.origReq (withRefs x (x.refcnt + 1))).refcnt m +
          s.inbox.countP (fun e => e.req = m) = s.refcnt m +
            (s.inbox ++ [Request.mk idTo rec.origReq false]).countP
              (fun e => e.req = m)
        rw [Calls.refcnt_setMsg, List.countP_append, List.countP_singleton]
        have hx := Calls.refcnt_of_some hmsg
        by_cases hm : m = rec.origReq
        · subst hm
          simp only [if_true, decide_true]
          omega
        · simp [hm, Ne.symm hm]
  | @errSendReq c r code rec ready hpc hrec hpend' hready =>
      have hrecord : ((s.setTables (Function.update s.pendTable rec.uuid none)
          ready).setRecord r (some { rec with ret := code })).Balanced := by
        refine bal.same ?_ rfl
        funext p
        by_cases hp : p = .record r
        · subst hp
          funext m
          simp only [Calls.held, Calls.setRecord_record, Function.update_self,
            hrec]
          rfl
        · rw [Calls.held_setRecord hp]
          cases p <;> rfl
      exact hrecord.setPc (by
        simp only [Calls.setRecord_pc, Calls.setTables_pc, hpc]; rfl)
  | @wakeUp c hpc =>
      obtain ⟨state, heq⟩ := s.eafResume_eq c
      have hstate : (s.setState c state).Balanced :=
        bal.same (by funext p; cases p <;> rfl) rfl
      rw [heq]
      exact hstate.setPc (by simp only [Calls.setState_pc, hpc]; rfl)
  | sent hpc => exact bal.setPc (by rw [hpc]; rfl)
  | waiting hpc => exact bal.setPc (by rw [hpc]; rfl)
  | notFound hpc => exact bal.setPc (by rw [hpc]; rfl)
  | @finalize c r hpc hready =>
      have htables : (s.setTables s.pendTable
          (Function.update s.readyTable (s.unsafe0 c) none)).Balanced :=
        bal.same (by funext p; cases p <;> rfl) rfl
      exact htables.setPc (by simp only [Calls.setTables_pc, hpc]; rfl)
  | @found c r rec x hpc hrec hmsg =>
      -- the record gives up the request, and the caller gets the response
      refine ⟨bal.accounts.change₂ (a := .caller c) (b := .record r) (by simp)
        (fun p hp hp' => ?_) fun m => ?_, Calls.pos_setMsg bal.pos⟩
      · rw [Calls.held_setPc hp, Calls.held_setRecord hp', Calls.held_setMsg]
      · rw [Calls.held_setPc_self, Calls.held_setPc (by simp)]
        show (s.setMsg rec.origReq (withRefs x (x.refcnt - 1))).refcnt m + _ = _
        rw [Calls.refcnt_setMsg]
        have hx := Calls.refcnt_of_some hmsg
        have hpos := bal.pos _ x hmsg
        simp only [Calls.held, Calls.setRecord_record, Function.update_self,
          hpc, hrec, CallerPc.held, MessageRecord.held, Option.map_some,
          Option.map_none, Option.getD_some, Option.getD_none]
        have hrsp : (rec.origRsp.map fun a => one a m).getD 0 =
            (CallerPc.deserialize rec.origRsp).held m := by
          cases rec.origRsp <;> rfl
        rw [hrsp]
        by_cases hm : m = rec.origReq
        · subst hm
          rw [if_pos rfl, one_self]
          simp only [CallerPc.held]
          omega
        · rw [if_neg hm, one, if_neg (Ne.symm hm)]
          simp only [CallerPc.held]
          omega
  | @deserialize c rsp hpc =>
      refine bal.setPc ?_
      rw [hpc]
      cases rsp <;> rfl
  | @release c rsp x hpc hmsg =>
      refine ⟨bal.accounts.change (.caller c) (fun p hp => ?_) fun m => ?_,
        Calls.pos_setMsg bal.pos⟩
      · rw [Calls.held_setPc hp, Calls.held_setMsg]
      · rw [Calls.held_setPc_self]
        show (s.setMsg rsp (withRefs x (x.refcnt - 1))).refcnt m + _ = _
        rw [Calls.refcnt_setMsg]
        have hx := Calls.refcnt_of_some hmsg
        have hpos := bal.pos _ x hmsg
        simp only [Calls.held, hpc, CallerPc.held]
        by_cases hm : m = rsp
        · subst hm
          rw [if_pos rfl, one_self]
          omega
        · rw [if_neg hm, one, if_neg (Ne.symm hm)]
  | @respond e before after a x size hinbox hfree hnew hmsg =>
      refine ⟨bal.accounts.change .queue (fun p hp => ?_) fun m => ?_, ?_⟩
      · cases p with
        | queue => exact absurd rfl hp
        | inbox =>
            funext m
            simp only [Calls.held, hinbox, List.countP_append,
              List.countP_cons]
        | _ => rfl
      · have hzero : s.refcnt a = 0 := by simp [Calls.refcnt, hfree]
        show (s.setMsg a (some (msgCreateRsp x size))).refcnt m +
          s.queue.count m = s.refcnt m + (s.queue ++ [a]).count m
        have hcount : (s.setMsg a (some (msgCreateRsp x size))).refcnt m =
            if m = a then 1 else s.refcnt m := by
          by_cases hm : m = a <;> simp [Calls.refcnt, hm]
        rw [hcount, List.count_append, List.count_singleton]
        by_cases hm : m = a
        · subst hm
          simp only [if_true, beq_self_eq_true]
          omega
        · simp [hm, Ne.symm hm]
      · intro m x' hx
        by_cases hm : m = a
        · subst hm
          simp only [Calls.setMsg_msg, Function.update_self,
            Option.some.injEq] at hx
          rw [← hx]
          exact Nat.one_pos
        · simp only [Calls.setMsg_msg, Function.update_of_ne hm] at hx
          exact bal.pos m x' hx
  | @forget e before after x hinbox hmsg =>
      refine ⟨bal.accounts.change .inbox (fun p hp => ?_) fun m => ?_,
        Calls.pos_setMsg bal.pos⟩
      · cases p with
        | inbox => exact absurd rfl hp
        | _ => rfl
      · show (s.setMsg e.req (withRefs x (x.refcnt - 1))).refcnt m +
          s.inbox.countP (fun e => e.req = m) = s.refcnt m +
            (before ++ after).countP (fun e => e.req = m)
        rw [Calls.refcnt_setMsg, hinbox, List.countP_append, List.countP_append,
          List.countP_cons]
        have hx := Calls.refcnt_of_some hmsg
        have hpos := bal.pos _ x hmsg
        by_cases hm : m = e.req
        · subst hm
          simp only [if_true, decide_true]
          omega
        · simp [hm, Ne.symm hm]
  | @take m rest hpc hqueue =>
      refine ⟨bal.accounts.change₂ (a := .queue) (b := .handler) (by simp)
        (fun p hp hp' => ?_) fun k => ?_, bal.pos⟩
      · cases p with
        | queue => exact absurd rfl hp
        | handler => exact absurd rfl hp'
        | _ => rfl
      · show s.refcnt k + (s.queue.count k + s.handler.held k) =
          s.refcnt k + (rest.count k + one m k)
        rw [hqueue, hpc, List.count_cons]
        by_cases hk : m = k
        · subst hk
          simp only [beq_self_eq_true, if_true, HandlerPc.held, one_self]
        · simp [hk, HandlerPc.held, one]
  | @entered m x hpc hmsg =>
      refine ⟨bal.accounts.change .handler (fun p hp => ?_) fun k => ?_,
        Calls.pos_setMsg bal.pos⟩
      · cases p with
        | handler => exact absurd rfl hp
        | _ => rfl
      · show (s.setMsg m (withRefs x (x.refcnt + 1))).refcnt k +
          s.handler.held k = s.refcnt k + 2 * one m k
        rw [Calls.refcnt_setMsg, hpc]
        have hx := Calls.refcnt_of_some hmsg
        by_cases hk : k = m
        · subst hk
          simp only [if_true, HandlerPc.held, one_self]
          omega
        · simp [hk, Ne.symm hk, HandlerPc.held, one]
  | @counted m x r rec hpc hmsg hpend' hready hrec =>
      -- a reference goes from the handler to the record
      refine ⟨bal.accounts.change₂ (a := .handler) (b := .record r) (by simp)
        (fun p hp hp' => ?_) fun k => ?_, bal.pos⟩
      · cases p with
        | handler => exact absurd rfl hp
        | record r' =>
            have hne : r' ≠ r := fun heq => hp' (heq ▸ rfl)
            funext k
            simp only [Calls.held, Calls.setRecord_record,
              Function.update_of_ne hne, Calls.setTables_record]
        | _ => rfl
      · have hnone := hpend _ r rec hpend' hrec
        simp only [Calls.held, hpc, Calls.setRecord_record,
          Function.update_self, hrec, Option.map_some, Option.getD_some,
          MessageRecord.held, hnone, HandlerPc.held, Option.map_none,
          Option.getD_none, Calls.refcnt, Calls.setRecord_msg,
          Calls.setTables_msg]
        omega
  | resume hpc =>
      refine bal.same ?_ rfl
      funext p
      cases p with
      | handler =>
          funext k
          simp only [Calls.held, hpc]
          rfl
      | _ => rfl
  | @leave m x hpc hmsg =>
      refine ⟨bal.accounts.change .handler (fun p hp => ?_) fun k => ?_,
        Calls.pos_setMsg bal.pos⟩
      · cases p with
        | handler => exact absurd rfl hp
        | _ => rfl
      · show (s.setMsg m (withRefs x (x.refcnt - 1))).refcnt k +
          s.handler.held k = s.refcnt k + 0
        rw [Calls.refcnt_setMsg, hpc]
        have hx := Calls.refcnt_of_some hmsg
        have hpos := bal.pos _ x hmsg
        by_cases hk : k = m
        · subst hk
          simp only [if_true, HandlerPc.held, one_self]
          omega
        · simp [hk, Ne.symm hk, HandlerPc.held, one]
  | elsewhere => exact bal.same (by funext p; cases p <;> rfl) rfl
  | resumeOther c =>
      obtain ⟨state, heq⟩ := s.eafResume_eq c
      rw [heq]
      exact bal.same (by funext p; cases p <;> rfl) rfl
  | abort => exact bal.same (by funext p; cases p <;> rfl) rfl

end Powerpack
end Eaf

import Eaf.Foundation.Ledger
import Eaf.Group.ServiceFacts

/-!
# The references a group holds

Every record that waits, is current, or is in the hands of the worker holds a
reference to its message, and the answer of a teardown is held by the worker.
Each step of the worker changes this by what its events say it dropped or
gained.
-/

namespace Eaf
namespace Core

variable {c : GroupTable} {G G' : Group} {i : Nat} {S : Service} {m : MsgRef}
  {e : Env} {o : Outcome} {events : List GroupEvent} {r : MsgqRecord}

/-- One for the message itself, zero for any other. -/
def here (m m' : MsgRef) : Nat := if m' = m then 1 else 0

@[simp] theorem here_self (m : MsgRef) : here m m = 1 := by simp [here]

/-- The records of a service: the current one and those that wait. -/
def Service.records (S : Service) : List MsgqRecord :=
  S.curMsg.toList ++ S.queue

/-- The references of a service to a message. -/
def Service.refs (S : Service) (m : MsgRef) : Nat :=
  Ledger.total S.records fun r => here m r.msg

/-- The references the worker has in its hands, besides the current message:
a record that teardown popped, and the answer to its request. -/
def Pc.refs (m : MsgRef) : Pc → Nat
  | .tdMsg _ r cur | .tdFree _ r cur => if cur then 0 else here m r.msg
  | .tdSend _ r rsp cur => (if cur then 0 else here m r.msg) + here m rsp
  | _ => 0

/-- The references of a group to a message. -/
def Group.refs (c : GroupTable) (G : Group) (m : MsgRef) : Nat :=
  G.worker.refs m +
    Ledger.total (List.range c.size) fun i => (G.table i).refs m

@[simp] theorem handlerPc_refs (ph : Phase) (fn : Option Fn) :
    (handlerPc ph i fn).refs m = 0 := by
  cases fn <;> rfl

/-! ## Changing one service -/

/-- The references of a group after one service was replaced. -/
theorem Group.refs_update {H : Group} (hi : i < c.size)
    (htable : H.table = Function.update G.table i S) :
    H.refs c m + (G.table i).refs m + G.worker.refs m =
      G.refs c m + S.refs m + H.worker.refs m := by
  have hchange := Ledger.total_change
    (f := fun j => (G.table j).refs m) (g := fun j => (H.table j).refs m)
    (List.nodup_range (n := c.size)) (List.mem_range.mpr hi)
    (fun j hj => by rw [htable, Function.update_of_ne hj])
  rw [htable] at hchange
  simp only [Function.update_self] at hchange
  simp only [Group.refs, htable]
  omega

/-- Only the records count. -/
theorem Group.refs_congr {H : Group}
    (htable : ∀ j, (H.table j).records = (G.table j).records) :
    H.refs c m + G.worker.refs m = G.refs c m + H.worker.refs m := by
  have hsame : Ledger.total (List.range c.size) (fun j => (H.table j).refs m) =
      Ledger.total (List.range c.size) fun j => (G.table j).refs m :=
    Ledger.total_congr fun j _ => by simp only [Service.refs, htable j]
  simp only [Group.refs, hsame]
  omega

/-- When the records stay where they are, only the worker's hands count. -/
theorem Group.refs_of_same {H : Group} {dropped gained : Nat}
    (htable : ∀ j, (H.table j).records = (G.table j).records)
    (hworker : H.worker.refs m + dropped = G.worker.refs m + gained) :
    H.refs c m + dropped = G.refs c m + gained := by
  have hcongr := Group.refs_congr (c := c) (m := m) htable
  omega

/-- Replacing a service by one with the same records. -/
theorem records_update {T : Nat → Service} (hS : S.records = (T i).records)
    (j : Nat) : (Function.update T i S j).records = (T j).records := by
  by_cases hj : j = i
  · subst hj
    simpa using hS
  · simp [hj]

/-- A push adds the record. -/
theorem Group.refs_push (hi : i < c.size) (h : G.pushMsg i r = some G') :
    G'.refs c m = G.refs c m + here m r.msg := by
  obtain ⟨-, htable, hworker, -⟩ := Group.pushMsg_some h
  have hupdate := Group.refs_update (m := m) hi htable
  rw [hworker] at hupdate
  have hadded : Service.refs { G.table i with
      state := Group.pushedState (G.table i).state
      queue := (G.table i).queue ++ [r] } m =
      (G.table i).refs m + here m r.msg := by
    simp [Service.refs, Service.records, Nat.add_assoc]
  omega

/-! ## The worker -/

/-- The references that an event shows being dropped. -/
def GroupEvent.dropped (m : MsgRef) : GroupEvent → Nat
  | .release _ r | .purge _ r => here m r.msg
  | .answered _ _ rsp _ => here m rsp
  | _ => 0

/-- The references that an event shows being made. -/
def GroupEvent.gained (m : MsgRef) : GroupEvent → Nat
  | .answer _ _ rsp => here m rsp
  | _ => 0

/-- The references of a group change by what its worker drops and gains. -/
theorem WorkerTrans.refs (inv : GroupInv c G)
    (h : WorkerTrans c e G o G' events) :
    G'.refs c m + Ledger.total events (GroupEvent.dropped m) =
      G.refs c m + Ledger.total events (GroupEvent.gained m) := by
  have hfocus := inv.focus
  cases h
  case popSome ph i r rest h hq =>
    have hi := hfocus i (by rw [h]; rfl)
    have hcur : (G.table i).curMsg = none := by
      have hholds := (inv.sound i hi).holds
      rw [h] at hholds
      exact (hholds rfl).2
    have hupdate := Group.refs_congr (c := c) (m := m) (G := G)
      (H := (G.setService i { G.table i with
        curMsg := some r, queue := rest }).goto (.hookBefore ph i))
      (records_update (by simp [Service.records, hq, hcur]))
    simpa [h, Pc.refs, GroupEvent.dropped, GroupEvent.gained] using hupdate
  case reset ph i r h hcur =>
    have hi := hfocus i (by rw [h]; rfl)
    have hupdate := Group.refs_update (m := m) (G := G)
      (H := (G.setService i { G.table i with
        branch := 0, curMsg := none }).goto (.loopTest ph)) hi rfl
    simp [h, Pc.refs, Service.refs, Service.records, hcur,
      GroupEvent.dropped, GroupEvent.gained] at hupdate ⊢
    omega
  case tdFreeCur i r h =>
    have hi := hfocus i (by rw [h]; rfl)
    have hcur : (G.table i).curMsg = some r := by
      have hholds := (inv.sound i hi).holds
      rw [h] at hholds
      exact (hholds rfl).2
    have hupdate := Group.refs_update (m := m) (G := G)
      (H := (G.setService i { G.table i with curMsg := none }).goto
        (.tdPop i)) hi rfl
    simp [h, Pc.refs, Service.refs, Service.records, hcur,
      GroupEvent.dropped, GroupEvent.gained] at hupdate ⊢
    omega
  case tdPopSome i r rest h hq =>
    have hi := hfocus i (by rw [h]; rfl)
    have hcur : (G.table i).curMsg = none := by
      have hholds := (inv.sound i hi).holds
      rw [h] at hholds
      exact (hholds rfl).2
    have hupdate := Group.refs_update (m := m) (G := G)
      (H := (G.setService i { G.table i with queue := rest }).goto
        (.tdMsg i r false)) hi rfl
    simp [h, Pc.refs, Service.refs, Service.records, hq, hcur,
      GroupEvent.dropped, GroupEvent.gained] at hupdate ⊢
    omega
  case readyNone n h _ =>
    refine Group.refs_of_same (fun _ => rfl) ?_
    split <;> simp [h, Pc.refs, GroupEvent.dropped, GroupEvent.gained]
  case initDone idx caller h _ _ =>
    refine Group.refs_of_same (fun j => ?_) ?_
    · simp only [Group.goto_table, Group.finishServiceInit_table,
        Group.setService_table, Function.update_idem]
      exact records_update (by simp [Service.records]) j
    · cases caller <;>
        simp [h, Pc.refs, afterInit, GroupEvent.dropped, GroupEvent.gained]
  case popNone | handlerReturn | handledYield | tdExit0 | tdSetExit1
    | exitExit0 | exitExit1 =>
    refine Group.refs_of_same (records_update rfl) ?_
    simp_all [Pc.refs, GroupEvent.dropped, GroupEvent.gained]
  case dispatchReenter h _ _ _ | beforeStart h _ _ _ _ =>
    refine Group.refs_of_same (fun _ => rfl) ?_
    simp only [Group.goto_worker, handlerPc_refs]
    simp [h, Pc.refs, GroupEvent.dropped, GroupEvent.gained]
  all_goals
    refine Group.refs_of_same (fun _ => rfl) ?_
    simp_all [Pc.refs, GroupEvent.dropped, GroupEvent.gained]

end Core
end Eaf

import Eaf.System.RecordOrigins
import Eaf.Guarantees.ListMembership

/-!
# A record is dispatched to its handler

The handler of a record is chosen by the type bit of the message, and stored
by the send that made the record.  The two agree as long as requests go
through `eaf_send_req` and responses through `eaf_send_rsp`.
-/

namespace Eaf
namespace Core

open LabelledRun

variable {L : Layout} {s s' : Sys} {g i : Nat} {a : Act} {events : List Event}
  {log : List StepRecord} {e : StepRecord} {fn : Option Fn} {r : MsgqRecord}
  {b : SendArgs} {x y : Msg} {msg : MsgRef → Option Msg}
  {c : GroupTable} {env : Env} {G G' : Group} {o : Outcome}
  {gevents : List GroupEvent}

/-- The messages a send function is for. -/
def SendKind.msgType : SendKind → MsgType
  | .req => .req
  | .rsp => .rsp

/-- The step enters the handler `fn` for the record `r`, or finds it null. -/
def StepRecord.Dispatches (e : StepRecord) (g i : Nat) (r : MsgqRecord)
    (fn : Option Fn) : Prop :=
  .group g (.start i r fn) ∈ e.events ∨ .group g (.reenter i r fn) ∈ e.events

/-- A worker enters the handler it has chosen for the current record. -/
theorem WorkerTrans.dispatches (h : WorkerTrans c env G o G' gevents)
    (hfn : .start i r fn ∈ gevents ∨ .reenter i r fn ∈ gevents) :
    (G.table i).curMsg = some r ∧ handlerOf env.msg r = some fn := by
  cases h
  case dispatchReenter fn' _ _ _ _ | beforeStart fn' _ _ _ _ _ =>
    simp at hfn
    obtain ⟨rfl, rfl, rfl⟩ := hfn
    exact ⟨by assumption, by assumption⟩
  case readyNone => split at hfn <;> simp at hfn
  all_goals simp at hfn

/-- Only a worker calls handlers. -/
theorem SysTrans.dispatches (h : SysTrans L s a events s')
    (hfn : .group g (.start i r fn) ∈ events ∨
      .group g (.reenter i r fn) ∈ events) :
    ((s.group g).table i).curMsg = some r ∧
      handlerOf s.msg r = some fn := by
  cases h with
  | @worker k o G gevents hk hw =>
      have hgk : k = g := by
        rcases hfn with hfn | hfn <;>
          · obtain ⟨ev, -, hev⟩ := List.mem_map.mp hfn
            exact (Event.group.inj hev).1
      subst hgk
      refine hw.dispatches (hfn.imp ?_ ?_) <;>
        · intro hmem
          obtain ⟨ev, hev, heq⟩ := List.mem_map.mp hmem
          rwa [← (Event.group.inj heq).2]
  | call hlive hc => cases hc <;> simp at hfn
  | enter he => cases he <;> simp at hfn
  | user hu => simp at hfn

/-- The row of the table that the search for a handler has found. -/
theorem findHandler_some {entry : Option Entrypoint} {id : UInt32} {f : Fn}
    (h : findHandler entry id = some f) :
    ∃ table row, entry = some table ∧ row ∈ table.msgTable ∧
      row.msgId = id ∧ row.fn = f := by
  unfold findHandler at h
  split at h
  · cases h
  · next table =>
      split at h
      · cases h
      · next row hrow =>
          have hid := List.find?_some hrow
          split at h
          · cases h
          · exact ⟨table, row, rfl, List.mem_of_find?_eq_some hrow,
              eq_of_beq hid, Option.some.inj h⟩

/-- The handler the source calls for a record of a known origin. -/
def RightHandler (L : Layout) (log : List StepRecord) (b : SendArgs)
    (g i : Nat) (x : Msg) (fn : Option Fn) : Prop :=
  match b.kind with
  | .req => ∃ table row, ((L.conf g).row i).entry = some table ∧
      row ∈ table.msgTable ∧ row.msgId = x.id ∧ fn = some row.fn
  | .rsp => fn = msgGetRspFn x ∧ ResponseFn log x.uuid x.orig

/-- **Every record is dispatched to its handler.**  When the worker calls a
handler for a record, a send has put this record into the queue before, and if
the message was of the type this send is for, the handler is the right one:
for a request the one of a row of the message table with the id of the
message, for a response the one given to the request it belongs to.  For such
a record there always is a handler field that was set. -/
theorem right_handler_called (L : Layout) (h : LogRun L log s) :
    (∀ front e rest g i r fn, log = front ++ e :: rest →
      e.Dispatches g i r fn →
      ∃ b y x, Enqueued front b y g i r ∧ e.before.msg r.msg = some x ∧
        y.Alike x ∧
        (msgGetType y = b.kind.msgType → RightHandler L front b g i x fn)) ∧
    ∀ g i r, ((s.group g).table i).curMsg = some r →
      ∃ b y, Enqueued log b y g i r ∧
        (msgGetType y = b.kind.msgType → (handlerOf s.msg r).isSome) := by
  refine ⟨?_, fun g i r hcur => ?_⟩
  · rintro front e rest g i r fn rfl hfn
    obtain ⟨hfront, -, hstep, -⟩ := h.split
    obtain ⟨hcur, hhandler⟩ := (step_trans hstep).dispatches hfn
    obtain ⟨b, y, x, hpush, hx, halike, -, hreq⟩ :=
      hfront.origin (r := r) (g := g) (i := i) (by
        simp [Service.records, hcur])
    refine ⟨b, y, x, hpush, hx, halike, fun htype => ?_⟩
    rw [← halike.type] at htype
    unfold RightHandler
    split
    · next hkind =>
        obtain ⟨f, hf, hfind⟩ := hreq hkind
        obtain ⟨table, row, hentry, hrow, hid, hrowfn⟩ := findHandler_some hfind
        refine ⟨table, row, hentry, hrow, hid.trans halike.id.symm, ?_⟩
        simp [handlerOf, hx, htype, hkind, SendKind.msgType, hf] at hhandler
        rw [hrowfn, hhandler]
    · next hkind =>
        refine ⟨?_, hfront.responseFn hx⟩
        simp [handlerOf, hx, htype, hkind, SendKind.msgType] at hhandler
        exact hhandler.symm
  · obtain ⟨b, y, x, hpush, hx, halike, -, hreq⟩ :=
      h.origin (r := r) (g := g) (i := i) (by simp [Service.records, hcur])
    refine ⟨b, y, hpush, fun htype => ?_⟩
    rw [← halike.type] at htype
    cases hkind : b.kind with
    | req =>
        obtain ⟨f, hf, -⟩ := hreq hkind
        simp [handlerOf, hx, htype, hkind, SendKind.msgType, hf]
    | rsp => simp [handlerOf, hx, htype, hkind, SendKind.msgType]

/-- The worker takes the request up and is about to call its handler. -/
theorem right_handler_called_lazy :
    ∃ log s, LogRun lazyPair log s ∧
      ((s.group 0).table 0).curMsg = some ⟨0, some 7, 9, 1, 0⟩ ∧
      ∃ b y, Enqueued log b y 0 0 ⟨0, some 7, 9, 1, 0⟩ ∧
        (msgGetType y = b.kind.msgType →
          (handlerOf s.msg ⟨0, some 7, 9, 1, 0⟩).isSome) := by
  obtain ⟨tr, s, hrun, hcheck⟩ :=
    exists_trace lazyPair (serial lazyPair)
      (lazyPairRequest ++ workerSteps 0 4)
      (fun o => decide (((o.1.group 0).table 0).curMsg =
        some ⟨0, some 7, 9, 1, 0⟩)) (by decide +kernel)
  obtain ⟨log, hlog⟩ := hrun.exists_log
  have hcur := of_decide_eq_true hcheck
  exact ⟨log, s, hlog, hcur,
    (right_handler_called lazyPair hlog).2 0 0 _ hcur⟩

/-- The same message, which is a request, goes through `eaf_send_rsp`: the
worker is about to call a handler that was never stored. -/
theorem unset_handler_called :
    ∃ tr s r, Trace lazyPair (serial lazyPair) tr s ∧
      (s.group 0).worker = .hookBefore .busy 0 ∧
      ((s.group 0).table 0).curMsg = some r ∧ r.reqFn = none ∧
      (s.msg r.msg).map msgGetType = some .req := by
  obtain ⟨tr, s, hrun, hcheck⟩ :=
    exists_trace lazyPair (serial lazyPair)
      (lazyPairLoad ++
        [.user (.createReq 5 0 0),
          .enter (.client 1) (.send ⟨.rsp, 9, 1, 0, false⟩)] ++
        clientSteps 1 7 ++ workerSteps 0 7)
      (fun o => decide ((o.1.group 0).worker = .hookBefore .busy 0 ∧
        ((o.1.group 0).table 0).curMsg = some ⟨0, none, 9, 1, 0⟩ ∧
        (o.1.msg 0).map msgGetType = some .req)) (by decide +kernel)
  obtain ⟨hpc, hcur, htype⟩ := of_decide_eq_true hcheck
  exact ⟨tr, s, _, hrun, hpc, hcur, rfl, htype⟩

end Core
end Eaf

import Eaf.System.Balance
import Eaf.System.StepLog

/-!
# What a message keeps while it exists

The id, the type and the identity of the originating request never change,
and a message that did not exist before is at a new address.  The response
function comes from the creation of the originating request, or was put in
its place.
-/

namespace Eaf
namespace Core

open LabelledRun

variable {L : Layout} {s s' u : Sys} {g : Nat} {t : Tid} {a : Act}
  {events : List Event} {gevents : List GroupEvent} {m : MsgRef} {x y z : Msg}
  {log : List StepRecord}

/-- Two states of the same message. -/
structure Msg.Alike (x y : Msg) : Prop where
  id : y.id = x.id
  type : msgGetType y = msgGetType x
  uuid : y.uuid = x.uuid

theorem Msg.Alike.refl (x : Msg) : x.Alike x := ⟨rfl, rfl, rfl⟩

theorem Msg.Alike.trans (h : x.Alike y) (h' : y.Alike z) : x.Alike z :=
  ⟨h'.id.trans h.id, h'.type.trans h.type, h'.uuid.trans h.uuid⟩

/-! ## Messages stay what they are -/

/-- New messages are at new addresses, and the others stay alike. -/
structure Keeps (s s' : Sys) : Prop where
  next : s.nextMsg ≤ s'.nextMsg
  alike : ∀ m < s.nextMsg, ∀ y, s'.msg m = some y →
    ∃ x, s.msg m = some x ∧ x.Alike y

namespace Keeps

theorem of_eq (hmsg : s'.msg = s.msg) (hnext : s'.nextMsg = s.nextMsg) :
    Keeps s s' where
  next := Nat.le_of_eq hnext.symm
  alike m _ y hy := ⟨y, by rw [← hmsg, hy], .refl y⟩

theorem trans (h : Keeps s s') (h' : Keeps s' u) : Keeps s u where
  next := Nat.le_trans h.next h'.next
  alike m hm z hz := by
    obtain ⟨y, hy, hyz⟩ := h'.alike m (Nat.lt_of_lt_of_le hm h.next) z hz
    obtain ⟨x, hx, hxy⟩ := h.alike m hm y hy
    exact ⟨x, hx, hxy.trans hyz⟩

theorem after_frame (h : Keeps s' u) (hmsg : s'.msg = s.msg)
    (hnext : s'.nextMsg = s.nextMsg) : Keeps s u :=
  (of_eq hmsg hnext).trans h

/-- A message is allocated. -/
theorem alloc (x : Msg) : Keeps s (s.alloc x) where
  next := Nat.le_succ _
  alike m hm y hy := by
    rw [Sys.alloc_msg, Function.update_of_ne (Nat.ne_of_lt hm)] at hy
    exact ⟨y, hy, .refl y⟩

/-- One message is changed, or destroyed. -/
theorem change {f : Msg → Option Msg}
    (hmsg : s'.msg = Function.update s.msg m ((s.msg m).bind f))
    (hnext : s'.nextMsg = s.nextMsg)
    (hf : ∀ x y, f x = some y → x.Alike y) : Keeps s s' where
  next := Nat.le_of_eq hnext.symm
  alike n _ y hy := by
    rw [hmsg] at hy
    by_cases hn : n = m
    · subst hn
      rw [Function.update_self] at hy
      obtain ⟨x, hx, hxy⟩ := Option.bind_eq_some_iff.mp hy
      exact ⟨x, hx, hf x y hxy⟩
    · rw [Function.update_of_ne hn] at hy
      exact ⟨y, hy, .refl y⟩

/-- One message is changed in place. -/
theorem edit {f : Msg → Msg}
    (hmsg : s'.msg = Function.update s.msg m ((s.msg m).map f))
    (hnext : s'.nextMsg = s.nextMsg) (hf : ∀ x : Msg, x.Alike (f x)) :
    Keeps s s' := by
  rw [Option.map_eq_bind] at hmsg
  refine change hmsg hnext fun x y hxy => ?_
  obtain rfl := Option.some.inj hxy
  exact hf x

theorem decRef (s : Sys) (m : MsgRef) : Keeps s (s.decRef m) := by
  refine change rfl rfl fun x y hxy => ?_
  unfold Sys.decremented at hxy
  split at hxy
  · cases hxy
  · obtain rfl := Option.some.inj hxy
    exact ⟨rfl, rfl, rfl⟩

theorem emitAll (s : Sys) (gevents : List GroupEvent) :
    Keeps s (s.emitAll L g gevents) := by
  unfold Sys.emitAll
  induction gevents generalizing s with
  | nil => exact of_eq rfl rfl
  | cons ev rest ih =>
      rw [List.foldl_cons]
      refine trans ?_ (ih (Sys.emit L g s ev))
      cases ev
      case release i r | purge i r => exact decRef s r.msg
      case answer i r rsp =>
        exact (alloc (s.answerTo r.msg)).trans (of_eq rfl rfl)
      case answered i r rsp code =>
        exact (decRef s rsp).trans (of_eq rfl rfl)
      all_goals exact of_eq rfl rfl

theorem stampSender (s : Sys) (b : SendArgs) : Keeps s (s.stampSender b) := by
  unfold Sys.stampSender
  split
  · exact edit rfl rfl fun _ => ⟨rfl, rfl, rfl⟩
  · exact of_eq rfl rfl

end Keeps

/-- Every step leaves messages what they are. -/
theorem SysTrans.keeps (h : SysTrans L s a events s') : Keeps s s' := by
  cases h with
  | worker hg hw => exact (Keeps.emitAll (s.setGroup _ _) _).after_frame rfl rfl
  | call hlive hc =>
      cases hc
      case sendNotFound b _ | sendFound b _ _ _ _ _ =>
        exact (Keeps.stampSender s b).trans (.of_eq rfl rfl)
      case pushRecord =>
        exact .edit rfl rfl fun _ => ⟨rfl, rfl, rfl⟩
      case pushReverted b r _ =>
        exact (Keeps.decRef s b.msg).trans (.of_eq rfl rfl)
      case cleanQueued | cleanCurrent =>
        exact (Keeps.decRef (s.setGroup _ _) _).after_frame rfl rfl
      all_goals exact .of_eq (by simp) (by simp)
  | enter he => cases he <;> exact .of_eq (by simp) (by simp)
  | user hu =>
      cases hu with
      | createReq | createRsp =>
          exact (Keeps.alloc _).trans (.of_eq rfl rfl)
      | addRef => exact .edit rfl rfl fun _ => ⟨rfl, rfl, rfl⟩
      | decRef => exact (Keeps.decRef _ _).trans (.of_eq rfl rfl)
      | setReceipt receipt =>
          exact .edit rfl rfl fun x =>
            ⟨rfl, msgGetType_setReceipt x receipt, rfl⟩
      | setToken token =>
          exact .edit rfl rfl fun x =>
            ⟨rfl, msgGetType_setToken x token, rfl⟩
      | setRspFn fn => exact .edit rfl rfl fun _ => ⟨rfl, rfl, rfl⟩

/-- A message is the same at the end of a run as at its start. -/
theorem Keeps.ofRun (h : Run (Logged L) s log s') : Keeps s s' := by
  refine h.preserved (P := Keeps s) (.of_eq rfl rfl) ?_
  rintro u log u' ih ⟨a, events, -, hstep, -⟩
  exact ih.trans (step_trans hstep).keeps

/-! ## Where the response function of a message comes from -/

/-- Every message belongs to a request, and has a response function, that some
message had before. -/
def Descends (s s' : Sys) : Prop :=
  ∀ m y, s'.msg m = some y →
    ∃ n x, s.msg n = some x ∧ y.uuid = x.uuid ∧ y.orig = x.orig

namespace Descends

theorem of_eq (hmsg : s'.msg = s.msg) : Descends s s' := fun m y hy =>
  ⟨m, y, by rw [← hmsg, hy], rfl, rfl⟩

theorem trans (h : Descends s s') (h' : Descends s' u) : Descends s u := by
  intro m z hz
  obtain ⟨n, y, hy, huuid, horig⟩ := h' m z hz
  obtain ⟨k, x, hx, huuid', horig'⟩ := h n y hy
  exact ⟨k, x, hx, huuid.trans huuid', horig.trans horig'⟩

theorem after_frame (h : Descends s' u) (hmsg : s'.msg = s.msg) :
    Descends s u :=
  (of_eq hmsg).trans h

/-- A response is allocated. -/
theorem alloc (hx : s.msg m = some x) (huuid : y.uuid = x.uuid)
    (horig : y.orig = x.orig) : Descends s (s.alloc y) := by
  intro n z hz
  by_cases hn : n = s.nextMsg
  · subst hn
    rw [Sys.alloc_msg, Function.update_self] at hz
    obtain rfl := Option.some.inj hz
    exact ⟨m, x, hx, huuid, horig⟩
  · rw [Sys.alloc_msg, Function.update_of_ne hn] at hz
    exact ⟨n, z, hz, rfl, rfl⟩

/-- One message is changed, or destroyed. -/
theorem change {f : Msg → Option Msg}
    (hmsg : s'.msg = Function.update s.msg m ((s.msg m).bind f))
    (hf : ∀ x y, f x = some y → y.uuid = x.uuid ∧ y.orig = x.orig) :
    Descends s s' := by
  intro n y hy
  rw [hmsg] at hy
  by_cases hn : n = m
  · subst hn
    rw [Function.update_self] at hy
    obtain ⟨x, hx, hxy⟩ := Option.bind_eq_some_iff.mp hy
    exact ⟨n, x, hx, hf x y hxy⟩
  · rw [Function.update_of_ne hn] at hy
    exact ⟨n, y, hy, rfl, rfl⟩

theorem edit {f : Msg → Msg}
    (hmsg : s'.msg = Function.update s.msg m ((s.msg m).map f))
    (hf : ∀ x, (f x).uuid = x.uuid ∧ (f x).orig = x.orig) :
    Descends s s' := by
  rw [Option.map_eq_bind] at hmsg
  refine change hmsg fun x y hxy => ?_
  obtain rfl := Option.some.inj hxy
  exact hf x

theorem decRef (s : Sys) (m : MsgRef) : Descends s (s.decRef m) := by
  refine change rfl fun x y hxy => ?_
  unfold Sys.decremented at hxy
  split at hxy
  · cases hxy
  · obtain rfl := Option.some.inj hxy
    exact ⟨rfl, rfl⟩

theorem stampSender (s : Sys) (b : SendArgs) :
    Descends s (s.stampSender b) := by
  unfold Sys.stampSender
  split
  · exact edit rfl fun _ => ⟨rfl, rfl⟩
  · exact of_eq rfl

theorem emitAll_of_silent (s : Sys) (h : ∀ ev ∈ gevents, ev.silent = true) :
    Descends s (s.emitAll L g gevents) := by
  unfold Sys.emitAll
  induction gevents generalizing s with
  | nil => exact of_eq rfl
  | cons ev rest ih =>
      rw [List.foldl_cons]
      refine trans ?_ (ih (Sys.emit L g s ev)
        fun ev' hev' => h ev' (by simp [hev']))
      have hev := h ev (by simp)
      cases ev
      case release i r | purge i r => exact decRef s r.msg
      case answer | answered => simp [GroupEvent.silent] at hev
      all_goals exact of_eq rfl

end Descends

/-- The teardown code makes its answer from the request. -/
theorem WorkerTrans.descends {k : Nat} {o : Outcome} {G : Group}
    (hw : WorkerTrans (L.conf k) (s.env k) (s.group k) o G gevents) :
    Descends s ((s.setGroup k G).emitAll L k gevents) := by
  rcases hw.own_call with ⟨i, r, cur, x, -, hx, rfl, -⟩ |
    ⟨i, r, rsp, cur, code, -, -, rfl, -⟩ | ⟨hsilent, -⟩
  · have hanswer : Descends s (s.alloc (s.answerTo r.msg)) := by
      have hreq : s.msg r.msg = some x := hx
      refine .alloc hreq ?_ ?_ <;> simp [Sys.answerTo, hreq, msgSetReceipt,
        msgCreateRsp]
    exact hanswer.trans (.of_eq rfl)
  · exact ((Descends.decRef (s.setGroup k G) rsp).trans
      (.of_eq rfl)).after_frame rfl
  · exact (Descends.emitAll_of_silent (s.setGroup k G) hsilent).after_frame rfl

/-- Calls change no response function. -/
theorem CallTrans.descends (hc : CallTrans L s t events s') :
    Descends s s' := by
  cases hc
  case sendNotFound b _ | sendFound b _ _ _ _ _ =>
    exact (Descends.stampSender s b).trans (.of_eq rfl)
  case pushRecord => exact .edit rfl fun _ => ⟨rfl, rfl⟩
  case pushReverted b r _ => exact (Descends.decRef s b.msg).trans (.of_eq rfl)
  case cleanQueued | cleanCurrent =>
    exact (Descends.decRef (s.setGroup _ _) _).after_frame rfl
  all_goals exact .of_eq (by simp)

/-- `fn` is a response function of the request that was created at `uuid`: it
was given to `eaf_msg_create_req`, or put in its place later by
`eaf_msg_set_rsp_fn`, on the request or on a response to it. -/
def ResponseFn (log : List StepRecord) (uuid : MsgRef) (fn : Fn) : Prop :=
  ∃ e ∈ log,
    (∃ id size, e.act = .user (.createReq id size fn) ∧
      e.before.nextMsg = uuid) ∨
    ∃ m via x, e.act = .user (.setRspFn m via fn) ∧
      e.before.msg m = some x ∧ x.uuid = uuid

theorem ResponseFn.append {uuid : MsgRef} {fn : Fn}
    (h : ResponseFn log uuid fn) (more : List StepRecord) :
    ResponseFn (log ++ more) uuid fn := by
  obtain ⟨e, he, horigin⟩ := h
  exact ⟨e, List.mem_append_left _ he, horigin⟩

/-- What user code does to the response functions. -/
theorem msgStep_descends {op : Sys.MsgOp}
    (h : s.msgStep L op = some (s', events)) (hy : s'.msg m = some y) :
    (∃ n x, s.msg n = some x ∧ y.uuid = x.uuid ∧ y.orig = x.orig) ∨
      ResponseFn [⟨s, .user op, events, s'⟩] y.uuid y.orig := by
  have hkept : Descends s s' → (∃ n x, s.msg n = some x ∧
      y.uuid = x.uuid ∧ y.orig = x.orig) ∨
      ResponseFn [⟨s, .user op, events, s'⟩] y.uuid y.orig :=
    fun hdescends => .inl (hdescends m y hy)
  cases op with
  | createReq id size fn =>
      simp only [Sys.msgStep, Option.some.injEq, Prod.mk.injEq] at h
      obtain ⟨rfl, rfl⟩ := h
      by_cases hm : m = s.nextMsg
      · subst hm
        simp only [Sys.own_msg, Sys.alloc_msg, Function.update_self,
          Option.some.injEq] at hy
        subst hy
        exact .inr ⟨_, List.mem_singleton_self _, .inl ⟨id, size, rfl, rfl⟩⟩
      · simp only [Sys.own_msg, Sys.alloc_msg, Function.update_of_ne hm] at hy
        exact .inl ⟨m, y, hy, rfl, rfl⟩
  | setRspFn n via fn =>
      simp only [Sys.msgStep] at h
      split at h <;>
        simp only [Option.some.injEq, Prod.mk.injEq, reduceCtorEq] at h
      obtain ⟨rfl, rfl⟩ := h
      by_cases hm : m = n
      · subst hm
        simp only [Sys.edit_msg, Function.update_self,
          Option.map_eq_some_iff] at hy
        obtain ⟨x, hx, rfl⟩ := hy
        exact .inr ⟨_, List.mem_singleton_self _,
          .inr ⟨m, via, x, rfl, hx, rfl⟩⟩
      · simp only [Sys.edit_msg, Function.update_of_ne hm] at hy
        exact .inl ⟨m, y, hy, rfl, rfl⟩
  | createRsp n via size =>
      simp only [Sys.msgStep] at h
      split at h
      · split at h <;>
          simp only [Option.some.injEq, Prod.mk.injEq, reduceCtorEq] at h
        next req hreq =>
          obtain ⟨rfl, rfl⟩ := h
          have hrsp : Descends s (s.alloc (msgCreateRsp req size)) :=
            .alloc hreq rfl rfl
          exact hkept (hrsp.trans (.of_eq rfl))
      · cases h
  | addRef n via =>
      simp only [Sys.msgStep] at h
      split at h <;>
        simp only [Option.some.injEq, Prod.mk.injEq, reduceCtorEq] at h
      obtain ⟨rfl, rfl⟩ := h
      exact hkept (.edit rfl fun _ => ⟨rfl, rfl⟩)
  | decRef n =>
      simp only [Sys.msgStep] at h
      split at h <;>
        simp only [Option.some.injEq, Prod.mk.injEq, reduceCtorEq] at h
      obtain ⟨rfl, rfl⟩ := h
      exact hkept ((Descends.decRef s n).trans (.of_eq rfl))
  | setReceipt n via receipt =>
      simp only [Sys.msgStep] at h
      split at h <;>
        simp only [Option.some.injEq, Prod.mk.injEq, reduceCtorEq] at h
      obtain ⟨rfl, rfl⟩ := h
      exact hkept (.edit rfl fun _ => ⟨rfl, rfl⟩)
  | setToken n via token =>
      simp only [Sys.msgStep] at h
      split at h <;>
        simp only [Option.some.injEq, Prod.mk.injEq, reduceCtorEq] at h
      obtain ⟨rfl, rfl⟩ := h
      exact hkept (.edit rfl fun _ => ⟨rfl, rfl⟩)

/-- **Response functions.**  The response function of every message was given
to the request it belongs to. -/
theorem LogRun.responseFn (h : LogRun L log s) (hx : s.msg m = some x) :
    ResponseFn log x.uuid x.orig := by
  refine LogRun.bySteps (P := fun log s => ∀ m x, s.msg m = some x →
    ResponseFn log x.uuid x.orig) h (fun _ _ hx => by cases hx) ?_ m x hx
  intro log s a events s' hrun ih _ hstep m y hy
  have hold : (∃ n x, s.msg n = some x ∧ y.uuid = x.uuid ∧
      y.orig = x.orig) →
      ResponseFn (log ++ [⟨s, a, events, s'⟩]) y.uuid y.orig := by
    rintro ⟨n, x, hx, huuid, horig⟩
    rw [huuid, horig]
    exact (ih n x hx).append _
  cases a with
  | user op =>
      rcases msgStep_descends hstep hy with hkept | ⟨e, he, horigin⟩
      · exact hold hkept
      · exact ⟨e, List.mem_append_right _ he, horigin⟩
  | worker g o =>
      cases step_trans hstep with
      | worker hg hw => exact hold (hw.descends m y hy)
  | call t o =>
      cases step_trans hstep with
      | call _ hc => exact hold (hc.descends m y hy)
  | enter t q =>
      cases step_trans hstep with
      | enter he =>
          refine hold (Descends.of_eq ?_ m y hy)
          cases he <;> simp

end Core
end Eaf

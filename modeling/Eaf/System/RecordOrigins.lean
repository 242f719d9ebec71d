import Eaf.System.Messages

/-!
# Where records come from

A record in a queue was put there by a send, which found the handler of the
message in the table of the service if it sends requests, and stored none
otherwise.
-/

namespace Eaf
namespace Core

open LabelledRun

variable {L : Layout} {s s' : Sys} {g i : Nat} {t : Tid} {a : Act}
  {o : Outcome} {events : List Event} {gevents : List GroupEvent}
  {m : MsgRef} {x y : Msg} {log : List StepRecord} {b : SendArgs}
  {fn : Option Fn} {r : MsgqRecord} {G G' : Group} {c : GroupTable} {e : Env}

/-! ## The handler a send has found -/

/-- The handler that a send stores in its record: a request gets the one its
id has in the table of the service, a response gets none. -/
def HandlerFor (L : Layout) (s : Sys) (b : SendArgs) (g i : Nat)
    (fn : Option Fn) : Prop :=
  match b.kind with
  | .rsp => fn = none
  | .req => ∃ f x, fn = some f ∧ s.msg b.msg = some x ∧
      findHandler ((L.conf g).row i).entry x.id = some f

/-- The service and the handler a send has found. -/
def Call.target? : Call → Option (SendArgs × Nat × Nat × Option Fn)
  | .pushTest b g i fn | .pushAlloc b g i fn => some (b, g, i, fn)
  | .pushLock b g i r => some (b, g, i, r.reqFn)
  | _ => none

theorem Call.send_of_target {call : Call}
    (h : call.target? = some (b, g, i, fn)) : call.send? = some b := by
  cases call <;> simp_all [Call.target?, Call.send?]

/-- The handler stays the right one while the message exists. -/
theorem HandlerFor.step (h : HandlerFor L s b g i fn) (hkeeps : Keeps s s')
    (hlt : b.msg < s.nextMsg) (hlive : (s'.msg b.msg).isSome) :
    HandlerFor L s' b g i fn := by
  unfold HandlerFor at h ⊢
  split
  · next hkind => simpa [hkind] using h
  · next hkind =>
      simp only [hkind] at h
      obtain ⟨f, x, hf, hx, hfind⟩ := h
      obtain ⟨y, hy⟩ := Option.isSome_iff_exists.mp hlive
      obtain ⟨x', hx', halike⟩ := hkeeps.alike b.msg hlt y hy
      obtain rfl := Option.some.inj (hx.symm.trans hx')
      exact ⟨f, y, hf, hy, by rw [halike.id, hfind]⟩

/-- A send gets its handler when it looks up the service. -/
theorem CallTrans.target (h : CallTrans L s t events s')
    (htarget : (s'.call t).target? = some (b, g, i, fn)) :
    (s.call t).target? = some (b, g, i, fn) ∨
      (s.call t = .sendFind b ∧ s'.call t = .pushTest b g i fn) := by
  cases h <;> simp_all [Call.target?]

/-- What the lookup finds. -/
theorem callStep_sendFind (hcall : s.call t = .sendFind b)
    (h : s.callStep L t o = some (s', events))
    (hnext : s'.call t = .pushTest b g i fn) :
    s.sendHandler L b g i = some fn := by
  unfold Sys.callStep at h
  split at h
  · simp only [hcall, Sys.sendStep] at h
    split at h
    · obtain ⟨rfl, -⟩ := Prod.mk.inj (Option.some.inj h)
      simp at hnext
    · split at h <;> obtain ⟨rfl, -⟩ := Prod.mk.inj (Option.some.inj h)
      · simp at hnext
      · simp only [Sys.setCall_call, Function.update_self,
          Call.pushTest.injEq] at hnext
        obtain ⟨-, rfl, rfl, rfl⟩ := hnext
        assumption
  · cases h

theorem HandlerFor.of_sendHandler (h : s.sendHandler L b g i = some fn) :
    HandlerFor L s b g i fn := by
  unfold HandlerFor
  unfold Sys.sendHandler at h
  split
  · next hkind => simpa [hkind] using h.symm
  · next hkind =>
      simp only [hkind] at h
      split at h
      · cases h
      · next x hx =>
          obtain ⟨f, hfind, hf⟩ := Option.map_eq_some_iff.mp h
          exact ⟨f, x, hf.symm, hx, hfind⟩

/-- A send that has found a handler has found the right one. -/
theorem LogRun.handlerFor (h : LogRun L log s)
    (htarget : (s.call t).target? = some (b, g, i, fn)) :
    HandlerFor L s b g i fn := by
  refine LogRun.bySteps (P := fun _ s => ∀ t b g i fn,
    (s.call t).target? = some (b, g, i, fn) → HandlerFor L s b g i fn) h
    (fun _ _ _ _ _ htarget => by cases htarget) ?_ t b g i fn htarget
  intro log s a events s' hlog ih hserial hstep t b g i fn htarget
  have htrans := step_trans hstep
  have hrun := hlog.trace
  have hrun' : Trace L (serial L) _ s' := hrun.snoc ⟨a, hserial, hstep⟩
  have hstays : (s.call t).send? = some b → HandlerFor L s b g i fn →
      HandlerFor L s' b g i fn := fun hsend hfor =>
    hfor.step htrans.keeps
      (hrun.balanced.lt_nextMsg (hrun.live_of_send hrun.balanced hsend))
      (hrun'.live_of_send hrun'.balanced (Call.send_of_target htarget))
  have hkept : (s.call t).target? = some (b, g, i, fn) →
      HandlerFor L s' b g i fn := fun hold =>
    hstays (Call.send_of_target hold) (ih t b g i fn hold)
  rcases htrans.call_cases t with hc | ⟨o, rfl, hc⟩ | hc | ⟨q, hc⟩
  · rw [hc] at htarget
    exact hkept htarget
  · rcases hc.target htarget with hold | ⟨hfind, hnext⟩
    · exact hkept hold
    · exact hstays (by rw [hfind]; rfl)
        (HandlerFor.of_sendHandler (callStep_sendFind hfind hstep hnext))
  · rw [hc] at htarget
    cases htarget
  · rw [hc] at htarget
    cases q <;> cases htarget

/-! ## The send that made a record -/

/-- The send `b` put the record `r` of the message `y` into the queue. -/
def Enqueued (log : List StepRecord) (b : SendArgs) (y : Msg) (g i : Nat)
    (r : MsgqRecord) : Prop :=
  ∃ e ∈ log, ∃ t o, e.act = .call t o ∧ e.before.call t = .pushLock b g i r ∧
    e.after.call t = .pushPost b g ∧ e.before.msg r.msg = some y

theorem Enqueued.append (h : Enqueued log b y g i r)
    (more : List StepRecord) : Enqueued (log ++ more) b y g i r := by
  obtain ⟨e, he, hpush⟩ := h
  exact ⟨e, List.mem_append_left _ he, hpush⟩

/-- Replacing a service by one that has no other records. -/
theorem mem_records_update {T : Nat → Service} {S : Service} {j : Nat}
    (hr : r ∈ (Function.update T j S i).records)
    (hS : r ∈ S.records → r ∈ (T j).records) : r ∈ (T i).records := by
  by_cases hij : i = j
  · subst hij
    rw [Function.update_self] at hr
    exact hS hr
  · rwa [Function.update_of_ne hij] at hr

/-- A worker makes no records. -/
theorem WorkerTrans.mem_records (h : WorkerTrans c e G o G' gevents)
    (hr : r ∈ (G'.table i).records) : r ∈ (G.table i).records := by
  cases h
  case popSome hpc hq | tdPopSome hpc hq =>
    refine mem_records_update hr fun hr' => ?_
    simp only [Service.records, hq, List.mem_append, List.mem_cons,
      Option.mem_toList] at hr' ⊢
    simp_all
    tauto
  case reset | tdFreeCur =>
    refine mem_records_update hr fun hr' => ?_
    simp only [Service.records, List.mem_append] at hr' ⊢
    simp_all
  case initDone =>
    simp only [Group.goto_table, Group.finishServiceInit_table,
      Group.setService_table, Function.update_idem] at hr
    exact mem_records_update hr fun hr' => by
      simpa [Service.records] using hr'
  case popNone | handlerReturn | handledYield | tdExit0 | tdSetExit1
    | exitExit0 | exitExit1 =>
    exact mem_records_update hr fun hr' => hr'
  all_goals exact hr

/-- Only a push adds a record. -/
theorem CallTrans.mem_records (h : CallTrans L s t events s')
    (hr : r ∈ ((s'.group g).table i).records) :
    r ∈ ((s.group g).table i).records ∨
      ∃ b, s.call t = .pushLock b g i r ∧ s'.call t = .pushPost b g := by
  cases h
  case pushAccepted b k j r' G hcall hpush =>
    by_cases hgk : g = k
    · subst hgk
      simp only [Sys.setCall_group, Sys.setGroup_group, Function.update_self,
        (Group.pushMsg_some hpush).2.1] at hr
      by_cases hij : i = j
      · subst hij
        rw [Function.update_self] at hr
        simp only [Service.records, List.mem_append,
          List.mem_singleton] at hr ⊢
        rcases hr with hcur | hqueue | rfl
        · exact .inl (.inl hcur)
        · exact .inl (.inr hqueue)
        · exact .inr ⟨b, hcall, by simp⟩
      · rw [Function.update_of_ne hij] at hr
        exact .inl hr
    · simp only [Sys.setCall_group, Sys.setGroup_group,
        Function.update_of_ne hgk] at hr
      exact .inl hr
  case resumeAccepted k j G hcall hresume =>
    obtain ⟨-, rfl⟩ := Group.resumeService_some hresume
    left
    by_cases hgk : g = k
    · subst hgk
      simp only [Sys.setCall_group, Sys.setGroup_group,
        Function.update_self] at hr
      exact mem_records_update hr fun hr' => hr'
    · simpa [hgk] using hr
  case loadFixed k _ _ =>
    left
    by_cases hgk : g = k
    · subst hgk
      simpa only [Sys.setCall_group, Sys.setGroup_group, Function.update_self,
        loadFixState_records] using hr
    · simpa [hgk] using hr
  case cleanQueued k j r' rest hcall _ hq =>
    left
    by_cases hgk : g = k
    · subst hgk
      simp only [Sys.decRef_group, Sys.setGroup_group,
        Function.update_self] at hr
      refine mem_records_update hr fun hr' => ?_
      simp only [Service.records, hq, List.mem_append, List.mem_cons] at hr' ⊢
      tauto
    · simpa [hgk] using hr
  case cleanCurrent k j r' hcall _ hq _ =>
    left
    by_cases hgk : g = k
    · subst hgk
      simp only [Sys.decRef_group, Sys.setGroup_group,
        Function.update_self] at hr
      refine mem_records_update hr fun hr' => ?_
      simp only [Service.records, hq, List.mem_append] at hr' ⊢
      simp_all
    · simpa [hgk] using hr
  case pushPosted k _ | resumePosted k _ | exitPosted k _ _
    | loadPosted k _ _ =>
    left
    by_cases hgk : g = k
    · subst hgk
      simp only [Sys.setCall_group, Sys.setGroup_group,
        Function.update_self] at hr
      exact hr
    · simpa [hgk] using hr
  all_goals exact .inl (by simpa using hr)

/-- A step of the system that adds a record is the push of this record. -/
theorem SysTrans.mem_records {a : Act} (h : SysTrans L s a events s')
    (hr : r ∈ ((s'.group g).table i).records) :
    r ∈ ((s.group g).table i).records ∨
      ∃ t o b, a = .call t o ∧ s.call t = .pushLock b g i r ∧
        s'.call t = .pushPost b g := by
  cases h with
  | @worker k o G gevents hk hw =>
      left
      rw [Sys.emitAll_group, Sys.setGroup_group] at hr
      by_cases hgk : g = k
      · subst hgk
        rw [Function.update_self] at hr
        exact hw.mem_records hr
      · rwa [Function.update_of_ne hgk] at hr
  | @call t o events s' hlive hc =>
      refine (hc.mem_records hr).imp id ?_
      rintro ⟨b, hcall, hafter⟩
      exact ⟨t, o, b, rfl, hcall, hafter⟩
  | enter he =>
      rw [he.group_eq] at hr
      exact .inl hr
  | user hu =>
      rw [hu.group_eq] at hr
      exact .inl hr

/-- **Origins.**  Every record of a service was put there by a send. -/
theorem LogRun.enqueued (h : LogRun L log s)
    (hr : r ∈ ((s.group g).table i).records) :
    ∃ b y, Enqueued log b y g i r := by
  refine LogRun.bySteps (P := fun log s =>
    ∀ r ∈ ((s.group g).table i).records, ∃ b y, Enqueued log b y g i r) h
    (fun r hr => by simp [Sys.initial, Group.initial, Service.initial,
      Service.records] at hr) ?_ r hr
  intro log s a events s' hlog ih hserial hstep r hr
  have hkept : r ∈ ((s.group g).table i).records →
      ∃ b y, Enqueued (log ++ [⟨s, a, events, s'⟩]) b y g i r := by
    intro hold
    obtain ⟨b, y, hpush⟩ := ih r hold
    exact ⟨b, y, hpush.append _⟩
  rcases (step_trans hstep).mem_records hr with
    hold | ⟨t, o, b, rfl, hcall, hafter⟩
  · exact hkept hold
  · have hrun := hlog.trace
    have hplaced := hrun.guards.calls.placed t
    rw [hcall] at hplaced
    have hmsg := hrun.live_of_send hrun.balanced
      (b := b) (t := t) (by rw [hcall]; rfl)
    rw [← hplaced.2.2] at hmsg
    obtain ⟨y, hy⟩ := Option.isSome_iff_exists.mp hmsg
    exact ⟨b, y, _, List.mem_append_right _ (List.mem_singleton_self _),
      t, o, rfl, hcall, hafter, hy⟩

/-- What is known about a record of a service: the send that made it, its
message then and now, and its handler. -/
theorem LogRun.origin (h : LogRun L log s)
    (hr : r ∈ ((s.group g).table i).records) :
    ∃ b y x, Enqueued log b y g i r ∧ s.msg r.msg = some x ∧ y.Alike x ∧
      (b.kind = .rsp → r.reqFn = none) ∧
      (b.kind = .req → ∃ f, r.reqFn = some f ∧
        findHandler ((L.conf g).row i).entry y.id = some f) := by
  obtain ⟨b, y, hpush⟩ := h.enqueued hr
  have hpush' := hpush
  obtain ⟨e, he, t, o, hact, hcall, hafter, hy⟩ := hpush'
  obtain ⟨front, rest, rfl⟩ := List.append_of_mem he
  obtain ⟨hfront, hserial, hstep, hrest⟩ := h.split
  have hrun := hfront.trace
  have hplaced := hrun.guards.calls.placed t
  rw [hcall] at hplaced
  obtain ⟨hg, hreg, hmsg⟩ := hplaced
  have hlive := h.trace.balanced.live_of_group hg (Group.refs_pos hreg.1 hr)
  obtain ⟨x, hx⟩ := Option.isSome_iff_exists.mp hlive
  have hkeeps := (step_trans hstep).keeps.trans (Keeps.ofRun hrest)
  have hlt : r.msg < e.before.nextMsg :=
    hrun.balanced.lt_nextMsg (by rw [hy]; rfl)
  obtain ⟨y', hy', halike⟩ := hkeeps.alike r.msg hlt x hx
  obtain rfl := Option.some.inj (hy.symm.trans hy')
  have hfor : HandlerFor L e.before b g i r.reqFn :=
    hfront.handlerFor (t := t) (by rw [hcall]; rfl)
  refine ⟨b, y, x, hpush, hx, halike, fun hkind => ?_, fun hkind => ?_⟩
  · simpa [HandlerFor, hkind] using hfor
  · simp only [HandlerFor, hkind] at hfor
    obtain ⟨f, y', hf, hy', hfind⟩ := hfor
    rw [← hmsg, hy] at hy'
    obtain rfl := Option.some.inj hy'
    exact ⟨f, hf, hfind⟩

end Core
end Eaf

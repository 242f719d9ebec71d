import Eaf.Powerpack.Hooks
import Eaf.System.RecordOrigins
import Eaf.System.FailedSends
import Eaf.Guarantees.ListMembership

/-!
# Hooks that refuse a message

A hook refuses a message by a code that is not zero.  Of many codes PowerPack
hands the first one to the core, and the core looks at its sign only.  So a
refusal is respected exactly if it is the first code and negative, or there is
none at all.
-/

namespace Eaf
namespace Core

open LabelledRun Powerpack

variable {L : Layout} {s s' : Sys} {g i : Nat} {t : Tid} {a : Act}
  {o : Outcome} {events : List Event} {log : List StepRecord}
  {e : StepRecord} {b : SendArgs} {r : MsgqRecord} {fn : Option Fn}
  {table : List Hook} {c : GroupTable} {env : Env} {G G' : Group}
  {gevents : List GroupEvent} {ph : Phase}

/-! ## The send -/

/-- A send after its hooks and before its record is in a queue. -/
def Call.cleared? : Call → Option SendArgs
  | .sendFind b | .pushTest b _ _ _ | .pushAlloc b _ _ _ | .pushLock b _ _ _ =>
      some b
  | _ => none

/-- The step lets the send `b` pass its hooks. -/
def StepRecord.PassesHooks (e : StepRecord) (t : Tid) (b : SendArgs) : Prop :=
  (∃ o, e.act = .call t o) ∧ e.before.call t = .sendHook b ∧
    e.after.call t = .sendFind b

/-- The step returns `code` from the send `b`, and changes neither a group nor
the count of a message. -/
def StepRecord.RefusesWith (e : StepRecord) (t : Tid) (b : SendArgs)
    (code : Int) : Prop :=
  e.events = [.ret t b.kind.api code] ∧ e.after.call t = .done code ∧
    e.after.group = e.before.group ∧ e.after.msg = e.before.msg

/-- The step of a send that calls the hooks does as they say: the send goes on
only if all of them allow it, and otherwise returns one of the codes that are
not zero, with everything else as before. -/
def StepRecord.SendObeys (e : StepRecord) (t : Tid) (b : SendArgs)
    (codes : List Int) : Prop :=
  (e.PassesHooks t b → AllAllow codes) ∧
    (¬AllAllow codes → ∃ code ∈ codes, code ≠ 0 ∧ e.RefusesWith t b code)

/-- A send obeys its hooks exactly when PowerPack shows their answer to the
core. -/
theorem callStep_sendObeys
    (h : s.callStep L t o = some (s', events)) (hcall : s.call t = .sendHook b)
    (hret : o.ret = ppHookOnMessageSendBefore table b.src b.dst b.msg) :
    StepRecord.SendObeys ⟨s, .call t o, events, s'⟩ t b
        (table.filterMap (Hook.sendBefore b.src b.dst b.msg)) ↔
      ShownToCore (table.filterMap (Hook.sendBefore b.src b.dst b.msg)) := by
  have hhead : o.ret =
      (table.filterMap (Hook.sendBefore b.src b.dst b.msg)).headD 0 :=
    hret.trans foreachIntHook_eq
  have hmem : o.ret < 0 →
      o.ret ∈ table.filterMap (Hook.sendBefore b.src b.dst b.msg) := by
    rw [hret]
    exact foreachIntHook_mem
  rcases callStep_sendHook hcall h with ⟨hneg, rfl, rfl⟩ | ⟨hpos, rfl, rfl⟩
  · -- refused: this is right whatever the other hooks have said
    refine iff_of_true ⟨fun hpass => ?_, fun _ => ?_⟩ (.inr (hhead ▸ hneg))
    · exact absurd hpass.2.2 (by simp)
    · refine ⟨o.ret, hmem hneg, by omega, rfl, by simp, ?_, ?_⟩
      · exact Sys.takeBack_group b
      · exact Sys.takeBack_msg b
  · have hpass : StepRecord.PassesHooks
        ⟨s, .call t o, [], s.setCall t (.sendFind b)⟩ t b :=
      ⟨⟨o, rfl⟩, hcall, by simp⟩
    constructor
    · exact fun hobeys => .inl (hobeys.1 hpass)
    · rintro (hall | hneg)
      · exact ⟨fun _ => hall, fun hnot => absurd hall hnot⟩
      · omega

/-- A send is past its hooks after they let it pass. -/
theorem CallTrans.cleared (h : CallTrans L s t events s')
    (hcleared : (s'.call t).cleared? = some b) :
    (s.call t).cleared? = some b ∨
      (s.call t = .sendHook b ∧ s'.call t = .sendFind b) := by
  cases h <;> simp_all [Call.cleared?]

/-- A send that is past its hooks has passed them, and has been past them ever
since. -/
theorem LogRun.passed_hooks (h : LogRun L log s)
    (hcleared : (s.call t).cleared? = some b) :
    ∃ front e rest, log = front ++ e :: rest ∧ e.PassesHooks t b ∧
      ∀ x ∈ rest, (x.after.call t).cleared? = some b := by
  refine LogRun.bySteps (P := fun log s => ∀ t b,
    (s.call t).cleared? = some b →
    ∃ front e rest, log = front ++ e :: rest ∧ e.PassesHooks t b ∧
      ∀ x ∈ rest, (x.after.call t).cleared? = some b) h ?_ ?_ t b hcleared
  · exact fun t b hcleared => by cases hcleared
  · intro log s a events s' hlog ih hserial hstep t b hcleared
    have hlonger : (s.call t).cleared? = some b →
        ∃ front e rest, log ++ [⟨s, a, events, s'⟩] = front ++ e :: rest ∧
          e.PassesHooks t b ∧
          ∀ x ∈ rest, (x.after.call t).cleared? = some b := by
      intro hbefore
      obtain ⟨front, e, rest, rfl, hpass, hrest⟩ := ih t b hbefore
      refine ⟨front, e, rest ++ [⟨s, a, events, s'⟩], by simp, hpass, ?_⟩
      intro x hx
      rcases List.mem_append.mp hx with hx | hx
      · exact hrest x hx
      · obtain rfl := List.mem_singleton.mp hx
        exact hcleared
    rcases (step_trans hstep).call_cases t with hc | ⟨o, rfl, hc⟩ | hc |
      ⟨q, hc⟩
    · exact hlonger (hc ▸ hcleared)
    · rcases hc.cleared hcleared with hbefore | ⟨hhook, hfind⟩
      · exact hlonger hbefore
      · exact ⟨log, _, [], rfl, ⟨⟨o, rfl⟩, hhook, hfind⟩, by simp⟩
    · rw [hc] at hcleared
      cases hcleared
    · rw [hc] at hcleared
      cases q <;> cases hcleared

/-! ## The handler -/

/-- The step hands the record to its handler. -/
def StepRecord.Starts (e : StepRecord) (g i : Nat) (r : MsgqRecord) : Prop :=
  ∃ fn, .group g (.start i r fn) ∈ e.events

/-- A handler is started after the hooks only. -/
theorem WorkerTrans.starts (h : WorkerTrans c env G o G' gevents)
    (hfn : .start i r fn ∈ gevents) :
    (∃ ph, G.worker = .hookBefore ph i) ∧ (G.table i).curMsg = some r ∧
      0 ≤ o.ret := by
  cases h
  case beforeStart ph _ _ _ hpc hcur _ hret _ =>
    simp only [List.mem_singleton, GroupEvent.start.injEq] at hfn
    obtain ⟨rfl, rfl, -⟩ := hfn
    exact ⟨⟨ph, hpc⟩, hcur, hret⟩
  case readyNone => split at hfn <;> simp at hfn
  all_goals simp at hfn

/-- After the hooks the record is dropped or handed to its handler. -/
theorem WorkerTrans.hookBefore (h : WorkerTrans c env G o G' gevents)
    (hpc : G.worker = .hookBefore ph i) (hcur : (G.table i).curMsg = some r) :
    (o.ret < 0 ∧ gevents = [.drop i r]) ∨
      (0 ≤ o.ret ∧ ∃ fn, gevents = [.start i r fn]) := by
  cases h
  case beforeDrop hpc' hcur' _ hret =>
    rw [hpc] at hpc'
    cases hpc'
    rw [hcur] at hcur'
    cases hcur'
    exact .inl ⟨hret, rfl⟩
  case beforeStart fn hpc' hcur' _ hret _ =>
    rw [hpc] at hpc'
    cases hpc'
    rw [hcur] at hcur'
    cases hcur'
    exact .inr ⟨hret, fn, rfl⟩
  all_goals simp_all

/-- A worker obeys the hooks exactly when PowerPack shows their answer to the
core. -/
theorem SysTrans.handleObeys (h : SysTrans L s (.worker g o) events s')
    (hpc : (s.group g).worker = .hookBefore ph i)
    (hcur : ((s.group g).table i).curMsg = some r)
    (hret : o.ret = ppHookOnMessageHandleBefore table r.src r.dst r.msg) :
    (StepRecord.Starts ⟨s, .worker g o, events, s'⟩ g i r →
        AllAllow (table.filterMap (Hook.handleBefore r.src r.dst r.msg))) ↔
      ShownToCore
        (table.filterMap (Hook.handleBefore r.src r.dst r.msg)) := by
  have hhead : o.ret =
      (table.filterMap (Hook.handleBefore r.src r.dst r.msg)).headD 0 :=
    hret.trans foreachIntHook_eq
  cases h with
  | worker hg hw =>
      rcases hw.hookBefore hpc hcur with ⟨hneg, rfl⟩ | ⟨hpos, fn, rfl⟩
      · refine iff_of_true (fun hstarts => ?_) (.inr (hhead ▸ hneg))
        obtain ⟨fn, hfn⟩ := hstarts
        simp at hfn
      · have hstarts : ∃ fn', Event.group g (.start i r fn') ∈
            [GroupEvent.start i r fn].map (Event.group g) := ⟨fn, by simp⟩
        constructor
        · exact fun hobeys => .inl (hobeys hstarts)
        · rintro (hall | hneg)
          · exact fun _ => hall
          · omega

/-- Only a worker that has called the hooks starts a handler. -/
theorem SysTrans.starts (h : SysTrans L s a events s')
    (hfn : .group g (.start i r fn) ∈ events) :
    ∃ ph, (s.group g).worker = .hookBefore ph i ∧
      ((s.group g).table i).curMsg = some r := by
  cases h with
  | @worker k o G gevents hk hw =>
      obtain ⟨ev, hev, heq⟩ := List.mem_map.mp hfn
      obtain ⟨rfl, rfl⟩ := Event.group.inj heq
      obtain ⟨⟨ph, hpc⟩, hcur, -⟩ := hw.starts hev
      exact ⟨ph, hpc, hcur⟩
  | call hlive hc => cases hc <;> simp at hfn
  | enter he => cases he <;> simp at hfn
  | user hu => simp at hfn

/-! ## Runs -/

/-- **Hooks can refuse a message.**  In every run in which PowerPack answers
for its hooks: a send does as they say exactly if all of them allow it or the
first one returns an error, and every record that is put into a queue belongs
to a send that has passed its hooks; and the same holds of the handler of a
record. -/
theorem hooks_respected (L : Layout) (h : LogRun L log s) :
    (∀ e ∈ log, ∀ t o b table, e.act = .call t o →
      e.before.call t = .sendHook b →
      o.ret = ppHookOnMessageSendBefore table b.src b.dst b.msg →
      (e.SendObeys t b (table.filterMap (Hook.sendBefore b.src b.dst b.msg)) ↔
        ShownToCore
          (table.filterMap (Hook.sendBefore b.src b.dst b.msg)))) ∧
    (∀ front e rest t b g i r, log = front ++ e :: rest →
      e.before.call t = .pushLock b g i r → e.after.call t = .pushPost b g →
      ∃ before p between, front = before ++ p :: between ∧
        p.PassesHooks t b ∧
        ∀ x ∈ between, (x.after.call t).cleared? = some b) ∧
    (∀ e ∈ log, ∀ g o ph i r table, e.act = .worker g o →
      (e.before.group g).worker = .hookBefore ph i →
      ((e.before.group g).table i).curMsg = some r →
      o.ret = ppHookOnMessageHandleBefore table r.src r.dst r.msg →
      ((e.Starts g i r →
          AllAllow (table.filterMap (Hook.handleBefore r.src r.dst r.msg))) ↔
        ShownToCore
          (table.filterMap (Hook.handleBefore r.src r.dst r.msg)))) ∧
    ∀ e ∈ log, ∀ g i r, e.Starts g i r →
      ∃ ph, (e.before.group g).worker = .hookBefore ph i ∧
        ((e.before.group g).table i).curMsg = some r := by
  refine ⟨?_, ?_, ?_, ?_⟩
  · rintro ⟨s₀, a, events, s₁⟩ he t o b table hact hcall hret
    obtain ⟨front, rest, rfl⟩ := List.append_of_mem he
    obtain ⟨-, -, hstep, -⟩ := h.split
    obtain rfl : a = .call t o := hact
    exact callStep_sendObeys hstep hcall hret
  · rintro front e rest t b g i r rfl hcall -
    exact h.split.1.passed_hooks (by rw [hcall]; rfl)
  · rintro ⟨s₀, a, events, s₁⟩ he g o ph i r table hact hpc hcur hret
    obtain ⟨front, rest, rfl⟩ := List.append_of_mem he
    obtain ⟨-, -, hstep, -⟩ := h.split
    obtain rfl : a = .worker g o := hact
    exact (step_trans hstep).handleObeys hpc hcur hret
  · rintro ⟨s₀, a, events, s₁⟩ he g i r ⟨fn, hfn⟩
    obtain ⟨front, rest, rfl⟩ := List.append_of_mem he
    obtain ⟨-, -, hstep, -⟩ := h.split
    exact (step_trans hstep).starts hfn

/-- The handler of the lazily loaded service was started after the hooks. -/
theorem hooks_respected_lazy :
    ∃ log s, LogRun lazyPair log s ∧
      (s.group 0).worker = .inHandler .busy 0 ∧
      ∀ e ∈ log, ∀ g i r, e.Starts g i r →
        ∃ ph, (e.before.group g).worker = .hookBefore ph i ∧
          ((e.before.group g).table i).curMsg = some r := by
  obtain ⟨tr, s, hrun, hcheck⟩ :=
    exists_trace lazyPair (serial lazyPair)
      (lazyPairRequest ++ workerSteps 0 5)
      (fun o => decide ((o.1.group 0).worker = .inHandler .busy 0))
      (by decide +kernel)
  obtain ⟨log, hlog⟩ := hrun.exists_log
  exact ⟨log, s, hlog, of_decide_eq_true hcheck,
    (hooks_respected lazyPair hlog).2.2.2⟩

/-- A hook that answers every send with the same code. -/
def constantHook (code : Int) : Hook :=
  ⟨none, some fun _ _ _ => code, none⟩

/-- The second of two hooks refuses the message, and it is put into the queue
all the same. -/
theorem refusal_ignored :
    ∃ tr s s' tr' s'', Trace lazyPair (serial lazyPair) tr s ∧
      s.call (.client 1) = .sendHook ⟨.req, 9, 1, 0, false⟩ ∧
      step lazyPair s (.call (.client 1) { Outcome.plain with
        ret := ppHookOnMessageSendBefore [constantHook 0, constantHook (-1)]
          9 1 0 }) = some (s', []) ∧
      ¬AllAllow ([constantHook 0, constantHook (-1)].filterMap
        (Hook.sendBefore 9 1 0)) ∧
      Run (Guarded (step lazyPair) (serial lazyPair)) s' tr' s'' ∧
      ((s.group 0).table 0).queue = [] ∧
      ((s''.group 0).table 0).queue ≠ [] := by
  obtain ⟨tr, s, hrun, hcheck⟩ :=
    exists_trace lazyPair (serial lazyPair)
      (lazyPairLoad ++ [.user (.createReq 5 0 0),
        .enter (.client 1) (.send ⟨.req, 9, 1, 0, false⟩)] ++ clientSteps 1 1)
      (fun (o : Sys × List Event) => decide (
        o.1.call (.client 1) = .sendHook ⟨.req, 9, 1, 0, false⟩ ∧
        ((o.1.group 0).table 0).queue = []) &&
        (step lazyPair o.1 (.call (.client 1) { Outcome.plain with
          ret := ppHookOnMessageSendBefore
            [constantHook 0, constantHook (-1)] 9 1 0 })).any
          fun (p : Sys × List Event) => p.2.isEmpty &&
          (replay (step lazyPair) (serial lazyPair) p.1 (clientSteps 1 4)).any
            fun (q : Sys × List Event) => decide (((q.1.group 0).table 0).queue ≠ []))
      (by decide +kernel)
  simp only [Bool.and_eq_true, decide_eq_true_eq] at hcheck
  obtain ⟨⟨hcall, hempty⟩, hcheck⟩ := hcheck
  obtain ⟨⟨s', events⟩, hstep, hcheck⟩ := (Option.any_eq_true _ _).mp hcheck
  simp only [Bool.and_eq_true, List.isEmpty_iff] at hcheck
  obtain ⟨rfl, hcheck⟩ := hcheck
  obtain ⟨s'', tr', hrun', hq⟩ := exists_run_of_replay hcheck
  exact ⟨tr, s, s', tr', s'', hrun, hcall, hstep, by decide, hrun', hempty,
    of_decide_eq_true hq⟩

end Core
end Eaf

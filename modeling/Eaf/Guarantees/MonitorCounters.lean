import Eaf.Powerpack.Monitor
import Mathlib.Data.List.Induction

/-!
# The counters of the monitor

Every counter is the number of the invocations it is about: `total_send` and
`total_recv` since the load, `flush_send` and `flush_recv` since the last
reset, each as far as its type can count.  The law is proved for the calls one
after the other.  What can go wrong is the lookup in
`_monitor_update_counter_send`, which the other three hooks test and this one
does not: a message sent in the name of an id without a record ends the run.
-/

namespace Eaf
namespace Powerpack

open Core KeyedTable

variable {m m' : Monitor} {c : HookCall} {cs : List HookCall} {sid : UInt32}
  {record record' : ServiceRecord}

/-! ## What is counted -/

/-- A successful send in the name of the service. -/
def HookCall.sends (sid : UInt32) : HookCall → Bool
  | .sendAfter src _ ret _ => src == sid && decide (0 ≤ ret)
  | _ => false

/-- A completed handling by the service. -/
def HookCall.handles (sid : UInt32) : HookCall → Bool
  | .handleAfter _ dst _ => dst == sid
  | _ => false

/-- The calls since the last reset, the latest first. -/
def lately (cs : List HookCall) : List HookCall :=
  cs.reverse.takeWhile fun c => c != .reset

/-- The counters of a record agree with the calls. -/
structure CountsCalls (cs : List HookCall) (sid : UInt32)
    (record : ServiceRecord) : Prop where
  totalSend : record.totalSend = UInt64.ofNat (cs.countP (·.sends sid))
  totalRecv : record.totalRecv = UInt64.ofNat (cs.countP (·.handles sid))
  flushSend : record.flushSend =
    UInt32.ofNat ((lately cs).countP (·.sends sid))
  flushRecv : record.flushRecv =
    UInt32.ofNat ((lately cs).countP (·.handles sid))

theorem lately_reset (cs : List HookCall) : lately (cs ++ [.reset]) = [] := by
  simp [lately]

theorem lately_concat (h : c ≠ .reset) :
    lately (cs ++ [c]) = c :: lately cs := by
  simp [lately, h]

/-! ## One call -/

/-- The counters of a record after a call other than a reset. -/
structure ServiceRecord.Counted (record : ServiceRecord) (c : HookCall)
    (sid : UInt32) (record' : ServiceRecord) : Prop where
  totalSend : record'.totalSend =
    record.totalSend + UInt64.ofNat (c.sends sid).toNat
  totalRecv : record'.totalRecv =
    record.totalRecv + UInt64.ofNat (c.handles sid).toNat
  flushSend : record'.flushSend =
    record.flushSend + UInt32.ofNat (c.sends sid).toNat
  flushRecv : record'.flushRecv =
    record.flushRecv + UInt32.ofNat (c.handles sid).toNat

/-- A call that is not about the service leaves its counters alone. -/
theorem ServiceRecord.Counted.of_other (hsend : c.sends sid = false)
    (hhandle : c.handles sid = false) : record.Counted c sid record := by
  constructor <;> simp [hsend, hhandle]

/-- What a call does to the record of a service. -/
theorem Monitor.call_counted (h : m.call c = some m') (hc : c ≠ .reset)
    (hrecord : m.service sid = some record) :
    ∃ record', m'.service sid = some record' ∧ record.Counted c sid record' := by
  cases c with
  | handleBefore src dst now =>
      simp only [call, Option.some.injEq] at h
      subst h
      by_cases hdst : sid = dst
      · subst hdst
        refine ⟨{ record with useTimeStart := now }, ?_, ?_⟩
        · simp [onMessageHandleBefore, findService, hrecord]
        · constructor <;> simp [HookCall.sends, HookCall.handles]
      · refine ⟨record, ?_, .of_other rfl rfl⟩
        simp only [onMessageHandleBefore]
        split
        · exact hrecord
        · simpa [hdst] using hrecord
  | sendAfter src dst ret memory =>
      simp only [call, onMessageSendAfter] at h
      by_cases hret : ret < 0
      · simp only [if_pos hret, Option.some.injEq] at h
        subst h
        refine ⟨record, hrecord, .of_other ?_ rfl⟩
        simp [HookCall.sends, hret]
      · have hok : 0 ≤ ret := Int.not_lt.mp hret
        simp only [if_neg hret, updateCounterSend, findService,
          updateMessagePath_service] at h
        cases hsrc : m.service src with
        | none => simp [hsrc] at h
        | some sender =>
            simp only [hsrc, Option.some.injEq] at h
            subst h
            by_cases hsid : sid = src
            · subst hsid
              obtain rfl : sender = record :=
                Option.some.inj (hsrc.symm.trans hrecord)
              refine ⟨_, Function.update_self _ _ _, ?_⟩
              constructor <;> simp [HookCall.sends, HookCall.handles, hok]
            · refine ⟨record, by simpa [hsid] using hrecord, .of_other ?_ rfl⟩
              simp [HookCall.sends, Ne.symm hsid]
  | handleAfter src dst now =>
      simp only [call, Option.some.injEq] at h
      subst h
      by_cases hdst : sid = dst
      · subst hdst
        simp only [onMessageHandleAfter, findService, hrecord]
        refine ⟨_, Function.update_self _ _ _, ?_⟩
        constructor <;> simp [HookCall.sends, HookCall.handles]
      · refine ⟨record, ?_, .of_other rfl ?_⟩
        · simp only [onMessageHandleAfter]
          split
          · exact hrecord
          · simpa [hdst] using hrecord
        · simp [HookCall.handles, Ne.symm hdst]
  | reset => exact absurd rfl hc

/-- A call adds itself to what was counted. -/
theorem CountsCalls.call (hcounts : CountsCalls cs sid record)
    (hc : c ≠ .reset) (h : record.Counted c sid record') :
    CountsCalls (cs ++ [c]) sid record' := by
  have hlately : lately (cs ++ [c]) = c :: lately cs := lately_concat hc
  have hbit : ∀ b : Bool, (if b = true then 1 else 0) = b.toNat := by decide
  constructor
  · rw [h.totalSend, hcounts.totalSend, List.countP_append,
      List.countP_singleton, hbit, UInt64.ofNat_add]
  · rw [h.totalRecv, hcounts.totalRecv, List.countP_append,
      List.countP_singleton, hbit, UInt64.ofNat_add]
  · rw [h.flushSend, hcounts.flushSend, hlately, List.countP_cons, hbit,
      UInt32.ofNat_add]
  · rw [h.flushRecv, hcounts.flushRecv, hlately, List.countP_cons, hbit,
      UInt32.ofNat_add]

/-- A reset starts the flush counters again. -/
theorem CountsCalls.reset (hcounts : CountsCalls cs sid record) :
    CountsCalls (cs ++ [.reset]) sid
      { record with flushSend := 0, flushRecv := 0, flushUseTime := 0 } := by
  constructor
  · simp [hcounts.totalSend, HookCall.sends]
  · simp [hcounts.totalRecv, HookCall.handles]
  · simp [lately_reset]
  · simp [lately_reset]

/-! ## Many calls -/

theorem Monitor.calls_concat :
    m.calls (cs ++ [c]) = (m.calls cs).bind fun m' => m'.call c := by
  simp only [calls, List.foldlM_append]
  cases List.foldlM call m cs <;> simp

/-- A record that changes is one that was there. -/
theorem Monitor.setRecord_isSome {sid' : UInt32}
    (h : m.service sid' = some record) :
    ((m.setRecord sid' record').service sid).isSome =
      (m.service sid).isSome := by
  by_cases hsid : sid = sid'
  · subst hsid
    simp [h]
  · simp [hsid]

/-- Calls create no record and destroy none. -/
theorem Monitor.call_isSome (h : m.call c = some m') (sid : UInt32) :
    (m'.service sid).isSome = (m.service sid).isSome := by
  cases c with
  | handleBefore src dst now =>
      simp only [call, Option.some.injEq, onMessageHandleBefore,
        findService] at h
      subst h
      split
      · rfl
      · next record hrecord => exact setRecord_isSome hrecord
  | sendAfter src dst ret memory =>
      simp only [call, onMessageSendAfter, updateCounterSend, findService,
        updateMessagePath_service] at h
      split at h
      · obtain rfl := Option.some.inj h
        rfl
      · cases hsrc : m.service src with
        | none => simp [hsrc] at h
        | some sender =>
            simp only [hsrc, Option.some.injEq] at h
            subst h
            rw [setRecord_isSome ((congrFun
              (updateMessagePath_service m src dst memory) src).trans hsrc),
              updateMessagePath_service]
  | handleAfter src dst now =>
      simp only [call, Option.some.injEq, onMessageHandleAfter,
        findService] at h
      subst h
      split
      · rfl
      · next record hrecord => exact setRecord_isSome hrecord
  | reset =>
      obtain rfl := Option.some.inj h
      simp [resetFlush]

theorem Monitor.calls_isSome (h : m.calls cs = some m') (sid : UInt32) :
    (m'.service sid).isSome = (m.service sid).isSome := by
  induction cs using List.reverseRecOn generalizing m' with
  | nil =>
      obtain rfl : m = m' := by simpa [calls] using h
      rfl
  | append_singleton cs c ih =>
      rw [calls_concat] at h
      obtain ⟨m₁, hbefore, hlast⟩ := Option.bind_eq_some_iff.mp h
      rw [call_isSome hlast, ih hbefore]

/-- The call is not a successful send in the name of an id without a
record. -/
def HookCall.hasRecord (m : Monitor) (c : HookCall) : Prop :=
  ∀ src, c.sends src = true → (m.service src).isSome

/-- A call returns exactly when it has the record it uses. -/
theorem Monitor.call_returns :
    (∃ m', m.call c = some m') ↔ c.hasRecord m := by
  cases c with
  | handleBefore src dst now | handleAfter src dst now | reset =>
      simp [call, HookCall.hasRecord, HookCall.sends]
  | sendAfter src dst ret memory =>
      simp only [call, onMessageSendAfter, updateCounterSend, findService,
        updateMessagePath_service, HookCall.hasRecord, HookCall.sends]
      by_cases hret : ret < 0
      · simp [hret]
      · cases hsrc : m.service src <;> simp [hret, hsrc, Int.not_lt.mp hret]

/-- All calls return exactly when each of them has the record it uses. -/
theorem Monitor.calls_return {m₀ : Monitor} :
    (∃ m, m₀.calls cs = some m) ↔ ∀ c ∈ cs, c.hasRecord m₀ := by
  induction cs using List.reverseRecOn with
  | nil => simp [calls]
  | append_singleton cs c ih =>
      have hsame : ∀ {m : Monitor}, m₀.calls cs = some m →
          (c.hasRecord m ↔ c.hasRecord m₀) := by
        intro m hm
        simp only [HookCall.hasRecord, calls_isSome hm]
      constructor
      · rintro ⟨m', h⟩
        rw [calls_concat] at h
        obtain ⟨m, hbefore, hlast⟩ := Option.bind_eq_some_iff.mp h
        intro c' hc'
        rcases List.mem_append.mp hc' with hc' | hc'
        · exact ih.mp ⟨m, hbefore⟩ c' hc'
        · obtain rfl : c' = c := by simpa using hc'
          exact (hsame hbefore).mp (call_returns.mp ⟨m', hlast⟩)
      · intro h
        obtain ⟨m, hbefore⟩ := ih.mpr fun c' hc' => h c' (by simp [hc'])
        obtain ⟨m', hlast⟩ :=
          call_returns.mpr ((hsame hbefore).mpr (h c (by simp)))
        exact ⟨m', by rw [calls_concat, hbefore]; exact hlast⟩

/-- The law of the counters. -/
theorem Monitor.counts_calls {m₀ : Monitor} (hfresh : m₀.Fresh)
    (h : m₀.calls cs = some m) (hrecord : m₀.service sid = some record) :
    ∃ record', m.service sid = some record' ∧ CountsCalls cs sid record' := by
  induction cs using List.reverseRecOn generalizing m with
  | nil =>
      obtain rfl : m₀ = m := by simpa [calls] using h
      obtain ⟨-, hflushSend, hflushRecv, -, htotalSend, htotalRecv⟩ :=
        hfresh sid record hrecord
      refine ⟨record, hrecord, ?_⟩
      constructor <;> simp [*, lately]
  | append_singleton cs c ih =>
      rw [calls_concat] at h
      obtain ⟨m', hbefore, hlast⟩ := Option.bind_eq_some_iff.mp h
      obtain ⟨record', hrecord', hcounts⟩ := ih hbefore
      by_cases hc : c = .reset
      · subst hc
        obtain rfl : m'.resetFlush = m := by simpa [call] using hlast
        exact ⟨_, by simp [resetFlush, hrecord'], hcounts.reset⟩
      · obtain ⟨record'', hrecord'', hcounted⟩ :=
          call_counted hlast hc hrecord'
        exact ⟨record'', hrecord'', hcounts.call hc hcounted⟩

/-- All calls return, and the counters of every service with a record are the
numbers of its sends and handlings. -/
def Monitor.Accurate (m₀ : Monitor) (cs : List HookCall) : Prop :=
  ∃ m, m₀.calls cs = some m ∧ ∀ sid, (m₀.service sid).isSome →
    ∃ record, m.service sid = some record ∧
      record.totalSend.toNat = cs.countP (·.sends sid) ∧
      record.totalRecv.toNat = cs.countP (·.handles sid) ∧
      record.flushSend.toNat = (lately cs).countP (·.sends sid) % 2 ^ 32 ∧
      record.flushRecv.toNat = (lately cs).countP (·.handles sid) % 2 ^ 32

/-- The monitor is accurate exactly when every successful send is in the name
of a service with a record, as long as the 64 bits of the totals suffice. -/
theorem monitor_accurate_iff (L : Layout)
    (fate : Nat → Nat → Monitor.RecordFate) (cs : List HookCall) :
    (Monitor.initial.onLoadBefore L fate).Accurate cs ↔
      (∀ src dst ret memory, .sendAfter src dst ret memory ∈ cs → 0 ≤ ret →
        Recorded L fate src) ∧
      ∀ sid, Recorded L fate sid →
        cs.countP (·.sends sid) < 2 ^ 64 ∧ cs.countP (·.handles sid) < 2 ^ 64 := by
  have hfresh := Monitor.fresh_onLoadBefore L fate
  have hrecorded : ∀ sid,
      ((Monitor.initial.onLoadBefore L fate).service sid).isSome ↔
        Recorded L fate sid := fun sid => Monitor.onLoadBefore_isSome
  generalize Monitor.initial.onLoadBefore L fate = m₀ at hfresh hrecorded ⊢
  -- the sends are those that `hasRecord` speaks about
  have hsends : (∀ c ∈ cs, c.hasRecord m₀) ↔ ∀ src dst ret memory,
      .sendAfter src dst ret memory ∈ cs → 0 ≤ ret → Recorded L fate src := by
    constructor
    · intro h src dst ret memory hmem hret
      exact (hrecorded src).mp (h _ hmem src (by simp [HookCall.sends, hret]))
    · intro h c hc src hsends
      cases c with
      | sendAfter src' dst ret memory =>
          simp only [HookCall.sends, Bool.and_eq_true, beq_iff_eq,
            decide_eq_true_eq] at hsends
          obtain ⟨rfl, hret⟩ := hsends
          exact (hrecorded _).mpr (h _ dst ret memory hc hret)
      | handleBefore src' dst now | handleAfter src' dst now | reset =>
          cases hsends
  rw [← hsends, ← Monitor.calls_return]
  constructor
  · rintro ⟨m, hm, hcounts⟩
    refine ⟨⟨m, hm⟩, fun sid hsid => ?_⟩
    obtain ⟨record, -, hsend, hrecv, -, -⟩ := hcounts sid ((hrecorded sid).mpr hsid)
    exact ⟨hsend ▸ record.totalSend.toNat_lt, hrecv ▸ record.totalRecv.toNat_lt⟩
  · rintro ⟨⟨m, hm⟩, hbound⟩
    refine ⟨m, hm, fun sid hsid => ?_⟩
    obtain ⟨record₀, hrecord₀⟩ := Option.isSome_iff_exists.mp hsid
    obtain ⟨record, hrecord, hcounts⟩ := Monitor.counts_calls hfresh hm hrecord₀
    obtain ⟨hsend, hrecv⟩ := hbound sid ((hrecorded sid).mp hsid)
    refine ⟨record, hrecord, ?_, ?_, ?_, ?_⟩
    · rw [hcounts.totalSend, UInt64.toNat_ofNat_of_lt' hsend]
    · rw [hcounts.totalRecv, UInt64.toNat_ofNat_of_lt' hrecv]
    · rw [hcounts.flushSend, UInt32.toNat_ofNat']
    · rw [hcounts.flushRecv, UInt32.toNat_ofNat']

/-- A layout with one service. -/
def oneService : Layout := ⟨[⟨[⟨1, 8, 0, none⟩]⟩], 1⟩

/-- A successful send in the name of nobody, `(uint32_t)-1`, ends the run. -/
theorem send_from_nobody :
    ¬ (Monitor.initial.onLoadBefore oneService fun _ _ => ⟨true, 0⟩).Accurate
      [.sendAfter 0xFFFFFFFF 1 0 true] := by
  rintro ⟨m, hm, -⟩
  have hnone : ((Monitor.initial.onLoadBefore oneService
      fun _ _ => ⟨true, 0⟩).calls [.sendAfter 0xFFFFFFFF 1 0 true]).isNone =
      true := by decide +kernel
  rw [hm] at hnone
  cases hnone

end Powerpack
end Eaf

import Eaf.Guarantees.WatchdogExit
import Eaf.Powerpack.ClockSums

/-!
# When the watchdog reports errors

The watch list promises an error in two cases: a response is overdue by more
than `jitter * timeout` when the timer comes, or a response is late and so were
the `jitter` responses before it.  The second case is what the code does.  The
first one never happens, because `_watchdog_check_busy` compares the end time
with a time after it, and not with the current one.
-/

namespace Eaf
namespace Powerpack

open Core LabelledRun

variable {T : List WatchItem} {s s' s₀ : Watchdog} {tr front rest : List Handled}
  {x : Handled} {log : List Executed} {sender : UInt32}

/-! ## What is promised -/

/-- The response of an outstanding heartbeat is overdue by more than
`jitter * timeout` milliseconds. -/
def Watchdog.overdue (T : List WatchItem) (now : ClockTime) (s : Watchdog)
    (r : Nat) : Bool :=
  (s.record r).endTime.nanos +
      (s.item T r).jitter.toNat * (s.item T r).timeout.toNat * 1000000 <
    now.nanos

/-- The services whose response is overdue when the outstanding heartbeats are
checked, which is after the new ones have been sent. -/
def Watchdog.overdueAt (T : List WatchItem) (now : ClockTime)
    (sends : Nat → SendResult) (s : Watchdog) : List UInt32 :=
  match s.checkIdle T now sends with
  | none => []
  | some (s, _) =>
      (s.busyStack.filter (s.overdue T now)).map fun r => (s.item T r).sid

/-- The record of a service. -/
def recordOf (T : List WatchItem) (sid : UInt32) : Nat :=
  T.findIdx fun x => x.sid == sid

/-- A response of the service. -/
def Handled.responds (sid : UInt32) (x : Handled) : Bool :=
  match x.act with
  | .tick _ _ => false
  | .rsp sender _ _ => sender == sid

/-- A response after the end time of the heartbeat. -/
def Handled.late (T : List WatchItem) (x : Handled) : Bool :=
  match x.act with
  | .tick _ _ => false
  | .rsp sender _ now =>
      decide ((x.before.record (recordOf T sender)).endTime.key < now.key)

/-- How many responses of the service have been late, up to the last one. -/
def lateRun (T : List WatchItem) (sid : UInt32) (tr : List Handled) : Nat :=
  ((tr.reverse.filter (·.responds sid)).takeWhile (·.late T)).length

/-- The allowed number of late responses. -/
def jitterOf (T : List WatchItem) (sid : UInt32) : Nat :=
  (T.getD (recordOf T sid) default).jitter.toNat

/-- The errors that are due. -/
def expected (T : List WatchItem) (front : List Handled) (x : Handled) :
    List UInt32 :=
  match x.act with
  | .tick now sends => x.before.overdueAt T now sends
  | .rsp sender _ _ =>
      if x.late T ∧ jitterOf T sender ≤ lateRun T sender front then [sender]
      else []

/-- The condition on a step: nothing is overdue at a tick; a response has the
token of the service's outstanding heartbeat, and the error count can count
it. -/
def Handled.Regular (T : List WatchItem) (x : Handled) : Prop :=
  match x.act with
  | .tick now sends => x.before.overdueAt T now sends = []
  | .rsp sender msg _ =>
      x.before.findRecordByToken (msgGetToken msg) = some (recordOf T sender) ∧
        (x.late T → (x.before.record (recordOf T sender)).cerrc + 1 ≠ 0)

instance (T : List WatchItem) : (x : Handled) → Decidable (x.Regular T)
  | ⟨.tick now sends, s, _⟩ =>
      inferInstanceAs (Decidable (s.overdueAt T now sends = []))
  | ⟨.rsp sender msg now, s, log⟩ =>
      inferInstanceAs (Decidable (s.findRecordByToken (msgGetToken msg) =
        some (recordOf T sender) ∧
        (Handled.late T ⟨.rsp sender msg now, s, log⟩ →
          (s.record (recordOf T sender)).cerrc + 1 ≠ 0)))

/-! ## The error count -/

theorem lateRun_concat_other (h : x.responds sender = false) :
    lateRun T sender (tr ++ [x]) = lateRun T sender tr := by
  simp [lateRun, h]

theorem lateRun_concat (h : x.responds sender = true) :
    lateRun T sender (tr ++ [x]) =
      if x.late T then lateRun T sender tr + 1 else 0 := by
  simp only [lateRun, List.reverse_append, List.reverse_singleton,
    List.singleton_append, List.filter_cons, h, if_true, List.takeWhile_cons]
  split <;> simp

/-- The entry of a service that has a record. -/
theorem recordOf_sid (h : recordOf T sender < T.length) :
    (T.getD (recordOf T sender) default).sid = sender := by
  have hget := List.findIdx_getElem (w := h)
  rw [List.getD_eq_getElem _ _ h]
  exact eq_of_beq hget

/-- Different services have different records. -/
theorem recordOf_inj {sid : UInt32} (h : recordOf T sender < T.length)
    (heq : recordOf T sid = recordOf T sender) : sid = sender := by
  have hsid := recordOf_sid h
  rw [← heq] at hsid h
  rw [← recordOf_sid h, hsid]

/-- The error count counts, unless it wraps around. -/
theorem nextCerrc_toNat (now : ClockTime) (y : WatchdogRecord)
    (h : y.endTime.key < now.key → y.cerrc + 1 ≠ 0) :
    (Watchdog.nextCerrc now y).toNat =
      if y.endTime.key < now.key then y.cerrc.toNat + 1 else 0 := by
  unfold Watchdog.nextCerrc
  by_cases hlate : y.endTime.key < now.key
  · rw [if_pos (timeDiffclock_pos.mpr hlate), if_pos hlate]
    have hne : (y.cerrc + 1).toNat ≠ 0 := fun hzero =>
      h hlate (UInt64.toNat_inj.mp hzero)
    have hadd := UInt64.toNat_add y.cerrc 1
    have hbound := y.cerrc.toNat_lt
    have hone : (1 : UInt64).toNat = 1 := rfl
    omega
  · rw [if_neg (timeDiffclock_pos.not.mpr hlate), if_neg hlate]
    rfl

/-- The error counts are the numbers of late responses. -/
def Counted (T : List WatchItem) (tr : List Handled) (s : Watchdog) : Prop :=
  ∀ sid, recordOf T sid < T.length →
    (s.record (recordOf T sid)).cerrc.toNat = lateRun T sid tr

theorem Counted.tick {now : ClockTime} {sends : Nat → SendResult}
    (h : Counted T tr s) (hchecked : Watchdog.Checked T s s' log) :
    Counted T (tr ++ [⟨.tick now sends, s, log⟩]) s' := by
  intro sid hsid
  rw [lateRun_concat_other rfl, hchecked.cerrc]
  exact h sid hsid

theorem Counted.rsp {msg : Msg} {now : ClockTime} (h : Counted T tr s)
    (hregular : Handled.Regular T ⟨.rsp sender msg now, s, log⟩)
    (hlt : recordOf T sender < T.length)
    (hanswered : Watchdog.Answered T s (recordOf T sender) now s') :
    Counted T (tr ++ [⟨.rsp sender msg now, s, log⟩]) s' := by
  intro sid hsid
  by_cases heq : sid = sender
  · subst heq
    have hlate : (Handled.late T ⟨.rsp sid msg now, s, log⟩ = true) ↔
        (s.record (recordOf T sid)).endTime.key < now.key :=
      decide_eq_true_iff
    rw [lateRun_concat (by simp [Handled.responds]), hanswered.self,
      nextCerrc_toNat _ _ fun hkey => hregular.2 (hlate.mpr hkey)]
    simp only [hlate, h sid hsid]
  · have hne : recordOf T sid ≠ recordOf T sender := fun hsame =>
      heq (recordOf_inj hlt hsame)
    rw [lateRun_concat_other (by simp [Handled.responds, Ne.symm heq]),
      hanswered.other _ hne]
    exact h sid hsid

/-! ## The errors -/

/-- A response reports an error when the count exceeds the jitter. -/
theorem errorsIn_rsp {msg : Msg} {now : ClockTime} (hs : s.InOrder T)
    (h : Counted T tr s)
    (hregular : Handled.Regular T ⟨.rsp sender msg now, s, log⟩)
    (hlog : log.map (·.2) = s.rspStmts T now (recordOf T sender)) :
    Watchdog.errorsIn log = expected T tr ⟨.rsp sender msg now, s, log⟩ := by
  have hmem := (Watchdog.findRecordByToken_some hregular.1).1
  obtain ⟨hlt, hrec, -⟩ := hs.known .busyTable _ hmem
  have hlt' := hlt.trans_le (Watchdog.intSize_le T.length)
  have hitem : s.item T (recordOf T sender) =
      T.getD (recordOf T sender) default := by
    rw [Watchdog.item, hrec, Nat.add_sub_cancel]
  have hlate : (Handled.late T ⟨.rsp sender msg now, s, log⟩ = true) ↔
      (s.record (recordOf T sender)).endTime.key < now.key :=
    decide_eq_true_iff
  have hcount := nextCerrc_toNat now (s.record (recordOf T sender))
    fun hkey => hregular.2 (hlate.mpr hkey)
  have hif : (Watchdog.nextCerrc now (s.record (recordOf T sender))).toNat >
      (s.item T (recordOf T sender)).jitter.toNat ↔
      (Handled.late T ⟨.rsp sender msg now, s, log⟩ = true ∧
        jitterOf T sender ≤ lateRun T sender tr) := by
    rw [hcount, hitem, hlate, ← h sender hlt', jitterOf]
    split
    · next hkey =>
      simp only [hkey, true_and]
      omega
    · next hkey =>
      simp only [hkey, false_and, iff_false]
      omega
  rw [Watchdog.errorsIn_eq, hlog, Watchdog.rspStmts, hitem, recordOf_sid hlt']
  rw [hitem] at hif
  simp only [expected, hif]
  split <;> rfl

/-- A regular step counts on, and reports the errors that are due. -/
theorem Counted.step {a : WatchdogAct} {events : List Handled}
    (hsids : Watchdog.Distinct T) (hs : s.InOrder T) (hp : s.Paired)
    (h : Counted T tr s) (hstep : s.step T a = some (s', events))
    (hregular : ∀ x ∈ events, x.Regular T) :
    Counted T (tr ++ events) s' ∧
      ∀ x ∈ events, Watchdog.errorsIn x.log = expected T tr x := by
  obtain ⟨log, rfl, hcases⟩ := hs.step_cases hp hsids hstep
  have hx := hregular _ (List.mem_singleton_self _)
  simp only [List.mem_singleton, forall_eq]
  rcases hcases with ⟨now, sends, rfl, hchecked⟩ |
    ⟨sender, msg, now, r, rfl, hfind, hanswered, hlog, -⟩
  · exact ⟨h.tick hchecked, hchecked.errors.trans (Eq.symm hx)⟩
  · obtain rfl : r = recordOf T sender :=
      Option.some.inj (hfind.symm.trans hx.1)
    have hmem := (Watchdog.findRecordByToken_some hfind).1
    have hlt := (hs.known .busyTable _ hmem).1.trans_le
      (Watchdog.intSize_le T.length)
    exact ⟨h.rsp hx hlt hanswered, errorsIn_rsp hs h hx hlog⟩

/-- A run of regular steps counts. -/
theorem WatchdogRun.counted (hsids : Watchdog.Distinct T)
    (h₀ : s₀.Started T) (h : WatchdogRun T s₀ tr s)
    (hregular : ∀ x ∈ tr, x.Regular T) : Counted T tr s := by
  refine Run.invariant (P := fun tr s => (∀ x ∈ tr, x.Regular T) →
    Counted T tr s) h (fun _ sid _ => ?_) ?_ hregular
  · rw [h₀.cerrc]
    rfl
  · rintro tr s events s' hrun ih ⟨a, -, hstep⟩ hregular
    obtain ⟨hs, hp, -⟩ :=
      WatchdogRun.inOrder hsids h₀.inOrder h₀.paired hrun
    have hcounted := ih fun x hx => hregular x (List.mem_append_left _ hx)
    exact (hcounted.step hsids hs hp hstep fun x hx =>
      hregular x (List.mem_append_right _ hx)).1

/-- Every step shows one event. -/
theorem Watchdog.step_length {a : WatchdogAct} {events : List Handled}
    (h : s.step T a = some (s', events)) : events.length = 1 := by
  obtain ⟨out, -, heq⟩ := Option.map_eq_some_iff.mp h
  cases heq
  rfl

/-- In every run whose steps all meet the condition, the watchdog reports the
errors that are due, and no others, at every step. -/
theorem errors_as_expected {fn : Fn} {arg : Nat} {memory : Bool}
    {registered : Int}
    (hinit : Watchdog.initial.eafWatchdogInit T fn arg memory registered =
      some (s₀, Errno.success, log)) (h : WatchdogRun T s₀ tr s)
    (hregular : ∀ x ∈ tr, x.Regular T) (hsplit : tr = front ++ x :: rest) :
    Watchdog.errorsIn x.log = expected T front x := by
  obtain ⟨hsids, h₀⟩ := Watchdog.eafWatchdogInit_distinct hinit
  subst hsplit
  have hone : ∀ s events s', Guarded (Watchdog.step T) (fun _ _ => True) s
      events s' → events.length = 1 := by
    rintro s events s' ⟨a, -, hstep⟩
    exact Watchdog.step_length hstep
  obtain ⟨m, n, hfront, ⟨a, -, hstep⟩, -⟩ := Run.at_event hone h
  obtain ⟨hm, hp, -⟩ :=
    WatchdogRun.inOrder hsids h₀.inOrder h₀.paired hfront
  have hcounted := WatchdogRun.counted hsids h₀ hfront fun x hx =>
    hregular x (List.mem_append_left _ hx)
  exact (hcounted.step hsids hm hp hstep (by
    simpa using hregular x (by simp))).2 x (List.mem_singleton_self x)

/-! ## A service that does not answer -/

/-- A service that is given a tenth of a second, and two more. -/
def watchOne : List WatchItem := [⟨5, 1000, 100, 2⟩]

/-- The context in which it is watched. -/
def watchOneStart : Watchdog :=
  ((Watchdog.initial.eafWatchdogInit watchOne 9 0 true Errno.success).map
    (·.1)).getD .initial

theorem watchOneStart_init : ∃ log,
    Watchdog.initial.eafWatchdogInit watchOne 9 0 true Errno.success =
      some (watchOneStart, Errno.success, log) := by
  obtain ⟨s, log, hinit, -⟩ := Watchdog.eafWatchdogInit_success
    (Watchdog.Distinct.of_nodup (T := watchOne) (by decide)) 9 0
  refine ⟨log, ?_⟩
  rw [watchOneStart, hinit]
  rfl

/-- The response of the service. -/
def responseOne : Msg :=
  msgCreateRsp (watchOneStart.request 0 100) Watchdog.heartbeatRspSize

/-- The third late response in a row is reported. -/
theorem errors_as_expected_late : ∃ front s x,
    WatchdogRun watchOne watchOneStart (front ++ [x]) s ∧
      expected watchOne front x = [5] ∧
      Watchdog.errorsIn x.log = expected watchOne front x := by
  obtain ⟨log, hinit⟩ := watchOneStart_init
  have hreplay : (replay (Watchdog.step watchOne) (fun _ _ => True)
      watchOneStart [.tick ⟨1, 0⟩ allSent, .rsp 5 responseOne ⟨1, 200000000⟩,
        .tick ⟨2, 300000000⟩ allSent, .rsp 5 responseOne ⟨2, 600000000⟩,
        .tick ⟨3, 700000000⟩ allSent, .rsp 5 responseOne ⟨4, 0⟩]).any
      (fun o => decide ((∀ x ∈ o.2, x.Regular watchOne) ∧
        o.2.getLast?.map (fun x => Watchdog.errorsIn x.log) = some [5])) =
      true := by decide +kernel
  obtain ⟨s, tr, hrun, hcheck⟩ := exists_run_of_replay hreplay
  obtain ⟨hregular, hlast⟩ := of_decide_eq_true hcheck
  obtain ⟨x, hx, herrors⟩ := Option.map_eq_some_iff.mp hlast
  obtain ⟨front, rfl⟩ := List.getLast?_eq_some_iff.mp hx
  have hexact := errors_as_expected hinit hrun hregular rfl
  exact ⟨front, s, x, hrun, hexact.symm.trans herrors, hexact⟩

/-- The heartbeat of the first second is due after a tenth of a second.  After
three tenths an error is due, and even at nine seconds there is none. -/
theorem overdue_not_reported : ∃ front s x,
    WatchdogRun watchOne watchOneStart (front ++ [x]) s ∧
      expected watchOne front x = [5] ∧ Watchdog.errorsIn x.log = [] := by
  have hreplay : (replay (Watchdog.step watchOne) (fun _ _ => True)
      watchOneStart [.tick ⟨1, 0⟩ allSent, .tick ⟨9, 0⟩ allSent]).any
      (fun o => decide (o.2.getLast?.map (fun x =>
        (expected watchOne o.2.dropLast x, Watchdog.errorsIn x.log)) =
        some ([5], []))) = true := by decide +kernel
  obtain ⟨s, tr, hrun, hcheck⟩ := exists_run_of_replay hreplay
  have hlast := of_decide_eq_true hcheck
  obtain ⟨x, hx, hboth⟩ := Option.map_eq_some_iff.mp hlast
  obtain ⟨front, rfl⟩ := List.getLast?_eq_some_iff.mp hx
  rw [List.dropLast_concat] at hboth
  obtain ⟨hexpected, herrors⟩ := Prod.mk.inj hboth
  exact ⟨front, s, x, hrun, hexpected, herrors⟩

end Powerpack
end Eaf

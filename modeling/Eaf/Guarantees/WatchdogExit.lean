import Eaf.Guarantees.WatchdogOrder

/-!
# What the watchdog leaves behind

A failing `eaf_watchdog_init` leaves nothing.  `eaf_watchdog_exit` empties the
two stacks, but not `busy_table`: the records of outstanding heartbeats are
freed while the table still holds them.
-/

namespace Eaf
namespace Powerpack

open Core LabelledRun

variable {T : List WatchItem} {s : Watchdog}

/-- Nothing is left: the maps are empty, so that none refers to a freed
record, the callback is cleared, and the next init does what the first one
would do. -/
structure Watchdog.Clean (s : Watchdog) : Prop where
  maps : ∀ m, s.map m = []
  callback : s.fn = 0 ∧ s.arg = 0
  again : ∀ T fn arg memory registered,
    s.eafWatchdogInit T fn arg memory registered =
      Watchdog.initial.eafWatchdogInit T fn arg memory registered

theorem Watchdog.clean_initial : Watchdog.initial.Clean where
  maps m := by cases m <;> rfl
  callback := ⟨rfl, rfl⟩
  again _ _ _ _ _ := rfl

/-- How init ends. -/
theorem Watchdog.eafWatchdogInit_cases (T : List WatchItem) (fn : Fn)
    (arg : Nat) (memory : Bool) (registered : Int) :
    ∃ s code log, initial.eafWatchdogInit T fn arg memory registered =
        some (s, code, log) ∧
      (s = initial ∧ code ≠ Errno.success ∨
        s.fn = fn ∧ code = Errno.success) := by
  unfold eafWatchdogInit
  rw [if_neg (by decide)]
  by_cases hmemory : memory = true
  · rw [if_neg (by simpa using hmemory)]
    have hroom : 0 + intSize T.length ≤ (initial.allocated T).room := by
      rw [Nat.zero_add]
      simpa [room, allocated] using intSize_le T.length
    obtain ⟨t, ok, log, hloop, hkeeps⟩ :=
      initLoop_returns (T := T) (intSize T.length) 0 _ hroom
    -- the error path empties `idle_stack`, and the rest is empty anyway
    have herror : ∀ u : Watchdog, u.busyStack = t.busyStack →
        u.busyTable = t.busyTable → u.errRegister = some initial := by
      intro u hstack htable
      rw [errRegister_eq, hstack, htable, hkeeps.busyStack, hkeeps.busyTable]
      rfl
    rw [hloop]
    cases ok with
    | false =>
        dsimp only
        rw [herror t rfl rfl]
        exact ⟨_, _, _, rfl, .inl ⟨rfl, by decide⟩⟩
    | true =>
        dsimp only
        by_cases hregistered : registered = Errno.success
        · rw [if_neg (by simpa using hregistered)]
          exact ⟨_, _, _, rfl, .inr ⟨rfl, hregistered⟩⟩
        · rw [if_pos hregistered,
            herror { t with fn := fn, arg := arg } rfl rfl]
          exact ⟨_, _, _, rfl, .inl ⟨rfl, hregistered⟩⟩
  · rw [if_pos hmemory]
    exact ⟨_, _, _, rfl, .inl ⟨rfl, by decide⟩⟩

/-- Init always ends.  When it fails nothing is left; and after a run of the
watchdog that it has started, exit leaves nothing exactly when no heartbeat is
outstanding. -/
theorem exit_clean_iff (T : List WatchItem) {fn : Fn} (hfn : fn ≠ 0)
    (arg : Nat) (memory : Bool) (registered : Int) :
    ∃ s₀ code log, Watchdog.initial.eafWatchdogInit T fn arg memory registered =
        some (s₀, code, log) ∧
      (code ≠ Errno.success → s₀.Clean) ∧
      (code = Errno.success → ∀ tr s, WatchdogRun T s₀ tr s →
        ∃ s', s.eafWatchdogExit = some s' ∧
          (s'.Clean ↔ s.busyTable = [])) := by
  obtain ⟨s₀, code, log, hinit, hcases⟩ :=
    Watchdog.eafWatchdogInit_cases T fn arg memory registered
  refine ⟨s₀, code, log, hinit, fun hcode => ?_, fun hcode tr s hrun => ?_⟩
  · rcases hcases with ⟨rfl, -⟩ | ⟨-, hsuccess⟩
    · exact Watchdog.clean_initial
    · exact absurd hsuccess hcode
  · rcases hcases with ⟨-, hfail⟩ | ⟨hs₀, -⟩
    · exact absurd hcode hfail
    · have hfn' : s.fn ≠ 0 := by
        rw [hrun.fn_eq, hs₀]
        exact hfn
      refine ⟨_, Watchdog.eafWatchdogExit_eq hfn', ?_, fun htable => ?_⟩
      · exact fun hclean => hclean.maps .busyTable
      · rw [htable]
        exact Watchdog.clean_initial

/-- Before the first tick there is no heartbeat. -/
theorem exit_clean_at_once : ∃ s₀ log s',
    Watchdog.initial.eafWatchdogInit watchTwo 9 0 true Errno.success =
      some (s₀, Errno.success, log) ∧
      s₀.eafWatchdogExit = some s' ∧ s'.Clean := by
  obtain ⟨s₀, code, log, hinit, -, hexit⟩ :=
    exit_clean_iff watchTwo (show (9 : Fn) ≠ 0 by decide) 0 true Errno.success
  obtain ⟨s₁, log₁, hinit₁, h₀, -⟩ :=
    Watchdog.eafWatchdogInit_success
      (Watchdog.Distinct.of_nodup (T := watchTwo) (by decide)) 9 0
  rw [hinit] at hinit₁
  cases hinit₁
  obtain ⟨s', hs', hiff⟩ := hexit rfl [] s₀ .refl
  refine ⟨s₀, log, s', hinit, hs', hiff.mpr ?_⟩
  refine List.eq_nil_iff_forall_not_mem.mpr fun r hr => ?_
  have hr' := (h₀.paired r).mpr hr
  rw [h₀.busyStack] at hr'
  cases hr'

/-- The context in which those two services are watched. -/
def watchTwoStart : Watchdog :=
  ((Watchdog.initial.eafWatchdogInit watchTwo 9 0 true Errno.success).map
    (·.1)).getD .initial

theorem watchTwoStart_init : ∃ log,
    Watchdog.initial.eafWatchdogInit watchTwo 9 0 true Errno.success =
      some (watchTwoStart, Errno.success, log) := by
  obtain ⟨s, log, hinit, -⟩ :=
    Watchdog.eafWatchdogInit_success
      (Watchdog.Distinct.of_nodup (T := watchTwo) (by decide)) 9 0
  refine ⟨log, ?_⟩
  rw [watchTwoStart, hinit]
  rfl

/-- Every send succeeds. -/
def allSent : Nat → SendResult := fun r => ⟨100 + r, Errno.success⟩

/-- With two heartbeats outstanding, `busy_table` still holds both records when
they are freed. -/
theorem exit_leaves_heartbeats : ∃ log tr s s',
    Watchdog.initial.eafWatchdogInit watchTwo 9 0 true Errno.success =
      some (watchTwoStart, Errno.success, log) ∧
    WatchdogRun watchTwo watchTwoStart tr s ∧
    s.eafWatchdogExit = some s' ∧ s'.busyTable = [0, 1] ∧
    s'.records = none ∧ ¬ s'.Clean := by
  obtain ⟨log, hinit⟩ := watchTwoStart_init
  have hreplay : (replay (Watchdog.step watchTwo) (fun _ _ => True)
      watchTwoStart [.tick ⟨1, 0⟩ allSent]).any (fun o =>
        decide (o.1.busyTable = [0, 1] ∧ o.1.fn ≠ 0)) = true := by
    decide +kernel
  obtain ⟨s, tr, hrun, hcheck⟩ := exists_run_of_replay hreplay
  obtain ⟨htable, hfn⟩ := of_decide_eq_true hcheck
  refine ⟨log, tr, s, _, hinit, hrun, Watchdog.eafWatchdogExit_eq hfn, htable,
    rfl, fun hclean => ?_⟩
  have hempty : s.busyTable = [] := hclean.maps .busyTable
  rw [htable] at hempty
  cases hempty

end Powerpack
end Eaf

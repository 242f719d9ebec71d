import Eaf.Core.InitCall
import Eaf.Foundation.Ledger

/-!
# The roll-back of `eaf_init`

When a lock, a semaphore or a thread cannot be created for group `n`,
`_eaf_init_group` posts the semaphore of each earlier group once and joins its
worker.  The context state stays `init` during all of this, so a worker that
has entered its start-up loop takes the token and waits again: it never
returns, and the join never ends.  Only a worker whose thread storage could not
be set returns.  Everything else about the roll-back is in order, so it
completes exactly when every earlier worker fails in this way, in particular
when the first group is the one that fails.
-/

namespace Eaf
namespace Core

open LabelledRun

variable {L : Layout} {F : InitFate} {n : Nat} {s₀ : Sys} {s t : InitState}
  {tr : List InitAct} {a : InitAct} {g : Nat}

/-! ## Workers while the context is in `init` -/

/-- The program points a worker can be at, given how its thread storage call
turns out. -/
def Pc.duringInit (storage : Bool) : Pc → Bool
  | .enter => true
  | .startTest | .startPend => storage
  | .returned .storage => !storage
  | _ => false

/-- What is left to do for the worker before it waits without a token. -/
def Pc.startCost : Pc → Nat
  | .enter => 3
  | .startTest => 2
  | .startPend => 1
  | _ => 0

/-- The same with the tokens it still has to consume. -/
def Group.startCost (G : Group) : Nat := G.worker.startCost + 2 * G.sem

/-- A worker that moves stays in its start-up, and comes closer to the point
where it waits. -/
theorem duringInit_step {c : GroupTable} {e : Env} {G G' : Group} {o : Outcome}
    {events : List GroupEvent} (h : WorkerTrans c e G o G' events)
    (hctx : e.ctx = .init) (hpc : G.worker.duringInit o.ok = true) :
    events = [] ∧ G'.worker.duringInit o.ok = true ∧
      G'.startCost < G.startCost := by
  cases h
  case enterOk h hok =>
    simp [h, hok, Pc.duringInit, Group.startCost, Pc.startCost]
  case enterFail h hok =>
    simp [h, hok, Pc.duringInit, Group.startCost, Pc.startCost]
  case startWait h _ =>
    rw [h] at hpc
    simp_all [Pc.duringInit, Group.startCost, Pc.startCost]
  case startGo h hne => exact absurd hctx hne
  case startWake h hsem =>
    rw [h] at hpc
    refine ⟨rfl, by simpa [Pc.duringInit] using hpc, ?_⟩
    simp only [Group.startCost, h, Pc.startCost]
    omega
  all_goals simp_all [Pc.duringInit]

/-- A worker in its start-up can move, unless it has returned or waits without
a token. -/
theorem duringInit_enabled {c : GroupTable} {e : Env} {G : Group} {o : Outcome}
    (hpc : G.worker.duringInit o.ok = true) :
    (∃ out, workerStep c e G o = some out) ∨ (∃ site, G.worker = .returned site) ∨
      (G.worker = .startPend ∧ G.sem = 0) := by
  cases h : G.worker <;> rw [h] at hpc <;> simp [Pc.duringInit] at hpc
  case enter | startTest => exact .inl (by simp [workerStep, h])
  case startPend =>
    by_cases hsem : G.sem = 0
    · exact .inr (.inr ⟨rfl, hsem⟩)
    · exact .inl (by simp [workerStep, h, hsem])
  case returned site => exact .inr (.inl ⟨site, rfl⟩)

/-! ## What holds during the call -/

/-- How far the context itself is built. -/
def InitPc.stage : InitPc → Nat
  | .guard | .memory | .returned _ => 0
  | .readyInit => 1
  | .tlsInit => 2
  | .lockInit _ | .semInit _ | .threadInit _ | .rollPost _ _ | .rollJoin _ _
  | .release => 3

/-- The groups below this one have been rolled back. -/
def InitPc.first : InitPc → Nat
  | .rollPost _ i | .rollJoin _ i => i
  | _ => 0

/-- The groups below this one have, or had, a lock. -/
def InitPc.locks : InitPc → Nat
  | .lockInit k => k
  | .semInit k | .threadInit k => k + 1
  | .rollPost idx _ | .rollJoin idx _ => idx
  | _ => 0

/-- The groups below this one have, or had, a semaphore. -/
def InitPc.sems : InitPc → Nat
  | .lockInit k | .semInit k => k
  | .threadInit k => k + 1
  | .rollPost idx _ | .rollJoin idx _ => idx
  | _ => 0

/-- The groups below this one have, or had, a thread. -/
def InitPc.threads : InitPc → Nat
  | .lockInit k | .semInit k | .threadInit k => k
  | .rollPost idx _ | .rollJoin idx _ => idx
  | _ => 0

/-- The resources held at a program point. -/
def InitPc.holds (pc : InitPc) : Resource → Bool
  | .memory => decide (1 ≤ pc.stage)
  | .ready => decide (2 ≤ pc.stage)
  | .tls => decide (3 ≤ pc.stage)
  | .lock g => decide (pc.first ≤ g ∧ g < pc.locks)
  | .sem g => decide (pc.first ≤ g ∧ g < pc.sems)
  | .thread g => decide (pc.first ≤ g ∧ g < pc.threads)

/-- How many workers have been joined. -/
def InitPc.joined (n : Nat) : InitPc → Nat
  | .rollPost _ i | .rollJoin _ i => i
  | .release | .returned _ => n
  | _ => 0

/-- The program point is one that a call reaches in which group `n` is the
first that cannot be created. -/
def InitPc.possible (F : InitFate) (n : Nat) : InitPc → Prop
  | .lockInit k => k ≤ n
  | .semInit k => k ≤ n ∧ (F.group k).lock = true
  | .threadInit k => k ≤ n ∧ (F.group k).lock = true ∧ (F.group k).sem = true
  | .rollPost idx i => idx = n ∧ i ≤ n
  | .rollJoin idx i => idx = n ∧ i < n
  | .returned code => code = Errno.unknown
  | .guard | .memory | .readyInit | .tlsInit | .release => True

/-- Group `n` is the first for which something cannot be created. -/
structure FirstFailure (L : Layout) (F : InitFate) (n : Nat) : Prop where
  memory : F.memory = true
  ready : F.ready = true
  tls : F.tls = true
  lt : n < L.size
  before : ∀ g < n, (F.group g).creates = true
  fails : (F.group n).creates = false

/-- The invariant of such a call. -/
structure Failing (F : InitFate) (n : Nat) (s : InitState) : Prop where
  possible : s.pc.possible F n
  held : s.held = s.pc.holds
  live : s.sys.live = s.held .memory
  ctx : s.sys.live = true → s.sys.ctx = .init
  early : ∀ g, s.held (.thread g) = true →
    (s.sys.group g).worker.duringInit (F.group g).storage = true
  unstarted : ∀ k, s.pc = .threadInit k →
    (s.sys.group k).worker = .enter ∧ (s.sys.group k).sem = 0
  gone : ∀ g < s.pc.joined n, (s.sys.group g).worker = .returned .storage ∧
    (F.group g).storage = false

theorem Failing.enter (hfresh : s₀.live = false) :
    Failing F n (.enter s₀) where
  possible := trivial
  held := by
    funext r
    cases r <;> simp [InitState.enter, InitPc.holds, InitPc.stage,
      InitPc.locks, InitPc.sems, InitPc.threads]
  live := hfresh
  ctx h := by simp [InitState.enter, hfresh] at h
  early g h := by simp [InitState.enter] at h
  unstarted k h := by simp [InitState.enter] at h
  gone g h := by simp [InitState.enter, InitPc.joined] at h

/-- Before the failing group everything can be created. -/
theorem FirstFailure.creates (hfirst : FirstFailure L F n) (hg : g < n) :
    (F.group g).lock = true ∧ (F.group g).sem = true ∧
      (F.group g).thread = true := by
  have hcreates := hfirst.before g hg
  simpa [GroupFate.creates, and_assoc] using hcreates

/-- The loop of `_eaf_init_group` does not get to its end. -/
theorem Failing.lt_size {idx : Nat} (hfirst : FirstFailure L F n)
    (hs : Failing F n s) (h : s.pc = .lockInit idx) : idx < L.size := by
  have hpossible := hs.possible
  have hlt := hfirst.lt
  rw [h] at hpossible
  exact Nat.lt_of_le_of_lt hpossible hlt

/-- The caller stays on the path of a call that fails at group `n`. -/
theorem Failing.possible_next (hfirst : FirstFailure L F n)
    (hs : Failing F n s) (h : InitCallTrans L F s t) : t.pc.possible F n := by
  have hpossible := hs.possible
  have hlt := hfirst.lt
  have hfails := hfirst.fails
  -- a group that fails to be created is the first one that does
  have hfirstOf : ∀ idx ≤ n, (F.group idx).lock = false ∨
      (F.group idx).sem = false ∨ (F.group idx).thread = false → idx = n := by
    intro idx hle hbad
    by_contra hne
    have hgood := hfirst.creates (show idx < n by omega)
    simp [hgood] at hbad
  cases h
  case duplicate hlive =>
    have hdead := hs.live
    rw [hs.held] at hdead
    simp_all [InitPc.holds, InitPc.stage]
  case noMemory h hok => simp [hfirst.memory] at hok
  case success h hge => exact absurd (hs.lt_size hfirst h) (by omega)
  case noLock idx h _ hok =>
    rw [h] at hpossible
    exact ⟨hfirstOf idx hpossible (.inl hok), Nat.zero_le n⟩
  case noSem idx h hok =>
    rw [h] at hpossible
    exact ⟨hfirstOf idx hpossible.1 (.inr (.inl hok)), Nat.zero_le n⟩
  case noThread idx h hok =>
    rw [h] at hpossible
    exact ⟨hfirstOf idx hpossible.1 (.inr (.inr hok)), Nat.zero_le n⟩
  case threadMade idx h hok =>
    rw [h] at hpossible
    obtain ⟨hle, hlock, hsem⟩ := hpossible
    have hne : idx ≠ n := by
      rintro rfl
      simp [GroupFate.creates, hlock, hsem, hok] at hfails
    show idx + 1 ≤ n
    omega
  all_goals simp_all [InitPc.possible]
  all_goals omega

/-- The caller keeps the record of what it holds. -/
theorem Failing.held_next (hfirst : FirstFailure L F n) (hs : Failing F n s)
    (h : InitCallTrans L F s t) : t.held = t.pc.holds := by
  have hheld := hs.held
  have hpossible := hs.possible
  have hlt := hfirst.lt
  cases h
  case success h hge => exact absurd (hs.lt_size hfirst h) (by omega)
  all_goals
    funext r
    cases r <;> simp_all [Function.update_apply, InitPc.holds, InitPc.stage,
      InitPc.first, InitPc.locks, InitPc.sems, InitPc.threads,
      InitPc.possible]
  all_goals grind

/-- The caller and the workers: one step of the caller. -/
theorem Failing.call (hfirst : FirstFailure L F n) (hs : Failing F n s)
    (h : InitCallTrans L F s t) : Failing F n t where
  possible := hs.possible_next hfirst h
  held := hs.held_next hfirst h
  live := by
    have hheld := hs.held_next hfirst h
    have hlive := hs.live
    rw [hs.held] at hlive
    rw [hheld]
    cases h
    case success h hge => exact absurd (hs.lt_size hfirst h) (by omega)
    all_goals simp_all [InitPc.holds, InitPc.stage, freshContext]
  ctx hlive := by
    have hctx := hs.ctx
    cases h <;> simp_all [freshContext]
  early g hg := by
    have hearly := hs.early g
    rw [hs.held_next hfirst h] at hg
    rw [hs.held] at hearly
    cases h
    case semMade idx h hok =>
      have hg : g < idx := by
        simpa [InitPc.holds, InitPc.first, InitPc.threads] using hg
      have hother : Function.update s.sys.group idx (.initial (L.conf idx)) g =
          s.sys.group g := Function.update_of_ne (by omega) _ _
      show ((Function.update s.sys.group idx _ g).worker).duringInit _ = true
      rw [hother]
      exact hearly (by simp [h, InitPc.holds, InitPc.first, InitPc.threads, hg])
    case threadMade idx h hok =>
      have hg : g < idx + 1 := by
        simpa [InitPc.holds, InitPc.first, InitPc.threads] using hg
      by_cases hnew : g = idx
      · subst hnew
        show ((s.sys.group g).worker).duringInit _ = true
        rw [(hs.unstarted g h).1]
        rfl
      · exact hearly (by
          simp [h, InitPc.holds, InitPc.first, InitPc.threads]
          omega)
    case posted idx i h hlt =>
      have hg : i ≤ g ∧ g < idx := by
        simpa [InitPc.holds, InitPc.first, InitPc.threads] using hg
      have hsame : (Function.update s.sys.group i (s.sys.group i).semPost
          g).worker = (s.sys.group g).worker := by
        by_cases hgi : g = i
        · rw [hgi, Function.update_self]
          rfl
        · rw [Function.update_of_ne hgi]
      show (Function.update s.sys.group i _ g).worker.duringInit _ = true
      rw [hsame]
      exact hearly (by simp [h, InitPc.holds, InitPc.first, InitPc.threads, hg])
    case joined idx i site h hret =>
      have hg : i + 1 ≤ g ∧ g < idx := by
        simpa [InitPc.holds, InitPc.first, InitPc.threads] using hg
      exact hearly (by
        simp [h, InitPc.holds, InitPc.first, InitPc.threads]
        omega)
    all_goals simp_all [InitPc.holds, InitPc.first, InitPc.threads]
  unstarted k hk := by
    cases h <;> simp_all [Group.initial]
  gone g hg := by
    have hgone := hs.gone g
    have hcode := hs.possible_next hfirst h
    cases h
    case duplicate | noMemory | success =>
      exact absurd (show (_ : Int) = Errno.unknown from hcode) (by decide)
    case noReady h hok => simp [hfirst.ready] at hok
    case noTls h hok => simp [hfirst.tls] at hok
    case posted idx i h hlt =>
      have hg : g < i := hg
      rw [h] at hgone
      show (Function.update s.sys.group i _ g).worker = .returned .storage ∧ _
      rw [Function.update_of_ne (by omega)]
      exact hgone hg
    case rolledBack idx i h hge =>
      have hidx := hs.possible
      rw [h] at hidx hgone
      obtain ⟨hidx, -⟩ := hidx
      have hg : g < n := hg
      exact hgone (show g < i by omega)
    case joined idx i site h hret =>
      have hg : g < i + 1 := hg
      have hidx : idx = n ∧ i < n := by
        have hpossible := hs.possible
        rwa [h] at hpossible
      rw [h] at hgone
      by_cases hgi : g = i
      · subst hgi
        have hheld : s.held (.thread g) = true := by
          rw [hs.held, h]
          simpa [InitPc.holds, InitPc.first, InitPc.threads] using
            (show g < idx by omega)
        have hearly := hs.early g hheld
        show (s.sys.group g).worker = .returned .storage ∧ _
        rw [hret] at hearly ⊢
        cases site <;> simp_all [Pc.duringInit]
      · exact hgone (show g < i by omega)
    all_goals simp_all [InitPc.joined]

/-- What a step of a worker does. -/
theorem Failing.worker_cases {out : Sys × List Event} (hs : Failing F n s)
    (hheld : s.held (.thread g) = true)
    (h : s.sys.workerStep L g (F.outcome g) = some out) :
    g < L.size ∧ ∃ G', out.1 = s.sys.setGroup g G' ∧
      G'.worker.duringInit (F.group g).storage = true ∧
      G'.startCost < (s.sys.group g).startCost := by
  have hstage : s.held .memory = true := by
    rw [hs.held] at hheld ⊢
    cases hpc : s.pc <;>
      simp_all [InitPc.holds, InitPc.stage, InitPc.first, InitPc.threads]
  have hctx : s.sys.ctx = .init := hs.ctx (hs.live.trans hstage)
  by_cases hg : g < L.size
  · cases hstep : Core.workerStep (L.conf g) (s.sys.env g) (s.sys.group g)
        (F.outcome g) with
    | none => simp [Sys.workerStep, hg, hstep] at h
    | some next =>
        obtain ⟨G', events⟩ := next
        simp only [Sys.workerStep, if_pos hg, hstep, Option.some.injEq] at h
        obtain ⟨rfl, hearly, hcost⟩ := duringInit_step (workerStep_trans hstep)
          hctx (hs.early g hheld)
        exact ⟨hg, G', by rw [← h]; rfl, hearly, hcost⟩
  · simp [Sys.workerStep, hg] at h

/-- A worker that exists has not been joined. -/
theorem Failing.joined_le (hs : Failing F n s)
    (hheld : s.held (.thread g) = true) : s.pc.joined n ≤ g := by
  rw [hs.held] at hheld
  cases hpc : s.pc <;>
    simp_all [InitPc.holds, InitPc.first, InitPc.threads, InitPc.joined]

/-- One step of a worker. -/
theorem Failing.work {G' : Group} (hs : Failing F n s)
    (hheld : s.held (.thread g) = true)
    (hearly : G'.worker.duringInit (F.group g).storage = true) :
    Failing F n (s.setSys (s.sys.setGroup g G')) where
  possible := hs.possible
  held := hs.held
  live := hs.live
  ctx := hs.ctx
  early g' hg' := by
    by_cases hgg : g' = g
    · subst hgg
      show (Function.update s.sys.group g' G' g').worker.duringInit _ = true
      rw [Function.update_self]
      exact hearly
    · show (Function.update s.sys.group g G' g').worker.duringInit _ = true
      rw [Function.update_of_ne hgg]
      exact hs.early g' hg'
  unstarted k hk := by
    have hne : k ≠ g := by
      rintro rfl
      rw [hs.held, show s.pc = .threadInit k from hk] at hheld
      simp [InitPc.holds, InitPc.threads] at hheld
    show (Function.update s.sys.group g G' k).worker = .enter ∧
      (Function.update s.sys.group g G' k).sem = 0
    rw [Function.update_of_ne hne]
    exact hs.unstarted k hk
  gone g' hg' := by
    have hle := hs.joined_le hheld
    have hg' : g' < s.pc.joined n := hg'
    show (Function.update s.sys.group g G' g').worker = .returned .storage ∧ _
    rw [Function.update_of_ne (by omega)]
    exact hs.gone g' hg'

/-! ## Every schedule ends -/

/-- How far the caller is from its end. -/
def InitPc.rank (N : Nat) : InitPc → Nat
  | .guard => 5 * N + 3 + (8 * N + 6)
  | .memory => 5 * N + 3 + (8 * N + 5)
  | .readyInit => 5 * N + 3 + (8 * N + 4)
  | .tlsInit => 5 * N + 3 + (8 * N + 3)
  | .lockInit k => 5 * N + 3 + (8 * (N - k) + 2)
  | .semInit k => 5 * N + 3 + (8 * (N - k) + 1)
  | .threadInit k => 5 * N + 3 + 8 * (N - k)
  | .rollPost idx i => 5 * (idx - i) + 2
  | .rollJoin idx i => 5 * (idx - (i + 1)) + 3
  | .release => 1
  | .returned _ => 0

/-- What the worker of group `g` still has to do. -/
def InitState.work (s : InitState) (g : Nat) : Nat :=
  if s.held (.thread g) then (s.sys.group g).startCost else 0

/-- The measure of the whole call. -/
def InitState.remaining (L : Layout) (s : InitState) : Nat :=
  s.pc.rank L.size + Ledger.total (List.range L.size) s.work

/-- A step of the caller gives at most one worker something to do, and less
than the caller has done itself. -/
theorem Failing.call_work (hfirst : FirstFailure L F n) (hs : Failing F n s)
    (h : InitCallTrans L F s t) :
    ∃ a k, (∀ b, b ≠ a → t.work b ≤ s.work b) ∧ t.work a ≤ s.work a + k ∧
      t.pc.rank L.size + k < s.pc.rank L.size := by
  have hheld := hs.held
  have hpossible := hs.possible
  have hlt := hfirst.lt
  cases h
  case threadMade idx h hok =>
    rw [h] at hpossible
    have hidx : idx ≤ n := hpossible.1
    have hun := hs.unstarted idx h
    refine ⟨idx, 3, fun b hb => ?_, ?_, ?_⟩
    · simp [InitState.work, hb]
    · simp [InitState.work, Group.startCost, hun, Pc.startCost]
    · rw [h]
      simp only [InitState.goto_pc, InitPc.rank]
      omega
  case posted idx i h hi =>
    refine ⟨i, 2, fun b hb => ?_, ?_, ?_⟩
    · simp [InitState.work, hb]
    · simp only [InitState.work, Group.startCost, InitState.goto_held,
        InitState.setSys_held, InitState.goto_sys, InitState.setSys_sys,
        Sys.setGroup_group, Function.update_self, Group.semPost_worker,
        Group.semPost_sem]
      split <;> omega
    · rw [h]
      simp only [InitState.goto_pc, InitPc.rank]
      omega
  case success h hge => exact absurd (hs.lt_size hfirst h) (by omega)
  case allocated h hok =>
    have hnone : ∀ b, s.held (.thread b) = false := by
      simp [hheld, h, InitPc.holds, InitPc.threads]
    refine ⟨0, 0, fun b _ => ?_, ?_, ?_⟩
    · simp [InitState.work, hnone]
    · simp [InitState.work, hnone]
    · simp [h, InitPc.rank]
  case semMade idx h hok =>
    have hnone : s.held (.thread idx) = false := by
      simp [hheld, h, InitPc.holds, InitPc.threads]
    refine ⟨idx, 0, fun b hb => ?_, ?_, ?_⟩
    · simp [InitState.work, hb]
    · simp [InitState.work, hnone]
    · simp [h, InitPc.rank]
  case joined idx i site h hret =>
    rw [h] at hpossible
    have hi : idx = n ∧ i < n := hpossible
    refine ⟨i, 0, fun b hb => ?_, ?_, ?_⟩
    · simp [InitState.work, hb]
    · simp [InitState.work]
    · rw [h]
      simp only [InitState.goto_pc, InitPc.rank]
      omega
  case noLock idx h _ _ | noSem idx h _ | noThread idx h _ =>
    refine ⟨0, 0, fun b _ => ?_, ?_, ?_⟩
    · simp [InitState.work]
    · simp [InitState.work]
    · rw [h] at hpossible ⊢
      simp only [InitPc.possible] at hpossible
      simp only [InitState.goto_pc, InitPc.rank]
      omega
  case lockMade idx h hidx hok =>
    refine ⟨0, 0, fun b _ => ?_, ?_, ?_⟩
    · simp [InitState.work]
    · simp [InitState.work]
    · simp [h, InitPc.rank]
  case rolledBack idx i h hge | released h =>
    refine ⟨0, 0, fun b _ => ?_, ?_, ?_⟩
    · simp [InitState.work]
    · simp [InitState.work]
    · simp [h, InitPc.rank]
  all_goals
    rename_i h _
    refine ⟨0, 0, fun b _ => ?_, ?_, ?_⟩
    · simp [InitState.work]
    · simp [InitState.work]
    · rw [h]
      simp only [InitState.goto_pc, InitPc.rank]
      omega

/-- The two kinds of step. -/
theorem InitStep.cases {events : List InitAct} (h : InitStep L F s events t) :
    (InitCallTrans L F s t ∧ events = [.caller]) ∨
      ∃ g out, s.held (.thread g) = true ∧
        s.sys.workerStep L g (F.outcome g) = some out ∧
        t = s.setSys out.1 ∧ events = [.worker g] := by
  obtain ⟨a, -, hstep⟩ := h
  cases a with
  | caller =>
      simp only [InitState.step, Option.map_eq_some_iff, Prod.mk.injEq] at hstep
      obtain ⟨t', hcall, rfl, rfl⟩ := hstep
      exact .inl ⟨initCallStep_trans hcall, rfl⟩
  | worker g =>
      simp only [InitState.step] at hstep
      split at hstep
      case isTrue hheld =>
        simp only [Option.map_eq_some_iff, Prod.mk.injEq] at hstep
        obtain ⟨out, hwork, rfl, rfl⟩ := hstep
        exact .inr ⟨g, out, hheld, hwork, rfl, rfl⟩
      case isFalse => cases hstep

theorem InitStep.length_eq_one (s : InitState) (events : List InitAct)
    (t : InitState) (h : InitStep L F s events t) : events.length = 1 := by
  rcases h.cases with ⟨-, rfl⟩ | ⟨g, out, -, -, -, rfl⟩ <;> rfl

/-- Every step keeps the invariant and decreases the measure. -/
theorem Failing.step {events : List InitAct} (hfirst : FirstFailure L F n)
    (hs : Failing F n s) (h : InitStep L F s events t) :
    Failing F n t ∧ t.remaining L < s.remaining L := by
  rcases h.cases with ⟨hcall, -⟩ | ⟨g, out, hheld, hwork, rfl, -⟩
  · refine ⟨hs.call hfirst hcall, ?_⟩
    obtain ⟨a, k, hother, ha, hrank⟩ := hs.call_work hfirst hcall
    have htotal := Ledger.total_le_add (List.nodup_range (n := L.size)) hother ha
    simp only [InitState.remaining]
    omega
  · obtain ⟨hg, G', hout, hearly, hcost⟩ := hs.worker_cases hheld hwork
    rw [hout]
    refine ⟨hs.work hheld hearly, ?_⟩
    have hmem : g ∈ List.range L.size := List.mem_range.mpr hg
    have hchange := Ledger.total_change (List.nodup_range (n := L.size)) hmem
      (f := s.work) (g := (s.setSys (s.sys.setGroup g G')).work) fun b hb => by
        simp [InitState.work, hb]
    have hbefore : s.work g = (s.sys.group g).startCost := by
      simp [InitState.work, hheld]
    have hafter : (s.setSys (s.sys.setGroup g G')).work g = G'.startCost := by
      simp [InitState.work, hheld]
    simp only [InitState.remaining, InitState.setSys_pc]
    omega

theorem InitRun.failing (hfirst : FirstFailure L F n) (hfresh : s₀.live = false)
    (h : InitRun L F s₀ tr s) : Failing F n s :=
  h.preserved (Failing.enter hfresh) fun _ _ _ hs hstep =>
    (hs.step hfirst hstep).1

/-- No schedule of a call that fails goes on for ever. -/
theorem initRun_bounded (hfirst : FirstFailure L F n)
    (hfresh : s₀.live = false) : Bounded (InitStep L F) (.enter s₀) :=
  .of_measure (Failing F n) (·.remaining L) InitStep.length_eq_one
    (Failing.enter hfresh)
    (fun _ _ _ hs hstep => (hs.step hfirst hstep).1)
    (fun _ _ _ hs hstep => (hs.step hfirst hstep).2)

/-! ## Where a schedule can stop -/

/-- The caller joins a worker that waits in its start-up loop without a
token. -/
def JoinsWaiting (s : InitState) (i : Nat) : Prop :=
  ∃ idx, s.pc = .rollJoin idx i ∧ (s.sys.group i).worker = .startPend ∧
    (s.sys.group i).sem = 0

/-- A schedule stops where the call has returned, or in such a join. -/
theorem Failing.halted (hs : Failing F n s) (hn : n < L.size)
    (hstop : Halted (InitStep L F) s) :
    (∃ code, s.pc = .returned code) ∨ ∃ i < n, JoinsWaiting s i := by
  have hcall : initCallStep L F s = none := by
    rw [Option.eq_none_iff_forall_ne_some]
    intro t ht
    exact hstop [.caller] t ⟨.caller, trivial, by simp [InitState.step, ht]⟩
  cases hpc : s.pc
  case returned code => exact .inl ⟨code, rfl⟩
  case rollJoin idx i =>
    right
    have hidx : idx = n ∧ i < n := by
      have hpossible := hs.possible
      rwa [hpc] at hpossible
    have hheld : s.held (.thread i) = true := by
      rw [hs.held, hpc]
      simp [InitPc.holds, InitPc.first, InitPc.threads, hidx]
    have hi : i < L.size := by omega
    refine ⟨i, hidx.2, idx, hpc, ?_⟩
    rcases duringInit_enabled (c := L.conf i) (e := s.sys.env i)
      (o := F.outcome i) (hs.early i hheld) with ⟨out, hout⟩ | ⟨site, hret⟩ | hwait
    · -- the worker could move
      refine absurd ⟨.worker i, trivial, ?_⟩
        (hstop [.worker i] (s.setSys ((s.sys.setGroup i out.1).emitAll L i out.2)))
      simp [InitState.step, hheld, Sys.workerStep, hi, hout]
    · simp [initCallStep, hpc, hret] at hcall
    · exact hwait
  all_goals
    simp only [initCallStep, hpc] at hcall
    first
      | cases hcall
      | split at hcall <;> first | cases hcall | split at hcall <;> cases hcall

/-- Nobody ends such a join: the caller is in it, the worker cannot move, and
the other workers touch their own groups only. -/
theorem Failing.joinsWaiting_step {i : Nat} {events : List InitAct}
    (hs : Failing F n s) (hwait : JoinsWaiting s i)
    (h : InitStep L F s events t) : JoinsWaiting t i := by
  obtain ⟨idx, hpc, hworker, hsem⟩ := hwait
  rcases h.cases with ⟨hcall, -⟩ | ⟨g, out, hheld, hwork, rfl, -⟩
  · cases hcall
    case joined idx' i' site hjoin hret =>
      obtain ⟨-, rfl⟩ : idx = idx' ∧ i = i' := by
        rw [hpc] at hjoin
        simpa using hjoin
      simp [hworker] at hret
    all_goals simp_all
  · have hgi : g ≠ i := by
      rintro rfl
      have hnone : Core.workerStep (L.conf g) (s.sys.env g) (s.sys.group g)
          (F.outcome g) = none := by
        simp [workerStep, hworker, hsem]
      simp [Sys.workerStep, hnone] at hwork
    obtain ⟨-, G', hout, -, -⟩ := hs.worker_cases hheld hwork
    refine ⟨idx, hpc, ?_, ?_⟩
    · simpa [hout, Function.update_of_ne hgi.symm] using hworker
    · simpa [hout, Function.update_of_ne hgi.symm] using hsem

/-! ## The roll-back -/

/-- `eaf_init` waits for a worker that waits for a token, and that stays so
whatever the threads do. -/
def Deadlocked (L : Layout) (F : InitFate) (s : InitState) : Prop :=
  ∃ i, ∀ tr t, Run (InitStep L F) s tr t → JoinsWaiting t i

/-- A join of a waiting worker is a deadlock. -/
theorem InitRun.deadlocked {i : Nat} (hfirst : FirstFailure L F n)
    (hfresh : s₀.live = false) (h : InitRun L F s₀ tr s)
    (hwait : JoinsWaiting s i) : Deadlocked L F s := by
  refine ⟨i, fun rest t hrest => ?_⟩
  have hboth : Failing F n t ∧ JoinsWaiting t i :=
    hrest.preserved (P := fun u => Failing F n u ∧ JoinsWaiting u i)
      ⟨h.failing hfirst hfresh, hwait⟩ fun _ _ _ hu hstep =>
        ⟨(hu.1.step hfirst hstep).1, hu.1.joinsWaiting_step hu.2 hstep⟩
  exact hboth.2

/-- What the roll-back of a call that fails at group `n` owes its caller. -/
structure RollsBack (L : Layout) (F : InitFate) (s₀ : Sys) (n : Nat) :
    Prop where
  noDeadlock : ∀ tr s, InitRun L F s₀ tr s → ¬ Deadlocked L F s
  completes : Completes (InitStep L F) (.enter s₀) fun s =>
    ∃ code, s.pc = .returned code
  returned : ∀ tr s code, InitRun L F s₀ tr s → s.pc = .returned code →
    code = Errno.unknown ∧
      (∀ i < n, ∃ site, (s.sys.group i).worker = .returned site) ∧
      s.sys.live = false ∧ ∀ r, s.held r = false

/-- When the call returns, its error is `unknown`, it has joined every worker
it had started and has given everything back. -/
theorem Failing.returned {code : Int} (hs : Failing F n s)
    (hpc : s.pc = .returned code) :
    code = Errno.unknown ∧
      (∀ i < n, (s.sys.group i).worker = .returned .storage ∧
        (F.group i).storage = false) ∧
      s.sys.live = false ∧ ∀ r, s.held r = false := by
  have hcode := hs.possible
  have hgone := hs.gone
  rw [hpc] at hcode hgone
  have hnone : ∀ r, s.held r = false := by
    intro r
    rw [hs.held, hpc]
    cases r <;> simp [InitPc.holds, InitPc.stage, InitPc.first, InitPc.locks,
      InitPc.sems, InitPc.threads]
  exact ⟨hcode, hgone, hs.live.trans (hnone _), hnone⟩

/-- A deadlock can be reached exactly when the thread storage call of an
earlier worker succeeds. -/
theorem deadlock_reachable_iff (hfirst : FirstFailure L F n)
    (hfresh : s₀.live = false) :
    (∃ tr s, InitRun L F s₀ tr s ∧ Deadlocked L F s) ↔
      ∃ i < n, (F.group i).storage = true := by
  constructor
  · rintro ⟨tr, s, hrun, i, hwait⟩
    obtain ⟨idx, hpc, hworker, -⟩ := hwait [] s .refl
    have hs := hrun.failing hfirst hfresh
    have hi : idx = n ∧ i < n := by
      have hpossible := hs.possible
      rwa [hpc] at hpossible
    have hheld : s.held (.thread i) = true := by
      rw [hs.held, hpc]
      simp [InitPc.holds, InitPc.first, InitPc.threads, hi]
    have hearly := hs.early i hheld
    rw [hworker] at hearly
    exact ⟨i, hi.2, hearly⟩
  · rintro ⟨i, hi, hstorage⟩
    have hrefl : InitRun L F s₀ [] (.enter s₀) := .refl
    obtain ⟨tr, s, hrun, hstop⟩ := hrefl.exists_halted InitStep.length_eq_one
      (initRun_bounded hfirst hfresh)
    have hs : Failing F n s := InitRun.failing hfirst hfresh hrun
    rcases hs.halted hfirst.lt hstop with ⟨code, hpc⟩ | ⟨j, -, hwait⟩
    · have hgone := (hs.returned hpc).2.1 i hi
      simp [hstorage] at hgone
    · exact ⟨tr, s, hrun, InitRun.deadlocked hfirst hfresh hrun hwait⟩

/-- The roll-back is in order exactly when no earlier worker gets its thread
storage. -/
theorem rollback_in_order_iff (hfirst : FirstFailure L F n)
    (hfresh : s₀.live = false) :
    RollsBack L F s₀ n ↔ ∀ i < n, (F.group i).storage = false := by
  have hdeadlock := deadlock_reachable_iff hfirst hfresh
  constructor
  · intro h i hi
    by_contra hstorage
    obtain ⟨tr, s, hrun, hstuck⟩ :=
      hdeadlock.mpr ⟨i, hi, by simpa using hstorage⟩
    exact h.noDeadlock tr s hrun hstuck
  · intro hstorage
    refine ⟨fun tr s hrun hstuck => ?_, ⟨initRun_bounded hfirst hfresh, ?_⟩, ?_⟩
    · obtain ⟨i, hi, htrue⟩ := hdeadlock.mp ⟨tr, s, hrun, hstuck⟩
      simp [hstorage i hi] at htrue
    · intro tr s hrun hstop
      have hs : Failing F n s := InitRun.failing hfirst hfresh hrun
      rcases hs.halted hfirst.lt hstop with hreturned | ⟨i, hi, hwait⟩
      · exact hreturned
      · have hstuck : Deadlocked L F s :=
          InitRun.deadlocked hfirst hfresh hrun hwait
        obtain ⟨j, hj, htrue⟩ := hdeadlock.mp ⟨tr, s, hrun, hstuck⟩
        simp [hstorage j hj] at htrue
    · intro tr s code hrun hpc
      have hs : Failing F n s := InitRun.failing hfirst hfresh hrun
      obtain ⟨hcode, hgone, hlive, hheld⟩ := hs.returned hpc
      exact ⟨hcode, fun i hi => ⟨_, (hgone i hi).1⟩, hlive, hheld⟩

/-- Two groups with one service each. -/
def twoGroups : Layout :=
  ⟨[⟨[⟨1, 8, 0, none⟩]⟩, ⟨[⟨2, 8, 0, none⟩]⟩], 1⟩

/-- The thread of the second group cannot be created; `storage` tells whether
the first worker gets its thread storage. -/
def secondThreadFails (storage : Bool) : InitFate where
  memory := true
  ready := true
  tls := true
  group g := ⟨true, true, g != 1, storage⟩

/-- No context exists. -/
def noContext : Sys := { Sys.initial twoGroups with live := false }

theorem secondThreadFails_first (storage : Bool) :
    FirstFailure twoGroups (secondThreadFails storage) 1 where
  memory := rfl
  ready := rfl
  tls := rfl
  lt := by decide
  before g hg := by
    obtain rfl : g = 0 := by omega
    rfl
  fails := rfl

/-- With a first worker that does not get its thread storage the roll-back is
in order. -/
theorem rollback_in_order_second :
    RollsBack twoGroups (secondThreadFails false) noContext 1 :=
  (rollback_in_order_iff (secondThreadFails_first false) rfl).mpr
    fun _ _ => rfl

/-- With one that gets it, `eaf_init` joins the worker for ever. -/
theorem rollback_never_returns :
    FirstFailure twoGroups (secondThreadFails true) 1 ∧
      noContext.live = false ∧
      ¬ RollsBack twoGroups (secondThreadFails true) noContext 1 := by
  have hfirst := secondThreadFails_first true
  refine ⟨hfirst, rfl, fun h => ?_⟩
  -- the call up to the join, then the worker up to its second wait
  have hreplay : (LabelledRun.replay
      (InitState.step twoGroups (secondThreadFails true)) (fun _ _ => True)
      (.enter noContext)
      (List.replicate 11 .caller ++ List.replicate 4 (.worker 0))).any
      (fun o => decide (o.1.pc = .rollJoin 1 0 ∧
        (o.1.sys.group 0).worker = .startPend ∧
        (o.1.sys.group 0).sem = 0)) = true := by decide +kernel
  obtain ⟨s, tr, hrun, hcheck⟩ := LabelledRun.exists_run_of_replay hreplay
  have hwait : JoinsWaiting s 0 := ⟨1, of_decide_eq_true hcheck⟩
  exact h.noDeadlock tr s hrun (InitRun.deadlocked hfirst rfl hrun hwait)

end Core
end Eaf

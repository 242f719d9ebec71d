import Eaf.Powerpack.LoopThread

/-!
# The shutdown of PowerPack

The tokens of the two rendezvous balance: what was posted is what was taken
plus what the semaphore holds.  With that, the places where the two threads
can come to a stop are few.  Either `eaf_powerpack_exit` has returned, or the
main thread waits for the answer of the exit point while the loop thread is
over or still waits for the initialise point.  The second happens exactly when
the program has not called `eaf_load` or a callback `on_loop_init` has failed.
-/

namespace Eaf
namespace Powerpack

open LabelledRun

variable {c : LifeCycle} {s t : Life} {tr events : List LifeEvent}

/-! ## What each program point says about the tokens -/

/-- The main thread has posted the request of the initialise point. -/
def MainPc.askedInit (load : Bool) : MainPc → Nat
  | .register _ | .dialTest .load | .dialReq .load | .dialPost .load => 0
  | .dialWait .load | .loadRest => 1
  | _ => load.toNat

/-- The main thread has the answer of the initialise point. -/
def MainPc.gotInit (load : Bool) : MainPc → Nat
  | .register _ | .dialTest .load | .dialReq .load | .dialPost .load
  | .dialWait .load => 0
  | .loadRest => 1
  | _ => load.toNat

/-- The main thread has the answer of the exit point. -/
def MainPc.gotExit : MainPc → Nat
  | .stopLooping .ppExit | .wakeLoop .ppExit | .dialTest .ppExit | .join
  | .close | .returned => 1
  | _ => 0

/-- The main thread has posted the request of the exit point. -/
def MainPc.askedExit (pc : MainPc) : Nat :=
  match pc with
  | .dialWait .cleanup => 1
  | _ => pc.gotExit

/-- The main thread has told the loop to stop. -/
def MainPc.toldLoop : MainPc → Bool
  | .dialTest .cleanup | .dialReq .cleanup | .dialPost .cleanup
  | .dialWait .cleanup => true
  | pc => pc.gotExit == 1

/-- The program point occurs in the life cycle; the exit point is not dialled
a second time because its answer is already there. -/
def MainPc.possible (c : LifeCycle) : MainPc → Prop
  | .register k => k ≤ c.hooks.length
  | .dialTest .load | .dialReq .load | .dialPost .load | .dialWait .load
  | .loadRest => c.load = true
  | .dialReq .ppExit | .dialPost .ppExit | .dialWait .ppExit
  | .stopLooping .load | .wakeLoop .load => False
  | _ => True

/-- The loop thread has taken the request of the initialise point. -/
def LoopPc.tookInit : LoopPc → Nat
  | .waitInit => 0
  | _ => 1

/-- The loop thread has stored the answer of the initialise point. -/
def LoopPc.storedInit : LoopPc → Bool
  | .waitInit | .callInit _ | .failExit _ _ | .answerInit _ => false
  | _ => true

/-- The loop thread has posted the answer of the initialise point. -/
def LoopPc.postedInit (pc : LoopPc) : Nat :=
  match pc with
  | .postInit _ => 0
  | _ => pc.storedInit.toNat

/-- The loop thread has taken the request of the exit point. -/
def LoopPc.tookExit : LoopPc → Nat
  | .answerExit _ | .postExit | .returned true => 1
  | _ => 0

/-- The loop thread has stored the answer of the exit point. -/
def LoopPc.storedExit : LoopPc → Bool
  | .postExit | .returned true => true
  | _ => false

/-- The loop thread has posted the answer of the exit point. -/
def LoopPc.postedExit : LoopPc → Nat
  | .returned true => 1
  | _ => 0

/-- What the place of the loop thread says about the callbacks. -/
def LoopPc.outcome (c : LifeCycle) : LoopPc → Prop
  | .waitInit => True
  | .callInit k => ∀ hook ∈ c.hooks.take k, hook.starts = true
  | .failExit _ _ | .answerInit false | .postInit false | .returned false =>
      ∃ hook ∈ c.hooks, hook.starts = false
  | _ => ∀ hook ∈ c.hooks, hook.starts = true

/-- The async handle: whether it is open, and whether the loop will see that
it has been told to stop. -/
def LoopPc.handle (active pending told : Bool) : LoopPc → Prop
  | .loop => active = true → told = true → pending = true
  | .waitInit | .callInit _ | .failExit _ _ | .answerInit _ | .postInit _ =>
      active = true ∧ (told = true → pending = true)
  | .callExit _ | .closeAsync | .waitExit | .answerExit _ | .postExit
  | .returned _ => True

/-- The hooks are registered one by one, and stay until the end. -/
def MainPc.setUp (c : LifeCycle) (table : List LoopHook) : MainPc → Prop
  | .register k => table = c.hooks.take k
  | .returned => True
  | .dialTest _ | .dialReq _ | .dialPost _ | .dialWait _ | .loadRest | .exit
  | .cleanup | .stopLooping _ | .wakeLoop _ | .join | .close =>
      table = c.hooks

/-- The invariant of a life cycle. -/
structure Balanced (c : LifeCycle) (s : Life) : Prop where
  possible : s.main.possible c
  initReq : s.initPoint.semReq + s.loop.tookInit = s.main.askedInit c.load
  initRsp : s.initPoint.semRsp + s.main.gotInit c.load = s.loop.postedInit
  initHave : s.initPoint.haveRsp = s.loop.storedInit
  exitReq : s.exitPoint.semReq + s.loop.tookExit = s.main.askedExit
  exitRsp : s.exitPoint.semRsp + s.main.gotExit = s.loop.postedExit
  exitHave : s.exitPoint.haveRsp = s.loop.storedExit
  setUp : s.main.setUp c s.table
  looping : s.looping = false
  outcome : s.loop.outcome c
  handle : s.loop.handle s.active s.pending s.main.toldLoop

theorem Balanced.initial : Balanced c .initial where
  possible := Nat.zero_le _
  initReq := rfl
  initRsp := rfl
  initHave := rfl
  exitReq := rfl
  exitRsp := rfl
  exitHave := rfl
  setUp := rfl
  looping := rfl
  outcome := trivial
  handle := by simp [Life.initial, LoopPc.handle, MainPc.toldLoop, MainPc.gotExit]

/-- When the main thread has the answer of the exit point, the loop thread is
over. -/
theorem Balanced.loop_returned (hs : Balanced c s) (hgot : s.main.gotExit = 1) :
    s.loop = .returned true := by
  have hposted : 1 ≤ s.loop.postedExit := by
    have hrsp := hs.exitRsp
    omega
  cases hpc : s.loop <;> rw [hpc] at hposted <;>
    simp [LoopPc.postedExit] at hposted
  case returned ok =>
    cases ok
    · simp at hposted
    · rfl

/-- The second dial of the exit point finds the answer of the first. -/
theorem Balanced.answered (hs : Balanced c s) (hgot : s.main.gotExit = 1) :
    s.exitPoint.haveRsp = true := by
  rw [hs.exitHave, hs.loop_returned hgot]
  rfl

/-- A point that was not asked has no answer. -/
theorem LoopPc.storedInit_eq_false {pc : LoopPc} (h : pc.tookInit = 0) :
    pc.storedInit = false := by
  cases pc <;> simp_all [tookInit, storedInit]

theorem LoopPc.storedExit_eq_false {pc : LoopPc} (h : pc.tookExit = 0) :
    pc.storedExit = false := by
  cases pc
  case returned ok => cases ok <;> simp_all [tookExit, storedExit]
  all_goals simp_all [tookExit, storedExit]

/-- The first dial of a point finds no answer. -/
theorem Balanced.unanswered (hs : Balanced c s) {d : DialSite}
    (hmain : s.main = .dialTest d) (hd : d ≠ .ppExit) :
    (s.point d).haveRsp = false := by
  cases d with
  | load =>
      have htook : s.loop.tookInit = 0 := by
        have hreq := hs.initReq
        rw [hmain] at hreq
        simp only [MainPc.askedInit] at hreq
        omega
      exact hs.initHave.trans (LoopPc.storedInit_eq_false htook)
  | cleanup =>
      have htook : s.loop.tookExit = 0 := by
        have hreq := hs.exitReq
        rw [hmain] at hreq
        simp only [MainPc.askedExit, MainPc.gotExit] at hreq
        omega
      exact hs.exitHave.trans (LoopPc.storedExit_eq_false htook)
  | ppExit => exact absurd rfl hd

/-- Telling the loop to stop leaves a token with an open handle. -/
theorem LoopPc.handle_wake {pc : LoopPc} {active pending : Bool} (told : Bool)
    (h : pc.handle active pending false) :
    pc.handle active (pending || active) told := by
  cases pc <;> simp_all [handle]

theorem Balanced.main_step (hs : Balanced c s) (h : MainTrans c s t) :
    Balanced c t := by
  have hpossible := hs.possible
  have hanswered := hs.answered
  have hreturned := hs.loop_returned
  have hunanswered := @Balanced.unanswered c s hs
  obtain ⟨-, hinitReq, hinitRsp, hinitHave, hexitReq, hexitRsp, hexitHave,
    hsetUp, hlooping, houtcome, hhandle⟩ := hs
  cases h
  case registered k hook h hk =>
    have hlt : k < c.hooks.length := (List.getElem?_eq_some_iff.mp hk).1
    have hnext : c.hooks.take (k + 1) = c.hooks.take k ++ [hook] := by
      rw [List.take_add_one, hk]
      rfl
    constructor <;> simp_all [MainPc.possible, MainPc.askedInit,
      MainPc.gotInit, MainPc.askedExit, MainPc.gotExit, MainPc.toldLoop,
      MainPc.setUp] <;> omega
  case allRegistered k h hk =>
    have htable : s.table = c.hooks := by
      rw [h] at hsetUp
      exact hsetUp.trans (List.take_of_length_le (List.getElem?_eq_none_iff.mp hk))
    clear hsetUp hunanswered
    cases hload : c.load
    all_goals
      constructor <;> simp_all [MainPc.possible, MainPc.askedInit,
        MainPc.gotInit, MainPc.askedExit, MainPc.gotExit, MainPc.toldLoop,
        MainPc.setUp]
  case dialled d h hrsp =>
    cases d
    case ppExit =>
      clear hunanswered
      constructor <;> simp_all [MainPc.possible, MainPc.askedInit,
        MainPc.gotInit, MainPc.askedExit, MainPc.gotExit, MainPc.toldLoop,
        MainPc.setUp, Life.afterDial]
    all_goals simp [hunanswered h (by simp)] at hrsp
  case answered d h hsem =>
    cases d
    all_goals
      constructor <;> simp_all [MainPc.possible, MainPc.askedInit,
        MainPc.gotInit, MainPc.askedExit, MainPc.gotExit, MainPc.toldLoop,
        MainPc.setUp, Life.afterDial, Life.point, Life.setPoint]
    all_goals omega
  case woken d h =>
    cases d
    all_goals
      constructor <;> simp_all [MainPc.possible, MainPc.askedInit,
        MainPc.gotInit, MainPc.askedExit, MainPc.gotExit, MainPc.toldLoop,
        MainPc.setUp]
    · exact LoopPc.handle_wake true hhandle
    · trivial
  case dial d h _ | request d h | post d h | stopped d h =>
    cases d
    all_goals
      constructor <;> simp_all [MainPc.possible, MainPc.askedInit,
        MainPc.gotInit, MainPc.askedExit, MainPc.gotExit, MainPc.toldLoop,
        MainPc.setUp, Life.point, Life.setPoint]
  case closed h =>
    constructor <;> simp_all [MainPc.possible, MainPc.askedInit, MainPc.gotInit,
      MainPc.askedExit, MainPc.gotExit, MainPc.setUp, LoopPc.handle]
  all_goals
    constructor <;> simp_all [MainPc.possible, MainPc.askedInit, MainPc.gotInit,
      MainPc.askedExit, MainPc.gotExit, MainPc.toldLoop, MainPc.setUp]

/-- The loop thread runs the callbacks of all hooks. -/
theorem Balanced.table_eq (hs : Balanced c s) (htook : s.loop.tookInit = 1)
    (hend : ∀ ok, s.loop ≠ .returned ok) : s.table = c.hooks := by
  have hsetUp := hs.setUp
  cases hmain : s.main <;> rw [hmain] at hsetUp
  case register k =>
    have hreq := hs.initReq
    rw [hmain, htook] at hreq
    simp [MainPc.askedInit] at hreq
  case returned =>
    exact absurd (hs.loop_returned (by rw [hmain]; rfl)) (hend true)
  all_goals exact hsetUp

/-- A callback that does not fail adds to those that have not. -/
theorem Balanced.starts_next {k : Nat} {hook : LoopHook} (hs : Balanced c s)
    (h : s.loop = .callInit k) (hk : s.table[k]? = some hook)
    (hstart : hook.starts = true) :
    ∀ hook ∈ c.hooks.take (k + 1), hook.starts = true := by
  have hsame : s.table = c.hooks := hs.table_eq (by rw [h]; rfl) (by simp [h])
  have hbefore := hs.outcome
  rw [h] at hbefore
  rw [hsame] at hk
  rw [List.take_add_one, hk]
  intro x hx
  rcases List.mem_append.mp hx with hx | hx
  · exact hbefore x hx
  · obtain rfl : x = hook := by simpa using hx
    exact hstart

theorem Balanced.loop_step (hs : Balanced c s) (h : LoopTrans s events t) :
    Balanced c t := by
  have hstarts : ∀ {k hook}, s.loop = .callInit k → s.table[k]? = some hook →
      hook.starts = true → ∀ hook ∈ c.hooks.take (k + 1), hook.starts = true :=
    hs.starts_next
  have htable := hs.table_eq
  obtain ⟨hpossible, hinitReq, hinitRsp, hinitHave, hexitReq, hexitRsp, hexitHave,
    hsetUp, hlooping, houtcome, hhandle⟩ := hs
  cases h
  case asked h hsem | exitAsked h hsem =>
    clear htable hstarts
    constructor <;> simp_all [LoopPc.tookInit, LoopPc.postedInit,
      LoopPc.storedInit, LoopPc.tookExit, LoopPc.postedExit, LoopPc.storedExit,
      LoopPc.outcome, LoopPc.handle]
    omega
  case initSkipped k hook h hk hnull =>
    have hall := hstarts h hk (by simp [LoopHook.starts, hnull])
    clear htable hstarts
    constructor <;> simp_all [LoopPc.tookInit, LoopPc.postedInit,
      LoopPc.storedInit, LoopPc.tookExit, LoopPc.postedExit, LoopPc.storedExit,
      LoopPc.outcome, LoopPc.handle]
  case initDone k hook ret h hk hret hok =>
    have hall := hstarts h hk (by simp [LoopHook.starts, hret, hok])
    clear htable hstarts
    constructor <;> simp_all [LoopPc.tookInit, LoopPc.postedInit,
      LoopPc.storedInit, LoopPc.tookExit, LoopPc.postedExit, LoopPc.storedExit,
      LoopPc.outcome, LoopPc.handle]
  case initFailed k hook ret h hk hret hbad =>
    have hsome : ∃ hook ∈ c.hooks, hook.starts = false := by
      rw [htable (by rw [h]; rfl) (by simp [h])] at hk
      exact ⟨hook, List.mem_of_getElem? hk, by simp [LoopHook.starts, hret, hbad]⟩
    clear htable hstarts
    constructor <;> simp_all [LoopPc.tookInit, LoopPc.postedInit,
      LoopPc.storedInit, LoopPc.tookExit, LoopPc.postedExit, LoopPc.storedExit,
      LoopPc.outcome, LoopPc.handle]
  case allInit k h hk =>
    have hall : ∀ hook ∈ c.hooks, hook.starts = true := by
      rw [htable (by rw [h]; rfl) (by simp [h])] at hk
      rw [h] at houtcome
      simpa [LoopPc.outcome, List.take_of_length_le
        (List.getElem?_eq_none_iff.mp hk)] using houtcome
    clear htable hstarts
    constructor <;> simp_all [LoopPc.tookInit, LoopPc.postedInit,
      LoopPc.storedInit, LoopPc.tookExit, LoopPc.postedExit, LoopPc.storedExit,
      LoopPc.outcome, LoopPc.handle]
  case initAnswered ok h | initPosted ok h =>
    clear htable hstarts
    cases ok
    all_goals
      constructor <;> simp_all [LoopPc.tookInit, LoopPc.postedInit,
        LoopPc.storedInit, LoopPc.tookExit, LoopPc.postedExit,
        LoopPc.storedExit, LoopPc.outcome, LoopPc.handle]
  all_goals
    clear htable hstarts
    constructor <;> simp_all [LoopPc.tookInit, LoopPc.postedInit,
      LoopPc.storedInit, LoopPc.tookExit, LoopPc.postedExit, LoopPc.storedExit,
      LoopPc.outcome, LoopPc.handle]

/-- The invariant holds in every run. -/
theorem LifeRun.balanced (h : LifeRun c tr s) : Balanced c s :=
  h.preserved .initial fun _ _ _ hs hstep => hstep.cases.elim
    (fun hmain => hs.main_step hmain.1) fun hloop => hs.loop_step hloop

/-! ## Every schedule ends -/

/-- The steps from the return of the dial at the site to the end. -/
def DialSite.base : DialSite → Nat
  | .load => 35
  | .cleanup => 26
  | .ppExit => 20

/-- How far the main thread is from its end. -/
def MainPc.rank (N : Nat) : MainPc → Nat
  | .register k => 42 + (N - k)
  | .stopLooping d => d.base + 6
  | .wakeLoop d => d.base + 5
  | .dialTest d => d.base + 4
  | .dialReq d => d.base + 3
  | .dialPost d => d.base + 2
  | .dialWait d => d.base + 1
  | .loadRest => 35
  | .exit => 34
  | .cleanup => 33
  | .join => 20
  | .close => 19
  | .returned => 0

/-- How far the loop thread is from its end; the loop is left once the handle
is closed. -/
def LoopPc.rank (N : Nat) (active : Bool) : LoopPc → Nat
  | .waitInit => 3 * N + 12
  | .callInit k => 2 * N + 11 + (N - k)
  | .failExit _ i => 10 + (N - i)
  | .answerInit ok => if ok then N + 9 else 9
  | .postInit ok => if ok then N + 8 else 8
  | .loop => if active then N + 7 else 4
  | .callExit i => 6 + (N - i)
  | .closeAsync => 5
  | .waitExit => 3
  | .answerExit _ => 2
  | .postExit => 1
  | .returned _ => 0

/-- The measure of the life cycle. -/
def Life.remaining (c : LifeCycle) (s : Life) : Nat :=
  s.main.rank c.hooks.length + s.loop.rank c.hooks.length s.active

@[simp] theorem Life.setPoint_loop (s : Life) (d : DialSite) (p : PpSync) :
    (s.setPoint d p).loop = s.loop := by
  cases d <;> rfl

@[simp] theorem Life.setPoint_active (s : Life) (d : DialSite) (p : PpSync) :
    (s.setPoint d p).active = s.active := by
  cases d <;> rfl

theorem Balanced.main_decreases (hs : Balanced c s) (h : MainTrans c s t) :
    t.remaining c < s.remaining c := by
  cases h
  case registered k hook h hk =>
    have hlt : k < c.hooks.length := (List.getElem?_eq_some_iff.mp hk).1
    simp only [Life.remaining, h, Life.setMain_main, Life.setMain_loop,
      Life.setMain_active, MainPc.rank]
    omega
  case allRegistered k h hk =>
    cases hload : c.load <;>
      simp [Life.remaining, h, MainPc.rank, DialSite.base] <;> omega
  case closed h =>
    have hloop := hs.loop_returned (by rw [h]; rfl)
    simp [Life.remaining, h, hloop, MainPc.rank, LoopPc.rank]
  case dialled d h _ | answered d h _ =>
    cases d <;> simp [Life.remaining, h, MainPc.rank, DialSite.base,
      Life.afterDial]
  all_goals simp_all [Life.remaining, MainPc.rank, DialSite.base]

theorem Balanced.loop_decreases (hs : Balanced c s) (h : LoopTrans s events t) :
    t.remaining c < s.remaining c := by
  have htable := hs.table_eq
  have hlooping := hs.looping
  cases h
  case initSkipped k hook h hk _ | initDone k hook ret h hk _ _ |
      initFailed k hook ret h hk _ _ =>
    rw [htable (by rw [h]; rfl) (by simp [h])] at hk
    have hlt : k < c.hooks.length := (List.getElem?_eq_some_iff.mp hk).1
    simp only [Life.remaining, h, Life.setLoop_main, Life.setLoop_loop,
      LoopPc.rank]
    omega
  case failExited idx i e h hi _ _ | exitCalled i e h hi _ =>
    rw [htable (by rw [h]; rfl) (by simp [h])] at hi
    simp only [Life.remaining, h, Life.setLoop_main, Life.setLoop_loop,
      LoopPc.rank]
    omega
  case initAnswered ok h | initPosted ok h =>
    cases ok <;> simp [Life.remaining, h, LoopPc.rank] <;> split <;> omega
  all_goals
    clear htable
    simp_all [Life.remaining, LoopPc.rank]
  all_goals omega

/-- No schedule of a life cycle goes on for ever. -/
theorem lifeRun_bounded (c : LifeCycle) : Bounded (LifeStep c) .initial :=
  .of_measure (Balanced c) (·.remaining c) LifeStep.length_eq_one
    .initial
    (fun _ _ _ hs hstep => hstep.cases.elim (fun hmain => hs.main_step hmain.1)
      fun hloop => hs.loop_step hloop)
    (fun _ _ _ hs hstep => hstep.cases.elim
      (fun hmain => hs.main_decreases hmain.1) fun hloop =>
        hs.loop_decreases hloop)

/-! ## Where a schedule can stop -/

/-- The main thread waits for the answer of the exit point, while the loop
thread is over or waits for a request of the initialise point. -/
def Life.Blocked (s : Life) : Prop :=
  (∃ d, d ≠ .load ∧ s.main = .dialWait d ∧ (s.point d).semRsp = 0) ∧
    ((∃ ok, s.loop = .returned ok) ∨
      (s.loop = .waitInit ∧ s.initPoint.semReq = 0))

/-- Nobody ends that. -/
theorem Life.Blocked.halted (h : s.Blocked) : Halted (LifeStep c) s := by
  obtain ⟨⟨d, -, hmain, hsem⟩, hloop⟩ := h
  intro events t hstep
  rcases hstep.cases with ⟨hmove, -⟩ | hmove
  · cases hmove
    case answered d' h hpos =>
      obtain rfl : d = d' := by
        rw [hmain] at h
        simpa using h
      omega
    all_goals simp_all
  · rcases hloop with ⟨ok, hloop⟩ | ⟨hloop, hreq⟩ <;> cases hmove <;> simp_all

/-- The main thread is stuck only where it waits for the loop thread. -/
theorem Life.mainStep_none (h : s.mainStep c = none) : s.main = .returned ∨
    (∃ d, s.main = .dialWait d ∧ (s.point d).semRsp = 0) ∨
    (s.main = .join ∧ ∀ ok, s.loop ≠ .returned ok) := by
  cases hpc : s.main <;> simp only [mainStep, hpc] at h
  case register k => cases hk : c.hooks[k]? <;> simp [hk] at h
  case dialWait d =>
    by_cases hsem : (s.point d).semRsp = 0
    · exact .inr (.inl ⟨d, rfl, hsem⟩)
    · simp [hsem] at h
  case join =>
    refine .inr (.inr ⟨rfl, fun ok hloop => ?_⟩)
    simp [hloop] at h
  case returned => exact .inl rfl
  all_goals cases h

/-- The loop thread is stuck only where it waits for the main thread. -/
theorem Life.loopStep_none (h : s.loopStep = none) :
    (s.loop = .waitInit ∧ s.initPoint.semReq = 0) ∨
    (s.loop = .loop ∧ s.active = true ∧ s.pending = false) ∨
    (s.loop = .waitExit ∧ s.exitPoint.semReq = 0) ∨
    ∃ ok, s.loop = .returned ok := by
  cases hpc : s.loop <;> simp only [loopStep, hpc] at h
  case waitInit =>
    by_cases hsem : s.initPoint.semReq = 0
    · exact .inl ⟨rfl, hsem⟩
    · simp [hsem] at h
  case callInit k =>
    cases hk : s.table[k]? with
    | none => simp [hk] at h
    | some hook => cases hret : hook.onLoopInit <;> simp [hk, hret] at h
  case failExit idx i =>
    cases hi : s.table[i]? with
    | none => simp [hi] at h
    | some hook => by_cases hidx : i < idx <;> simp [hi, hidx] at h
  case loop =>
    cases hactive : s.active <;> cases hpending : s.pending <;>
      simp [hactive, hpending] at h
    exact .inr (.inl ⟨rfl, rfl, rfl⟩)
  case callExit i => cases hi : s.table[i]? <;> simp [hi] at h
  case waitExit =>
    by_cases hsem : s.exitPoint.semReq = 0
    · exact .inr (.inr (.inl ⟨rfl, hsem⟩))
    · simp [hsem] at h
  case returned ok => exact .inr (.inr (.inr ⟨ok, rfl⟩))
  all_goals cases h

/-- A schedule stops when `eaf_powerpack_exit` has returned, or it is
blocked. -/
theorem Balanced.halted (hs : Balanced c s) (hstop : Halted (LifeStep c) s) :
    s.main = .returned ∨ s.Blocked := by
  have hmainNone : s.mainStep c = none := by
    rw [Option.eq_none_iff_forall_ne_some]
    intro t ht
    exact hstop [.main] t ⟨true, trivial, by simp [Life.step, ht]⟩
  have hloopNone : s.loopStep = none := by
    rw [Option.eq_none_iff_forall_ne_some]
    intro out hout
    exact hstop out.2 out.1 ⟨false, trivial, hout⟩
  have hpossible := hs.possible
  have hinitReq := hs.initReq
  have hinitRsp := hs.initRsp
  have hexitReq := hs.exitReq
  have hexitRsp := hs.exitRsp
  have hhandle := hs.handle
  rcases Life.mainStep_none hmainNone with hmain | ⟨d, hmain, hsem⟩ |
    ⟨hmain, hnot⟩
  · exact .inl hmain
  · right
    rw [hmain] at hpossible hinitReq hinitRsp hexitReq hexitRsp hhandle
    cases d with
    | load =>
        -- the loop thread has been asked and has not answered
        rcases Life.loopStep_none hloopNone with ⟨hloop, hreq⟩ |
          ⟨hloop, -, -⟩ | ⟨hloop, -⟩ | ⟨ok, hloop⟩ <;>
          rw [hloop] at hinitReq hinitRsp <;>
          simp [MainPc.askedInit, MainPc.gotInit, LoopPc.tookInit,
            LoopPc.postedInit, LoopPc.storedInit] at hinitReq hinitRsp <;>
          simp only [Life.point] at hsem <;> omega
    | cleanup =>
        refine ⟨⟨.cleanup, by simp, hmain, hsem⟩, ?_⟩
        rcases Life.loopStep_none hloopNone with hwait |
          ⟨hloop, hactive, hpending⟩ | ⟨hloop, hreq⟩ | hend
        · exact .inr hwait
        · rw [hloop] at hhandle
          simp [LoopPc.handle, hactive, hpending, MainPc.toldLoop] at hhandle
        · rw [hloop] at hexitReq
          simp [MainPc.askedExit, LoopPc.tookExit] at hexitReq
          omega
        · exact .inl hend
    | ppExit => exact absurd hpossible id
  · exact absurd (hs.loop_returned (by rw [hmain]; rfl)) (hnot true)

/-! ## The shutdown -/

/-- The program calls `eaf_load`, and every `on_loop_init` succeeds. -/
def LifeCycle.Starts (c : LifeCycle) : Prop :=
  c.load = true ∧ ∀ hook ∈ c.hooks, hook.starts = true

instance (c : LifeCycle) : Decidable c.Starts :=
  inferInstanceAs (Decidable (_ ∧ _))

/-- A block is a sign that the loop was not started. -/
theorem Balanced.not_starts (hs : Balanced c s) (hblocked : s.Blocked) :
    ¬ c.Starts := by
  rintro ⟨hload, hall⟩
  obtain ⟨⟨d, hd, hmain, hsem⟩, hloop⟩ := hblocked
  have hpossible := hs.possible
  rw [hmain] at hpossible
  cases d with
  | load => exact hd rfl
  | ppExit => exact hpossible
  | cleanup =>
      rcases hloop with ⟨ok, hloop⟩ | ⟨hloop, hreq⟩
      · cases ok with
        | false =>
            have houtcome := hs.outcome
            rw [hloop] at houtcome
            obtain ⟨hook, hmem, hbad⟩ := houtcome
            simp [hall hook hmem] at hbad
        | true =>
            have hrsp := hs.exitRsp
            rw [hmain, hloop] at hrsp
            simp only [MainPc.gotExit, LoopPc.postedExit] at hrsp
            simp only [Life.point] at hsem
            omega
      · have htokens := hs.initReq
        rw [hmain, hloop, hreq] at htokens
        simp [MainPc.askedInit, LoopPc.tookInit, hload] at htokens

/-- When `eaf_powerpack_exit` has returned, the loop was started. -/
theorem Balanced.starts (hs : Balanced c s) (hmain : s.main = .returned) :
    c.Starts := by
  have hloop := hs.loop_returned (by rw [hmain]; rfl)
  have htokens := hs.initReq
  have houtcome := hs.outcome
  rw [hmain, hloop] at htokens
  rw [hloop] at houtcome
  refine ⟨?_, houtcome⟩
  cases hload : c.load
  · simp [MainPc.askedInit, LoopPc.tookInit, hload] at htokens
  · rfl

/-- The threads are blocked, and stay so whatever they do. -/
def Deadlocked (c : LifeCycle) (s : Life) : Prop :=
  ∀ tr t, Run (LifeStep c) s tr t → t.Blocked

theorem Life.Blocked.deadlocked (h : s.Blocked) : Deadlocked c s := by
  intro tr t hrun
  rw [h.halted.eq_of_run hrun]
  exact h

/-- What the shutdown owes the program. -/
structure ShutsDown (c : LifeCycle) : Prop where
  noDeadlock : ∀ tr s, LifeRun c tr s → ¬ Deadlocked c s
  completes : Completes (LifeStep c) .initial fun s => s.main = .returned

/-- A deadlock can be reached exactly when the loop is not started. -/
theorem deadlock_reachable_iff (c : LifeCycle) :
    (∃ tr s, LifeRun c tr s ∧ Deadlocked c s) ↔ ¬ c.Starts := by
  constructor
  · rintro ⟨tr, s, hrun, hstuck⟩
    exact (LifeRun.balanced hrun).not_starts (hstuck [] s .refl)
  · intro hnot
    have hrefl : LifeRun c [] .initial := .refl
    obtain ⟨tr, s, hrun, hstop⟩ :=
      hrefl.exists_halted LifeStep.length_eq_one (lifeRun_bounded c)
    have hs : Balanced c s := LifeRun.balanced hrun
    rcases hs.halted hstop with hmain | hblocked
    · exact absurd (hs.starts hmain) hnot
    · exact ⟨tr, s, hrun, hblocked.deadlocked⟩

/-- The shutdown is in order exactly when the loop was started. -/
theorem shutdown_in_order_iff (c : LifeCycle) : ShutsDown c ↔ c.Starts := by
  have hdeadlock := deadlock_reachable_iff c
  constructor
  · intro h
    by_contra hnot
    obtain ⟨tr, s, hrun, hstuck⟩ := hdeadlock.mpr hnot
    exact h.noDeadlock tr s hrun hstuck
  · intro hstarts
    refine ⟨fun tr s hrun hstuck => ?_, lifeRun_bounded c, fun tr s hrun hstop => ?_⟩
    · exact hdeadlock.mp ⟨tr, s, hrun, hstuck⟩ hstarts
    · have hs : Balanced c s := LifeRun.balanced hrun
      rcases hs.halted hstop with hmain | hblocked
      · exact hmain
      · exact absurd hstarts (hs.not_starts hblocked)

/-- A program that registers no hook and never calls `eaf_load`. -/
def neverLoaded : LifeCycle := ⟨[], false⟩

/-- A program whose only hook fails to start. -/
def hookFails : LifeCycle := ⟨[⟨some (-1), false⟩], true⟩

/-- In both programs `eaf_cleanup` never returns. -/
theorem cleanup_never_returns :
    ¬ ShutsDown neverLoaded ∧ ¬ ShutsDown hookFails := by
  constructor
  · intro h
    -- the main thread up to the dial; the loop thread cannot move
    have hreplay : (LabelledRun.replay (Life.step neverLoaded) (fun _ _ => True)
        .initial (List.replicate 8 true)).any
        (fun o => decide (o.1.main = .dialWait .cleanup ∧
          o.1.exitPoint.semRsp = 0 ∧ o.1.loop = .waitInit ∧
          o.1.initPoint.semReq = 0)) = true := by decide +kernel
    obtain ⟨s, tr, hrun, hcheck⟩ := LabelledRun.exists_run_of_replay hreplay
    obtain ⟨hmain, hsem, hloop⟩ := of_decide_eq_true hcheck
    have hblocked : s.Blocked :=
      ⟨⟨.cleanup, by simp, hmain, hsem⟩, .inr hloop⟩
    exact h.noDeadlock tr s hrun hblocked.deadlocked
  · intro h
    -- `eaf_load` is answered with the failure, and the loop thread is over
    have hreplay : (LabelledRun.replay (Life.step hookFails) (fun _ _ => True)
        .initial (List.replicate 5 true ++ List.replicate 5 false ++
          List.replicate 9 true)).any
        (fun o => decide (o.1.main = .dialWait .cleanup ∧
          o.1.exitPoint.semRsp = 0 ∧ o.1.loop = .returned false)) = true := by
      decide +kernel
    obtain ⟨s, tr, hrun, hcheck⟩ := LabelledRun.exists_run_of_replay hreplay
    obtain ⟨hmain, hsem, hloop⟩ := of_decide_eq_true hcheck
    have hblocked : s.Blocked :=
      ⟨⟨.cleanup, by simp, hmain, hsem⟩, .inl ⟨false, hloop⟩⟩
    exact h.noDeadlock tr s hrun hblocked.deadlocked

end Powerpack
end Eaf

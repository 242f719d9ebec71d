import Eaf.Compat.Semaphore

/-!
# The semaphore of Linux is a counting semaphore

Every call takes effect at its last access to the semaphore, which decides what
it returns, so what the calls return is what a counting semaphore answers to
them in the order of these accesses.  The event `ret` stands for the last
access; the thread leaves the function some time after it.  A bounded wait gives
up after so many rounds as its timeout has tens of milliseconds.
-/

namespace Eaf
namespace Compat

open Core LabelledRun CountingSemaphore

/-- Runs of a semaphore and its users. -/
abbrev SemRun (w : Nat) (s₀ : SemSys) (tr : List SemEvent) (s : SemSys) : Prop :=
  Run (Guarded (semStep w) (semOk w)) s₀ tr s

/-- The last access of a call, as a counting semaphore sees it. -/
def answerOf : SemEvent → Option (Event Nat)
  | .ret t (.pend _) code => some (if code = Errno.success then .take t else .miss t)
  | .ret t .post code => some (if code = Errno.success then .put t else .full t)
  | _ => none

/-- What a thread has shown since it entered its last call. -/
def sinceEnter (t : Nat) (own : List SemEvent) : SemEvent → List SemEvent
  | .enter t' _ => if t' = t then [] else own
  | .again t' => if t' = t then own ++ [.again t'] else own
  | .slept t' => if t' = t then own ++ [.slept t'] else own
  | .interrupted t' => if t' = t then own ++ [.interrupted t'] else own
  | .ret t' q code => if t' = t then own ++ [.ret t' q code] else own

/-- The same for a whole trace. -/
def ownEvents (t : Nat) (tr : List SemEvent) : List SemEvent :=
  tr.foldl (sinceEnter t) []

@[simp] theorem ownEvents_append (t : Nat) (tr tr' : List SemEvent) :
    ownEvents t (tr ++ tr') = tr'.foldl (sinceEnter t) (ownEvents t tr) :=
  List.foldl_append

/-- Failed attempts, each followed by a sleep of ten milliseconds. -/
def rounds (t : Nat) : Nat → List SemEvent
  | 0 => []
  | k + 1 => rounds t k ++ [.again t, .slept t]

/-- A timeout that is neither zero nor unbounded. -/
def Bounded (w timeout : Nat) : Prop :=
  0 < timeout ∧ timeout < semInfinity w

/-- What a thread has done when it is at a point of a call. -/
def Stands (w t : Nat) (own : List SemEvent) : SemCall → Prop
  | .idle => True
  | .pend timeout => timeout < 2 ^ w ∧ own = []
  | .wait timeout => timeout = semInfinity w ∧
      ∃ k, own = List.replicate k (.interrupted t)
  | .tryOnce timeout => timeout = 0 ∧ timeout ≠ semInfinity w ∧ own = []
  | .poll timeout times => Bounded w timeout ∧
      ∃ k, k + times = pollTimes w timeout ∧ own = rounds t k
  | .sleep timeout times => Bounded w timeout ∧
      ∃ k, k + 1 + times = pollTimes w timeout ∧ own = rounds t k ++ [.again t]
  | .post => own = []

/-- What a call returned, and what its thread had done until then. -/
inductive Returns (w t : Nat) : List SemEvent → Int → SemRequest → Prop
  | unbounded (k : Nat) : Returns w t (List.replicate k (.interrupted t))
      Errno.success (.pend (semInfinity w))
  | once {code : Int} (hinf : 0 ≠ semInfinity w)
      (hcode : code = Errno.success ∨ code = Errno.unknown) :
      Returns w t [] code (.pend 0)
  | bounded {timeout k : Nat} (h : Bounded w timeout)
      (hk : k ≤ pollTimes w timeout) :
      Returns w t (rounds t k) Errno.success (.pend timeout)
  | timedOut {timeout : Nat} (h : Bounded w timeout) :
      Returns w t (rounds t (pollTimes w timeout)) Errno.timeout (.pend timeout)
  | post {code : Int} (hcode : code = Errno.success ∨ code = Errno.unknown) :
      Returns w t [] code .post

variable {w t t' n : Nat} {s s₀ s' : SemSys} {tr own : List SemEvent}
  {events : List SemEvent} {a : SemAct}

/-! ## One step -/

/-- What a step of another thread does is not this thread's. -/
theorem SemTrans.other (h : SemTrans w s t events s') (ht : t' ≠ t) :
    s'.call t' = s.call t' ∧ events.foldl (sinceEnter t') own = own := by
  have hne : t ≠ t' := Ne.symm ht
  cases h <;> simp [SemSys.goto, sinceEnter, ht, hne]

/-- What a thread has done stays in step with where it is. -/
theorem SemTrans.stands (h : SemTrans w s t events s')
    (hstands : Stands w t own (s.call t)) :
    Stands w t (events.foldl (sinceEnter t) own) (s'.call t) ∧
      ∀ q code, .ret t q code ∈ events → Returns w t own code q := by
  cases h
  case unbounded timeout hcall hinf =>
    rw [hcall] at hstands
    refine ⟨?_, by simp⟩
    simp only [SemSys.goto, Function.update_self]
    exact ⟨hinf, 0, hstands.2⟩
  case once timeout hcall hinf hzero =>
    rw [hcall] at hstands
    refine ⟨?_, by simp⟩
    simp only [SemSys.goto, Function.update_self]
    exact ⟨hzero, hinf, hstands.2⟩
  case bounded timeout hcall hinf hzero =>
    rw [hcall] at hstands
    have hbounded : Bounded w timeout := by
      have hfits : timeout < 2 ^ w := hstands.1
      unfold Bounded semInfinity at *
      omega
    refine ⟨?_, by simp⟩
    simp only [SemSys.goto, Function.update_self]
    exact ⟨hbounded, 0, by omega, hstands.2⟩
  case interrupted timeout hcall =>
    rw [hcall] at hstands
    obtain ⟨hinf, k, rfl⟩ := hstands
    refine ⟨?_, by simp⟩
    simp only [SemSys.goto, Function.update_self]
    exact ⟨hinf, k + 1, by simp [sinceEnter, List.replicate_succ']⟩
  case again timeout times hcall hn =>
    rw [hcall] at hstands
    obtain ⟨hbounded, k, hk, rfl⟩ := hstands
    refine ⟨?_, by simp⟩
    simp only [SemSys.goto, Function.update_self]
    exact ⟨hbounded, k, by omega, by simp [sinceEnter]⟩
  case slept timeout times hcall =>
    rw [hcall] at hstands
    obtain ⟨hbounded, k, hk, rfl⟩ := hstands
    refine ⟨?_, by simp⟩
    simp only [SemSys.goto, Function.update_self]
    exact ⟨hbounded, k + 1, hk, by simp [sinceEnter, rounds]⟩
  -- the steps in which the call returns
  all_goals
    refine ⟨by simp [Stands], fun q code hmem => ?_⟩
    cases List.mem_singleton.mp hmem
  case waited timeout k hcall hn =>
    rw [hcall] at hstands
    obtain ⟨rfl, k, rfl⟩ := hstands
    exact .unbounded k
  case tried timeout k hcall hn =>
    rw [hcall] at hstands
    obtain ⟨rfl, hinf, rfl⟩ := hstands
    exact .once hinf (.inl rfl)
  case missed timeout hcall hn =>
    rw [hcall] at hstands
    obtain ⟨rfl, hinf, rfl⟩ := hstands
    exact .once hinf (.inr rfl)
  case polled timeout times m hcall hn =>
    rw [hcall] at hstands
    obtain ⟨hbounded, k, hk, rfl⟩ := hstands
    exact .bounded hbounded (by omega)
  case timedOut timeout hcall hn =>
    rw [hcall] at hstands
    obtain ⟨hbounded, k, hk, rfl⟩ := hstands
    obtain rfl : k = pollTimes w timeout := by omega
    exact .timedOut hbounded
  case posted hcall hn =>
    rw [hcall] at hstands
    obtain rfl : own = [] := hstands
    exact .post (.inl rfl)
  case full hcall hn =>
    rw [hcall] at hstands
    obtain rfl : own = [] := hstands
    exact .post (.inr rfl)

/-- A call takes effect at its last access. -/
theorem SemTrans.answers (h : SemTrans w s t events s')
    (hmax : s.count ≤ semValueMax) :
    Run (Step semValueMax) s.count (events.filterMap answerOf) s'.count := by
  cases h
  case waited timeout k hcall hn | tried timeout k hcall hn
    | polled timeout times k hcall hn =>
    rw [hn]
    exact .single (.take t)
  case missed timeout hcall hn | timedOut timeout hcall hn =>
    rw [hn]
    exact .single (.miss t)
  case posted hcall hn => exact .single (.put t hn)
  case full hcall hn =>
    obtain hfull : s.count = semValueMax := Nat.le_antisymm hmax hn
    rw [hfull]
    exact .single (.full t)
  all_goals exact .refl

/-! ## Whole runs -/

/-- The number of tokens stays in its bounds. -/
theorem SemTrans.count_le (h : SemTrans w s t events s')
    (hmax : s.count ≤ semValueMax) : s'.count ≤ semValueMax :=
  (balance (h.answers hmax) hmax).2

theorem SemRun.count_le (h : SemRun w s₀ tr s) (hmax : s₀.count ≤ semValueMax) :
    s.count ≤ semValueMax := by
  refine h.preserved (P := fun s => s.count ≤ semValueMax) hmax ?_
  rintro s events s' hs ⟨a, -, hstep⟩
  cases a with
  | enter t q =>
      simp only [semStep] at hstep
      split at hstep
      · obtain ⟨rfl, -⟩ := Prod.mk.inj (Option.some.inj hstep)
        exact hs
      · cases hstep
  | run t signal => exact (callStep_trans hstep).count_le hs

/-- What the calls return is what a counting semaphore answers. -/
theorem SemRun.answers (h : SemRun w s₀ tr s)
    (hmax : s₀.count ≤ semValueMax) :
    Run (Step semValueMax) s₀.count (tr.filterMap answerOf) s.count := by
  refine Run.project SemSys.count answerOf h ?_
  rintro tr s events s' hrun ⟨a, -, hstep⟩
  cases a with
  | enter t q =>
      simp only [semStep] at hstep
      split at hstep
      · obtain ⟨rfl, rfl⟩ := Prod.mk.inj (Option.some.inj hstep)
        exact .refl
      · cases hstep
  | run t signal => exact (callStep_trans hstep).answers (SemRun.count_le hrun hmax)

/-- An event of a longer trace is one of before or the last one. -/
theorem event_cases {front rest : List SemEvent} {e : SemEvent}
    (hone : events.length ≤ 1) (h : tr ++ events = front ++ e :: rest) :
    (∃ rest', tr = front ++ e :: rest') ∨ events = [e] ∧ tr = front := by
  rcases List.append_eq_append_iff.mp h with
    ⟨middle, rfl, hmiddle⟩ | ⟨middle, rfl, hmiddle⟩
  · right
    rw [hmiddle, List.length_append, List.length_cons] at hone
    obtain rfl : middle = [] := List.eq_nil_of_length_eq_zero (by omega)
    obtain rfl : rest = [] := List.eq_nil_of_length_eq_zero (by omega)
    exact ⟨hmiddle, by simp⟩
  · cases middle with
    | nil =>
        right
        rw [List.nil_append] at hmiddle
        rw [← hmiddle, List.length_cons] at hone
        obtain rfl : rest = [] := List.eq_nil_of_length_eq_zero (by omega)
        exact ⟨hmiddle.symm, by simp⟩
    | cons e' middle =>
        left
        obtain ⟨rfl, -⟩ := List.cons.inj hmiddle
        exact ⟨middle, rfl⟩

/-- A step shows at most one event, and only its thread returns. -/
theorem SemTrans.one (h : SemTrans w s t events s') :
    events.length ≤ 1 ∧ ∀ t' q code, .ret t' q code ∈ events → t' = t := by
  cases h <;> simp +contextual

/-- Where the threads are and what they have done, all along a run. -/
theorem SemRun.stands (h : SemRun w s₀ tr s) (hidle : ∀ t, s₀.call t = .idle) :
    (∀ t, Stands w t (ownEvents t tr) (s.call t)) ∧
      ∀ front t q code rest, tr = front ++ .ret t q code :: rest →
        Returns w t (ownEvents t front) code q := by
  refine h.invariant
    (P := fun tr s => (∀ t, Stands w t (ownEvents t tr) (s.call t)) ∧
      ∀ front t q code rest, tr = front ++ .ret t q code :: rest →
        Returns w t (ownEvents t front) code q) ⟨?_, by simp⟩ ?_
  · intro t
    rw [hidle t]
    trivial
  rintro tr s events s' - ⟨hstands, hreturns⟩ ⟨a, hok, hstep⟩
  cases a with
  | enter t q =>
      simp only [semStep] at hstep
      split at hstep
      next =>
        obtain ⟨rfl, rfl⟩ := Prod.mk.inj (Option.some.inj hstep)
        refine ⟨fun t' => ?_, fun front t' q' code rest htr => ?_⟩
        · rw [ownEvents_append]
          by_cases ht : t' = t
          · subst ht
            simp only [SemSys.goto, Function.update_self]
            cases q with
            | pend timeout => exact ⟨hok, by simp [sinceEnter]⟩
            | post => simp [SemRequest.start, sinceEnter, Stands]
          · have hne : t ≠ t' := Ne.symm ht
            simpa [SemSys.goto, sinceEnter, ht, hne] using hstands t'
        · rcases event_cases (by simp) htr with ⟨rest', hbefore⟩ | ⟨hlast, -⟩
          · exact hreturns front t' q' code rest' hbefore
          · simp at hlast
      next => cases hstep
  | run t signal =>
      have htrans := callStep_trans hstep
      obtain ⟨hnext, hret⟩ := htrans.stands (hstands t)
      refine ⟨fun t' => ?_, fun front t' q' code rest htr => ?_⟩
      · rw [ownEvents_append]
        by_cases ht : t' = t
        · subst ht
          exact hnext
        · obtain ⟨hcall, hown⟩ := htrans.other ht
          rw [hcall, hown]
          exact hstands t'
      · rcases event_cases htrans.one.1 htr with
          ⟨rest', hbefore⟩ | ⟨hlast, rfl⟩
        · exact hreturns front t' q' code rest' hbefore
        · have hmem : .ret t' q' code ∈ events := by simp [hlast]
          obtain rfl := htrans.one.2 t' q' code hmem
          exact hret q' code hmem

/-! ## How long a wait takes -/

end Compat
end Eaf

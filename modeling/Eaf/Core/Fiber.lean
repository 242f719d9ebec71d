import Eaf.Foundation.CStatements
import Eaf.Foundation.Coroutine

/-!
# Coroutines out of switches

`eaf_reenter` and `eaf_yield` are macros.  The handler of a message has the
form `eaf_reenter { body }`: a `switch` on the branch of the service whose
`case` labels stand at the yields inside the body.  A yield stores its label in
the branch, leaves the handler through two endless loops and a `goto`, and is
where the next call of the handler goes on.

The theorem of this module says that a handler written with these macros is
the coroutine one has in mind: a call with branch zero runs the body from its
start, and a call with the label of a yield runs what the body has to do behind
that yield.
-/

namespace Eaf
namespace Core

open CStatements Coroutine

variable {σ ι : Type*}

/-- What a handler works on: its own variables, the branch of its service
(`_eaf_sls->branch`), the control bit `EAF_SERVICE_CC0_YIELD` of its group
(`_eaf_gls->cc[0]`), and the hook for the yield (`_eaf_gls->yield`). -/
structure Frame (σ ι : Type*) where
  user : σ
  branch : Nat
  cc0 : Bool
  hook : ι

/-- The labels of `EAF_COROUTINE_REENTER`. -/
inductive JumpLabel
  | terminateCoroutine
  | bailOutOfCoroutine
  deriving DecidableEq

/-- `(unsigned)-1` -/
def unsignedMinusOne : Nat := 4294967295

/-- `EAF_COROUTINE_YIELD(_fn, _arg, n)` -/
def eafCoroutineYield (n : Nat) (hook : ι) : Stmt (Frame σ ι) JumpLabel :=
  .seq
    (.expr fun s => { s with branch := n, cc0 := true, hook := hook })
    (.loop (fun _ => true)
      (.cond (fun s => s.branch == 0)
        (.seq (.case n .skip) .brk)
        (.switch (fun s => if s.branch ≠ 0 then 0 else 1)
          (.loop (fun _ => true)
            (.case (-1) (.cond (fun s => s.branch != 0)
              (.goto .terminateCoroutine)
              (.loop (fun _ => true)
                (.case 1 (.cond (fun s => s.branch != 0)
                  (.goto .bailOutOfCoroutine)
                  (.case 0 .skip))))))))))

/-- `EAF_COROUTINE_REENTER()` in front of a body. -/
def eafCoroutineReenter (body : Stmt (Frame σ ι) JumpLabel) :
    Stmt (Frame σ ι) JumpLabel :=
  .switch (fun s => s.branch)
    (.case unsignedMinusOne (.cond (fun s => s.branch != 0)
      (.seq (.goto .terminateCoroutine)
        (.seq (.label .terminateCoroutine
            (.expr fun s => { s with branch := unsignedMinusOne }))
          (.seq (.goto .bailOutOfCoroutine)
            (.label .bailOutOfCoroutine .brk))))
      (.case 0 body)))

/-- The body of a handler as its programmer writes it; every `eaf_yield` gets
the number of its line. -/
@[simp] def bodyOf : Program σ Nat ι → Stmt (Frame σ ι) JumpLabel
  | .act f => .expr fun s => { s with user := f s.user }
  | .yield n hook => eafCoroutineYield n hook
  | .seq a b => .seq (bodyOf a) (bodyOf b)
  | .cond c a b => .cond (fun s => c s.user) (bodyOf a) (bodyOf b)
  | .loop c body => .loop (fun s => c s.user) (bodyOf body)

/-- Line numbers of yields: no two yields are on one line, and a line number is
neither zero nor the largest number. -/
structure Lines (ns : List Nat) : Prop where
  nodup : ns.Nodup
  range : ∀ n ∈ ns, 0 < n ∧ n < unsignedMinusOne

/-- How the body of a handler is left when the coroutine stops. -/
def exitOf (s : Frame σ ι) :
    Stop σ Nat ι → Exit (Frame σ ι) JumpLabel
  | .done u => .next { s with user := u }
  | .suspended n hook _ u => .goto .bailOutOfCoroutine ⟨u, n, true, hook⟩

/-- What the frame is when the handler returns. -/
def Frame.stopped (s : Frame σ ι) : Stop σ Nat ι → Frame σ ι
  | .done u => { s with user := u }
  | .suspended n hook _ u => ⟨u, n, true, hook⟩

variable {fuel : Nat} {p : Program σ Nat ι} {s : Frame σ ι} {n : Nat} {hook : ι}

@[simp] theorem exitOf_user (s : Frame σ ι) (u : σ) :
    exitOf { s with user := u } = exitOf s := by
  funext stop
  cases stop <;> rfl

theorem Lines.left {ns ms : List Nat} (h : Lines (ns ++ ms)) : Lines ns :=
  ⟨(List.nodup_append.mp h.nodup).1,
    fun n hn => h.range n (List.mem_append_left ms hn)⟩

theorem Lines.right {ns ms : List Nat} (h : Lines (ns ++ ms)) : Lines ms :=
  ⟨(List.nodup_append.mp h.nodup).2.1,
    fun n hn => h.range n (List.mem_append_right ns hn)⟩

/-- A line of the second part is not a line of the first. -/
theorem Lines.apart {ns ms : List Nat} (h : Lines (ns ++ ms)) {n : Nat}
    (hn : n ∈ ms) : ∀ m ∈ ns, (n : Int) ≠ m :=
  fun m hm heq => (List.nodup_append.mp h.nodup).2.2 m hm n hn
    (Int.ofNat.inj heq).symm

/-! ## A yield -/

/-- A yield reached from above leaves the handler. -/
theorem exec_yield (hfuel : 0 < fuel) (hn : 0 < n) (s : Frame σ ι) :
    exec fuel (eafCoroutineYield n hook) .top s =
      some (.goto .bailOutOfCoroutine ⟨s.user, n, true, hook⟩) := by
  obtain ⟨left, rfl⟩ := Nat.exists_eq_succ_of_ne_zero (Nat.ne_of_gt hfuel)
  have hne : n ≠ 0 := Nat.ne_of_gt hn
  simp [eafCoroutineYield, exec, iterate, hne]

/-- A yield entered at its label does nothing. -/
theorem exec_yield_label (s : Frame σ ι) :
    exec fuel (eafCoroutineYield n hook) (.case n) s = some (.next s) := by
  simp [eafCoroutineYield, exec]

theorem exec_yield_missed {k : Int} (hk : k ≠ n) (s : Frame σ ι) :
    exec fuel (eafCoroutineYield n hook) (.case k) s = some .missed := by
  simp [eafCoroutineYield, exec, Ne.symm hk]

/-! ## The body -/

/-- The passes of a loop of the body are passes of the loop. -/
theorem iterate_bodyOf {c : σ → Bool} {body : Program σ Nat ι}
    {enter : Frame σ ι → Option (Exit (Frame σ ι) JumpLabel)}
    (hbody : ∀ s, enter s = (run fuel body s.user).map (exitOf s))
    (left : Nat) (s : Frame σ ι) :
    iterate (fun s : Frame σ ι => c s.user) enter left s =
      (passes c (.loop c body) (run fuel body) left s.user).map (exitOf s) := by
  induction left generalizing s with
  | zero => rfl
  | succ left ih =>
      rw [iterate, passes]
      by_cases hc : c s.user = true
      · rw [if_pos hc, if_pos hc, hbody]
        cases run fuel body s.user with
        | none => rfl
        | some stop =>
            cases stop with
            | done u => simpa [exitOf, Stop.andThen] using ih { s with user := u }
            | suspended n hook rest u => simp [exitOf, Stop.andThen]
      · rw [if_neg hc, if_neg hc]
        rfl

/-- The body runs as the coroutine does. -/
theorem exec_bodyOf (hfuel : 0 < fuel) (hp : Lines p.labels) (s : Frame σ ι) :
    exec fuel (bodyOf p) .top s = (run fuel p s.user).map (exitOf s) := by
  induction p generalizing s with
  | act f => rfl
  | yield n hook =>
      exact exec_yield hfuel (hp.range n (List.mem_singleton_self n)).1 s
  | seq a b iha ihb =>
      have ha := iha hp.left
      have hb := ihb hp.right
      rw [bodyOf, run, exec, ha]
      cases run fuel a s.user with
      | none => rfl
      | some stop =>
          cases stop with
          | done u => simpa [exitOf, Stop.andThen] using hb { s with user := u }
          | suspended n hook rest u => simp [exitOf, Stop.andThen]
  | cond c a b iha ihb =>
      have ha := iha hp.left
      have hb := ihb hp.right
      rw [bodyOf, run, exec]
      by_cases hc : c s.user = true
      · rw [if_pos hc, if_pos hc]
        exact ha s
      · rw [if_neg hc, if_neg hc]
        exact hb s
  | loop c body ih =>
      rw [bodyOf, run, exec]
      exact iterate_bodyOf (ih hp) fuel s

/-- What is not a label of a yield is not found in the body. -/
theorem exec_bodyOf_missed {k : Int} (hk : ∀ n ∈ p.labels, k ≠ n)
    (s : Frame σ ι) : exec fuel (bodyOf p) (.case k) s = some .missed := by
  induction p generalizing s with
  | act f => rfl
  | yield n hook => exact exec_yield_missed (hk n (List.mem_singleton_self n)) s
  | seq a b iha ihb | cond c a b iha ihb =>
      have ha := iha fun n hn => hk n (List.mem_append_left _ hn)
      have hb := ihb fun n hn => hk n (List.mem_append_right _ hn)
      simp [bodyOf, exec, ha, hb]
  | loop c body ih =>
      rw [bodyOf, exec, ih hk]
      simp

/-- Entered at the label of a yield, the body does what the coroutine has to
do behind that yield. -/
theorem exec_bodyOf_label (hfuel : 0 < fuel) (hp : Lines p.labels)
    (hn : n ∈ p.labels) (s : Frame σ ι) :
    exec fuel (bodyOf p) (.case n) s =
      (runAll fuel (p.after n) s.user).map (exitOf s) := by
  induction p generalizing s with
  | act f => cases hn
  | yield m hook =>
      obtain rfl := List.mem_singleton.mp hn
      exact exec_yield_label s
  | seq a b iha ihb =>
      rw [Program.after, bodyOf, exec]
      by_cases ha : n ∈ a.labels
      · rw [if_pos ha, runAll_append, iha hp.left ha]
        cases runAll fuel (a.after n) s.user with
        | none => rfl
        | some stop =>
            cases stop with
            | done u =>
                have hb := exec_bodyOf hfuel hp.right { s with user := u }
                simpa [exitOf, Stop.andThen, runAll_singleton] using hb
            | suspended m hook rest u => simp [exitOf, Stop.andThen]
      · have hb : n ∈ b.labels := (List.mem_append.mp hn).resolve_left ha
        rw [if_neg ha, exec_bodyOf_missed (hp.apart hb)]
        exact ihb hp.right hb s
  | cond c a b iha ihb =>
      rw [Program.after, bodyOf, exec_cond_case]
      by_cases ha : n ∈ a.labels
      · rw [if_pos ha, iha hp.left ha]
        cases runAll fuel (a.after n) s.user with
        | none => rfl
        | some stop => cases stop <;> rfl
      · have hb : n ∈ b.labels := (List.mem_append.mp hn).resolve_left ha
        rw [if_neg ha, exec_bodyOf_missed (hp.apart hb)]
        exact ihb hp.right hb s
  | loop c body ih =>
      rw [Program.after, bodyOf, exec_loop_case, runAll_append, ih hp hn]
      cases runAll fuel (body.after n) s.user with
      | none => rfl
      | some stop =>
          cases stop with
          | done u =>
              have hbody : ∀ s : Frame σ ι, exec fuel (bodyOf body) .top s =
                  (run fuel body s.user).map (exitOf s) :=
                exec_bodyOf hfuel hp
              have hloop := iterate_bodyOf (c := c) hbody fuel { s with user := u }
              simpa [exitOf, Stop.andThen, runAll_singleton, run] using hloop
          | suspended m hook rest u => simp [exitOf, Stop.andThen]

/-! ## The handler -/

/-- `bail_out_of_coroutine` ends the handler. -/
theorem call_bail (body : Stmt (Frame σ ι) JumpLabel) (jumps : Nat)
    (s : Frame σ ι) :
    call fuel (eafCoroutineReenter body) (jumps + 1)
      (.label .bailOutOfCoroutine) s = some s := by
  simp [call, eafCoroutineReenter, exec]

/-- `terminate_coroutine` stores `(unsigned)-1` and goes on there. -/
theorem call_terminate (body : Stmt (Frame σ ι) JumpLabel) (jumps : Nat)
    (s : Frame σ ι) :
    call fuel (eafCoroutineReenter body) (jumps + 2)
        (.label .terminateCoroutine) s =
      some { s with branch := unsignedMinusOne } := by
  have hexec : exec fuel (eafCoroutineReenter body)
      (.label .terminateCoroutine) s = some (.goto .bailOutOfCoroutine
        { s with branch := unsignedMinusOne }) := by
    simp [eafCoroutineReenter, exec]
  rw [call, hexec]
  exact call_bail body jumps _

/-- However the body is left, the handler returns. -/
theorem call_exit {body : Stmt (Frame σ ι) JumpLabel} (jumps : Nat)
    (s : Frame σ ι) {r : Option (Stop σ Nat ι)}
    (h : exec fuel (eafCoroutineReenter body) .top s = r.map (exitOf s)) :
    call fuel (eafCoroutineReenter body) (jumps + 2) .top s =
      r.map s.stopped := by
  rw [call, h]
  cases r with
  | none => rfl
  | some stop =>
      cases stop with
      | done u => rfl
      | suspended n hook rest u => exact call_bail body jumps _

/-- Where the `switch` leads. -/
theorem exec_reenter (body : Stmt (Frame σ ι) JumpLabel) (s : Frame σ ι) :
    exec fuel (eafCoroutineReenter body) .top s =
      if s.branch = unsignedMinusOne then some (.goto .terminateCoroutine s)
      else
        (exec fuel (.case 0 body) (.case s.branch) s).map (Exit.found s) := by
  by_cases hs : s.branch = unsignedMinusOne
  · simp [eafCoroutineReenter, exec, hs, unsignedMinusOne]
  · have hne : (unsignedMinusOne : Int) ≠ s.branch :=
      fun heq => hs (Int.ofNat.inj heq).symm
    rw [if_neg hs, eafCoroutineReenter, exec, exec, if_neg hne, exec_cond_case]
    rfl

/-- Called with branch zero, the handler runs its body from the start. -/
theorem call_from_top {p : Program σ Nat ι} (hp : Lines p.labels)
    (hfuel : 0 < fuel) (jumps : Nat) {s : Frame σ ι} (hzero : s.branch = 0) :
    call fuel (eafCoroutineReenter (bodyOf p)) (jumps + 3) .top s =
      (run fuel p s.user).map s.stopped := by
  apply call_exit (jumps + 1) s
  rw [exec_reenter, if_neg (by rw [hzero]; decide), hzero, exec,
    if_pos Int.natCast_zero.symm, exec_bodyOf hfuel hp]
  cases run fuel p s.user with
  | none => rfl
  | some stop => cases stop <;> rfl

/-- Called with the label of a yield, the handler goes on behind it. -/
theorem call_from_label {p : Program σ Nat ι} (hp : Lines p.labels)
    (hfuel : 0 < fuel) (jumps : Nat) {s : Frame σ ι}
    (hmem : s.branch ∈ p.labels) :
    call fuel (eafCoroutineReenter (bodyOf p)) (jumps + 3) .top s =
      (runAll fuel (p.after s.branch) s.user).map s.stopped := by
  obtain ⟨hpos, hlt⟩ := hp.range _ hmem
  have hcase : (0 : Int) ≠ s.branch := by omega
  apply call_exit (jumps + 1) s
  rw [exec_reenter, if_neg (Nat.ne_of_lt hlt), exec, if_neg hcase,
    exec_bodyOf_label hfuel hp hmem]
  cases runAll fuel (p.after s.branch) s.user with
  | none => rfl
  | some stop => cases stop <;> rfl

/-- Called with another branch, it does nothing. -/
theorem call_missed {p : Program σ Nat ι} (jumps : Nat) {s : Frame σ ι}
    (hzero : s.branch ≠ 0) (hmem : s.branch ∉ p.labels) :
    call fuel (eafCoroutineReenter (bodyOf p)) (jumps + 3) .top s =
      some s := by
  have hcase : (0 : Int) ≠ s.branch := by omega
  by_cases hlast : s.branch = unsignedMinusOne
  · -- `terminate_coroutine` stores the branch that is there already
    have hterm : call fuel (eafCoroutineReenter (bodyOf p)) (jumps + 2)
        (.label .terminateCoroutine) s =
          some { s with branch := unsignedMinusOne } :=
      call_terminate (bodyOf p) jumps s
    rw [call, exec_reenter, if_pos hlast]
    rw [← hlast] at hterm
    exact hterm
  · have hmissed : ∀ n ∈ p.labels, (s.branch : Int) ≠ n :=
      fun n hn heq => hmem (Int.ofNat.inj heq ▸ hn)
    rw [call, exec_reenter, if_neg hlast, exec, if_neg hcase,
      exec_bodyOf_missed hmissed]
    rfl

/-- **A handler is a coroutine.**  Called with branch zero, a handler whose
body is surrounded by `eaf_reenter` runs its body from the start; called with
the branch that one of its yields has left, it goes on behind that yield; called
with another branch it does nothing. -/
theorem reenter_is_coroutine (p : Program σ Nat ι) (hp : Lines p.labels)
    (hfuel : 0 < fuel) (jumps : Nat) (s : Frame σ ι) :
    call fuel (eafCoroutineReenter (bodyOf p)) (jumps + 3) .top s =
      if s.branch = 0 then (run fuel p s.user).map s.stopped
      else if s.branch ∈ p.labels then
        (runAll fuel (p.after s.branch) s.user).map s.stopped
      else some s := by
  by_cases hzero : s.branch = 0
  · rw [if_pos hzero]
    exact call_from_top hp hfuel jumps hzero
  · rw [if_neg hzero]
    by_cases hmem : s.branch ∈ p.labels
    · rw [if_pos hmem]
      exact call_from_label hp hfuel jumps hmem
    · rw [if_neg hmem]
      exact call_missed jumps hzero hmem

/-- A handler that adds one, yields on line three, and doubles. -/
def addYieldDouble : Program Nat Nat Unit :=
  .seq (.act (· + 1)) (.seq (.yield 3 ()) (.act (· * 2)))

/-- Entered again on line three, it doubles what it finds. -/
theorem reenter_is_coroutine_doubles :
    call 1 (eafCoroutineReenter (bodyOf addYieldDouble)) 3 .top ⟨5, 3, false, ()⟩ =
      some ⟨10, 3, false, ()⟩ :=
  reenter_is_coroutine addYieldDouble ⟨by decide, by decide⟩ (by decide) 0 _

end Core
end Eaf

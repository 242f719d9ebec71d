import Eaf.Foundation.LabelledRun

/-!
# Counting semaphores

What a semaphore is: a number of tokens that calls take and put in one step
each.  A call that finds no token or no room for one changes nothing.
-/

namespace CountingSemaphore

open LabelledRun

variable {τ : Type*} {max n n' : Nat}

/-- What a call by `t` did. -/
inductive Event (τ : Type*)
  | take (t : τ)
  | miss (t : τ)
  | put (t : τ)
  | full (t : τ)
  deriving DecidableEq, Repr

/-- One call. -/
inductive Step (max : Nat) : Nat → List (Event τ) → Nat → Prop
  | take {n : Nat} (t : τ) : Step max (n + 1) [.take t] n
  | miss (t : τ) : Step max 0 [.miss t] 0
  | put {n : Nat} (t : τ) (h : n < max) : Step max n [.put t] (n + 1)
  | full (t : τ) : Step max max [.full t] max

/-- The tokens that were taken. -/
def taken : List (Event τ) → Nat
  | [] => 0
  | .take _ :: rest => taken rest + 1
  | _ :: rest => taken rest

/-- The tokens that were put. -/
def given : List (Event τ) → Nat
  | [] => 0
  | .put _ :: rest => given rest + 1
  | _ :: rest => given rest

@[simp] theorem taken_append (tr tr' : List (Event τ)) :
    taken (tr ++ tr') = taken tr + taken tr' := by
  induction tr with
  | nil => simp [taken]
  | cons e rest ih => cases e <;> simp [taken, ih, Nat.add_right_comm]

@[simp] theorem given_append (tr tr' : List (Event τ)) :
    given (tr ++ tr') = given tr + given tr' := by
  induction tr with
  | nil => simp [given]
  | cons e rest ih => cases e <;> simp [given, ih, Nat.add_right_comm]

/-- No token is lost and none is made: those there are and those taken are the
ones there were and those given. -/
theorem balance {tr : List (Event τ)} (h : Run (Step max) n tr n')
    (hn : n ≤ max) : n' + taken tr = n + given tr ∧ n' ≤ max := by
  refine h.invariant (P := fun tr n' => n' + taken tr = n + given tr ∧ n' ≤ max)
    ⟨rfl, hn⟩ ?_
  rintro tr m events m' - ⟨hbalance, hm⟩ hstep
  rw [taken_append, given_append]
  cases hstep with
  | take t => simp only [taken, given]; omega
  | miss t => simp only [taken, given]; omega
  | put t hlt => simp only [taken, given]; omega
  | full t => simp only [taken, given]; omega

end CountingSemaphore

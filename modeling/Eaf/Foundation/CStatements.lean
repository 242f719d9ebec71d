import Mathlib.Logic.Basic
import Mathlib.Tactic.Cases

/-!
# Statements of C

The statements of C with all their ways of jumping about: `switch` may enter
the statement below it at a `case` label that stands deep inside loops and
conditionals, and `goto` may enter the body of a function at any label.  A
statement is executed from the top, or from a label inside it; if the label is
not inside it, the label is `missed` and the search goes on behind the
statement.  `case` labels belong to the innermost `switch` around them.

A loop makes at most `fuel` passes each time it is run, and a function at most
so many jumps as it is given; `none` means that these did not suffice.
-/

namespace CStatements

variable {σ lab : Type*}

/-- Statements over memories `σ` and labels `lab`; expressions are what they do
to the memory, and conditions and values what they are. -/
inductive Stmt (σ lab : Type*)
  | skip
  | expr (f : σ → σ)
  | seq (a b : Stmt σ lab)
  | cond (c : σ → Bool) (a b : Stmt σ lab)
  | loop (c : σ → Bool) (body : Stmt σ lab)
  | switch (value : σ → Int) (body : Stmt σ lab)
  | case (k : Int) (body : Stmt σ lab)
  | label (l : lab) (body : Stmt σ lab)
  | goto (l : lab)
  | brk

/-- Where a statement is entered. -/
inductive Entry (lab : Type*)
  | top
  | case (k : Int)
  | label (l : lab)

/-- How a statement is left. -/
inductive Exit (σ lab : Type*)
  | next (s : σ)
  | brk (s : σ)
  | goto (l : lab) (s : σ)
  | missed

/-- A `break` leads behind the statement. -/
@[simp] def Exit.caught : Exit σ lab → Exit σ lab
  | .brk s => .next s
  | r => r

/-- A `switch` without a matching label is left as it was. -/
@[simp] def Exit.found (s : σ) : Exit σ lab → Exit σ lab
  | .missed => .next s
  | r => r.caught

/-- The passes of a loop with a body that is known. -/
def iterate (c : σ → Bool) (body : σ → Option (Exit σ lab)) :
    Nat → σ → Option (Exit σ lab)
  | 0, _ => none
  | n + 1, s =>
      if c s then
        match body s with
        | some (.next s') => iterate c body n s'
        | some (.brk s') => some (.next s')
        | r => r
      else some (.next s)

/-- Execute a statement. -/
@[simp] def exec [DecidableEq lab] (fuel : Nat) :
    Stmt σ lab → Entry lab → σ → Option (Exit σ lab)
  | .skip, .top, s => some (.next s)
  | .expr f, .top, s => some (.next (f s))
  | .goto l, .top, s => some (.goto l s)
  | .brk, .top, s => some (.brk s)
  | .skip, _, _ | .expr _, _, _ | .goto _, _, _ | .brk, _, _ => some .missed
  | .seq a b, entry, s =>
      match exec fuel a entry s with
      | some (.next s') => exec fuel b .top s'
      | some .missed => exec fuel b entry s
      | r => r
  | .cond c a b, .top, s =>
      if c s then exec fuel a .top s else exec fuel b .top s
  | .cond _ a b, entry, s =>
      match exec fuel a entry s with
      | some .missed => exec fuel b entry s
      | r => r
  | .loop c body, .top, s => iterate c (exec fuel body .top) fuel s
  | .loop c body, entry, s =>
      match exec fuel body entry s with
      | some (.next s') => iterate c (exec fuel body .top) fuel s'
      | some (.brk s') => some (.next s')
      | r => r
  | .switch value body, .top, s =>
      (exec fuel body (.case (value s)) s).map (Exit.found s)
  | .switch _ _, .case _, _ => some .missed
  | .switch _ body, .label l, s =>
      (exec fuel body (.label l) s).map Exit.caught
  | .case k body, .case k', s =>
      if k = k' then exec fuel body .top s else exec fuel body (.case k') s
  | .case _ body, entry, s => exec fuel body entry s
  | .label l body, .label l', s =>
      if l = l' then exec fuel body .top s else exec fuel body (.label l') s
  | .label _ body, entry, s => exec fuel body entry s

/-- Execute the body of a function, which may jump within it. -/
@[simp] def call [DecidableEq lab] (fuel : Nat) (body : Stmt σ lab) :
    Nat → Entry lab → σ → Option σ
  | 0, _, _ => none
  | jumps + 1, entry, s =>
      match exec fuel body entry s with
      | some (.next s') => some s'
      | some (.goto l s') => call fuel body jumps (.label l) s'
      | _ => none

/-! ## Entering a statement at a label -/

section Rules

variable [DecidableEq lab] {fuel : Nat} {c : σ → Bool} {k : Int} {s : σ}

/-- A conditional entered at a label does not look at its condition. -/
theorem exec_cond_case (a b : Stmt σ lab) :
    exec fuel (.cond c a b) (.case k) s =
      match exec fuel a (.case k) s with
      | some .missed => exec fuel b (.case k) s
      | r => r := rfl

/-- A loop entered at a label looks at its condition after the first pass. -/
theorem exec_loop_case (body : Stmt σ lab) :
    exec fuel (.loop c body) (.case k) s =
      match exec fuel body (.case k) s with
      | some (.next s') => iterate c (exec fuel body .top) fuel s'
      | some (.brk s') => some (.next s')
      | r => r := rfl

end Rules

end CStatements

import Mathlib.Data.List.Basic
import Mathlib.Logic.Function.Basic

/-!
# Loops over an iterator

An iterator knows, for every position, the next one.  The positions that a
loop passes form a walk; a loop over a walk that comes to an end is a fold over
its positions.
-/

namespace Iteration

variable {α σ : Type*} {next : α → Option α} {body : σ → α → Option σ}
  {it : Option α} {xs ys : List α} {s t : σ} {fuel : Nat}

/-- The positions from `it` on, up to the end. -/
inductive Walk (next : α → Option α) : Option α → List α → Prop
  | stop : Walk next none []
  | step {x : α} {xs : List α} (h : Walk next (next x) xs) :
      Walk next (some x) (x :: xs)

/-- `for (; it != NULL; it = next(it)) body`.  The result is `none` when the
body fails, or when the fuel does not last for the loop. -/
def forEach (next : α → Option α) (body : σ → α → Option σ) :
    Nat → Option α → σ → Option σ
  | 0, _, _ => none
  | _ + 1, none, s => some s
  | fuel + 1, some x, s => (body s x).bind (forEach next body fuel (next x))

theorem Walk.unique (h : Walk next it xs) (h' : Walk next it ys) :
    xs = ys := by
  induction h generalizing ys with
  | stop =>
      cases h'
      rfl
  | step _ ih =>
      cases h' with
      | step hrest => rw [ih hrest]

/-- A loop over a walk is a fold, when there is enough fuel. -/
theorem Walk.forEach_eq (h : Walk next it xs) (hfuel : xs.length < fuel) :
    forEach next body fuel it s = xs.foldlM body s := by
  induction h generalizing fuel s with
  | stop =>
      cases fuel with
      | zero => simp at hfuel
      | succ fuel => rfl
  | step _ ih =>
      cases fuel with
      | zero => simp at hfuel
      | succ fuel =>
          rw [forEach, List.foldlM_cons]
          refine congrArg _ (funext fun s => ih ?_)
          simpa using hfuel

/-- A loop that ends has folded the whole walk. -/
theorem Walk.forEach_some (h : Walk next it xs)
    (hrun : forEach next body fuel it s = some t) :
    xs.foldlM body s = some t := by
  induction h generalizing fuel s with
  | stop =>
      cases fuel with
      | zero => cases hrun
      | succ fuel => exact hrun
  | step _ ih =>
      cases fuel with
      | zero => cases hrun
      | succ fuel =>
          rw [forEach, Option.bind_eq_some_iff] at hrun
          obtain ⟨u, hbody, hrest⟩ := hrun
          rw [List.foldlM_cons, hbody]
          exact ih hrest

/-- What the body preserves, a loop that ends preserves. -/
theorem forEach_invariant {P : σ → Prop}
    (hbody : ∀ s x t, P s → body s x = some t → P t) (hs : P s)
    (hrun : forEach next body fuel it s = some t) : P t := by
  induction fuel generalizing it s with
  | zero => cases hrun
  | succ fuel ih =>
      cases it with
      | none =>
          obtain rfl := Option.some.inj hrun
          exact hs
      | some x =>
          rw [forEach, Option.bind_eq_some_iff] at hrun
          obtain ⟨u, hu, hrest⟩ := hrun
          exact ih (hbody s x u hs hu) hrest

/-- The walk of an index that counts up to a bound. -/
theorem walk_count {next : Nat → Option Nat} {n i : Nat}
    (hnext : ∀ i < n, next i = if i + 1 < n then some (i + 1) else none)
    (hi : i < n) : Walk next (some i) (List.range' i (n - i)) := by
  obtain ⟨k, hk⟩ : ∃ k, n - i = k + 1 := ⟨n - i - 1, by omega⟩
  induction k generalizing i with
  | zero =>
      have hend : next i = none := by
        rw [hnext i hi, if_neg (by omega)]
      rw [hk]
      exact .step (hend ▸ .stop)
  | succ k ih =>
      have hgo : next i = some (i + 1) := by
        rw [hnext i hi, if_pos (by omega)]
      have hrest := ih (i := i + 1) (by omega) (by omega)
      rw [show n - (i + 1) = k + 1 by omega] at hrest
      rw [hk, List.range'_succ]
      exact .step (hgo ▸ hrest)

/-- A fold whose body cannot fail. -/
theorem foldlM_some {f : σ → α → σ}
    (h : ∀ x ∈ xs, ∀ s, body s x = some (f s x)) :
    xs.foldlM body s = some (xs.foldl f s) := by
  induction xs generalizing s with
  | nil => rfl
  | cons x rest ih =>
      rw [List.foldlM_cons, List.foldl_cons, h x (by simp)]
      exact ih fun y hy => h y (List.mem_cons_of_mem _ hy)

/-- What the body preserves, a fold preserves. -/
theorem foldlM_invariant {P : σ → Prop}
    (hbody : ∀ s x t, P s → body s x = some t → P t) (hs : P s)
    (hrun : xs.foldlM body s = some t) : P t := by
  induction xs generalizing s with
  | nil =>
      obtain rfl := Option.some.inj hrun
      exact hs
  | cons x rest ih =>
      rw [List.foldlM_cons, Option.bind_eq_bind,
        Option.bind_eq_some_iff] at hrun
      obtain ⟨u, hu, hrest⟩ := hrun
      exact ih (hbody s x u hs hu) hrest

/-- What the body sets up at one element and preserves at all others holds at
the end. -/
theorem foldlM_establish {P : σ → Prop} {x : α} (hx : x ∈ xs)
    (hset : ∀ s t, body s x = some t → P t)
    (hkeep : ∀ s y t, P s → body s y = some t → P t)
    (hrun : xs.foldlM body s = some t) : P t := by
  obtain ⟨before, after, rfl⟩ := List.append_of_mem hx
  rw [List.foldlM_append, Option.bind_eq_bind, Option.bind_eq_some_iff] at hrun
  obtain ⟨u, -, hrun⟩ := hrun
  rw [List.foldlM_cons, Option.bind_eq_bind, Option.bind_eq_some_iff] at hrun
  obtain ⟨v, hv, hrest⟩ := hrun
  exact foldlM_invariant hkeep (hset u v hv) hrest

/-- Lists that are appended one by one. -/
theorem foldl_append_flatMap {β : Type*} {f : α → List β} {acc : List β} :
    xs.foldl (fun acc x => acc ++ f x) acc = acc ++ xs.flatMap f := by
  induction xs generalizing acc with
  | nil => simp
  | cons x rest ih => rw [List.foldl_cons, ih, List.flatMap_cons,
      List.append_assoc]

/-! ## Loops that end at a null position -/

/-- `for (; it != NULL; it = next(it))`: the positions that the loop passes. -/
def passFrom [DecidableEq α] (null : α) (next : α → Option α) :
    Nat → α → Option (List α)
  | 0, _ => none
  | turns + 1, it =>
      if it = null then some []
      else do
        let it' ← next it
        let rest ← passFrom null next turns it'
        some (it :: rest)

/-- A turn of the loop. -/
theorem passFrom_cons [DecidableEq α] {null x y : α} {turns : Nat}
    (hx : x ≠ null) (hnext : next x = some y)
    (hrest : passFrom null next turns y = some xs) :
    passFrom null next (turns + 1) x = some (x :: xs) := by
  rw [passFrom, if_neg hx, hnext]
  simp only [Option.bind_eq_bind, Option.bind_some, hrest]

end Iteration

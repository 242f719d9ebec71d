import Eaf.Foundation.LinearCongruence
import Eaf.Powerpack.Random

/-!
# The fallback of the random numbers

What `_random_non_failure` returns when there is no `rand_s`.  Its state runs
through all 64-bit numbers before it comes back to one, so every number of 31
bits is returned equally often.
-/

namespace Eaf
namespace Powerpack

open LinearCongruence Finset

/-- `_random_non_failure` where `rand_s` fails or is missing. -/
def fallback (g : RandomCtx) : UInt32 × RandomCtx := randomNonFailure (fun _ => none) g

theorem fallback_eq (g : RandomCtx) :
    fallback g = (((6364136223846793005 * g.seed + 1) >>> 33).toUInt32,
      ⟨6364136223846793005 * g.seed + 1, g.calls + 1⟩) := rfl

/-- The context after `k` calls. -/
def afterCalls (g : RandomCtx) (k : ℕ) : RandomCtx := (fun g => (fallback g).2)^[k] g

/-- What call `k` returns, counted from zero. -/
def padAt (g : RandomCtx) (k : ℕ) : UInt32 := (fallback (afterCalls g k)).1

theorem afterCalls_succ (g : RandomCtx) (k : ℕ) :
    (afterCalls g (k + 1)).seed = 6364136223846793005 * (afterCalls g k).seed + 1 := by
  unfold afterCalls
  rw [Function.iterate_succ_apply', fallback_eq]

theorem padAt_eq (g : RandomCtx) (k : ℕ) :
    padAt g k = ((afterCalls g (k + 1)).seed >>> 33).toUInt32 := by
  rw [afterCalls_succ, padAt, fallback_eq]

/-- The state follows the congruence. -/
theorem seed_modEq (g : RandomCtx) (k : ℕ) :
    ((afterCalls g k).seed.toNat : ℤ) ≡
      (next 6364136223846793005 1)^[k] g.seed.toNat [ZMOD 2 ^ 64] := by
  induction k with
  | zero => exact Int.ModEq.refl _
  | succ k ih =>
      rw [Function.iterate_succ_apply', next]
      have hstep : ((afterCalls g (k + 1)).seed.toNat : ℤ) ≡
          6364136223846793005 * (afterCalls g k).seed.toNat + 1 [ZMOD 2 ^ 64] := by
        rw [afterCalls_succ, UInt64.toNat_add, UInt64.toNat_mul]
        push_cast
        simp [Int.ModEq]
      exact hstep.trans ((ih.mul_left _).add_right 1)

theorem seed_eq_iff {s t : UInt64} : (s.toNat : ℤ) ≡ t.toNat [ZMOD 2 ^ 64] ↔ s = t := by
  constructor
  · intro h
    apply UInt64.toNat_inj.mp
    have hnat : s.toNat ≡ t.toNat [MOD 2 ^ 64] := by exact_mod_cast h
    exact hnat.eq_of_lt_of_lt s.toNat_lt t.toNat_lt
  · rintro rfl
    exact Int.ModEq.refl _

/-- What is returned, as a quotient of the next state. -/
theorem toNat_padAt (g : RandomCtx) (k : ℕ) :
    (padAt g k).toNat = (afterCalls g (k + 1)).seed.toNat / 2 ^ 33 := by
  have hlt := (afterCalls g (k + 1)).seed.toNat_lt
  rw [padAt_eq, UInt64.toNat_toUInt32, UInt64.toNat_shiftRight]
  simp only [Nat.shiftRight_eq_div_pow]
  show _ / 2 ^ 33 % 2 ^ 32 = _
  apply Nat.mod_eq_of_lt
  omega

/-- **The fallback runs through everything.**  The state is back where it began
after every `2 ^ 64` calls and at no other time, and among any `2 ^ 64`
consecutive calls each 31-bit number is returned by exactly `2 ^ 33` and each
larger number by none. -/
theorem random_runs_through (g : RandomCtx) :
    (∀ k, (afterCalls g k).seed = g.seed ↔ 2 ^ 64 ∣ k) ∧
    ∀ pad, #{k ∈ range (2 ^ 64) | padAt g k = pad} =
      if pad.toNat < 2 ^ 31 then 2 ^ 33 else 0 := by
  have ha : (4 : ℤ) ∣ 6364136223846793005 - 1 := by decide
  refine ⟨fun k => ?_, fun pad => ?_⟩
  · rw [← seed_eq_iff]
    constructor
    · intro h
      exact (iterate_modEq_iff ha odd_one).mp ((seed_modEq g k).symm.trans h)
    · intro h
      exact (seed_modEq g k).trans ((iterate_modEq_iff ha odd_one).mpr h)
  · have hinj : ∀ k < 2 ^ 64, ∀ l < 2 ^ 64, (afterCalls g (k + 1)).seed.toNat =
        (afterCalls g (l + 1)).seed.toNat → k = l := by
      intro k hk l hl h
      have hcast : ((afterCalls g (k + 1)).seed.toNat : ℤ) ≡
          (afterCalls g (l + 1)).seed.toNat [ZMOD 2 ^ 64] := by rw [h]
      have hsteps := (seed_modEq g (k + 1)).symm.trans
        (hcast.trans (seed_modEq g (l + 1)))
      rw [Function.iterate_succ_apply, Function.iterate_succ_apply] at hsteps
      exact iterate_inj ha odd_one hk hl hsteps
    have hvisits := card_visits
      (fun k _ => (afterCalls g (k + 1)).seed.toNat_lt) hinj fun y => y / 2 ^ 33 = pad.toNat
    calc #{k ∈ range (2 ^ 64) | padAt g k = pad}
        = #{k ∈ range (2 ^ 64) | (afterCalls g (k + 1)).seed.toNat / 2 ^ 33 = pad.toNat} := by
          apply congrArg card
          apply filter_congr
          intro k _
          rw [← toNat_padAt, UInt32.toNat_inj]
      _ = #{y ∈ range (2 ^ 64) | y / 2 ^ 33 = pad.toNat} := hvisits
      _ = if pad.toNat < 2 ^ 31 then 2 ^ 33 else 0 :=
          card_div_eq (by decide) (by decide)

end Powerpack
end Eaf

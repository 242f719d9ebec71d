import Mathlib.NumberTheory.Multiplicity
import Mathlib.Algebra.Order.Interval.Finset.SuccPred
import Mathlib.Order.Interval.Finset.Nat
import Mathlib.Data.Int.ModEq
import Mathlib.RingTheory.Int.Basic

/-!
# Linear congruences

A number is multiplied and increased over and over again, modulo a power of
two.  When the multiplier is one more than a multiple of four and the
increment is odd, the sequence comes back to where it was after as many steps
as there are numbers, and not before; so it visits every number once.
-/

namespace LinearCongruence

open Finset

variable {a c x : ℤ} {n k l : ℕ}

/-- The next number. -/
def next (a c x : ℤ) : ℤ := a * x + c

/-- How far `k` steps lead. -/
theorem iterate_sub (a c x : ℤ) (k : ℕ) :
    (next a c)^[k] x - x = (∑ i ∈ range k, a ^ i) * ((a - 1) * x + c) := by
  induction k with
  | zero => simp
  | succ k ih =>
      rw [Function.iterate_succ_apply', geom_sum_succ]
      have hk : (next a c)^[k] x = x + (∑ i ∈ range k, a ^ i) * ((a - 1) * x + c) := by
        omega
      rw [hk, next]
      ring

/-- A geometric sum has as many factors two as it has terms. -/
theorem emultiplicity_geom_sum (ha : 4 ∣ a - 1) (k : ℕ) :
    emultiplicity 2 (∑ i ∈ range k, a ^ i) = emultiplicity (2 : ℤ) k := by
  by_cases hone : a = 1
  · simp [hone]
  · have hodd : ¬ (2 : ℤ) ∣ a := by omega
    have hlift := Int.two_pow_sub_pow' (y := 1) k ha hodd
    rw [one_pow, ← geom_sum_mul, emultiplicity_mul Int.prime_two, add_comm] at hlift
    have hfinite : emultiplicity 2 (a - 1) ≠ ⊤ := by
      rw [ne_eq, emultiplicity_eq_top, not_not]
      exact Int.finiteMultiplicity_iff.mpr ⟨by decide, by omega⟩
    exact ENat.add_right_injective_of_ne_top hfinite hlift

/-- The sequence is back where it began after every full cycle, and only then. -/
theorem iterate_modEq_iff (ha : 4 ∣ a - 1) (hc : Odd c) :
    (next a c)^[k] x ≡ x [ZMOD 2 ^ n] ↔ 2 ^ n ∣ k := by
  have hodd : Odd ((a - 1) * x + c) := by
    obtain ⟨q, hq⟩ := ha
    rw [hq]
    exact Even.add_odd ⟨2 * q * x, by ring⟩ hc
  have hcop : IsCoprime ((2 : ℤ) ^ n) ((a - 1) * x + c) :=
    IsCoprime.pow_left (Int.isCoprime_two_left.mpr hodd)
  have hsum : (2 : ℤ) ^ n ∣ ∑ i ∈ range k, a ^ i ↔ (2 : ℤ) ^ n ∣ k := by
    rw [pow_dvd_iff_le_emultiplicity, pow_dvd_iff_le_emultiplicity,
      emultiplicity_geom_sum ha]
  rw [Int.modEq_comm, Int.modEq_iff_dvd, iterate_sub]
  constructor
  · intro h
    exact_mod_cast hsum.mp (hcop.dvd_of_dvd_mul_right h)
  · intro h
    exact Dvd.dvd.mul_right (hsum.mpr (by exact_mod_cast h)) _

/-- Within a full cycle no number comes twice. -/
theorem iterate_inj (ha : 4 ∣ a - 1) (hc : Odd c) (hk : k < 2 ^ n) (hl : l < 2 ^ n)
    (h : (next a c)^[k] x ≡ (next a c)^[l] x [ZMOD 2 ^ n]) : k = l := by
  -- the later one is the earlier one after a number of further steps
  have hle : ∀ {k l : ℕ}, k ≤ l → l < 2 ^ n →
      (next a c)^[k] x ≡ (next a c)^[l] x [ZMOD 2 ^ n] → k = l := by
    intro k l hkl hl h
    have hsplit : (next a c)^[l] x = (next a c)^[l - k] ((next a c)^[k] x) := by
      rw [← Function.iterate_add_apply, Nat.sub_add_cancel hkl]
    rw [hsplit] at h
    have hdvd := (iterate_modEq_iff ha hc).mp h.symm
    have hzero := Nat.eq_zero_of_dvd_of_lt hdvd (by omega)
    omega
  rcases Nat.le_total k l with hkl | hlk
  · exact hle hkl hl h
  · exact (hle hlk hk h.symm).symm

/-- A sequence of numbers below `m` that repeats none of them in `m` steps has
each property as often as the numbers below `m` do. -/
theorem card_visits {m : ℕ} {g : ℕ → ℕ} (hlt : ∀ k < m, g k < m)
    (hinj : ∀ k < m, ∀ l < m, g k = g l → k = l) (p : ℕ → Prop) [DecidablePred p] :
    #{k ∈ range m | p (g k)} = #{y ∈ range m | p y} := by
  have hinjOn : Set.InjOn g (range m) := fun k hk l hl =>
    hinj k (mem_range.mp hk) l (mem_range.mp hl)
  have himage : (range m).image g = range m := by
    apply eq_of_subset_of_card_le
    · intro y hy
      obtain ⟨k, hk, rfl⟩ := mem_image.mp hy
      exact mem_range.mpr (hlt k (mem_range.mp hk))
    · rw [card_image_of_injOn hinjOn]
  calc #{k ∈ range m | p (g k)}
      = #(({k ∈ range m | p (g k)}).image g) :=
        (card_image_of_injOn (hinjOn.mono (coe_subset.mpr (filter_subset _ _)))).symm
    _ = #{y ∈ (range m).image g | p y} := by rw [filter_image]
    _ = #{y ∈ range m | p y} := by rw [himage]

/-- The numbers with one quotient. -/
theorem card_div_eq {m q d v : ℕ} (hd : 0 < d) (hm : m = q * d) :
    #{y ∈ range m | y / d = v} = if v < q then d else 0 := by
  subst hm
  split
  · next hv =>
      have hset : {y ∈ range (q * d) | y / d = v} = Ico (v * d) ((v + 1) * d) := by
        ext y
        have htop : (v + 1) * d ≤ q * d := Nat.mul_le_mul_right d hv
        simp only [mem_filter, mem_range, mem_Ico, Nat.div_eq_iff hd]
        rw [Nat.add_mul, Nat.one_mul] at *
        omega
      rw [hset, Nat.card_Ico, Nat.add_mul, Nat.one_mul, Nat.add_sub_cancel_left]
  · next hv =>
      rw [card_eq_zero, filter_eq_empty_iff]
      intro y hy hdiv
      have hlt := (Nat.div_lt_iff_lt_mul hd).mpr (mem_range.mp hy)
      omega

end LinearCongruence

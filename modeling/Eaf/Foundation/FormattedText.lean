import Mathlib.Data.Int.Log
import Mathlib.Data.Rat.Floor
import Mathlib.Tactic.IntervalCases
import Mathlib.Tactic.Linarith
import Mathlib.Tactic.NormNum

/-!
# Formatted text

What the conversions of `printf` write for natural numbers and for fractions
with one decimal, their lengths, and the rounding to single precision.
-/

namespace FormattedText

variable {n k : Nat} {q : ℚ} {c : Char}

/-! ## Numbers and widths -/

/-- `%u` -/
def decimal (n : Nat) : List Char := Nat.toDigits 10 n

/-- `%x` -/
def hexadecimal (n : Nat) : List Char := Nat.toDigits 16 n

/-- A number fits into `k` digits. -/
theorem length_decimal_le (hk : 0 < k) : (decimal n).length ≤ k ↔ n < 10 ^ k :=
  Nat.length_toDigits_le_iff (by omega) hk

theorem length_decimal_le_ten (n : UInt32) : (decimal n.toNat).length ≤ 10 := by
  have hn := n.toNat_lt
  rw [length_decimal_le (by omega)]
  omega

theorem length_decimal_le_twenty (n : UInt64) : (decimal n.toNat).length ≤ 20 := by
  have hn := n.toNat_lt
  rw [length_decimal_le (by omega)]
  omega

theorem length_hexadecimal_le_eight (n : UInt32) : (hexadecimal n.toNat).length ≤ 8 := by
  have hn := n.toNat_lt
  exact (Nat.length_toDigits_le_iff (by omega) (by omega)).mpr (by omega)

theorem isDigit_of_mem_decimal (h : c ∈ decimal n) : c.isDigit = true :=
  Nat.isDigit_of_mem_toDigits (by omega) (by omega) h

/-- The digits of a number are digit characters. -/
theorem digitChar_of_mem_toDigits {b : Nat} (hb : 1 < b) (h : c ∈ Nat.toDigits b n) :
    ∃ d : Nat, c = Nat.digitChar d := by
  induction n using Nat.strongRecOn with
  | ind n ih =>
      rw [Nat.toDigits_eq_if hb] at h
      split at h
      · exact ⟨n, List.mem_singleton.mp h⟩
      · next hge =>
        rcases List.mem_append.mp h with hquot | hlast
        · exact ih (n / b) (Nat.div_lt_self (by omega) hb) hquot
        · exact ⟨n % b, List.mem_singleton.mp hlast⟩

/-- Only zero begins with a zero. -/
theorem head_decimal (hn : 0 < n) : (decimal n).head? ≠ some '0' := by
  induction n using Nat.strongRecOn with
  | ind n ih =>
      by_cases hsmall : n < 10
      · rw [decimal, Nat.toDigits_of_lt_base hsmall]
        interval_cases n <;> decide
      · have hquot : 0 < n / 10 := by omega
        have hrest := ih (n / 10) (by omega) hquot
        rw [decimal, Nat.toDigits_of_base_le (by omega) (by omega),
          List.head?_append_of_ne_nil _ Nat.toDigits_ne_nil]
        exact hrest

/-! ## Fractions -/

/-- A number is rounded to the nearest integer, and to an even one where two
are equally near. -/
def halfEven (q : ℚ) : ℤ :=
  if q - ⌊q⌋ < 1 / 2 then ⌊q⌋
  else if 1 / 2 < q - ⌊q⌋ then ⌊q⌋ + 1
  else if ⌊q⌋ % 2 = 0 then ⌊q⌋ else ⌊q⌋ + 1

/-- Rounding does not pass an integer. -/
theorem halfEven_le {z : ℤ} (h : q ≤ z) : halfEven q ≤ z := by
  have hfloor : ⌊q⌋ ≤ z := by
    have hle := (Int.floor_le q).trans h
    exact_mod_cast hle
  unfold halfEven
  split
  · exact hfloor
  · next hfar =>
    have hlt : ⌊q⌋ < z := by
      refine lt_of_le_of_ne hfloor fun heq => hfar ?_
      rw [heq]
      linarith
    split
    · omega
    · split <;> omega

/-- The nearest number of single precision.  The exponents are not bounded. -/
def toSingle (q : ℚ) : ℚ :=
  if q = 0 then 0
  else halfEven (q / 2 ^ (Int.log 2 q - 23)) * 2 ^ (Int.log 2 q - 23)

/-- `%.1f` -/
def oneDecimal (q : ℚ) : List Char :=
  decimal ((halfEven (q * 10)).toNat / 10) ++
    '.' :: decimal ((halfEven (q * 10)).toNat % 10)

theorem length_oneDecimal_le (h : q ≤ 100) : (oneDecimal q).length ≤ 5 := by
  have hle : halfEven (q * 10) ≤ 1000 := by
    apply halfEven_le
    push_cast
    linarith
  have hwhole : (decimal ((halfEven (q * 10)).toNat / 10)).length ≤ 3 := by
    rw [length_decimal_le (by omega)]
    omega
  have htenth : (decimal ((halfEven (q * 10)).toNat % 10)).length ≤ 1 := by
    rw [length_decimal_le (by omega)]
    omega
  rw [oneDecimal, List.length_append, List.length_cons]
  omega

end FormattedText

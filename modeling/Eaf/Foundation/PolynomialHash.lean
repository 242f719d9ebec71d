import Mathlib.Data.Nat.Digits.Lemmas

/-!
# Polynomial hashes

A hash that multiplies by a constant and adds the next digit computes the
number that the digits denote in the base of this constant.  Modulo a number
that is coprime to the base, the seed can be told from the hash, and so can
two words that differ in one place only, as long as what stands there is small.
-/

namespace PolynomialHash

variable {k m b seed seed' : ℕ} {ds es front back : List ℕ}

/-- Multiply by `k` and add the next digit, beginning with `seed`. -/
def hash (k seed : ℕ) (ds : List ℕ) : ℕ :=
  ds.foldl (fun h d => h * k + d) seed

theorem hash_cons (k seed d : ℕ) (ds : List ℕ) :
    hash k seed (d :: ds) = hash k (seed * k + d) ds := rfl

theorem hash_append (k seed : ℕ) (ds es : List ℕ) :
    hash k seed (ds ++ es) = hash k (hash k seed ds) es := by
  simp [hash, List.foldl_append]

/-- The seed stands in front of the digits. -/
theorem hash_eq (k seed : ℕ) (ds : List ℕ) :
    hash k seed ds = seed * k ^ ds.length + Nat.ofDigits k ds.reverse := by
  induction ds generalizing seed with
  | nil => simp [hash]
  | cons d rest ih =>
      rw [hash_cons, ih, Nat.ofDigits_reverse_cons, List.length_cons, pow_succ]
      ring

/-- The seed can be told from the hash. -/
theorem hash_modEq_iff (hk : Nat.Coprime k m) :
    hash k seed ds ≡ hash k seed' ds [MOD m] ↔ seed ≡ seed' [MOD m] := by
  have hpow : Nat.gcd m (k ^ ds.length) = 1 := (hk.pow_left ds.length).symm
  rw [hash_eq, hash_eq]
  constructor
  · intro h
    exact Nat.ModEq.cancel_right_of_coprime hpow (Nat.ModEq.add_right_cancel' _ h)
  · intro h
    exact (h.mul_right _).add_right _

/-- A number whose digits are at most `b`, in terms of a geometric sum. -/
theorem ofDigits_mul_le (h : ∀ d ∈ ds, d ≤ b) :
    Nat.ofDigits (k + 1) ds * k + b ≤ b * (k + 1) ^ ds.length := by
  induction ds with
  | nil => simp
  | cons d rest ih =>
      have hd := h d List.mem_cons_self
      have hrest := ih fun d' hd' => h d' (List.mem_cons_of_mem _ hd')
      rw [Nat.ofDigits_cons, List.length_cons, pow_succ]
      -- the geometric sum of the rest, times the base, and the new digit
      calc (d + (k + 1) * Nat.ofDigits (k + 1) rest) * k + b
          = d * k + b + (k + 1) * (Nat.ofDigits (k + 1) rest * k) := by ring
        _ ≤ b * k + b + (k + 1) * (Nat.ofDigits (k + 1) rest * k) := by
            have hdk := Nat.mul_le_mul_right k hd
            omega
        _ = (k + 1) * (Nat.ofDigits (k + 1) rest * k + b) := by ring
        _ ≤ (k + 1) * (b * (k + 1) ^ rest.length) := Nat.mul_le_mul_left _ hrest
        _ = b * ((k + 1) ^ rest.length * (k + 1)) := by ring

/-- Two words that differ in a window of small values have different hashes. -/
theorem hash_window_ne (hk : Nat.Coprime k m) (hbase : 1 < k)
    (hlength : ds.length = es.length) (hne : ds ≠ es)
    (hds : ∀ d ∈ ds, d < k) (hes : ∀ d ∈ es, d < k)
    (hdm : Nat.ofDigits k ds.reverse < m) (hem : Nat.ofDigits k es.reverse < m) :
    ¬ hash k seed (front ++ ds ++ back) ≡ hash k seed (front ++ es ++ back) [MOD m] := by
  intro h
  rw [hash_append, hash_append _ _ (front ++ es), hash_append, hash_append _ _ front,
    hash_modEq_iff hk, hash_eq _ _ ds, hash_eq _ _ es, hlength] at h
  -- the digits before the window count alike, so the windows denote one number
  have hvalue : Nat.ofDigits k ds.reverse = Nat.ofDigits k es.reverse :=
    (Nat.ModEq.add_left_cancel' _ h).eq_of_lt_of_lt hdm hem
  have hreverse := Nat.ofDigits_inj_of_len_eq hbase (by simp [hlength])
    (fun d hd => hds d (List.mem_reverse.mp hd))
    (fun d hd => hes d (List.mem_reverse.mp hd)) hvalue
  exact hne (List.reverse_injective hreverse)

end PolynomialHash

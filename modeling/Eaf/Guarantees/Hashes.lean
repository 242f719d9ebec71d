import Eaf.Powerpack.Hash

/-!
# What the hashes tell apart

A hash can be computed piece by piece, and the short hash is the low half of
the long one.  Different seeds give different hashes, and so do data that
differ in a few neighbouring bytes only.
-/

namespace Eaf
namespace Powerpack

open PolynomialHash

variable {front window window' back : List UInt8}

/-- **The hashes compose.**  The hash of two pieces is the hash of the second
with the hash of the first as its seed, the short hash is the long one cut to
32 bits, and no two seeds give the same hash. -/
theorem hashes_compose (data more : List UInt8) :
    (∀ seed, eafHash32Bkdr (data ++ more) seed =
      eafHash32Bkdr more (eafHash32Bkdr data seed)) ∧
    (∀ seed, eafHash64Bkdr (data ++ more) seed =
      eafHash64Bkdr more (eafHash64Bkdr data seed)) ∧
    (∀ seed : UInt64, (eafHash64Bkdr data seed).toUInt32 =
      eafHash32Bkdr data seed.toUInt32) ∧
    Function.Injective (eafHash32Bkdr data) ∧
    Function.Injective (eafHash64Bkdr data) := by
  refine ⟨fun seed => List.foldl_append, fun seed => List.foldl_append,
    fun seed => ?_, fun seed seed' h => ?_, fun seed seed' h => ?_⟩
  · -- both are the polynomial of the data, modulo `2 ^ 32`
    have hlong : (eafHash64Bkdr data seed).toNat ≡
        hash 131313 seed.toNat (digits data) [MOD 2 ^ 32] :=
      (hash64_modEq data seed).of_dvd (pow_dvd_pow 2 (by omega))
    have hseed : seed.toUInt32.toNat ≡ seed.toNat [MOD 2 ^ 32] := by
      rw [UInt64.toNat_toUInt32]
      exact Nat.mod_modEq _ _
    have hshort : (eafHash32Bkdr data seed.toUInt32).toNat ≡
        hash 131313 seed.toNat (digits data) [MOD 2 ^ 32] :=
      (hash32_modEq data _).trans ((hash_modEq_iff (coprime_multiplier 32)).mpr hseed)
    apply UInt32.toNat_inj.mp
    rw [UInt64.toNat_toUInt32]
    exact ((Nat.mod_modEq _ _).trans (hlong.trans hshort.symm)).eq_of_lt_of_lt
      (Nat.mod_lt _ (by omega)) (UInt32.toNat_lt _)
  · have hmod := (hash32_modEq data seed).symm.trans
      ((congrArg UInt32.toNat h) ▸ hash32_modEq data seed')
    apply UInt32.toNat_inj.mp
    exact ((hash_modEq_iff (coprime_multiplier 32)).mp hmod).eq_of_lt_of_lt
      seed.toNat_lt seed'.toNat_lt
  · have hmod := (hash64_modEq data seed).symm.trans
      ((congrArg UInt64.toNat h) ▸ hash64_modEq data seed')
    apply UInt64.toNat_inj.mp
    exact ((hash_modEq_iff (coprime_multiplier 64)).mp hmod).eq_of_lt_of_lt
      seed.toNat_lt seed'.toNat_lt

/-- The number that a few bytes denote in the base of the multiplier. -/
theorem window_lt {n w : ℕ} (hlength : window.length ≤ n)
    (hsmall : 255 * 131313 ^ n < 2 ^ w * 131312) :
    Nat.ofDigits 131313 (digits window).reverse < 2 ^ w := by
  have hsum : Nat.ofDigits 131313 (digits window).reverse * 131312 + 255 ≤
      255 * 131313 ^ (digits window).reverse.length :=
    ofDigits_mul_le (k := 131312) fun d hd => mem_digits (List.mem_reverse.mp hd)
  rw [List.length_reverse, length_digits] at hsum
  have hpow : 255 * 131313 ^ window.length ≤ 255 * 131313 ^ n :=
    Nat.mul_le_mul_left _ (Nat.pow_le_pow_right (by omega) hlength)
  have hlt : Nat.ofDigits 131313 (digits window).reverse * 131312 < 2 ^ w * 131312 := by
    omega
  exact Nat.lt_of_mul_lt_mul_right hlt

/-- The polynomials of two windows in the same place differ. -/
theorem windows_ne {n w : ℕ} (seed : ℕ) (hlength : window.length = window'.length)
    (hne : window ≠ window') (hshort : window.length ≤ n)
    (hsmall : 255 * 131313 ^ n < 2 ^ w * 131312) :
    ¬ hash 131313 seed (digits (front ++ window ++ back)) ≡
      hash 131313 seed (digits (front ++ window' ++ back)) [MOD 2 ^ w] := by
  simp only [digits_append]
  have hbase : ∀ {data : List UInt8} (d : ℕ), d ∈ digits data → d < 131313 := by
    intro data d hd
    have hle := mem_digits hd
    omega
  apply hash_window_ne (coprime_multiplier w) (by omega)
  · rw [length_digits, length_digits, hlength]
  · exact fun h => hne (digits_injective h)
  · exact hbase
  · exact hbase
  · exact window_lt hshort hsmall
  · exact window_lt (hlength ▸ hshort) hsmall

/-- **Short changes are detected.**  Data of one length that differ in nothing
but two neighbouring bytes never have the same short hash, and data that differ
in nothing but four neighbouring bytes never have the same long hash. -/
theorem bursts_detected (hlength : window.length = window'.length)
    (hne : window ≠ window') :
    (window.length ≤ 2 → ∀ seed,
      eafHash32Bkdr (front ++ window ++ back) seed ≠
        eafHash32Bkdr (front ++ window' ++ back) seed) ∧
    (window.length ≤ 4 → ∀ seed,
      eafHash64Bkdr (front ++ window ++ back) seed ≠
        eafHash64Bkdr (front ++ window' ++ back) seed) := by
  constructor
  · intro hshort seed h
    have hmod := (hash32_modEq (front ++ window ++ back) seed).symm.trans
      ((congrArg UInt32.toNat h) ▸ hash32_modEq (front ++ window' ++ back) seed)
    exact windows_ne seed.toNat hlength hne hshort (by norm_num) hmod
  · intro hshort seed h
    have hmod := (hash64_modEq (front ++ window ++ back) seed).symm.trans
      ((congrArg UInt64.toNat h) ▸ hash64_modEq (front ++ window' ++ back) seed)
    exact windows_ne seed.toNat hlength hne hshort (by norm_num) hmod

/-- Two bytes in the middle are exchanged. -/
theorem bursts_detected_swap :
    eafHash32Bkdr [104, 101, 108, 112] 0 ≠ eafHash32Bkdr [104, 108, 101, 112] 0 :=
  (@bursts_detected [104] [101, 108] [108, 101] [112] rfl (by decide)).1 (by decide) 0

end Powerpack
end Eaf

import Mathlib.Data.UInt
import Eaf.Foundation.PolynomialHash

/-!
# Hashes

`eaf_hash32_bkdr` and `eaf_hash64_bkdr` of `hash.c`.  Both multiply by the same
constant, one modulo `2 ^ 32` and the other modulo `2 ^ 64`.
-/

namespace Eaf
namespace Powerpack

open PolynomialHash

/-- `eaf_hash32_bkdr` -/
def eafHash32Bkdr (data : List UInt8) (seed : UInt32) : UInt32 :=
  data.foldl (fun seed byte => seed * 131313 + byte.toUInt32) seed

/-- `eaf_hash64_bkdr` -/
def eafHash64Bkdr (data : List UInt8) (seed : UInt64) : UInt64 :=
  data.foldl (fun seed byte => seed * 131313 + byte.toUInt64) seed

/-- The numbers that the bytes are. -/
def digits (data : List UInt8) : List ℕ := data.map UInt8.toNat

theorem digits_cons (byte : UInt8) (data : List UInt8) :
    digits (byte :: data) = byte.toNat :: digits data := rfl

theorem digits_append (data more : List UInt8) :
    digits (data ++ more) = digits data ++ digits more :=
  List.map_append

theorem length_digits (data : List UInt8) : (digits data).length = data.length :=
  List.length_map _

theorem digits_injective : Function.Injective digits :=
  List.map_injective_iff.mpr fun _ _ h => UInt8.toNat_inj.mp h

theorem mem_digits {data : List UInt8} {d : ℕ} (hd : d ∈ digits data) : d ≤ 255 := by
  obtain ⟨byte, -, rfl⟩ := List.mem_map.mp hd
  have hlt := byte.toNat_lt
  omega

/-- The multiplier is odd. -/
theorem coprime_multiplier (w : ℕ) : Nat.Coprime 131313 (2 ^ w) :=
  Nat.Coprime.pow_right w (by decide)

theorem hash32_cons (byte : UInt8) (data : List UInt8) (seed : UInt32) :
    eafHash32Bkdr (byte :: data) seed =
      eafHash32Bkdr data (seed * 131313 + byte.toUInt32) := by
  unfold eafHash32Bkdr
  exact List.foldl_cons ..

/-- The hash is computed modulo `2 ^ 32`. -/
theorem hash32_modEq (data : List UInt8) (seed : UInt32) :
    (eafHash32Bkdr data seed).toNat ≡ hash 131313 seed.toNat (digits data) [MOD 2 ^ 32] := by
  induction data generalizing seed with
  | nil => rfl
  | cons byte rest ih =>
      have hstep : (seed * 131313 + byte.toUInt32).toNat ≡
          seed.toNat * 131313 + byte.toNat [MOD 2 ^ 32] := by
        simp [Nat.ModEq, UInt32.toNat_add, UInt32.toNat_mul]
      rw [digits_cons, hash_cons, hash32_cons]
      calc (eafHash32Bkdr rest (seed * 131313 + byte.toUInt32)).toNat
          ≡ hash 131313 (seed * 131313 + byte.toUInt32).toNat (digits rest)
              [MOD 2 ^ 32] := ih _
        _ ≡ hash 131313 (seed.toNat * 131313 + byte.toNat) (digits rest)
              [MOD 2 ^ 32] := (hash_modEq_iff (coprime_multiplier _)).mpr hstep

theorem hash64_cons (byte : UInt8) (data : List UInt8) (seed : UInt64) :
    eafHash64Bkdr (byte :: data) seed =
      eafHash64Bkdr data (seed * 131313 + byte.toUInt64) := by
  unfold eafHash64Bkdr
  exact List.foldl_cons ..

/-- The hash is computed modulo `2 ^ 64`. -/
theorem hash64_modEq (data : List UInt8) (seed : UInt64) :
    (eafHash64Bkdr data seed).toNat ≡ hash 131313 seed.toNat (digits data) [MOD 2 ^ 64] := by
  induction data generalizing seed with
  | nil => rfl
  | cons byte rest ih =>
      have hstep : (seed * 131313 + byte.toUInt64).toNat ≡
          seed.toNat * 131313 + byte.toNat [MOD 2 ^ 64] := by
        simp [Nat.ModEq, UInt64.toNat_add, UInt64.toNat_mul]
      rw [digits_cons, hash_cons, hash64_cons]
      calc (eafHash64Bkdr rest (seed * 131313 + byte.toUInt64)).toNat
          ≡ hash 131313 (seed * 131313 + byte.toUInt64).toNat (digits rest)
              [MOD 2 ^ 64] := ih _
        _ ≡ hash 131313 (seed.toNat * 131313 + byte.toNat) (digits rest)
              [MOD 2 ^ 64] := (hash_modEq_iff (coprime_multiplier _)).mpr hstep

end Powerpack
end Eaf

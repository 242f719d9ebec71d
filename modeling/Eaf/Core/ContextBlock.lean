import Mathlib.Algebra.Order.BigOperators.Group.List
import Mathlib.Algebra.Order.Group.Nat
import Eaf.Core.Layout
import Eaf.Foundation.Regions

/-!
# The block behind the context

`eaf_init` asks for one block of memory.  The context comes first, then the
table of the pointers to the groups, then the groups, each with the array of
its services at the end.  `_eaf_init_calculate_malloc_size` adds the sizes up,
and `_eaf_init_fix_address` writes the addresses.  The arithmetic is that of
`size_t`.
-/

namespace Eaf
namespace Core

/-- The largest `size_t`. -/
def sizeMax : Nat := 2 ^ 64 - 1

/-- A result of the arithmetic of `size_t`. -/
def toSize (n : Nat) : Nat := n % 2 ^ 64

theorem toSize_of_le {n : Nat} (h : n ≤ sizeMax) : toSize n = n := by
  unfold sizeMax at h
  exact Nat.mod_eq_of_lt (by omega)

/-- What the compiler knows of the types: their sizes, and where the two
fields of `eaf_ctx_t` are that `_eaf_init_fix_address` sets. -/
structure Abi where
  /-- `sizeof(size_t)` -/
  sizeT : Nat
  /-- `sizeof(eaf_group_t*)` -/
  pointer : Nat
  /-- `sizeof(eaf_ctx_t)` -/
  ctx : Nat
  /-- `sizeof(eaf_group_t)` -/
  group : Nat
  /-- `sizeof(eaf_service_t)` -/
  service : Nat
  /-- `offsetof(eaf_ctx_t, group.size)` -/
  groupSizeAt : Nat
  /-- `offsetof(eaf_ctx_t, group.table)` -/
  groupTableAt : Nat
  pointer_pos : 0 < pointer
  groupSize_inside : groupSizeAt + sizeT ≤ ctx
  groupTable_inside : groupTableAt + pointer ≤ ctx

/-- A store of `width` bytes. -/
structure Store where
  address : Nat
  width : Nat
  value : Nat
  deriving DecidableEq, Repr

/-- The bytes that a store writes. -/
def Store.region (s : Store) : Region := ⟨s.address, s.width⟩

namespace Abi

variable (Z : Abi)

/-- `_eaf_init_calculate_malloc_size` -/
def calculateMallocSize (info : List GroupTable) : Nat :=
  info.foldl
    (fun mallocSize c =>
      toSize (mallocSize + toSize (Z.group + toSize (Z.service * c.size))))
    (toSize (Z.ctx + toSize (Z.pointer * info.length)))

/-- The loop of `_eaf_init_fix_address` from `i` on, where `prev` is the
address in `table[i - 1]` and the list starts with `info[i - 1]`. -/
def fixAddressLoop (table : Nat) : Nat → Nat → List GroupTable → List Store
  | i, prev, c :: d :: rest =>
      let next := prev + Z.group + toSize (Z.service * c.size)
      ⟨table + Z.pointer * i, Z.pointer, next⟩ ::
        fixAddressLoop table (i + 1) next (d :: rest)
  | _, _, _ => []

/-- `g_eaf_ctx + 1` -/
def table (base : Nat) : Nat := base + Z.ctx

/-- The address of the first group. -/
def firstGroup (base : Nat) (info : List GroupTable) : Nat :=
  Z.table base + toSize (Z.pointer * info.length)

/-- `_eaf_init_fix_address` for a context at `base`: its stores, in order. -/
def fixAddress (base : Nat) (info : List GroupTable) : List Store :=
  ⟨base + Z.groupSizeAt, Z.sizeT, info.length⟩ ::
  ⟨base + Z.groupTableAt, Z.pointer, Z.table base⟩ ::
  -- without a test that the table has an element
  ⟨Z.table base, Z.pointer, Z.firstGroup base info⟩ ::
  Z.fixAddressLoop (Z.table base) 1 (Z.firstGroup base info) info

/-- What a group takes up at an address: header and service array. -/
def groupRegion (address : Nat) (c : GroupTable) : Region :=
  ⟨address, Z.group + Z.service * c.size⟩

/-- The regions that the stores set up: the pointer table, and for every group
the block at the address in its element of the table. -/
def regions (base : Nat) (info : List GroupTable) : List Region :=
  ⟨Z.table base, Z.pointer * info.length⟩ ::
    List.zipWith Z.groupRegion
      (((Z.fixAddress base info).drop 2).map Store.value) info

/-- The size that the table needs, without wrap-around. -/
def required (info : List GroupTable) : Nat :=
  Z.ctx + Z.pointer * info.length +
    (info.map fun c => Z.group + Z.service * c.size).sum

end Abi

/-! ## The size and the addresses -/

section Addresses

variable {Z : Abi} {info : List GroupTable} {c : GroupTable}
  {base table i prev : Nat}

open Region

/-- The loop of `_eaf_init_calculate_malloc_size` adds up as long as nothing
wraps around. -/
theorem foldl_mallocSize {acc : Nat}
    (h : acc + (info.map fun c => Z.group + Z.service * c.size).sum ≤
      sizeMax) :
    info.foldl
        (fun mallocSize c =>
          toSize (mallocSize + toSize (Z.group + toSize (Z.service * c.size))))
        acc =
      acc + (info.map fun c => Z.group + Z.service * c.size).sum := by
  induction info generalizing acc with
  | nil => simp
  | cons c rest ih =>
      rw [List.map_cons, List.sum_cons] at h ⊢
      rw [List.foldl_cons, toSize_of_le (n := Z.service * c.size) (by omega),
        toSize_of_le (n := Z.group + Z.service * c.size) (by omega),
        toSize_of_le (by omega), ih (by omega)]
      omega

theorem Abi.calculateMallocSize_eq (h : Z.required info ≤ sizeMax) :
    Z.calculateMallocSize info = Z.required info := by
  unfold Abi.required at h ⊢
  unfold Abi.calculateMallocSize
  rw [toSize_of_le (n := Z.pointer * info.length) (by omega),
    toSize_of_le (by omega), foldl_mallocSize h]

/-- The part of a service array in the required size. -/
theorem Abi.service_le_required (hc : c ∈ info) :
    Z.service * c.size ≤ Z.required info := by
  have hle : Z.group + Z.service * c.size ≤
      (info.map fun c => Z.group + Z.service * c.size).sum :=
    List.le_sum_of_mem (List.mem_map_of_mem hc)
  unfold Abi.required
  omega

/-- The groups follow each other from the address of the first one. -/
theorem Abi.consecutive_groups
    (h : ∀ c ∈ info, Z.service * c.size ≤ sizeMax) :
    Consecutive prev
      (List.zipWith Z.groupRegion
        (prev :: (Z.fixAddressLoop table i prev info).map Store.value)
        info) := by
  induction info generalizing i prev with
  | nil => trivial
  | cons c rest ih =>
      cases rest with
      | nil => exact ⟨rfl, trivial⟩
      | cons d rest =>
          have hnext : prev + Z.group + toSize (Z.service * c.size) =
              (Z.groupRegion prev c).finish := by
            rw [toSize_of_le (h c (by simp))]
            show _ = prev + (Z.group + Z.service * c.size)
            omega
          refine ⟨rfl, ?_⟩
          rw [← hnext]
          exact ih (i := i + 1) fun e he => h e (List.mem_cons_of_mem _ he)

/-- The loop writes elements of the pointer table only. -/
theorem Abi.mem_fixAddressLoop {s : Store} {rest : List GroupTable}
    (hs : s ∈ Z.fixAddressLoop table i prev (c :: rest)) :
    s.region.Inside table (table + Z.pointer * (i + rest.length)) := by
  induction rest generalizing c i prev with
  | nil => cases hs
  | cons d rest ih =>
      rw [Abi.fixAddressLoop] at hs
      rcases List.mem_cons.mp hs with rfl | hs
      · have hle : Z.pointer * (i + 1) ≤
            Z.pointer * (i + (d :: rest).length) :=
          Nat.mul_le_mul_left _ (by simp)
        constructor
        · exact Nat.le_add_right _ _
        · show table + Z.pointer * i + Z.pointer ≤ _
          rw [Nat.mul_add, Nat.mul_one] at hle
          omega
      · have hbound : i + 1 + rest.length = i + (d :: rest).length := by
          rw [List.length_cons]
          omega
        rw [← hbound]
        exact ih hs

theorem Abi.total_groups {addresses : List Nat}
    (h : info.length ≤ addresses.length) :
    total (List.zipWith Z.groupRegion addresses info) =
      (info.map fun c => Z.group + Z.service * c.size).sum := by
  induction info generalizing addresses with
  | nil => simp
  | cons c rest ih =>
      cases addresses with
      | nil => simp at h
      | cons a more =>
          rw [List.zipWith_cons_cons, total_cons, List.map_cons, List.sum_cons,
            ih (by simpa using h)]
          rfl

theorem Abi.length_fixAddressLoop :
    (Z.fixAddressLoop table i prev info).length = info.length - 1 := by
  induction info generalizing i prev with
  | nil => rfl
  | cons c rest ih =>
      cases rest with
      | nil => rfl
      | cons d rest =>
          rw [Abi.fixAddressLoop, List.length_cons, ih]
          simp

end Addresses

end Core
end Eaf

import Eaf.Core.ContextBlock

/-!
# Everything is inside the block

For a table with groups, the pointer table and the groups fill the block
behind the context without a gap.  For a table without groups the block ends
with the context, but the address of a first group is stored all the same.
-/

namespace Eaf
namespace Core

open Region

/-- What `_eaf_init_fix_address` has to do with the block at `base`. -/
structure Abi.WellPlaced (Z : Abi) (base : Nat) (info : List GroupTable) :
    Prop where
  /-- the pointer table and a block for every group -/
  complete : (Z.regions base info).length = info.length + 1
  consecutive : Consecutive (Z.table base) (Z.regions base info)
  apart : (Z.regions base info).Pairwise Apart
  inside : ∀ r ∈ Z.regions base info,
    r.Inside base (base + Z.calculateMallocSize info)
  stores : ∀ s ∈ Z.fixAddress base info,
    s.region.Inside base (base + Z.calculateMallocSize info)

section Placement

variable {Z : Abi} {base : Nat} {info : List GroupTable}

theorem Abi.consecutive_regions (h : Z.required info ≤ sizeMax) :
    Consecutive (Z.table base) (Z.regions base info) := by
  refine ⟨rfl, ?_⟩
  have hfirst : Z.firstGroup base info =
      Region.finish ⟨Z.table base, Z.pointer * info.length⟩ := by
    unfold Abi.required at h
    rw [Abi.firstGroup, toSize_of_le (by omega)]
    rfl
  rw [← hfirst]
  exact Abi.consecutive_groups fun c hc =>
    (Abi.service_le_required hc).trans h

theorem Abi.total_regions :
    Z.ctx + total (Z.regions base info) = Z.required info := by
  unfold Abi.regions Abi.fixAddress
  rw [total_cons, Abi.total_groups]
  · show Z.ctx + (Z.pointer * info.length + _) = _
    unfold Abi.required
    omega
  · simp only [List.drop_succ_cons, List.drop_zero, List.map_cons,
      List.length_cons, List.length_map, Abi.length_fixAddressLoop]
    omega

theorem Abi.inside_regions {r : Region} (h : Z.required info ≤ sizeMax)
    (hr : r ∈ Z.regions base info) :
    r.Inside base (base + Z.calculateMallocSize info) := by
  obtain ⟨hlo, hhi⟩ := (Abi.consecutive_regions h).inside hr
  have htotal : Z.ctx + total (Z.regions base info) = Z.required info :=
    Z.total_regions
  rw [Abi.calculateMallocSize_eq h]
  unfold Abi.table at hlo hhi
  constructor
  · omega
  · omega

/-- The store to the first element is inside the block only if there is a
first element. -/
theorem Abi.firstStore_inside (h : Z.required [] ≤ sizeMax) :
    ¬Region.Inside ⟨Z.table base, Z.pointer⟩ base
      (base + Z.calculateMallocSize []) := by
  rintro ⟨-, hhi⟩
  have hpos := Z.pointer_pos
  rw [Abi.calculateMallocSize_eq h] at hhi
  change base + Z.ctx + Z.pointer ≤ base + (Z.ctx + 0 + 0) at hhi
  omega

theorem Abi.stores_inside {s : Store} (h : Z.required info ≤ sizeMax)
    (hne : info ≠ []) (hs : s ∈ Z.fixAddress base info) :
    s.region.Inside base (base + Z.calculateMallocSize info) := by
  rw [Abi.calculateMallocSize_eq h]
  obtain ⟨c, rest, rfl⟩ := List.exists_cons_of_ne_nil hne
  have hrequired : Z.ctx + Z.pointer * (1 + rest.length) ≤
      Z.required (c :: rest) := by
    unfold Abi.required
    rw [List.length_cons, Nat.add_comm rest.length 1]
    omega
  have hfirst : Z.pointer ≤ Z.pointer * (1 + rest.length) :=
    Nat.le_mul_of_pos_right _ (by omega)
  have hsize := Z.groupSize_inside
  have htable := Z.groupTable_inside
  simp only [Abi.fixAddress, List.mem_cons] at hs
  obtain rfl | rfl | rfl | hs := hs
  · constructor
    · exact Nat.le_add_right _ _
    · show base + Z.groupSizeAt + Z.sizeT ≤ _
      omega
  · constructor
    · exact Nat.le_add_right _ _
    · show base + Z.groupTableAt + Z.pointer ≤ _
      omega
  · constructor
    · exact Nat.le_add_right _ _
    · show base + Z.ctx + Z.pointer ≤ _
      omega
  · obtain ⟨hlo, hhi⟩ := Abi.mem_fixAddressLoop hs
    unfold Abi.table at hlo hhi
    constructor
    · omega
    · omega

/-- **The block behind the context.**  Where the required size is a `size_t`,
the pointer table and the groups are consecutive, disjoint and inside the
block, and so is every store, exactly if there is a group. -/
theorem context_block_iff (h : Z.required info ≤ sizeMax) :
    Z.WellPlaced base info ↔ info ≠ [] := by
  constructor
  · rintro hplaced rfl
    exact Abi.firstStore_inside h (hplaced.stores
      ⟨Z.table base, Z.pointer, Z.firstGroup base []⟩
      (by simp [Abi.fixAddress]))
  · intro hne
    have hconsecutive : Consecutive (Z.table base) (Z.regions base info) :=
      Z.consecutive_regions h
    refine ⟨?_, hconsecutive, hconsecutive.pairwise, ?_, ?_⟩
    · have hpos := List.length_pos_iff.mpr hne
      simp only [Abi.regions, Abi.fixAddress, List.drop_succ_cons,
        List.drop_zero, List.map_cons, List.length_cons, List.length_zipWith,
        List.length_map, Abi.length_fixAddressLoop]
      omega
    · exact fun r hr => Abi.inside_regions h hr
    · exact fun s hs => Abi.stores_inside h hne hs

/-- An ABI with pointers of eight bytes. -/
def wideAbi : Abi where
  sizeT := 8
  pointer := 8
  ctx := 96
  group := 176
  service := 104
  groupSizeAt := 72
  groupTableAt := 80
  pointer_pos := by decide
  groupSize_inside := by decide
  groupTable_inside := by decide

/-- A group with two services and one without. -/
theorem context_block_two_groups :
    wideAbi.required [⟨[.none, .none]⟩, ⟨[]⟩] ≤ sizeMax ∧
      wideAbi.WellPlaced 4096 [⟨[.none, .none]⟩, ⟨[]⟩] := by
  have hsize : wideAbi.required [⟨[.none, .none]⟩, ⟨[]⟩] ≤ sizeMax := by
    decide
  exact ⟨hsize, (context_block_iff hsize).mpr (by simp)⟩

/-- For an empty table, the address of the first group is stored behind the
block. -/
theorem empty_table_store_outside :
    wideAbi.required [] ≤ sizeMax ∧ ¬wideAbi.WellPlaced 4096 [] := by
  have hsize : wideAbi.required [] ≤ sizeMax := by decide
  refine ⟨hsize, fun hplaced => ?_⟩
  have hout : ∃ s ∈ wideAbi.fixAddress 4096 [],
      ¬s.region.Inside 4096 (4096 + wideAbi.calculateMallocSize []) := by
    decide
  obtain ⟨s, hs, hnot⟩ := hout
  exact hnot (hplaced.stores s hs)

end Placement

end Core
end Eaf

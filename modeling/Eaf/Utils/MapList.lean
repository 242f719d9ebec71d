import Eaf.Foundation.SortedMap
import Eaf.Utils.MapTrees

/-!
# Maps are sorted maps

What the functions of `map.c` do to the list of the nodes: insertion and
erasure are those of a sorted map, with the comparison function of the map.
-/

namespace Eaf
namespace Utils

open RedBlack Core

variable {K : Type*} [LinearOrder K] {order : Comparison K}
  {handler : EafMap} {n : Ptr} {T : RedBlack.Tree Ptr}

/-- A comparison function that orders nodes by their keys is consistent. -/
theorem Comparison.consistent (order : Comparison K) :
    SortedMap.Consistent order.cmp :=
  .of_key order.key order.neg_iff order.pos_iff

namespace EafMap.Shows

theorem sorted_nodes (h : handler.Shows order.key T) :
    SortedMap.Sorted order.cmp T.toList :=
  List.Pairwise.imp (fun {a b} => (order.neg_iff a b).mpr) h.sorted

/-- `eaf_map_insert` on the list of the nodes. -/
theorem insert_nodes (h : handler.Shows order.key T) (hn : NodeAddress n)
    (hfresh : n ∉ T.toList) :
    match SortedMap.insert order.cmp n T.toList with
    | none => eafMapInsert order.cmp handler n =
        some (handler, Errno.duplicate)
    | some nodes => ∃ handler' T', eafMapInsert order.cmp handler n =
        some (handler', Errno.success) ∧ handler'.Shows order.key T' ∧
        T'.toList = nodes := by
  have hcmp := order.consistent
  rcases h.insert hn hfresh with ⟨⟨b, hb, hkey⟩, hres⟩ |
    ⟨handler', T', before, after, hres, h', hold, hnew, hlow, hhigh⟩
  · have hequal : order.cmp n b = 0 := by
      have hneg := (order.neg_iff n b).not.mpr hkey.not_gt
      have hpos := (order.pos_iff n b).not.mpr hkey.not_lt
      omega
    rw [h.sorted_nodes.insert_eq_none hcmp hb hequal]
    exact hres
  · have hnew' : ∀ b ∈ T.toList, order.cmp n b ≠ 0 := by
      intro b hb hzero
      have hneg := (order.neg_iff n b).not.mp (by omega)
      have hpos := (order.pos_iff n b).not.mp (by omega)
      rw [hold] at hb
      rcases List.mem_append.mp hb with hb | hb
      · exact hpos (hlow b hb)
      · exact hneg (hhigh b hb)
    obtain ⟨nodes, hnodes, hsorted, hperm⟩ :=
      h.sorted_nodes.insert hcmp hnew'
    rw [hnodes]
    refine ⟨handler', T', hres, h',
      h'.sorted_nodes.eq_of_perm hcmp hsorted ?_⟩
    rw [hnew]
    rw [hold] at hperm
    exact List.perm_middle.trans hperm.symm

/-- `eaf_map_erase` on the list of the nodes. -/
theorem erase_nodes (h : handler.Shows order.key T) (hn : n ∈ T.toList) :
    ∃ handler' T', eafMapErase handler n = some handler' ∧
      handler'.Shows order.key T' ∧ T'.toList = T.toList.erase n := by
  obtain ⟨handler', T', before, after, hres, h', hold, hnew⟩ := h.erase hn
  refine ⟨handler', T', hres, h', ?_⟩
  have hnodup := h.sorted_nodes.nodup order.consistent
  rw [hold] at hnodup ⊢
  have hbefore : n ∉ before := by
    intro hmem
    rw [List.nodup_append] at hnodup
    exact hnodup.2.2 n hmem n List.mem_cons_self rfl
  rw [hnew, List.erase_append_right _ hbefore, List.erase_cons_head]

/-- The map stays what it is when the nodes keep their keys. -/
theorem congr {K' : Type*} [LinearOrder K'] {key : Ptr → K} {key' : Ptr → K'}
    (h : handler.Shows key T) (hsame : ∀ a ∈ T.toList, ∀ b ∈ T.toList,
      key a < key b → key' a < key' b) : handler.Shows key' T where
  mem := h.mem
  size := h.size
  sorted := by
    refine List.Pairwise.imp_of_mem ?_ h.sorted
    exact fun {a b} ha hb => hsame a ha b hb
  balanced := h.balanced

end EafMap.Shows

end Utils
end Eaf

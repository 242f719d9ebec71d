import Eaf.Utils.MapTrees

/-!
# Maps are sorted and balanced

Whatever is put into a map and taken out of it, the nodes lie in the order of
their keys, and the tree they form is a red-black tree.
-/

namespace Eaf
namespace Utils

open RedBlack Core

variable {K : Type*} [LinearOrder K]

/-- **Maps are sorted.**  At every moment the nodes are in the order of their
keys, they are counted, and their pointers agree.  The insertion of a node
whose key is there is refused and changes nothing, any other puts the node at
its place in the order, and an erasure takes out the node and nothing else. -/
theorem map_sorted (order : Comparison K) {node : Ptr → MapLowNode}
    {tr : List (MapOp × Int)} {handler : EafMap}
    (h : MapRun order.cmp node tr handler) :
    handler.nodes.Pairwise (fun a b => order.key a < order.key b) ∧
    handler.size = handler.nodes.length ∧
    handler.ParentsAgree ∧
    (∀ n, NodeAddress n → n ∉ handler.nodes →
      if ∃ b ∈ handler.nodes, order.key b = order.key n then
        eafMapInsert order.cmp handler n = some (handler, Errno.duplicate)
      else ∃ handler' before after,
        eafMapInsert order.cmp handler n = some (handler', Errno.success) ∧
        handler.nodes = before ++ after ∧
        handler'.nodes = before ++ n :: after ∧
        (∀ b ∈ before, order.key b < order.key n) ∧
        ∀ b ∈ after, order.key n < order.key b) ∧
    ∀ n ∈ handler.nodes, ∃ handler' before after,
      eafMapErase handler n = some handler' ∧
      handler.nodes = before ++ n :: after ∧
      handler'.nodes = before ++ after := by
  obtain ⟨T, hT⟩ := h.shows
  refine ⟨?_, ?_, hT.parentsAgree, fun n hn hfresh => ?_, fun n hn => ?_⟩
  · rw [hT.nodes]
    exact hT.sorted
  · rw [hT.nodes]
    exact hT.size
  · rw [hT.nodes] at hfresh ⊢
    rcases hT.insert hn hfresh with
      ⟨hdup, hres⟩ | ⟨handler', T', before, after, hres, hT', hold, hnew, hlow,
        hhigh⟩
    · rw [if_pos hdup]
      exact hres
    · rw [if_neg]
      · exact ⟨handler', before, after, hres, hold, hT'.nodes.trans hnew, hlow,
          hhigh⟩
      · rintro ⟨b, hb, hkey⟩
        rw [hold] at hb
        rcases List.mem_append.mp hb with hb | hb
        · exact (hlow b hb).ne hkey
        · exact (hhigh b hb).ne' hkey
  · rw [hT.nodes] at hn ⊢
    obtain ⟨handler', T', before, after, hres, hT', hold, hnew⟩ := hT.erase hn
    exact ⟨handler', before, after, hres, hold, hT'.nodes.trans hnew⟩

/-- **Maps are balanced.**  At every moment the root is black, no red node has
a red child, all ways down pass as many black nodes, and so the height is at
most twice the logarithm of the number of nodes.  No call follows a null
pointer or runs out of turns. -/
theorem map_balanced (order : Comparison K) {node : Ptr → MapLowNode}
    {tr : List (MapOp × Int)} {handler : EafMap}
    (h : MapRun order.cmp node tr handler) :
    handler.tree.color = .black ∧
    handler.tree.RedApart ∧
    (∃ k, ∀ count ∈ handler.tree.blackCounts, count = k) ∧
    handler.tree.height ≤ 2 * Nat.log 2 (handler.size + 1) ∧
    (∀ n, NodeAddress n → n ∉ handler.nodes →
      (eafMapInsert order.cmp handler n).isSome) ∧
    ∀ n ∈ handler.nodes, (eafMapErase handler n).isSome := by
  obtain ⟨T, hT⟩ := h.shows
  obtain ⟨k, hbal⟩ := hT.balanced
  have hnext : ∀ op : MapOp, op.allowed handler →
      (mapNext order.cmp handler op).isSome := by
    intro op hop
    obtain ⟨handler', evs, hres, -⟩ := hT.next hop
    exact Option.isSome_of_eq_some hres
  rw [hT.tree, hT.size]
  refine ⟨hbal.color_eq, hbal.redApart, ⟨k, hbal.blackCounts_eq⟩,
    hbal.height_le_log, fun n hn hfresh => ?_, fun n hn => ?_⟩
  · simpa [mapNext] using hnext (.insert n) ⟨hn, hfresh⟩
  · simpa [mapNext] using hnext (.erase n) hn

/-! ## Addresses as keys -/

/-- The order of the addresses. -/
def addressOrder : Comparison Nat where
  cmp a b := (a.toNat : Int) - b.toNat
  key a := a.toNat
  neg_iff a b := by omega
  pos_iff a b := by omega

/-- Six nodes are put in, and the one at the root is taken out. -/
def mapCalls : List MapOp :=
  [.insert 8, .insert 16, .insert 24, .insert 32, .insert 40, .insert 48,
    .erase 16]

theorem mapCalls_run : ∃ handler tr,
    MapRun addressOrder.cmp (fun _ => ⟨0, 0, 0⟩) tr handler ∧
      handler.nodes = [8, 24, 32, 40, 48] := by
  have hreplay : (LabelledRun.replay (mapNext addressOrder.cmp)
      (fun handler op => op.allowed handler) (eafMapInit fun _ => ⟨0, 0, 0⟩)
        mapCalls).any
          (fun o => decide (o.1.nodes = [8, 24, 32, 40, 48])) = true := by
    decide +kernel
  obtain ⟨handler, tr, hrun, hcheck⟩ :=
    LabelledRun.exists_run_of_replay hreplay
  exact ⟨handler, tr, hrun, of_decide_eq_true hcheck⟩

theorem map_sorted_addresses : ∃ handler tr,
    MapRun addressOrder.cmp (fun _ => ⟨0, 0, 0⟩) tr handler ∧
      handler.nodes = [8, 24, 32, 40, 48] ∧ handler.size = 5 ∧
      (eafMapErase handler 24).isSome := by
  obtain ⟨handler, tr, hrun, hnodes⟩ := mapCalls_run
  obtain ⟨-, hsize, -, -, herase⟩ := map_sorted addressOrder hrun
  obtain ⟨handler', _, _, hres, -⟩ := herase 24 (by rw [hnodes]; decide)
  exact ⟨handler, tr, hrun, hnodes, by rw [hsize, hnodes]; rfl,
    Option.isSome_of_eq_some hres⟩

theorem map_balanced_addresses : ∃ handler tr,
    MapRun addressOrder.cmp (fun _ => ⟨0, 0, 0⟩) tr handler ∧
      handler.nodes = [8, 24, 32, 40, 48] ∧
      handler.tree.color = .black ∧ handler.tree.RedApart ∧
      (eafMapErase handler 24).isSome := by
  obtain ⟨handler, tr, hrun, hnodes⟩ := mapCalls_run
  obtain ⟨hcolor, hapart, -, -, -, herase⟩ := map_balanced addressOrder hrun
  exact ⟨handler, tr, hrun, hnodes, hcolor, hapart,
    herase 24 (by rw [hnodes]; decide)⟩

end Utils
end Eaf

import Eaf.Foundation.TreeSearch
import Eaf.Utils.MapTable

/-!
# Searching a map for a neighbour

`eaf_map_find_lower` and `eaf_map_find_upper` go down the tree like
`eaf_map_find`, and keep the last node that is smaller, or greater, than the
key.
-/

namespace Eaf
namespace Utils

open RedBlack Core

/-- The loop of `eaf_map_find_lower`, with `lower_node`. -/
def Mem.findLowerLoop (cmp : Ptr → Ptr → Int) (key : Ptr) :
    Nat → Mem → Ptr → Ptr → Option Ptr
  | 0, _, _, _ => none
  | turns + 1, m, node, lowerNode => do
      if node = 0 then some lowerNode
      else
        let n ← m.deref node
        let result := cmp key node
        if result < 0 then findLowerLoop cmp key turns m n.rbLeft lowerNode
        else if 0 < result then findLowerLoop cmp key turns m n.rbRight node
        else some node

/-- `eaf_map_find_lower` -/
def eafMapFindLower (cmp : Ptr → Ptr → Int) (handler : EafMap) (key : Ptr) :
    Option Ptr :=
  handler.mem.findLowerLoop cmp key (handler.size + 1) handler.mem.rbRoot 0

/-- The loop of `eaf_map_find_upper`, with `upper_node`. -/
def Mem.findUpperLoop (cmp : Ptr → Ptr → Int) (key : Ptr) :
    Nat → Mem → Ptr → Ptr → Option Ptr
  | 0, _, _, _ => none
  | turns + 1, m, node, upperNode => do
      if node = 0 then some upperNode
      else
        let n ← m.deref node
        let result := cmp key node
        if result < 0 then findUpperLoop cmp key turns m n.rbLeft node
        else if 0 < result then findUpperLoop cmp key turns m n.rbRight upperNode
        else
          -- the right child is taken only when no node has been kept
          some (if upperNode = 0 then n.rbRight else upperNode)

/-- `eaf_map_find_upper` -/
def eafMapFindUpper (cmp : Ptr → Ptr → Int) (handler : EafMap) (key : Ptr) :
    Option Ptr :=
  handler.mem.findUpperLoop cmp key (handler.size + 1) handler.mem.rbRoot 0

variable {K : Type*} [LinearOrder K] {order : Comparison K}
  {handler : EafMap} {m : Mem} {C : Multiset Cell} {p hole key : Ptr}
  {path : Path Ptr} {t T : RedBlack.Tree Ptr} {turns : Nat}
  {best : Option Ptr}

/-- The address of a label, or the null pointer. -/
abbrev nodePtr (best : Option Ptr) : Ptr := best.getD 0

theorem nodePtr_root : nodePtr t.root? = ptr t := by
  cases t <;> rfl

namespace Mem.Around

/-- What a search sees of a node: its address, its contents, and the trees
below it. -/
theorem node {c : Color} {l r : RedBlack.Tree Ptr} {a : Ptr}
    (h : m.Around (cells p (.node c l a r) + C) hole path) :
    a ≠ 0 ∧ m.deref a = some ⟨pack p c, ptr l, ptr r⟩ ∧
      (∃ D, m.Around (cells a l + D) hole path) ∧
      ∃ D, m.Around (cells a r + D) hole path := by
  have hcell := h.of_eq (add_assoc ..)
  have hl := hcell.of_eq (by abel : _ = cells a l +
    ({(a, ⟨pack p c, ptr l, ptr r⟩)} + (cells a r + C)))
  have hr := hcell.of_eq (by abel : _ = cells a r +
    ({(a, ⟨pack p c, ptr l, ptr r⟩)} + (cells a l + C)))
  exact ⟨hcell.address.1, hcell.deref, ⟨_, hl⟩, _, hr⟩

/-- The loop of `eaf_map_find_lower` goes down as `floor` does. -/
theorem findLowerLoop (cmp : Ptr → Ptr → Int) (key : Ptr) (best : Option Ptr)
    (h : m.Around (cells p t + C) hole path) (hturns : t.height < turns) :
    m.findLowerLoop cmp key turns (ptr t) (nodePtr best) =
      some (nodePtr (t.floor (sideOf cmp key) best)) := by
  induction t generalizing p C turns best with
  | nil =>
      cases turns with
      | zero => omega
      | succ turns => simp [Mem.findLowerLoop, RedBlack.Tree.floor]
  | node c l a r ihl ihr =>
      cases turns with
      | zero => omega
      | succ turns =>
          obtain ⟨hne, hread, ⟨_, hl⟩, _, hr⟩ := h.node
          simp only [RedBlack.Tree.height] at hturns
          simp only [Mem.findLowerLoop, ptr_node, hne, if_false, hread,
            Option.bind_eq_bind, Option.bind_some, RedBlack.Tree.floor, sideOf]
          by_cases hneg : cmp key a < 0
          · simp only [hneg, if_true]
            exact ihl _ hl (by omega)
          · by_cases hpos : 0 < cmp key a
            · simp only [hneg, hpos, if_true, if_false]
              exact ihr (some a) hr (by omega)
            · simp only [hneg, hpos, if_false, Option.getD_some]

/-- The loop of `eaf_map_find_upper` goes down as `upper` does. -/
theorem findUpperLoop (cmp : Ptr → Ptr → Int) (key : Ptr) (best : Option Ptr)
    (h : m.Around (cells p t + C) hole path) (hbest : ∀ b ∈ best, b ≠ 0)
    (hturns : t.height < turns) :
    m.findUpperLoop cmp key turns (ptr t) (nodePtr best) =
      some (nodePtr (t.upper (sideOf cmp key) best)) := by
  induction t generalizing p C turns best with
  | nil =>
      cases turns with
      | zero => omega
      | succ turns => simp [Mem.findUpperLoop, RedBlack.Tree.upper]
  | node c l a r ihl ihr =>
      cases turns with
      | zero => omega
      | succ turns =>
          obtain ⟨hne, hread, ⟨_, hl⟩, _, hr⟩ := h.node
          simp only [RedBlack.Tree.height] at hturns
          simp only [Mem.findUpperLoop, ptr_node, hne, if_false, hread,
            Option.bind_eq_bind, Option.bind_some, RedBlack.Tree.upper, sideOf]
          by_cases hneg : cmp key a < 0
          · simp only [hneg, if_true]
            refine ihl (some a) hl (fun b hb => ?_) (by omega)
            obtain rfl : a = b := by simpa using hb
            exact hne
          · by_cases hpos : 0 < cmp key a
            · simp only [hneg, hpos, if_true, if_false]
              exact ihr _ hr hbest (by omega)
            · simp only [hneg, hpos, if_false]
              cases best with
              | none =>
                  simp only [nodePtr, Option.getD_none, if_true,
                    Option.none_or]
                  exact congrArg some nodePtr_root.symm
              | some b =>
                  have hb : b ≠ 0 := hbest b rfl
                  simp only [nodePtr, Option.getD_some, hb, if_false,
                    Option.some_or]

end Mem.Around

/-- A comparison function directs the search for a key. -/
theorem Comparison.directs (order : Comparison K) (key : Ptr) :
    Directs (sideOf order.cmp key) order.key (order.key key) :=
  ⟨fun _ => sideOf_left, fun _ => sideOf_right⟩

namespace EafMap.Shows

/-- The map is seen from its root. -/
theorem around {key : Ptr → K} (h : handler.Shows key T) :
    handler.mem.Around (cells 0 T + 0) (ptr T) [] :=
  (shows_iff.mp h.mem).of_eq (add_zero _).symm

/-- The loops have enough turns. -/
theorem height_lt {key : Ptr → K} (h : handler.Shows key T) :
    T.height < handler.size + 1 := by
  have hheight := T.height_le_length
  rw [h.size]
  omega

/-- The nodes have addresses. -/
theorem ne_zero {key : Ptr → K} (h : handler.Shows key T) {a : Ptr}
    (ha : a ∈ T.toList) : a ≠ 0 := by
  have hmem : a ∈ (cells 0 T).map Prod.fst := by
    rw [cells_addresses]
    exact Multiset.mem_coe.mpr ha
  obtain ⟨x, hx, rfl⟩ := Multiset.mem_map.mp hmem
  exact (h.mem.1.valid x hx).1

theorem findLower (h : handler.Shows order.key T) (key : Ptr) :
    eafMapFindLower order.cmp handler key =
      some (nodePtr (T.floor (sideOf order.cmp key) none)) := by
  rw [eafMapFindLower, h.mem.2]
  exact h.around.findLowerLoop order.cmp key none h.height_lt

theorem findUpper (h : handler.Shows order.key T) (key : Ptr) :
    eafMapFindUpper order.cmp handler key =
      some (nodePtr (T.upper (sideOf order.cmp key) none)) := by
  rw [eafMapFindUpper, h.mem.2]
  exact h.around.findUpperLoop order.cmp key none (by simp) h.height_lt

/-- What a node of the map looks like. -/
theorem node_fill {key : Ptr → K} {c : Color} {l r : RedBlack.Tree Ptr} {a : Ptr}
    (h : handler.Shows key (path.fill (.node c l a r))) :
    handler.mem.node a = ⟨pack (parentOf path) c, ptr l, ptr r⟩ := by
  have haround := shows_fill.mp h.mem
  exact (haround.of_eq rfl : handler.mem.Around
    ({(a, _)} + (cells a l + cells a r)) a path).assoc.reads_head

end EafMap.Shows

end Utils
end Eaf

import Eaf.Foundation.KeyedTable
import Eaf.Utils.MapTrees

/-!
# Maps are tables

What the functions of `map.c` do to a map, as its user sees it: there is at most
one node for each key, and nothing is said about how the nodes are linked.
-/

namespace Eaf
namespace Utils

open RedBlack KeyedTable Core

variable {K : Type*} [LinearOrder K] {order : Comparison K}
  {handler : EafMap} {m : Mem} {C : Multiset Cell} {n p hole : Ptr}
  {path : Path Ptr} {t T : RedBlack.Tree Ptr} {turns : Nat}

/-- The nodes of a map by their keys. -/
def EafMap.table (key : Ptr → K) (handler : EafMap) : Table K Ptr :=
  ofList key handler.nodes

/-- The keys of a sorted list are different. -/
theorem nodup_keys {key : Ptr → K} {xs : List Ptr}
    (h : xs.Pairwise fun a b => key a < key b) : (xs.map key).Nodup :=
  List.pairwise_map.mpr (h.imp fun hlt => hlt.ne)

/-- The loop of `eaf_map_find` goes down as `search` does. -/
theorem Mem.Around.findLoop (cmp : Ptr → Ptr → Int) (key : Ptr)
    (h : m.Around (cells p t + C) hole path) (hturns : t.height < turns) :
    m.findLoop cmp key turns (ptr t) =
      some ((search (sideOf cmp key) t).getD 0) := by
  induction t generalizing p C turns with
  | nil =>
      cases turns with
      | zero => omega
      | succ turns => simp [Mem.findLoop, search]
  | node c l a r ihl ihr =>
      cases turns with
      | zero => omega
      | succ turns =>
          have hcell := h.of_eq (add_assoc ..)
          have hl := hcell.of_eq (by abel : _ = cells a l +
            ({(a, ⟨pack p c, ptr l, ptr r⟩)} + (cells a r + C)))
          have hr := hcell.of_eq (by abel : _ = cells a r +
            ({(a, ⟨pack p c, ptr l, ptr r⟩)} + (cells a l + C)))
          simp only [RedBlack.Tree.height] at hturns
          simp only [Mem.findLoop, ptr_node, hcell.address.1, if_false,
            hcell.deref, Option.bind_eq_bind, Option.bind_some, search, sideOf]
          by_cases hneg : cmp key a < 0
          · simp only [hneg, if_true]
            exact ihl hl (by omega)
          · by_cases hpos : 0 < cmp key a
            · simp only [hneg, hpos, if_true, if_false]
              exact ihr hr (by omega)
            · simp only [hneg, hpos, if_false, Option.getD_some]

theorem sideOf_eq_none :
    sideOf order.cmp n p = none ↔ order.key p = order.key n := by
  refine ⟨sideOf_none, fun heq => ?_⟩
  rcases hside : sideOf order.cmp n p with _ | _ | _
  · rfl
  · exact absurd (sideOf_left.mp hside) heq.not_gt
  · exact absurd (sideOf_right.mp hside) heq.not_lt

namespace EafMap.Shows

theorem table {key : Ptr → K} (h : handler.Shows key T) :
    handler.table key = ofList key T.toList := by
  rw [EafMap.table, h.nodes]

/-- `eaf_map_find` looks up the key. -/
theorem find (h : handler.Shows order.key T) (key : Ptr) :
    eafMapFind order.cmp handler key =
      some ((handler.table order.key (order.key key)).getD 0) := by
  have haround : handler.mem.Around (cells 0 T + 0) (ptr T) [] :=
    (shows_iff.mp h.mem).of_eq (add_zero _).symm
  have hheight := T.height_le_length
  have hturns : T.height < handler.size + 1 := by
    rw [h.size]
    omega
  have hloop := haround.findLoop order.cmp key hturns
  rw [eafMapFind, h.mem.2, hloop, h.table]
  refine congrArg (fun found : Option Ptr => some (found.getD 0)) ?_
  have hkeys := nodup_keys h.sorted
  rcases search_spec (sideOf_monotone (n := key) h.sorted) with
    ⟨a, ha, hside, hfound⟩ | ⟨hnone, hfound⟩
  · rw [hfound]
    exact ((ofList_eq_some hkeys).mpr ⟨ha, sideOf_eq_none.mp hside⟩).symm
  · rw [hfound]
    exact (ofList_eq_none.mpr fun a ha heq =>
      hnone a ha (sideOf_eq_none.mpr heq)).symm

/-- `eaf_map_insert` makes a new entry, or refuses to. -/
theorem table_insert (h : handler.Shows order.key T) (hn : NodeAddress n)
    (hfresh : n ∉ T.toList) :
    match (handler.table order.key).insert (order.key n) n with
    | none => eafMapInsert order.cmp handler n =
        some (handler, Errno.duplicate)
    | some entries => ∃ handler' T', eafMapInsert order.cmp handler n =
        some (handler', Errno.success) ∧ handler'.Shows order.key T' ∧
        handler'.table order.key = entries := by
  rcases h.insert hn hfresh with
    ⟨hdup, hres⟩ | ⟨handler', T', before, after, hres, h', hold, hnew, -⟩
  · rw [h.table, Table.insert_eq_none.mpr (ofList_isSome.mpr hdup)]
    exact hres
  · have hkeys := nodup_keys h'.sorted
    rw [hnew] at hkeys
    rw [h.table, hold, ofList_insert hkeys]
    exact ⟨handler', T', hres, h', by rw [h'.table, hnew]⟩

/-- `eaf_map_erase` takes out an entry. -/
theorem table_erase {key : Ptr → K} (h : handler.Shows key T)
    (hn : n ∈ T.toList) :
    ∃ handler' T', eafMapErase handler n = some handler' ∧
      handler'.Shows key T' ∧
      (handler.table key).erase (key n) n = some (handler'.table key) := by
  obtain ⟨handler', T', before, after, hres, h', hold, hnew⟩ := h.erase hn
  have hkeys := nodup_keys h.sorted
  rw [hold] at hkeys
  refine ⟨handler', T', hres, h', ?_⟩
  rw [h.table, h'.table, hold, hnew, ofList_erase hkeys]

end EafMap.Shows

end Utils
end Eaf

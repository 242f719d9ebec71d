import Eaf.Guarantees.Maps
import Eaf.Utils.MapSearch

/-!
# Searching a map

A node is found by its key, and so is the node with the greatest key that is
not above a key.  The node with the least key above a key is found whenever no
node has the key itself.  Otherwise the search stops at the node with the key,
and answers with a node above it, or with its right child; these are the next
node in few cases only.
-/

namespace Eaf
namespace Utils

open RedBlack Core

section Search

variable {K : Type*} [LinearOrder K] {order : Comparison K}
  {handler : EafMap} {key : Ptr} {T : RedBlack.Tree Ptr}
  {node : Ptr → MapLowNode} {tr : List (MapOp × Int)}

theorem EafMap.Shows.find_only (h : handler.Shows order.key T) :
    ∃ found, eafMapFind order.cmp handler key = some (nodePtr found) ∧
      IsOnly order.key (order.key key) handler.nodes found := by
  refine ⟨_, h.find key, ?_⟩
  rw [h.table, h.nodes]
  have hkeys := nodup_keys h.sorted
  cases hfound : KeyedTable.ofList order.key T.toList (order.key key) with
  | none => exact KeyedTable.ofList_eq_none.mp hfound
  | some a =>
      obtain ⟨ha, hkey⟩ := (KeyedTable.ofList_eq_some hkeys).mp hfound
      refine ⟨ha, hkey, fun b hb hkey' => ?_⟩
      exact List.inj_on_of_nodup_map hkeys hb ha (hkey'.trans hkey.symm)

/-- **Finding a node.**  `eaf_map_find` finds the only node with the key, and
`eaf_map_find_lower` the one with the greatest key that is not above it; the
null pointer, which is no node, says that there is none. -/
theorem map_find (order : Comparison K)
    (h : MapRun order.cmp node tr handler) (key : Ptr) :
    (∃ found, eafMapFind order.cmp handler key = some (nodePtr found) ∧
      IsOnly order.key (order.key key) handler.nodes found) ∧
    (∃ found, eafMapFindLower order.cmp handler key = some (nodePtr found) ∧
      IsFloor order.key (order.key key) handler.nodes found) ∧
    0 ∉ handler.nodes := by
  obtain ⟨T, hT⟩ := h.shows
  refine ⟨hT.find_only, ⟨_, hT.findLower key, ?_⟩, ?_⟩
  · rw [hT.nodes]
    exact (order.directs key).floor_spec hT.sorted
  · rw [hT.nodes]
    exact fun hzero => hT.ne_zero hzero rfl

/-! ## The next greater node -/

/-- `eaf_map_find_upper` has found the node with the least key above a key. -/
def UpperFound (order : Comparison K) (handler : EafMap) (key : Ptr) : Prop :=
  ∃ found, eafMapFindUpper order.cmp handler key = some (nodePtr found) ∧
    IsUpper order.key (order.key key) handler.nodes found

/-- If there is a node with the key, it has no right child; or it is on the way
down that always goes to the right, and its right child has no left child. -/
def NextAtHand (order : Comparison K) (handler : EafMap) (key : Ptr) : Prop :=
  ∀ a ∈ handler.nodes, order.key a = order.key key →
    (handler.mem.node a).rbRight = 0 ∨
      a ∈ handler.tree.rightSpine ∧
        (handler.mem.node (handler.mem.node a).rbRight).rbLeft = 0

/-- Different results are different pointers. -/
theorem EafMap.Shows.nodePtr_inj (h : handler.Shows order.key T)
    {x y : Option Ptr} (hx : ∀ a ∈ x, a ∈ T.toList)
    (hy : ∀ a ∈ y, a ∈ T.toList) (heq : nodePtr x = nodePtr y) : x = y := by
  cases x with
  | none =>
      cases y with
      | none => rfl
      | some b => exact absurd heq.symm (h.ne_zero (hy b rfl))
  | some a =>
      cases y with
      | none => exact absurd heq (h.ne_zero (hx a rfl))
      | some b => exact congrArg some heq

theorem IsUpper.mem {k : K} {keyOf : Ptr → K} {xs : List Ptr} {x : Option Ptr}
    (h : IsUpper keyOf k xs x) : ∀ a ∈ x, a ∈ xs := by
  intro a ha
  obtain rfl := Option.mem_def.mp ha
  exact h.1

/-- The node with the key, and how its subtree lies in memory. -/
theorem EafMap.Shows.upperFound_iff {path : Path Ptr} {c : Color}
    {l r : RedBlack.Tree Ptr} {a : Ptr}
    (h : handler.Shows order.key (path.fill (.node c l a r)))
    (ha : order.key a = order.key key) :
    UpperFound order handler key ↔
      (handler.mem.node a).rbRight = 0 ∨ path.above = none ∧
        (handler.mem.node (handler.mem.node a).rbRight).rbLeft = 0 := by
  have hfound : eafMapFindUpper order.cmp handler key =
      some (nodePtr (path.above.or r.root?)) := by
    rw [h.findUpper, (order.directs key).upper_node h.sorted ha]
  have hnext : IsUpper order.key (order.key key) handler.nodes
      (r.toList ++ path.after).head? := by
    rw [← ha, h.nodes]
    exact isUpper_node h.sorted
  have hnodup : (path.fill (.node c l a r)).toList.Nodup :=
    h.sorted.imp fun hlt heq => hlt.ne (congrArg order.key heq)
  have hmem : ∀ b ∈ path.above.or r.root?,
      b ∈ (path.fill (.node c l a r)).toList := by
    intro b hb
    rw [Path.toList_fill]
    rcases Option.or_eq_some_iff.mp hb with hb | ⟨-, hb⟩
    · rw [Path.above_eq] at hb
      simp [List.mem_of_mem_head? hb]
    · cases r with
      | nil => cases hb
      | node c' l' b' r' =>
          obtain rfl : b' = b := by simpa [RedBlack.Tree.root?] using hb
          simp [RedBlack.Tree.toList]
  have hcode : UpperFound order handler key ↔
      path.above.or r.root? = (r.toList ++ path.after).head? := by
    constructor
    · rintro ⟨found, hcall, hfoundUpper⟩
      rw [hfound] at hcall
      obtain rfl := hfoundUpper.unique (by rw [h.nodes]; exact h.sorted) hnext
      refine h.nodePtr_inj hmem ?_ (Option.some.inj hcall)
      have := IsUpper.mem hnext
      rwa [h.nodes] at this
    · intro heq
      exact ⟨_, heq ▸ hfound, hnext⟩
  have hright : (handler.mem.node a).rbRight = ptr r := by rw [h.node_fill]
  rw [hcode, above_or_root_iff hnodup, hright]
  cases r with
  | nil => simp
  | node c' l' b r' =>
      have hb := h.ne_zero (a := b) (by
        rw [Path.toList_fill]
        simp [RedBlack.Tree.toList])
      have hleft : (handler.mem.node b).rbLeft = ptr l' := by
        have hdown : handler.Shows order.key (Path.fill
          (⟨.right, c, a, l⟩ :: path) (.node c' l' b r')) := h
        rw [hdown.node_fill]
      rw [ptr_node, hleft]
      cases l' with
      | nil => simp [hb]
      | node c₂ l₂ b₂ r₂ =>
          have hb₂ := h.ne_zero (a := b₂) (by
            rw [Path.toList_fill]
            simp [RedBlack.Tree.toList])
          simp [hb, hb₂]

/-- **Finding the next node.**  `eaf_map_find_upper` finds the node with the
least key above a key exactly if no node has the key, or the next node happens
to be at hand where the search stops. -/
theorem map_find_upper_iff (h : MapRun order.cmp node tr handler)
    (key : Ptr) : UpperFound order handler key ↔ NextAtHand order handler key := by
  obtain ⟨T, hT⟩ := h.shows
  have hkeys := nodup_keys hT.sorted
  by_cases hthere : ∃ a ∈ T.toList, order.key a = order.key key
  · obtain ⟨a, ha, hkey⟩ := hthere
    have hiff : NextAtHand order handler key ↔
        (handler.mem.node a).rbRight = 0 ∨ a ∈ T.rightSpine ∧
          (handler.mem.node (handler.mem.node a).rbRight).rbLeft = 0 := by
      unfold NextAtHand
      rw [hT.nodes, hT.tree]
      constructor
      · exact fun hall => hall a ha hkey
      · intro hone b hb hkey'
        obtain rfl : b = a :=
          List.inj_on_of_nodup_map hkeys hb ha (hkey'.trans hkey.symm)
        exact hone
    rw [hiff]
    by_cases hspine : a ∈ T.rightSpine
    · obtain ⟨path, c, l, r, rfl, habove⟩ :=
        RedBlack.Tree.exists_fill_of_rightSpine hspine
      rw [hT.upperFound_iff hkey]
      simp [hspine, habove]
    · obtain ⟨path, c, l, r, rfl⟩ := Path.exists_fill ha
      have habove : path.above ≠ none := fun hnone =>
        hspine (Path.mem_rightSpine hnone (by simp [RedBlack.Tree.rightSpine]))
      rw [hT.upperFound_iff hkey]
      simp [hspine, habove]
  · have hnone : ∀ b ∈ T.toList, order.key b ≠ order.key key :=
      fun b hb heq => hthere ⟨b, hb, heq⟩
    constructor
    · intro _ a ha hkey
      rw [hT.nodes] at ha
      exact absurd hkey (hnone a ha)
    · intro _
      refine ⟨_, hT.findUpper key, ?_⟩
      rw [hT.nodes]
      exact (order.directs key).upper_spec hT.sorted hnone

end Search

/-! ## Addresses as keys -/

/-- Where no node is at address 30, the one below it is found. -/
theorem map_find_addresses : ∃ handler tr,
    MapRun addressOrder.cmp (fun _ => ⟨0, 0, 0⟩) tr handler ∧
      handler.nodes = [8, 24, 32, 40, 48] ∧
      ∃ found, eafMapFindLower addressOrder.cmp handler 30 =
        some (nodePtr found) ∧ IsFloor addressOrder.key 30 handler.nodes found := by
  obtain ⟨handler, tr, hrun, hnodes⟩ := mapCalls_run
  exact ⟨handler, tr, hrun, hnodes, (map_find addressOrder hrun 30).2.1⟩

/-- The node after the one at address 32 is found. -/
theorem map_find_upper_addresses : ∃ handler tr,
    MapRun addressOrder.cmp (fun _ => ⟨0, 0, 0⟩) tr handler ∧
      handler.nodes = [8, 24, 32, 40, 48] ∧
      UpperFound addressOrder handler 32 := by
  have hreplay : (LabelledRun.replay (mapNext addressOrder.cmp)
      (fun handler op => op.allowed handler) (eafMapInit fun _ => ⟨0, 0, 0⟩)
        mapCalls).any (fun o => decide (o.1.nodes = [8, 24, 32, 40, 48] ∧
          (o.1.mem.node 32).rbRight = 0)) = true := by
    decide +kernel
  obtain ⟨handler, tr, hrun, hcheck⟩ :=
    LabelledRun.exists_run_of_replay hreplay
  obtain ⟨hnodes, hright⟩ := of_decide_eq_true hcheck
  refine ⟨handler, tr, hrun, hnodes, (map_find_upper_iff hrun 32).mpr ?_⟩
  intro a _ hkey
  obtain rfl : a = 32 := UInt64.toNat_inj.mp hkey
  exact .inl hright

/-- Next to the node at address 24 is the one at 32, which is on the left of
its right child at 40. -/
theorem map_find_upper_misses : ∃ handler tr,
    MapRun addressOrder.cmp (fun _ => ⟨0, 0, 0⟩) tr handler ∧
      handler.nodes = [8, 24, 32, 40, 48] ∧
      eafMapFindUpper addressOrder.cmp handler 24 = some 40 ∧
      ¬UpperFound addressOrder handler 24 := by
  have hreplay : (LabelledRun.replay (mapNext addressOrder.cmp)
      (fun handler op => op.allowed handler) (eafMapInit fun _ => ⟨0, 0, 0⟩)
        mapCalls).any (fun o => decide (o.1.nodes = [8, 24, 32, 40, 48] ∧
          eafMapFindUpper addressOrder.cmp o.1 24 = some 40)) = true := by
    decide +kernel
  obtain ⟨handler, tr, hrun, hcheck⟩ :=
    LabelledRun.exists_run_of_replay hreplay
  obtain ⟨hnodes, hcall⟩ := of_decide_eq_true hcheck
  refine ⟨handler, tr, hrun, hnodes, hcall, ?_⟩
  rintro ⟨found, hcall', hupper⟩
  rw [hcall] at hcall'
  cases found with
  | none => exact absurd (Option.some.inj hcall') (by decide)
  | some b =>
      obtain rfl : 40 = b := Option.some.inj hcall'
      have hle := hupper.2.2 32 (by rw [hnodes]; decide) (by decide)
      exact absurd hle (by decide)

end Utils
end Eaf

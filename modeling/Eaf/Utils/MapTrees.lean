import Eaf.Utils.MapInsertion
import Eaf.Utils.MapUnlink

/-!
# Maps are balanced trees

A map shows a tree when this is the tree in its memory, the nodes are in the
order of their keys and counted right, and the tree is balanced.  Insertion and
erasure keep this; here is what they do to the list of nodes.
-/

namespace Eaf
namespace Utils

open RedBlack Cells Core

variable {m : Mem} {C : Multiset Cell} {a b n p q hole : Ptr}
  {path : Path Ptr} {t T : RedBlack.Tree Ptr} {depth turns : Nat} {xs ys : List Ptr}

/-! ## Reading the tree -/

namespace Mem

/-- The tree that is read is the one that is there. -/
theorem Around.tree (h : m.Around (cells p t + C) hole path)
    (hp : p &&& 3 = 0) (ht : t.height ≤ depth) : m.tree depth (ptr t) = t := by
  induction t generalizing depth p C with
  | nil => cases depth <;> simp [Mem.tree]
  | node c l a r ihl ihr =>
      match depth with
      | 0 => simp [RedBlack.Tree.height] at ht
      | depth + 1 =>
          have hcell := h.of_eq (add_assoc ..)
          have hread := hcell.assoc.reads_head
          simp only [RedBlack.Tree.height] at ht
          have hl : m.tree depth (ptr l) = l :=
            ihl (hcell.of_eq (by abel : _ = cells a l +
              ({(a, ⟨pack p c, ptr l, ptr r⟩)} + (cells a r + C))))
                hcell.address.2 (by omega)
          have hr : m.tree depth (ptr r) = r :=
            ihr (hcell.of_eq (by abel : _ = cells a r +
              ({(a, ⟨pack p c, ptr l, ptr r⟩)} + (cells a l + C))))
                hcell.address.2 (by omega)
          rw [ptr_node, Mem.tree, if_neg hcell.address.1, hread]
          simp only [hl, hr, rbIsBlack_pack hp, decide_eq_true_eq]
          cases c <;> rfl

theorem Shows.tree (h : m.Shows T) (hT : T.height ≤ depth) :
    m.tree depth m.rbRoot = T := by
  have haround := shows_iff.mp h
  rw [h.2]
  exact (haround.of_eq (add_zero _).symm).tree rfl hT

end Mem

/-- The addresses of the cells of a tree are its labels. -/
theorem cells_addresses (p : Ptr) (t : RedBlack.Tree Ptr) :
    (cells p t).map Prod.fst = (t.toList : Multiset Ptr) := by
  induction t generalizing p with
  | nil => rfl
  | node c l a r ihl ihr =>
      rw [cells, Multiset.map_add, Multiset.map_add, Multiset.map_singleton,
        ihl, ihr, RedBlack.Tree.toList, ← Multiset.coe_add, ← Multiset.cons_coe,
        Multiset.singleton_add, ← Multiset.add_cons]

/-- The children of a node have it as their parent. -/
theorem mem_cells_child {k : MapLowNode} (h : (q, k) ∈ cells p t) (d : Side) :
    k.child d = 0 ∨
      ∃ k' c, (k.child d, k') ∈ cells p t ∧ k'.parentColor = pack q c := by
  induction t generalizing p with
  | nil => simp at h
  | node c l a r ihl ihr =>
      have hroot : ∀ s : RedBlack.Tree Ptr, ptr s = 0 ∨
          ∃ k' c, (ptr s, k') ∈ cells a s ∧ k'.parentColor = pack a c := by
        intro s
        cases s with
        | nil => exact .inl rfl
        | node c' l' b r' =>
            exact .inr ⟨⟨pack a c', ptr l', ptr r'⟩, c', by simp [cells], rfl⟩
      simp only [cells, Multiset.mem_add, Multiset.mem_singleton,
        Prod.mk.injEq] at h ⊢
      rcases h with ⟨rfl, rfl⟩ | h | h
      · cases d with
        | left =>
            rcases hroot l with hz | ⟨k', c, hk, hc⟩
            · exact .inl hz
            · exact .inr ⟨k', c, .inr (.inl hk), hc⟩
        | right =>
            rcases hroot r with hz | ⟨k', c, hk, hc⟩
            · exact .inl hz
            · exact .inr ⟨k', c, .inr (.inr hk), hc⟩
      · rcases ihl h with hz | ⟨k', c, hk, hc⟩
        · exact .inl hz
        · exact .inr ⟨k', c, .inr (.inl hk), hc⟩
      · rcases ihr h with hz | ⟨k', c, hk, hc⟩
        · exact .inl hz
        · exact .inr ⟨k', c, .inr (.inr hk), hc⟩

/-- A node is the root, or a child of its parent. -/
theorem mem_cells_parent {k : MapLowNode} (h : (q, k) ∈ cells p t) :
    (ptr t = q ∧ ∃ c, k.parentColor = pack p c) ∨
      ∃ b k' c d, (b, k') ∈ cells p t ∧ k.parentColor = pack b c ∧
        k'.child d = q := by
  induction t generalizing p with
  | nil => simp at h
  | node c l a r ihl ihr =>
      simp only [cells, Multiset.mem_add, Multiset.mem_singleton,
        Prod.mk.injEq] at h ⊢
      rcases h with ⟨rfl, rfl⟩ | h | h
      · exact .inl ⟨rfl, c, rfl⟩
      · right
        rcases ihl h with ⟨hq, c', hc⟩ | ⟨b, k', c', d, hk, hc, hd⟩
        · exact ⟨a, _, c', .left, .inl ⟨rfl, rfl⟩, hc, hq⟩
        · exact ⟨b, k', c', d, .inr (.inl hk), hc, hd⟩
      · right
        rcases ihr h with ⟨hq, c', hc⟩ | ⟨b, k', c', d, hk, hc, hd⟩
        · exact ⟨a, _, c', .right, .inl ⟨rfl, rfl⟩, hc, hq⟩
        · exact ⟨b, k', c', d, .inr (.inr hk), hc, hd⟩

/-! ## The way to the place of a new node -/

/-- The pointer to the place a path leads to. -/
def linkOf : Path Ptr → Link
  | [] => .root
  | cr :: _ => .child cr.label cr.side

/-- On which side of the node `b` the search for the place of `n` goes on. -/
def sideOf (cmp : Ptr → Ptr → Int) (n b : Ptr) : Option Side :=
  if cmp n b < 0 then some .left else if 0 < cmp n b then some .right else none

namespace Mem.Around

theorem readLink (h : m.Around C hole path) :
    m.readLink (linkOf path) = some hole := by
  cases path with
  | nil => exact congrArg some h.2
  | cons cr rest =>
      obtain ⟨d, c, a, s⟩ := cr
      simp only [linkOf, Mem.readLink, (around_cons.mp h).deref,
        Option.map_some, facing_child]

theorem writeLink (h : m.Around C hole path) (b : Ptr) :
    ∃ m', m.writeLink b (linkOf path) = some m' ∧ m'.Around C b path := by
  cases path with
  | nil => exact ⟨{ m with rbRoot := b }, rfl, h.1, rfl⟩
  | cons cr rest =>
      obtain ⟨d, c, a, s⟩ := cr
      obtain ⟨m', hm, h'⟩ := (around_cons.mp h).modify (.setChild d b)
      rw [facing_setChild] at h'
      exact ⟨m', hm, around_cons.mpr h'⟩

/-- A new node is linked to a free place. -/
theorem linkNode (h : m.Around 0 0 path) (hn : NodeAddress n)
    (hfresh : n ∉ (pathCells 0 path).map Prod.fst) :
    ∃ m', m.linkNode n (parentOf path) (linkOf path) = some m' ∧
      m'.Around {(n, ⟨parentOf path, 0, 0⟩)} n path := by
  have hcreate : Mem.Around
      { m with node := Function.update m.node n ⟨parentOf path, 0, 0⟩ }
      {(n, ⟨parentOf path, 0, 0⟩)} 0 path :=
    ⟨(h.1.of_eq (zero_add _)).create hfresh hn _, h.2⟩
  obtain ⟨m', hm, h'⟩ := hcreate.writeLink n
  refine ⟨m', ?_, h'⟩
  simp only [Mem.linkNode, Mem.modify, hn.1, if_false, Option.bind_eq_bind,
    Option.bind_some, hm]

/-- The loop of `eaf_map_insert` goes down as `descend` does. -/
theorem insertLoop (cmp : Ptr → Ptr → Int) (n : Ptr)
    (h : m.Around (cells (parentOf path) t) (ptr t) path)
    (hturns : t.height < turns) :
    m.insertLoop cmp n turns (linkOf path) (parentOf path) =
      some ((descend (sideOf cmp n) t path).map fun q =>
        (linkOf q, parentOf q)) := by
  induction t generalizing path turns with
  | nil =>
      cases turns with
      | zero => omega
      | succ turns =>
          simp only [Mem.insertLoop, h.readLink, Option.bind_eq_bind,
            Option.bind_some, ptr_nil, if_true, descend, Option.map_some]
  | node c l a r ihl ihr =>
      cases turns with
      | zero => omega
      | succ turns =>
          have hne : a ≠ 0 :=
            (h.of_eq rfl : m.Around ({(a, _)} + (cells a l + cells a r)) a
              path).address.1
          simp only [RedBlack.Tree.height] at hturns
          have hl : m.Around (cells a l) (ptr l) (⟨.left, c, a, r⟩ :: path) := by
            refine around_cons.mpr (h.of_eq ?_)
            simp only [cells, MapLowNode.facing]
            abel
          have hr : m.Around (cells a r) (ptr r)
              (⟨.right, c, a, l⟩ :: path) := around_cons.mpr h
          simp only [Mem.insertLoop, h.readLink, Option.bind_eq_bind,
            Option.bind_some, ptr_node, hne, if_false, descend, sideOf]
          by_cases hneg : cmp n a < 0
          · simp only [hneg, if_true]
            exact ihl hl (by omega)
          · by_cases hpos : 0 < cmp n a
            · simp only [hneg, hpos, if_true, if_false]
              exact ihr hr (by omega)
            · simp only [hneg, hpos, if_false, Option.map_none]

end Mem.Around

/-! ## Maps -/

/-- The map shows the tree: it is in memory and counted, its nodes are in the
order of their keys, and it is balanced. -/
structure EafMap.Shows {K : Type*} [LinearOrder K] (key : Ptr → K)
    (handler : EafMap) (T : RedBlack.Tree Ptr) : Prop where
  mem : handler.mem.Shows T
  size : handler.size = T.toList.length
  sorted : T.toList.Pairwise fun a b => key a < key b
  balanced : ∃ k, Balanced T .black k

variable {K : Type*} [LinearOrder K] {order : Comparison K} {handler : EafMap}

theorem EafMap.Shows.tree {key : Ptr → K} (h : handler.Shows key T) :
    handler.tree = T :=
  h.mem.tree (h.size ▸ T.height_le_length)

theorem EafMap.Shows.nodes {key : Ptr → K} (h : handler.Shows key T) :
    handler.nodes = T.toList :=
  congrArg RedBlack.Tree.toList h.tree

theorem EafMap.shows_init (key : Ptr → K) (node : Ptr → MapLowNode) :
    (eafMapInit node).Shows key .nil where
  mem := ⟨⟨by simp, by simp, by simp⟩, rfl⟩
  size := rfl
  sorted := .nil
  balanced := ⟨0, .nil⟩

section Sides

theorem sideOf_left : sideOf order.cmp n b = some .left ↔
    order.key n < order.key b := by
  rw [← order.neg_iff, sideOf]
  by_cases hneg : order.cmp n b < 0
  · simp [hneg]
  · by_cases hpos : 0 < order.cmp n b <;> simp [hneg, hpos]

theorem sideOf_right : sideOf order.cmp n b = some .right ↔
    order.key b < order.key n := by
  rw [← order.pos_iff, sideOf]
  by_cases hneg : order.cmp n b < 0
  · have hpos : ¬0 < order.cmp n b := by omega
    simp [hneg, hpos]
  · by_cases hpos : 0 < order.cmp n b <;> simp [hneg, hpos]

theorem sideOf_none (h : sideOf order.cmp n b = none) :
    order.key b = order.key n := by
  have hleft := mt sideOf_left.mpr (by rw [h]; simp)
  have hright := mt sideOf_right.mpr (by rw [h]; simp)
  exact le_antisymm (not_lt.mp hleft) (not_lt.mp hright)

/-- In a sorted list the sides are in order too. -/
theorem sideOf_monotone
    (h : xs.Pairwise fun a b => order.key a < order.key b) :
    Monotone (sideOf order.cmp n) xs := by
  refine h.imp fun {a b} hab => ⟨fun hright => ?_, fun hleft => ?_⟩
  · have hle := not_lt.mp (mt sideOf_right.mpr hright)
    exact sideOf_left.mpr (hle.trans_lt hab)
  · have hle := not_lt.mp (mt sideOf_left.mpr hleft)
    exact sideOf_right.mpr (hab.trans_le hle)

end Sides

/-- The node is linked to its place and the tree is repaired. -/
theorem Mem.Shows.insert (h : m.Shows (path.fill .nil)) (hn : NodeAddress n)
    (hfresh : n ∉ (path.fill .nil).toList)
    (hbal : ∃ k, Balanced (path.fill .nil) .black k)
    (hturns : path.length < turns) :
    ∃ m₁ m₂ T, m.linkNode n (parentOf path) (linkOf path) = some m₁ ∧
      m₁.rbInsert turns n = some m₂ ∧ m₂.Shows T ∧
      T.toList = path.before ++ n :: path.after ∧
      ∃ k, Balanced T .black k := by
  obtain ⟨c, k, hnil, hacc⟩ := balanced_fill.mp hbal
  obtain ⟨T, hT, hlist, hbalT⟩ :=
    insertFix_spec (t := .node .red .nil n .nil) (h := k)
      (by cases hnil; exact .red .nil .nil) (by cases hnil; exact hacc)
  have haround : m.Around 0 0 path := shows_fill.mp h
  have hfree : n ∉ (pathCells 0 path).map Prod.fst := by
    intro hmem
    have haddr := cells_addresses 0 (path.fill .nil)
    rw [cells_fill, cells_nil, zero_add, ptr_nil] at haddr
    rw [haddr] at hmem
    exact hfresh (Multiset.mem_coe.mp hmem)
  obtain ⟨m₁, hm₁, h₁⟩ := haround.linkNode hn hfree
  have hnode : m₁.Around (cells (parentOf path) (.node .red .nil n .nil)) n
      path := by
    refine h₁.of_eq ?_
    simp only [cells, ptr_nil, pack_red, add_zero]
  obtain ⟨m₂, hm₂, h₂⟩ := rbInsertLoop_refines hT hnode rfl hturns
  have hread : m₁.deref n = some ⟨parentOf path, 0, 0⟩ :=
    (h₁.of_eq (add_zero _).symm).deref
  refine ⟨m₁, m₂, T, hm₁, ?_, h₂, ?_, hbalT⟩
  · simp only [Mem.rbInsert, hread, Option.bind_eq_bind, Option.bind_some]
    exact hm₂
  · rw [hlist, Path.toList_fill]
    simp [RedBlack.Tree.toList]

/-- **`eaf_map_insert`.**  A node whose key is there changes nothing; any other
gets its place in the order. -/
theorem EafMap.Shows.insert (h : handler.Shows order.key T)
    (hn : NodeAddress n) (hfresh : n ∉ T.toList) :
    ((∃ b ∈ T.toList, order.key b = order.key n) ∧
      eafMapInsert order.cmp handler n = some (handler, Errno.duplicate)) ∨
    ∃ handler' T' before after,
      eafMapInsert order.cmp handler n = some (handler', Errno.success) ∧
      handler'.Shows order.key T' ∧ T.toList = before ++ after ∧
      T'.toList = before ++ n :: after ∧
      (∀ b ∈ before, order.key b < order.key n) ∧
      ∀ b ∈ after, order.key n < order.key b := by
  have hloop : handler.mem.insertLoop order.cmp n (handler.size + 1) .root 0 =
      some ((descend (sideOf order.cmp n) T []).map fun q =>
        (linkOf q, parentOf q)) := by
    have hroot : handler.mem.Around (cells (parentOf []) T) (ptr T) [] :=
      shows_iff.mp h.mem
    have hheight := T.height_le_length
    exact hroot.insertLoop order.cmp n (by rw [h.size]; omega)
  have hmono : Monotone (sideOf order.cmp n) (Path.fill [] T).toList :=
    sideOf_monotone h.sorted
  rcases descend_spec hmono (by simp [Path.before]) (by simp [Path.after]) with
    ⟨q, hq, hfill, hbefore, hafter⟩ | ⟨hnone, b, hb, hside⟩
  · right
    obtain rfl : q.fill .nil = T := hfill
    have hlen := Path.length_le q .nil
    have hturns : q.length < handler.size + 1 := by
      rw [h.size]
      omega
    obtain ⟨m₁, m₂, T', hm₁, hm₂, h₂, hlist, hbal⟩ :=
      h.mem.insert hn hfresh h.balanced hturns
    have hold : (q.fill .nil).toList = q.before ++ q.after :=
      Path.toList_fill q .nil
    have hlow : ∀ b ∈ q.before, order.key b < order.key n :=
      fun b hb => sideOf_right.mp (hbefore b hb)
    have hhigh : ∀ b ∈ q.after, order.key n < order.key b :=
      fun b hb => sideOf_left.mp (hafter b hb)
    refine ⟨⟨m₂, handler.size + 1⟩, T', q.before, q.after, ?_,
      ⟨h₂, ?_, ?_, hbal⟩, hold, hlist, hlow, hhigh⟩
    · simp only [eafMapInsert, hloop, hq, Option.map_some, Option.bind_eq_bind,
        Option.bind_some, hm₁, hm₂]
    · show handler.size + 1 = _
      rw [h.size, hold, hlist]
      simp only [List.length_append, List.length_cons]
      omega
    · have hsorted := h.sorted
      rw [hold] at hsorted
      obtain ⟨hb, ha, hba⟩ := List.pairwise_append.mp hsorted
      rw [hlist]
      refine List.pairwise_append.mpr ⟨hb, List.pairwise_cons.mpr ⟨hhigh, ha⟩,
        fun x hx y hy => ?_⟩
      rcases List.mem_cons.mp hy with rfl | hy
      · exact hlow x hx
      · exact hba x hx y hy
  · left
    refine ⟨⟨b, hb, sideOf_none hside⟩, ?_⟩
    simp only [eafMapInsert, hloop, hnone, Option.map_none,
      Option.bind_eq_bind, Option.bind_some]

/-- **`eaf_map_erase`.**  The node is taken out, and all others keep their
order. -/
theorem EafMap.Shows.erase {key : Ptr → K} (h : handler.Shows key T)
    (hn : n ∈ T.toList) :
    ∃ handler' T' before after, eafMapErase handler n = some handler' ∧
      handler'.Shows key T' ∧ T.toList = before ++ n :: after ∧
      T'.toList = before ++ after := by
  obtain ⟨path, c, l, r, rfl⟩ := Path.exists_fill hn
  obtain ⟨m', T', hm, hshows, hlist, hbal⟩ :=
    eafMapLowErase_spec h.balanced h.mem h.size.ge
  have hold := Path.toList_fill path (.node c l n r)
  simp only [RedBlack.Tree.toList, List.append_assoc, List.cons_append] at hold hlist
  refine ⟨⟨m', handler.size - 1⟩, T', path.before ++ l.toList,
    r.toList ++ path.after, ?_, ⟨hshows, ?_, ?_, hbal⟩, ?_, ?_⟩
  · simp only [eafMapErase, hm, Option.bind_eq_bind, Option.bind_some]
  · show handler.size - 1 = _
    rw [h.size, hold, hlist]
    simp only [List.length_append, List.length_cons]
    omega
  · refine h.sorted.sublist ?_
    rw [hlist, hold]
    simp
  · rw [hold, List.append_assoc]
  · rw [hlist, List.append_assoc]

/-- A call that is allowed keeps the map in shape, and ends. -/
theorem EafMap.Shows.next (h : handler.Shows order.key T) {op : MapOp}
    (hop : op.allowed handler) :
    ∃ handler' evs, mapNext order.cmp handler op = some (handler', evs) ∧
      ∃ T', handler'.Shows order.key T' := by
  cases op with
  | insert n =>
      obtain ⟨hn, hfresh⟩ := hop
      rw [h.nodes] at hfresh
      rcases h.insert hn hfresh with
        ⟨-, hdup⟩ | ⟨handler', T', _, _, hok, hshows, -⟩
      · exact ⟨handler, _, by rw [mapNext, hdup]; rfl, T, h⟩
      · exact ⟨handler', _, by rw [mapNext, hok]; rfl, T', hshows⟩
  | erase n =>
      have hmem : n ∈ T.toList := h.nodes ▸ hop
      obtain ⟨handler', T', _, _, hok, hshows, -⟩ := h.erase hmem
      exact ⟨handler', _, by rw [mapNext, hok]; rfl, T', hshows⟩

/-- The pointers of the nodes are those of the tree. -/
theorem EafMap.Shows.parentsAgree {key : Ptr → K} (h : handler.Shows key T) :
    handler.ParentsAgree := by
  have hmem : ∀ q, q ∈ handler.nodes ↔
      ∃ k, (q, k) ∈ cells 0 T := by
    intro q
    rw [h.nodes, ← Multiset.mem_coe, ← cells_addresses 0 T]
    simp
  have haddr : ∀ {q k}, (q, k) ∈ cells 0 T → q &&& 3 = 0 :=
    fun hk => (h.mem.1.valid _ hk).2
  have hreads : ∀ {q k}, (q, k) ∈ cells 0 T → handler.mem.node q = k :=
    fun hk => h.mem.1.reads _ hk
  constructor
  · rintro p hp d q rfl
    obtain ⟨k, hk⟩ := (hmem p).mp hp
    rw [hreads hk]
    rcases mem_cells_child hk d with hzero | ⟨k', c, hk', hc⟩
    · exact .inl hzero
    · exact .inr ⟨(hmem _).mpr ⟨k', hk'⟩, by
        rw [hreads hk', hc, rbParent_pack (haddr hk)]⟩
  · rintro q hq p rfl
    obtain ⟨k, hk⟩ := (hmem q).mp hq
    rw [hreads hk]
    rcases mem_cells_parent hk with ⟨hroot, c, hc⟩ | ⟨b, k', c, d, hk', hc, hd⟩
    · exact .inl ⟨by rw [hc, rbParent_pack rfl], h.mem.2.trans hroot⟩
    · rw [hc, rbParent_pack (haddr hk')]
      exact .inr ⟨(hmem b).mpr ⟨k', hk'⟩, d, by rw [hreads hk', hd]⟩

/-- **A map shows a tree at every moment of a run.** -/
theorem MapRun.shows {node : Ptr → MapLowNode} {tr : List (MapOp × Int)}
    (h : MapRun order.cmp node tr handler) : ∃ T, handler.Shows order.key T := by
  induction h with
  | refl => exact ⟨_, EafMap.shows_init ..⟩
  | snoc _ hstep ih =>
      obtain ⟨T, hT⟩ := ih
      obtain ⟨op, hop, hnext⟩ := hstep
      obtain ⟨handler', evs, hnext', T', hshows⟩ := hT.next hop
      rw [hnext] at hnext'
      cases hnext'
      exact ⟨T', hshows⟩

end Utils
end Eaf

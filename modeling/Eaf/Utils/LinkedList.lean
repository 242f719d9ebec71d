import Eaf.Foundation.LinkedSegments
import Eaf.Utils.MapLow

/-!
# The doubly linked list

`list.c`: a list is a handler with the first node, the last node and the
number of nodes; a node has the address of the next node and of the one before
it, and its memory is the user's.  As for the maps, a pointer is an address and
following a null pointer ends the run.
-/

namespace Eaf
namespace Utils

open Linked Iteration

/-- `eaf_list_node_t` -/
structure EafListNode where
  pAfter : Ptr
  pBefore : Ptr
  deriving DecidableEq, Repr

/-- `eaf_list_t` -/
structure EafList where
  head : Ptr
  tail : Ptr
  size : Nat
  deriving DecidableEq, Repr

/-- The memory with the nodes, and the handler of one list. -/
structure ListMem where
  node : Ptr → EafListNode
  handler : EafList

/-- `eaf_list_init` -/
def eafListInit : EafList := ⟨0, 0, 0⟩

namespace ListMem

/-- Reading the node at an address. -/
def deref (m : ListMem) (p : Ptr) : Option EafListNode :=
  if p = 0 then none else some (m.node p)

/-- `p->p_after = v` -/
def setAfter (m : ListMem) (p v : Ptr) : Option ListMem :=
  if p = 0 then none
  else some { m with
    node := Function.update m.node p { m.node p with pAfter := v } }

/-- `p->p_before = v` -/
def setBefore (m : ListMem) (p v : Ptr) : Option ListMem :=
  if p = 0 then none
  else some { m with
    node := Function.update m.node p { m.node p with pBefore := v } }

/-- `handler->head = p` -/
def setHead (m : ListMem) (p : Ptr) : ListMem :=
  { m with handler := { m.handler with head := p } }

/-- `handler->tail = p` -/
def setTail (m : ListMem) (p : Ptr) : ListMem :=
  { m with handler := { m.handler with tail := p } }

/-- `handler->size = n` -/
def setSize (m : ListMem) (n : Nat) : ListMem :=
  { m with handler := { m.handler with size := n } }

/-- `_list_lite_set_once` -/
def listLiteSetOnce (m : ListMem) (node : Ptr) : Option ListMem := do
  let m := m.setHead node
  let m := m.setTail node
  let m ← m.setAfter node 0
  let m ← m.setBefore node 0
  some (m.setSize 1)

/-- `eaf_list_push_back` -/
def eafListPushBack (m : ListMem) (node : Ptr) : Option ListMem :=
  if m.handler.head = 0 then m.listLiteSetOnce node
  else do
    let m ← m.setAfter node 0
    let m ← m.setBefore node m.handler.tail
    let m ← m.setAfter m.handler.tail node
    let m := m.setTail node
    some (m.setSize (m.handler.size + 1))

/-- `eaf_list_push_front` -/
def eafListPushFront (m : ListMem) (node : Ptr) : Option ListMem :=
  if m.handler.head = 0 then m.listLiteSetOnce node
  else do
    let m ← m.setBefore node 0
    let m ← m.setAfter node m.handler.head
    let m ← m.setBefore m.handler.head node
    let m := m.setHead node
    some (m.setSize (m.handler.size + 1))

/-- `eaf_list_insert_before` -/
def eafListInsertBefore (m : ListMem) (pos node : Ptr) : Option ListMem :=
  if m.handler.head = pos then m.eafListPushFront node
  else do
    let p ← m.deref pos
    let m ← m.setBefore node p.pBefore
    let m ← m.setAfter node pos
    let p ← m.deref pos
    let m ← m.setAfter p.pBefore node
    let m ← m.setBefore pos node
    some (m.setSize (m.handler.size + 1))

/-- `eaf_list_insert_after` -/
def eafListInsertAfter (m : ListMem) (pos node : Ptr) : Option ListMem :=
  if m.handler.tail = pos then m.eafListPushBack node
  else do
    let m ← m.setBefore node pos
    let p ← m.deref pos
    let m ← m.setAfter node p.pAfter
    let p ← m.deref pos
    let m ← m.setBefore p.pAfter node
    let m ← m.setAfter pos node
    some (m.setSize (m.handler.size + 1))

/-- `eaf_list_begin` -/
def eafListBegin (m : ListMem) : Ptr := m.handler.head

/-- `eaf_list_end` -/
def eafListEnd (m : ListMem) : Ptr := m.handler.tail

/-- `eaf_list_next` -/
def eafListNext (m : ListMem) (node : Ptr) : Option Ptr :=
  (m.deref node).map (·.pAfter)

/-- `eaf_list_prev` -/
def eafListPrev (m : ListMem) (node : Ptr) : Option Ptr :=
  (m.deref node).map (·.pBefore)

/-- `eaf_list_erase` -/
def eafListErase (m : ListMem) (node : Ptr) : Option ListMem :=
  let m := m.setSize (m.handler.size - 1)
  if m.handler.head = node ∧ m.handler.tail = node then
    some ((m.setHead 0).setTail 0)
  else if m.handler.head = node then do
    let n ← m.deref node
    let m ← m.setBefore n.pAfter 0
    let n ← m.deref node
    some (m.setHead n.pAfter)
  else if m.handler.tail = node then do
    let n ← m.deref node
    let m ← m.setAfter n.pBefore 0
    let n ← m.deref node
    some (m.setTail n.pBefore)
  else do
    let n ← m.deref node
    let m ← m.setAfter n.pBefore n.pAfter
    let n ← m.deref node
    m.setBefore n.pAfter n.pBefore

/-- `eaf_list_pop_front`, with the node it returns. -/
def eafListPopFront (m : ListMem) : Option (ListMem × Ptr) :=
  let node := m.handler.head
  if node = 0 then some (m, 0)
  else do
    let m ← m.eafListErase node
    some (m, node)

/-- `eaf_list_pop_back`, with the node it returns. -/
def eafListPopBack (m : ListMem) : Option (ListMem × Ptr) :=
  let node := m.handler.tail
  if node = 0 then some (m, 0)
  else do
    let m ← m.eafListErase node
    some (m, node)

/-- `eaf_list_size` -/
def eafListSize (m : ListMem) : Nat := m.handler.size

/-- The list consists of these nodes. -/
structure Shows (m : ListMem) (xs : List Ptr) : Prop where
  segment : Segment (fun p => (m.node p).pAfter) (fun p => (m.node p).pBefore)
    0 xs 0
  head : m.handler.head = xs.headD 0
  tail : m.handler.tail = xs.getLastD 0
  size : m.handler.size = xs.length
  nonnull : ∀ p ∈ xs, p ≠ 0
  nodup : xs.Nodup

/-- The operation succeeds; the list then consists of other nodes, and of all
nodes in memory only those of the list and `n` have been written to. -/
def Becomes (m : ListMem) (xs : List Ptr) (n : Ptr) (ys : List Ptr)
    (result : Option ListMem) : Prop :=
  ∃ m', result = some m' ∧ m'.Shows ys ∧
    ∀ p, p ∉ xs → p ≠ n → m'.node p = m.node p

variable {m m' : ListMem} {xs front back : List Ptr} {n pos : Ptr}

theorem shows_init (node : Ptr → EafListNode) :
    Shows ⟨node, eafListInit⟩ [] where
  segment := trivial
  head := rfl
  tail := rfl
  size := rfl
  nonnull := by simp
  nodup := .nil

/-- A list depends on its handler and its nodes only. -/
theorem Shows.congr (h : m.Shows xs) (hhandler : m'.handler = m.handler)
    (hnode : ∀ p ∈ xs, m'.node p = m.node p) : m'.Shows xs where
  segment := h.segment.congr fun p hp =>
    ⟨congrArg EafListNode.pAfter (hnode p hp),
      congrArg EafListNode.pBefore (hnode p hp)⟩
  head := hhandler ▸ h.head
  tail := hhandler ▸ h.tail
  size := hhandler ▸ h.size
  nonnull := h.nonnull
  nodup := h.nodup

/-- An end of a part of the list that is not the null pointer. -/
theorem headD_mem (h : back.headD 0 ≠ 0) : back.headD 0 ∈ back := by
  cases back with
  | nil => exact absurd rfl h
  | cons p rest => exact List.mem_cons_self

theorem getLastD_mem (h : front.getLastD 0 ≠ 0) :
    front.getLastD 0 ∈ front := by
  rcases List.eq_nil_or_concat front with rfl | ⟨rest, p, rfl⟩
  · exact absurd rfl h
  · rw [List.concat_eq_append, getLastD_append]
    exact List.mem_append_right _ (List.mem_singleton.mpr rfl)

/-! ## Linking a node between two parts of a list -/

/-- The nodes after `n` has been linked between `a` and `b`. -/
def spliced (node : Ptr → EafListNode) (a n b p : Ptr) : EafListNode :=
  if p = n then ⟨b, a⟩
  else
    ⟨if p = a ∧ a ≠ 0 then n else (node p).pAfter,
      if p = b ∧ b ≠ 0 then n else (node p).pBefore⟩

/-- Linking a node between the parts of a list puts it there. -/
theorem Shows.splice (front back : List Ptr) (m' : ListMem)
    (h : m.Shows (front ++ back)) (hn : n ≠ 0)
    (hnot : n ∉ front ++ back)
    (hnode : ∀ p, m'.node p =
      spliced m.node (front.getLastD 0) n (back.headD 0) p)
    (hhead : m'.handler.head = (front ++ n :: back).headD 0)
    (htail : m'.handler.tail = (front ++ n :: back).getLastD 0)
    (hsize : m'.handler.size = m.handler.size + 1) :
    m.Becomes (front ++ back) n (front ++ n :: back) (some m') := by
  obtain ⟨hfront, hback⟩ := segment_append.mp h.segment
  have hnodup := h.nodup
  rw [List.nodup_append] at hnodup
  obtain ⟨hnodupFront, hnodupBack, hapart⟩ := hnodup
  have hnfront : n ∉ front := fun hmem => hnot (List.mem_append_left _ hmem)
  have hnback : n ∉ back := fun hmem => hnot (List.mem_append_right _ hmem)
  have hfront0 : ∀ p ∈ front, p ≠ 0 := fun p hp =>
    h.nonnull p (List.mem_append_left _ hp)
  have hback0 : ∀ p ∈ back, p ≠ 0 := fun p hp =>
    h.nonnull p (List.mem_append_right _ hp)
  refine ⟨m', rfl, ⟨?_, hhead, htail, ?_, ?_, ?_⟩, fun p hp hpn => ?_⟩
  · refine segment_append.mpr ⟨?_, ?_, ?_, ?_⟩
    · -- the front part ends at the new node
      refine hfront.relink_end hnodupFront (fun p hp => ?_) fun p hp => ?_
      · have hne : p ≠ n := fun heq => hnfront (heq ▸ hp)
        have hb : ¬(p = back.headD 0 ∧ back.headD 0 ≠ 0) := fun hb =>
          hapart p hp _ (headD_mem hb.2) hb.1
        rw [hnode, spliced, if_neg hne, if_neg hb]
      · have hne : p ≠ n := fun heq => hnfront (heq ▸ hp)
        rw [hnode, spliced, if_neg hne]
        by_cases ha : p = front.getLastD 0
        · have ha0 : front.getLastD 0 ≠ 0 := ha ▸ hfront0 p hp
          simp only [ha, ha0, ne_eq, not_false_eq_true, and_self, if_true,
            List.headD_cons]
        · simp only [ha, false_and, if_false]
    · show (m'.node n).pBefore = _
      rw [hnode, spliced, if_pos rfl]
    · show (m'.node n).pAfter = _
      rw [hnode, spliced, if_pos rfl]
    · -- the back part starts at the new node
      refine hback.relink_start hnodupBack (fun p hp => ?_) fun p hp => ?_
      · have hne : p ≠ n := fun heq => hnback (heq ▸ hp)
        have ha : ¬(p = front.getLastD 0 ∧ front.getLastD 0 ≠ 0) := fun ha =>
          hapart _ (getLastD_mem ha.2) p hp ha.1.symm
        rw [hnode, spliced, if_neg hne, if_neg ha]
      · have hne : p ≠ n := fun heq => hnback (heq ▸ hp)
        rw [hnode, spliced, if_neg hne]
        by_cases hb : p = back.headD 0
        · have hb0 : back.headD 0 ≠ 0 := hb ▸ hback0 p hp
          simp only [hb, hb0, ne_eq, not_false_eq_true, and_self, if_true]
        · simp only [hb, false_and, if_false]
  · rw [hsize, h.size]
    simp only [List.length_append, List.length_cons]
    omega
  · intro p hp
    rcases List.mem_append.mp hp with hp | hp
    · exact hfront0 p hp
    · rcases List.mem_cons.mp hp with rfl | hp
      · exact hn
      · exact hback0 p hp
  · rw [List.nodup_append]
    refine ⟨hnodupFront, List.nodup_cons.mpr ⟨hnback, hnodupBack⟩, ?_⟩
    intro a ha b hb
    rcases List.mem_cons.mp hb with rfl | hb
    · exact fun heq => hnfront (heq ▸ ha)
    · exact hapart a ha b hb
  · -- a node of neither part is neither of the neighbours
    have ha : ¬(p = front.getLastD 0 ∧ front.getLastD 0 ≠ 0) := fun ha =>
      hp (List.mem_append_left _ (ha.1 ▸ getLastD_mem ha.2))
    have hb : ¬(p = back.headD 0 ∧ back.headD 0 ≠ 0) := fun hb =>
      hp (List.mem_append_right _ (hb.1 ▸ headD_mem hb.2))
    rw [hnode, spliced, if_neg hpn, if_neg ha, if_neg hb]

/-- A list without nodes has no first node. -/
theorem Shows.head_eq_zero (h : m.Shows xs) : m.handler.head = 0 ↔ xs = [] := by
  rw [h.head]
  cases xs with
  | nil => simp
  | cons p rest => simpa using h.nonnull p (by simp)

theorem Shows.tail_eq_zero (h : m.Shows xs) : m.handler.tail = 0 ↔ xs = [] := by
  rw [h.tail]
  rcases List.eq_nil_or_concat xs with rfl | ⟨rest, p, rfl⟩
  · simp
  · rw [List.concat_eq_append] at h ⊢
    rw [getLastD_append]
    simpa using h.nonnull p (by simp)

/-- The only node of a list. -/
theorem Shows.listLiteSetOnce (h : m.Shows []) (hn : n ≠ 0) :
    m.Becomes [] n [n] (m.listLiteSetOnce n) := by
  have hresult := Shows.splice [] []
    ⟨Function.update m.node n ⟨0, 0⟩, ⟨n, n, 1⟩⟩ h hn (by simp) (fun p => by
      by_cases hp : p = n <;> simp [spliced, Function.update, hp]) rfl rfl
    (by rw [h.size]; rfl)
  simpa [ListMem.listLiteSetOnce, setHead, setTail, setAfter, setBefore,
    setSize, hn] using hresult

theorem Shows.eafListPushBack (h : m.Shows xs) (hn : n ≠ 0) (hnot : n ∉ xs) :
    m.Becomes xs n (xs ++ [n]) (m.eafListPushBack n) := by
  rw [ListMem.eafListPushBack]
  by_cases hxs : xs = []
  · subst hxs
    rw [if_pos (h.head_eq_zero.mpr rfl)]
    exact h.listLiteSetOnce hn
  · rw [if_neg fun h0 => hxs (h.head_eq_zero.mp h0)]
    have htail : m.handler.tail ≠ 0 := fun h0 => hxs (h.tail_eq_zero.mp h0)
    have hne : m.handler.tail ≠ n := by
      rw [h.tail] at htail ⊢
      exact fun heq => hnot (heq ▸ getLastD_mem htail)
    have h' : m.Shows (xs ++ []) := by rwa [List.append_nil]
    have hresult := Shows.splice xs []
      ⟨Function.update (Function.update m.node n ⟨0, m.handler.tail⟩)
        m.handler.tail { m.node m.handler.tail with pAfter := n },
        ⟨m.handler.head, n, m.handler.size + 1⟩⟩ h' hn (by simpa using hnot)
      (fun p => by
        rw [← h.tail]
        by_cases hp : p = n
        · subst hp
          simp [spliced, Function.update, hne.symm]
        · by_cases ht : p = m.handler.tail <;>
            simp [spliced, Function.update, hp, ht, htail, hne])
      (h.head.trans (by cases xs <;> simp at hxs ⊢))
      (by rw [getLastD_append]; rfl) rfl
    rw [List.append_nil] at hresult
    simpa [setAfter, setBefore, setTail, setSize, hn, htail, hne,
      Function.update] using hresult

theorem Shows.eafListPushFront (h : m.Shows xs) (hn : n ≠ 0) (hnot : n ∉ xs) :
    m.Becomes xs n (n :: xs) (m.eafListPushFront n) := by
  rw [ListMem.eafListPushFront]
  by_cases hxs : xs = []
  · subst hxs
    rw [if_pos (h.head_eq_zero.mpr rfl)]
    exact h.listLiteSetOnce hn
  · have hhead : m.handler.head ≠ 0 := fun h0 => hxs (h.head_eq_zero.mp h0)
    rw [if_neg hhead]
    have hne : m.handler.head ≠ n := by
      rw [h.head] at hhead ⊢
      exact fun heq => hnot (heq ▸ headD_mem hhead)
    have hresult := Shows.splice [] xs
      ⟨Function.update (Function.update m.node n ⟨m.handler.head, 0⟩)
        m.handler.head { m.node m.handler.head with pBefore := n },
        ⟨n, m.handler.tail, m.handler.size + 1⟩⟩ h hn hnot
      (fun p => by
        rw [← h.head]
        by_cases hp : p = n
        · subst hp
          simp [spliced, Function.update, hne.symm]
        · by_cases ht : p = m.handler.head <;>
            simp [spliced, Function.update, hp, ht, hhead, hne])
      rfl (h.tail.trans (by cases xs <;> simp at hxs ⊢)) rfl
    simpa [setAfter, setBefore, setHead, setSize, hn, hhead, hne,
      Function.update] using hresult

/-- What is known of a node of the list. -/
theorem Shows.at_node (h : m.Shows (front ++ pos :: back)) :
    pos ≠ 0 ∧ (m.node pos).pBefore = front.getLastD 0 ∧
      (m.node pos).pAfter = back.headD 0 := by
  obtain ⟨-, hbefore, hafter, -⟩ := segment_append.mp h.segment
  exact ⟨h.nonnull pos (by simp), hbefore, hafter⟩

/-- The ends of two parts of the list. -/
theorem Shows.ends (h : m.Shows (front ++ back)) (hfront : front ≠ [])
    (hback : back ≠ []) : front.getLastD 0 ∈ front ∧ front.getLastD 0 ≠ 0 ∧
      back.headD 0 ∈ back ∧ back.headD 0 ≠ 0 ∧
        front.getLastD 0 ≠ back.headD 0 := by
  have hnodup := h.nodup
  rw [List.nodup_append] at hnodup
  obtain ⟨-, -, hapart⟩ := hnodup
  have ha : front.getLastD 0 ∈ front := by
    rw [List.getLastD_eq_getLast?, List.getLast?_eq_some_getLast hfront]
    exact List.getLast_mem _
  have hb : back.headD 0 ∈ back := by
    cases back with
    | nil => exact absurd rfl hback
    | cons p rest => exact List.mem_cons_self
  exact ⟨ha, h.nonnull _ (List.mem_append_left _ ha), hb,
    h.nonnull _ (List.mem_append_right _ hb), hapart _ ha _ hb⟩

/-- A node with others before it is not the first one. -/
theorem Shows.head_ne (h : m.Shows (front ++ pos :: back))
    (hfront : front ≠ []) : m.handler.head ≠ pos := by
  have hnodup := h.nodup
  rw [List.nodup_append] at hnodup
  rw [h.head]
  cases front with
  | nil => exact absurd rfl hfront
  | cons p rest => exact hnodup.2.2 p (by simp) pos (by simp)

/-- A node with others after it is not the last one. -/
theorem Shows.tail_ne (h : m.Shows (front ++ pos :: back))
    (hback : back ≠ []) : m.handler.tail ≠ pos := by
  have hnodup := h.nodup
  rw [List.nodup_append, List.nodup_cons] at hnodup
  have hlast : back.getLastD pos ∈ back := by
    rw [List.getLastD_eq_getLast?, List.getLast?_eq_some_getLast hback]
    exact List.getLast_mem _
  rw [h.tail, getLastD_append, List.getLastD_cons]
  exact fun heq => hnodup.2.1.1 (heq ▸ hlast)

/-- A node between two others: it gets both pointers, and each neighbour one
of its own. -/
theorem Shows.link (h : m.Shows (front ++ back)) (hfront : front ≠ [])
    (hback : back ≠ []) (hn : n ≠ 0) (hnot : n ∉ front ++ back) {a b : Ptr}
    (ha : a = front.getLastD 0) (hb : b = back.headD 0) :
    m.Becomes (front ++ back) n (front ++ n :: back) (some
      ⟨Function.update (Function.update (Function.update m.node n ⟨b, a⟩)
        a { m.node a with pAfter := n }) b { m.node b with pBefore := n },
        { m.handler with size := m.handler.size + 1 }⟩) := by
  subst ha hb
  obtain ⟨haMem, ha0, hbMem, hb0, hab⟩ := h.ends hfront hback
  have han : front.getLastD 0 ≠ n := fun heq =>
    hnot (List.mem_append_left _ (heq ▸ haMem))
  have hbn : back.headD 0 ≠ n := fun heq =>
    hnot (List.mem_append_right _ (heq ▸ hbMem))
  refine Shows.splice front back _ h hn hnot (fun p => ?_) ?_ ?_ rfl
  · generalize front.getLastD 0 = a at *
    generalize back.headD 0 = b at *
    by_cases hp : p = n
    · subst hp
      simp [spliced, Function.update, han.symm, hbn.symm]
    · by_cases hpa : p = a
      · subst hpa
        simp [spliced, Function.update, hp, ha0, hab]
      · by_cases hpb : p = b <;>
          simp [spliced, Function.update, hp, hpa, hpb, hb0, hbn, hab.symm]
  · rw [h.head]
    cases front with
    | nil => exact absurd rfl hfront
    | cons p rest => rfl
  · rw [h.tail, getLastD_append, getLastD_append, List.getLastD_cons]
    cases back with
    | nil => exact absurd rfl hback
    | cons p rest => rw [List.getLastD_cons, List.getLastD_cons]

theorem Shows.eafListInsertBefore (h : m.Shows (front ++ pos :: back))
    (hn : n ≠ 0) (hnot : n ∉ front ++ pos :: back) :
    m.Becomes (front ++ pos :: back) n (front ++ n :: pos :: back)
      (m.eafListInsertBefore pos n) := by
  obtain ⟨hpos, hbefore, -⟩ := h.at_node
  rw [ListMem.eafListInsertBefore]
  by_cases hfront : front = []
  · subst hfront
    rw [if_pos (show m.handler.head = pos from h.head)]
    exact h.eafListPushFront hn hnot
  · obtain ⟨haMem, ha0, hbMem, -, hab⟩ := h.ends hfront (List.cons_ne_nil _ _)
    have hpn : pos ≠ n := fun heq => hnot (heq ▸ by simp)
    have han : front.getLastD 0 ≠ n := fun heq =>
      hnot (List.mem_append_left _ (heq ▸ haMem))
    have hresult := h.link hfront (List.cons_ne_nil _ _) hn hnot rfl rfl
    rw [if_neg (h.head_ne hfront)]
    rw [List.headD_cons] at hab hresult
    rw [← hbefore] at hab ha0 han hresult
    simpa [deref, setAfter, setBefore, setSize, hpos, hn, hpn, Function.update,
      han, hab, ha0, hab.symm] using hresult

theorem Shows.eafListInsertAfter (h : m.Shows (front ++ pos :: back))
    (hn : n ≠ 0) (hnot : n ∉ front ++ pos :: back) :
    m.Becomes (front ++ pos :: back) n (front ++ pos :: n :: back)
      (m.eafListInsertAfter pos n) := by
  obtain ⟨hpos, -, hafter⟩ := h.at_node
  have hsplit : ∀ rest, front ++ pos :: rest = (front ++ [pos]) ++ rest := by simp
  rw [ListMem.eafListInsertAfter]
  by_cases hback : back = []
  · subst hback
    have htail : m.handler.tail = pos := by
      rw [h.tail, getLastD_append]
      rfl
    rw [if_pos htail, hsplit [n]]
    exact h.eafListPushBack hn hnot
  · rw [if_neg (h.tail_ne hback)]
    rw [hsplit] at h hnot ⊢
    rw [hsplit]
    have hfront : front ++ [pos] ≠ [] := by simp
    obtain ⟨-, -, hbMem, hb0, hab⟩ := h.ends hfront hback
    have hpn : pos ≠ n := fun heq => hnot (heq ▸ by simp)
    have hbn : back.headD 0 ≠ n := fun heq =>
      hnot (List.mem_append_right _ (heq ▸ hbMem))
    have hresult := h.link hfront hback hn hnot rfl rfl
    rw [getLastD_append] at hab hresult
    replace hab : pos ≠ back.headD 0 := hab
    -- the code writes to the two neighbours in the other order
    rw [Function.update_comm (show [pos].getLastD _ ≠ _ from hab)] at hresult
    rw [← hafter] at hab hb0 hbn hresult
    simpa [deref, setAfter, setBefore, setSize, hpos, hn, hpn, Function.update,
      hbn, hab, hb0, hab.symm] using hresult

/-! ## Taking a node out -/

/-- The nodes after the one between `a` and `b` has been taken out. -/
def unlinked (node : Ptr → EafListNode) (a b p : Ptr) : EafListNode :=
  ⟨if p = a ∧ a ≠ 0 then b else (node p).pAfter,
    if p = b ∧ b ≠ 0 then a else (node p).pBefore⟩

section Unlinked

variable {node : Ptr → EafListNode} {a b p : Ptr}

theorem unlinked_first (hb : b ≠ 0) :
    Function.update node b { node b with pBefore := 0 } p =
      unlinked node 0 b p := by
  by_cases hp : p = b
  · subst hp
    simp [unlinked, hb]
  · simp [unlinked, Function.update, hp]

theorem unlinked_last (ha : a ≠ 0) :
    Function.update node a { node a with pAfter := 0 } p =
      unlinked node a 0 p := by
  by_cases hp : p = a
  · subst hp
    simp [unlinked, ha]
  · simp [unlinked, Function.update, hp]

theorem unlinked_middle (ha : a ≠ 0) (hb : b ≠ 0) (hab : a ≠ b) :
    Function.update (Function.update node a { node a with pAfter := b }) b
      { node b with pBefore := a } p = unlinked node a b p := by
  by_cases hpb : p = b
  · subst hpb
    simp [unlinked, hb, hab.symm]
  · by_cases hpa : p = a
    · subst hpa
      simp [unlinked, ha, hpb]
    · simp [unlinked, Function.update, hpa, hpb]

end Unlinked

/-- Taking a node out joins the parts of the list before and after it. -/
theorem Shows.unlink (front back : List Ptr) (m' : ListMem)
    (h : m.Shows (front ++ n :: back))
    (hnode : ∀ p, m'.node p =
      unlinked m.node (front.getLastD 0) (back.headD 0) p)
    (hhead : m'.handler.head = (front ++ back).headD 0)
    (htail : m'.handler.tail = (front ++ back).getLastD 0)
    (hsize : m'.handler.size = m.handler.size - 1) :
    m.Becomes (front ++ n :: back) n (front ++ back) (some m') := by
  obtain ⟨hfront, -, -, hback⟩ := segment_append.mp h.segment
  have hnodup := h.nodup
  rw [List.nodup_append, List.nodup_cons] at hnodup
  obtain ⟨hnodupFront, ⟨-, hnodupBack⟩, hapart⟩ := hnodup
  replace hapart : ∀ a ∈ front, ∀ b ∈ back, a ≠ b := fun a ha b hb =>
    hapart a ha b (List.mem_cons_of_mem n hb)
  have hsub : ∀ p ∈ front ++ back, p ∈ front ++ n :: back := fun p hp =>
    (List.mem_append.mp hp).elim (List.mem_append_left _) fun hp =>
      List.mem_append_right _ (List.mem_cons_of_mem n hp)
  refine ⟨m', rfl, ⟨?_, hhead, htail, ?_, ?_, ?_⟩, fun p hp hpn => ?_⟩
  · refine segment_append.mpr ⟨?_, ?_⟩
    · refine hfront.relink_end hnodupFront (fun p hp => ?_) fun p hp => ?_
      · have hb : ¬(p = back.headD 0 ∧ back.headD 0 ≠ 0) := fun hb =>
          hapart p hp _ (headD_mem hb.2) hb.1
        rw [hnode, unlinked, if_neg hb]
      · rw [hnode, unlinked]
        by_cases ha : p = front.getLastD 0
        · have ha0 : front.getLastD 0 ≠ 0 :=
            ha ▸ h.nonnull p (List.mem_append_left _ hp)
          simp only [ha, ha0, ne_eq, not_false_eq_true, and_self, if_true]
        · simp only [ha, false_and, if_false]
    · refine hback.relink_start hnodupBack (fun p hp => ?_) fun p hp => ?_
      · have ha : ¬(p = front.getLastD 0 ∧ front.getLastD 0 ≠ 0) := fun ha =>
          hapart _ (getLastD_mem ha.2) p hp ha.1.symm
        rw [hnode, unlinked, if_neg ha]
      · rw [hnode, unlinked]
        by_cases hb : p = back.headD 0
        · have hb0 : back.headD 0 ≠ 0 :=
            hb ▸ h.nonnull p (hsub p (List.mem_append_right _ hp))
          simp only [hb, hb0, ne_eq, not_false_eq_true, and_self, if_true]
        · simp only [hb, false_and, if_false]
  · rw [hsize, h.size]
    simp only [List.length_append, List.length_cons]
    omega
  · exact fun p hp => h.nonnull p (hsub p hp)
  · exact List.nodup_append.mpr ⟨hnodupFront, hnodupBack, hapart⟩
  · have ha : ¬(p = front.getLastD 0 ∧ front.getLastD 0 ≠ 0) := fun ha =>
      hp (hsub p (List.mem_append_left _ (ha.1 ▸ getLastD_mem ha.2)))
    have hb : ¬(p = back.headD 0 ∧ back.headD 0 ≠ 0) := fun hb =>
      hp (hsub p (List.mem_append_right _ (hb.1 ▸ headD_mem hb.2)))
    rw [hnode, unlinked, if_neg ha, if_neg hb]

/-- The nodes before and after a node of the list. -/
theorem Shows.neighbours (h : m.Shows (front ++ n :: back)) :
    (front ≠ [] → front.getLastD 0 ≠ 0 ∧ front.getLastD 0 ≠ n ∧
      front.getLastD 0 ≠ back.headD 0) ∧
      (back ≠ [] → back.headD 0 ≠ 0 ∧ back.headD 0 ≠ n) := by
  constructor
  · intro hfront
    obtain ⟨haMem, ha0, -, -, hab⟩ := h.ends hfront (List.cons_ne_nil _ _)
    refine ⟨ha0, hab, ?_⟩
    cases back with
    | nil => exact ha0
    | cons b rest =>
        have hnodup := h.nodup
        rw [List.nodup_append] at hnodup
        exact hnodup.2.2 _ haMem b (by simp)
  · intro hback
    have h' : m.Shows ((front ++ [n]) ++ back) := by simpa using h
    obtain ⟨-, -, -, hb0, hab⟩ := h'.ends (by simp) hback
    rw [getLastD_append] at hab
    exact ⟨hb0, fun heq => hab heq.symm⟩

theorem Shows.eafListErase (h : m.Shows (front ++ n :: back)) :
    m.Becomes (front ++ n :: back) n (front ++ back) (m.eafListErase n) := by
  obtain ⟨hn, hbefore, hafter⟩ := h.at_node
  obtain ⟨hleft, hright⟩ := h.neighbours
  by_cases hfront : front = []
  · subst hfront
    have hhead : m.handler.head = n := h.head
    by_cases hback : back = []
    · -- the only node
      subst hback
      have htail : m.handler.tail = n := h.tail
      have hresult := Shows.unlink [] [] ⟨m.node, ⟨0, 0, m.handler.size - 1⟩⟩ h
        (fun p => by simp [unlinked]) rfl rfl rfl
      simpa [ListMem.eafListErase, setSize, setHead, setTail, hhead, htail] using
        hresult
    · -- the first node
      obtain ⟨hb0, hbn⟩ := hright hback
      have htail := h.tail_ne hback
      have hlast : m.handler.tail = back.getLastD 0 := by
        rw [h.tail]
        cases back with
        | nil => exact absurd rfl hback
        | cons p rest => rfl
      have hresult := Shows.unlink [] back
        ⟨Function.update m.node (back.headD 0)
          { m.node (back.headD 0) with pBefore := 0 },
          ⟨back.headD 0, m.handler.tail, m.handler.size - 1⟩⟩ h
        (fun _ => unlinked_first hb0) rfl hlast rfl
      rw [← hafter] at hb0 hbn hresult
      simpa [ListMem.eafListErase, setSize, setHead, deref, setBefore, hhead,
        htail, hn, hb0, hbn, Function.update, hbn.symm] using hresult
  · obtain ⟨ha0, han, hab⟩ := hleft hfront
    have hhead := h.head_ne hfront
    have hfirst : m.handler.head = (front ++ back).headD 0 := by
      rw [h.head]
      cases front with
      | nil => exact absurd rfl hfront
      | cons p rest => rfl
    by_cases hback : back = []
    · -- the last node
      subst hback
      have htail : m.handler.tail = n := by
        rw [h.tail, getLastD_append]
        rfl
      have hresult := Shows.unlink front []
        ⟨Function.update m.node (front.getLastD 0)
          { m.node (front.getLastD 0) with pAfter := 0 },
          ⟨m.handler.head, front.getLastD 0, m.handler.size - 1⟩⟩ h
        (fun _ => unlinked_last ha0) hfirst (by rw [List.append_nil]) rfl
      rw [← hbefore] at ha0 han hresult
      simpa [ListMem.eafListErase, setSize, setTail, deref, setAfter, hhead,
        htail, hn, ha0, han, Function.update, han.symm] using hresult
    · -- a node in the middle
      obtain ⟨hb0, hbn⟩ := hright hback
      have htail := h.tail_ne hback
      have hlast : m.handler.tail = (front ++ back).getLastD 0 := by
        rw [h.tail, getLastD_append, getLastD_append]
        cases back with
        | nil => exact absurd rfl hback
        | cons p rest => rfl
      have hresult := Shows.unlink front back
        ⟨Function.update (Function.update m.node (front.getLastD 0)
          { m.node (front.getLastD 0) with pAfter := back.headD 0 })
          (back.headD 0)
          { m.node (back.headD 0) with pBefore := front.getLastD 0 },
          ⟨m.handler.head, m.handler.tail, m.handler.size - 1⟩⟩ h
        (fun _ => unlinked_middle ha0 hb0 hab) hfirst hlast rfl
      rw [← hbefore, ← hafter] at hab hresult
      rw [← hbefore] at ha0 han
      rw [← hafter] at hb0 hbn
      simpa [ListMem.eafListErase, setSize, deref, setAfter, setBefore, hhead,
        htail, hn, ha0, han, hb0, hbn, hab, hab.symm, Function.update,
        han.symm] using hresult

theorem Shows.eafListPopFront_nil (h : m.Shows []) :
    m.eafListPopFront = some (m, 0) := by
  rw [ListMem.eafListPopFront, if_pos (h.head_eq_zero.mpr rfl)]

theorem Shows.eafListPopBack_nil (h : m.Shows []) :
    m.eafListPopBack = some (m, 0) := by
  rw [ListMem.eafListPopBack, if_pos (h.tail_eq_zero.mpr rfl)]

theorem Shows.eafListPopFront (h : m.Shows (n :: back)) :
    m.eafListPopFront = (m.eafListErase n).bind fun m' => some (m', n) := by
  have hhead : m.handler.head = n := h.head
  have hn : n ≠ 0 := h.nonnull n (by simp)
  rw [ListMem.eafListPopFront, hhead, if_neg hn]
  rfl

theorem Shows.eafListPopBack (h : m.Shows (front ++ [n])) :
    m.eafListPopBack = (m.eafListErase n).bind fun m' => some (m', n) := by
  have htail : m.handler.tail = n := by
    rw [h.tail, getLastD_append]
    rfl
  have hn : n ≠ 0 := h.nonnull n (by simp)
  rw [ListMem.eafListPopBack, htail, if_neg hn]
  rfl

/-! ## Traversals -/

theorem eafListNext_eq :
    m.eafListNext = follow 0 fun p => (m.node p).pAfter := by
  funext p
  by_cases hp : p = 0 <;> simp [eafListNext, deref, follow, hp]

theorem eafListPrev_eq :
    m.eafListPrev = follow 0 fun p => (m.node p).pBefore := by
  funext p
  by_cases hp : p = 0 <;> simp [eafListPrev, deref, follow, hp]

theorem Shows.forwards {turns : Nat} (h : m.Shows xs)
    (hturns : m.eafListSize < turns) :
    passFrom 0 m.eafListNext turns m.eafListBegin = some xs := by
  have hlength : xs.length < turns := by rwa [← h.size]
  rw [eafListNext_eq, eafListBegin, h.head]
  exact h.segment.passFrom_after h.nonnull hlength

theorem Shows.backwards {turns : Nat} (h : m.Shows xs)
    (hturns : m.eafListSize < turns) :
    passFrom 0 m.eafListPrev turns m.eafListEnd = some xs.reverse := by
  have hlength : xs.length < turns := by rwa [← h.size]
  rw [eafListPrev_eq, eafListEnd, h.tail]
  exact h.segment.passFrom_before h.nonnull hlength

/-- There are no more nodes than addresses; the number fits into a
`size_t`. -/
theorem Shows.size_lt (h : m.Shows xs) : m.eafListSize < 2 ^ 64 := by
  have hnodup : (0 :: xs.map UInt64.toNat).Nodup := by
    refine List.nodup_cons.mpr ⟨fun hmem => ?_,
      h.nodup.map fun _ _ => UInt64.toNat.inj⟩
    obtain ⟨p, hp, hp0⟩ := List.mem_map.mp hmem
    exact h.nonnull p hp (UInt64.toNat.inj hp0)
  have hsub : 0 :: xs.map UInt64.toNat ⊆ List.range (2 ^ 64) := by
    intro k hk
    rcases List.mem_cons.mp hk with rfl | hk
    · exact List.mem_range.mpr (by norm_num)
    · obtain ⟨p, -, rfl⟩ := List.mem_map.mp hk
      exact List.mem_range.mpr p.toNat_lt
  have hle := (List.subperm_of_subset hnodup hsub).length_le
  rw [List.length_range, List.length_cons, List.length_map] at hle
  rw [eafListSize, h.size]
  omega

end ListMem

end Utils
end Eaf

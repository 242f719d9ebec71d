import Eaf.Foundation.LabelledRun
import Eaf.Utils.LinkedList

/-!
# Linked lists are sequences

Any number of lists share one memory.  Whatever is done to them, as long as the
nodes that are put into a list are in none and the others are where the caller
says they are, every list behaves like a sequence of its own.
-/

namespace Eaf
namespace Utils

open LabelledRun Iteration

/-- The operations on a list. -/
inductive ListOp
  | pushFront (node : Ptr)
  | pushBack (node : Ptr)
  | insertBefore (pos node : Ptr)
  | insertAfter (pos node : Ptr)
  | erase (node : Ptr)
  | popFront
  | popBack
  deriving DecidableEq, Repr

namespace ListOp

/-- The node that the operation puts into the list. -/
def new : ListOp → Option Ptr
  | .pushFront node => some node
  | .pushBack node => some node
  | .insertBefore _ node => some node
  | .insertAfter _ node => some node
  | .erase _ => none
  | .popFront => none
  | .popBack => none

/-- The node that must be in the list. -/
def target : ListOp → Option Ptr
  | .pushFront _ => none
  | .pushBack _ => none
  | .insertBefore pos _ => some pos
  | .insertAfter pos _ => some pos
  | .erase node => some node
  | .popFront => none
  | .popBack => none

/-- What the code does, and the pointer it returns. -/
def run (m : ListMem) : ListOp → Option (ListMem × Option Ptr)
  | .pushFront node => (m.eafListPushFront node).map fun m => (m, none)
  | .pushBack node => (m.eafListPushBack node).map fun m => (m, none)
  | .insertBefore pos node =>
      (m.eafListInsertBefore pos node).map fun m => (m, none)
  | .insertAfter pos node =>
      (m.eafListInsertAfter pos node).map fun m => (m, none)
  | .erase node => (m.eafListErase node).map fun m => (m, none)
  | .popFront => m.eafListPopFront.map fun r => (r.1, some r.2)
  | .popBack => m.eafListPopBack.map fun r => (r.1, some r.2)

/-- What the name of the operation says. -/
def act (xs : List Ptr) : ListOp → List Ptr × Option Ptr
  | .pushFront node => (node :: xs, none)
  | .pushBack node => (xs ++ [node], none)
  | .insertBefore pos node =>
      (xs.flatMap fun p => if p = pos then [node, p] else [p], none)
  | .insertAfter pos node =>
      (xs.flatMap fun p => if p = pos then [p, node] else [p], none)
  | .erase node => (xs.erase node, none)
  | .popFront => (xs.tail, some (xs.headD 0))
  | .popBack => (xs.dropLast, some (xs.getLastD 0))

end ListOp

/-- A memory with lists. -/
structure ListHeap (ι : Type*) where
  node : Ptr → EafListNode
  list : ι → EafList

namespace ListHeap

variable {ι : Type*}

/-- The memory as an operation on one list sees it. -/
def view (h : ListHeap ι) (i : ι) : ListMem := ⟨h.node, h.list i⟩

/-- The nodes on the way from the first node of a list to the null pointer. -/
def members (h : ListHeap ι) (i : ι) : List Ptr :=
  (passFrom 0 (h.view i).eafListNext ((h.view i).eafListSize + 1)
    (h.view i).eafListBegin).getD []

variable [DecidableEq ι]

/-- An operation on one of the lists. -/
def next (h : ListHeap ι) (a : ι × ListOp) :
    Option (ListHeap ι × List ((ι × ListOp) × Option Ptr)) :=
  (a.2.run (h.view a.1)).map fun r =>
    (⟨r.1.node, Function.update h.list a.1 r.1.handler⟩, [(a, r.2)])

end ListHeap

/-- An operation on one of some sequences. -/
def actOn {ι : Type*} [DecidableEq ι] (seq : ι → List Ptr) (a : ι × ListOp) :
    Option ((ι → List Ptr) × List ((ι × ListOp) × Option Ptr)) :=
  some (Function.update seq a.1 (a.2.act (seq a.1)).1,
    [(a, (a.2.act (seq a.1)).2)])

/-- What the caller has to see to: a node that is put into a list is in none of
them, and a node of the list is a node of the list. -/
def Allowed {ι : Type*} (members : ι → List Ptr) (a : ι × ListOp) : Prop :=
  (∀ n ∈ a.2.new, n ≠ 0 ∧ ∀ i, n ∉ members i) ∧
    ∀ p ∈ a.2.target, p ∈ members a.1

instance {ι : Type*} [Fintype ι] (members : ι → List Ptr) (a : ι × ListOp) :
    Decidable (Allowed members a) :=
  @instDecidableAnd (∀ n ∈ a.2.new, n ≠ 0 ∧ ∀ i, n ∉ members i)
    (∀ p ∈ a.2.target, p ∈ members a.1) (Option.decidableForallMem _)
    (Option.decidableForallMem _)

section Sequences

variable {xs front back : List Ptr} {pos n : Ptr} {f : Ptr → List Ptr}

/-- Only one of the nodes is replaced. -/
theorem flatMap_at (h : (front ++ pos :: back).Nodup)
    (hf : ∀ p, p ≠ pos → f p = [p]) :
    (front ++ pos :: back).flatMap f = front ++ f pos ++ back := by
  rw [List.nodup_append, List.nodup_cons] at h
  obtain ⟨-, ⟨hback, -⟩, hfront⟩ := h
  have hsame : ∀ ys : List Ptr, pos ∉ ys → ys.flatMap f = ys := by
    intro ys hys
    calc ys.flatMap f = ys.flatMap fun p => [p] :=
          List.flatMap_congr fun p hp => hf p fun heq => hys (heq ▸ hp)
      _ = ys := by simp
  rw [List.flatMap_append, List.flatMap_cons, hsame back hback,
    hsame front fun hmem => hfront pos hmem pos (by simp) rfl,
    List.append_assoc]

/-- Nothing but one node is added. -/
theorem mem_flatMap_pair {p : Ptr} (hf : ∀ q, f q ⊆ [n, q])
    (hp : p ∈ xs.flatMap f) : p ∈ xs ∨ p = n := by
  obtain ⟨q, hq, hmem⟩ := List.mem_flatMap.mp hp
  rcases List.mem_cons.mp (hf q hmem) with rfl | hmem
  · exact .inr rfl
  · obtain rfl := List.mem_singleton.mp hmem
    exact .inl hq

theorem erase_at (h : (front ++ n :: back).Nodup) :
    (front ++ n :: back).erase n = front ++ back := by
  have hnot : n ∉ front := fun hmem =>
    (List.nodup_append.mp h).2.2 n hmem n (by simp) rfl
  rw [List.erase_append_right _ hnot, List.erase_cons_head]

end Sequences

namespace ListOp

variable {m : ListMem} {xs ys : List Ptr} {n : Ptr} {op : ListOp}

/-- An operation has the outcome that its name says, and writes to no node but
those of the list and the new one. -/
def Correct (m : ListMem) (xs : List Ptr) (op : ListOp) : Prop :=
  ∃ m', op.run m = some (m', (op.act xs).2) ∧ m'.Shows (op.act xs).1 ∧
    ∀ p, p ∉ xs → p ∉ op.new → m'.node p = m.node p

/-- An operation without a result. -/
theorem correct_of_becomes {result : Option ListMem}
    (h : m.Becomes xs n ys result) (hn : n ∈ xs ∨ n ∈ op.new)
    (hrun : op.run m = result.map fun m => (m, none))
    (hact : op.act xs = (ys, none)) : op.Correct m xs := by
  obtain ⟨m', rfl, hshows, hframe⟩ := h
  refine ⟨m', ?_, ?_, fun p hp hnew => hframe p hp ?_⟩
  · rw [hrun, hact]
    rfl
  · rw [hact]
    exact hshows
  · rintro rfl
    exact hn.elim hp hnew

/-- An operation that returns a node which it has erased. -/
theorem correct_of_erase {result : Option ListMem}
    (h : m.Becomes xs n ys result) (hn : n ∈ xs)
    (hrun : op.run m = result.map fun m => (m, some n))
    (hact : op.act xs = (ys, some n)) : op.Correct m xs := by
  obtain ⟨m', rfl, hshows, hframe⟩ := h
  refine ⟨m', ?_, ?_, fun p hp _ => hframe p hp fun heq => hp (heq ▸ hn)⟩
  · rw [hrun, hact]
    rfl
  · rw [hact]
    exact hshows

/-- Nothing gets into the list but the new node. -/
theorem act_mem {p : Ptr} (hp : p ∈ (op.act xs).1) : p ∈ xs ∨ p ∈ op.new := by
  cases op with
  | pushFront node =>
      exact (List.mem_cons.mp hp).symm.imp_right fun heq => by rw [heq]; rfl
  | pushBack node =>
      refine (List.mem_append.mp hp).imp_right fun hmem => ?_
      rw [List.mem_singleton.mp hmem]
      rfl
  | insertBefore pos node =>
      exact (mem_flatMap_pair (n := node) (fun q => by split <;> simp) hp).imp_right
        fun heq => by rw [heq]; rfl
  | insertAfter pos node =>
      exact (mem_flatMap_pair (n := node) (fun q => by split <;> simp) hp).imp_right
        fun heq => by rw [heq]; rfl
  | erase node => exact .inl (List.mem_of_mem_erase hp)
  | popFront => exact .inl (List.mem_of_mem_tail hp)
  | popBack => exact .inl (List.mem_of_mem_dropLast hp)

/-- Every operation that is allowed is correct. -/
theorem correct (h : m.Shows xs) (hnew : ∀ n ∈ op.new, n ≠ 0 ∧ n ∉ xs)
    (htarget : ∀ p ∈ op.target, p ∈ xs) : op.Correct m xs := by
  cases op with
  | pushFront node =>
      obtain ⟨hn, hnot⟩ := hnew node rfl
      exact correct_of_becomes (h.eafListPushFront hn hnot) (.inr rfl) rfl rfl
  | pushBack node =>
      obtain ⟨hn, hnot⟩ := hnew node rfl
      exact correct_of_becomes (h.eafListPushBack hn hnot) (.inr rfl) rfl rfl
  | insertBefore pos node =>
      obtain ⟨hn, hnot⟩ := hnew node rfl
      obtain ⟨front, back, rfl⟩ := List.append_of_mem (htarget pos rfl)
      refine correct_of_becomes (h.eafListInsertBefore hn hnot) (.inr rfl) rfl ?_
      show (List.flatMap _ _, none) = _
      rw [flatMap_at h.nodup fun p hp => if_neg hp, if_pos rfl]
      simp
  | insertAfter pos node =>
      obtain ⟨hn, hnot⟩ := hnew node rfl
      obtain ⟨front, back, rfl⟩ := List.append_of_mem (htarget pos rfl)
      refine correct_of_becomes (h.eafListInsertAfter hn hnot) (.inr rfl) rfl ?_
      show (List.flatMap _ _, none) = _
      rw [flatMap_at h.nodup fun p hp => if_neg hp, if_pos rfl]
      simp
  | erase node =>
      obtain ⟨front, back, rfl⟩ := List.append_of_mem (htarget node rfl)
      refine correct_of_becomes h.eafListErase (.inl (by simp)) rfl ?_
      show (List.erase _ _, none) = _
      rw [erase_at h.nodup]
  | popFront =>
      cases xs with
      | nil => exact ⟨m, by rw [run, h.eafListPopFront_nil]; rfl, h, fun _ _ _ => rfl⟩
      | cons n back =>
          have herase : m.Becomes (n :: back) n back (m.eafListErase n) :=
            ListMem.Shows.eafListErase (show m.Shows ([] ++ n :: back) from h)
          refine correct_of_erase herase List.mem_cons_self ?_ rfl
          rw [run, h.eafListPopFront]
          cases m.eafListErase n <;> rfl
  | popBack =>
      rcases List.eq_nil_or_concat xs with rfl | ⟨front, n, rfl⟩
      · exact ⟨m, by rw [run, h.eafListPopBack_nil]; rfl, h, fun _ _ _ => rfl⟩
      · rw [List.concat_eq_append] at h ⊢
        have herase := h.eafListErase
        rw [List.append_nil] at herase
        refine correct_of_erase herase (by simp) ?_ ?_
        · rw [run, h.eafListPopBack]
          cases m.eafListErase n <;> rfl
        · show (List.dropLast _, some (List.getLastD _ 0)) = _
          rw [List.dropLast_concat, Linked.getLastD_append]
          rfl

end ListOp

variable {ι : Type*} [DecidableEq ι]

/-- Runs of operations, from any memory, after `eaf_list_init` of all lists. -/
def ListRun (node : Ptr → EafListNode) :
    List ((ι × ListOp) × Option Ptr) → ListHeap ι → Prop :=
  Run (Guarded ListHeap.next fun h => Allowed h.members)
    ⟨node, fun _ => eafListInit⟩

/-- Runs of the sequences, which are empty at first. -/
def SequenceRun :
    List ((ι × ListOp) × Option Ptr) → (ι → List Ptr) → Prop :=
  Run (Guarded actOn Allowed) fun _ => []

/-- The lists are the sequences, and no node is in two of them. -/
structure ListHeap.Refines (h : ListHeap ι) (seq : ι → List Ptr) : Prop where
  shows : ∀ i, (h.view i).Shows (seq i)
  apart : ∀ i j, i ≠ j → (seq i).Disjoint (seq j)

namespace ListHeap.Refines

variable {h : ListHeap ι} {seq : ι → List Ptr} {a : ι × ListOp}

omit [DecidableEq ι] in
theorem members (hr : h.Refines seq) : h.members = seq := by
  funext i
  rw [ListHeap.members, (hr.shows i).forwards (by omega)]
  rfl

/-- The step lemma: an operation that is allowed does to the lists what it does
to the sequences. -/
theorem next (hr : h.Refines seq) (ha : Allowed seq a) :
    ∃ h', h.next a = some (h', [(a, (a.2.act (seq a.1)).2)]) ∧
      h'.Refines (Function.update seq a.1 (a.2.act (seq a.1)).1) ∧
      ∀ j ≠ a.1, h'.list j = h.list j ∧ ∀ p ∈ seq j, h'.node p = h.node p := by
  obtain ⟨i, op⟩ := a
  obtain ⟨m', hrun, hshows, hframe⟩ := ListOp.correct (hr.shows i)
    (fun n hn => ⟨(ha.1 n hn).1, (ha.1 n hn).2 i⟩) ha.2
  have hother : ∀ j ≠ i, ∀ p ∈ seq j, m'.node p = h.node p := fun j hj p hp =>
    hframe p (fun hmem => hr.apart j i hj hp hmem)
      fun hnew => (ha.1 p hnew).2 j hp
  refine ⟨⟨m'.node, Function.update h.list i m'.handler⟩, ?_,
    ⟨fun j => ?_, ?_⟩, fun j hj => ⟨?_, hother j hj⟩⟩
  · rw [ListHeap.next, hrun]
    rfl
  · by_cases hj : j = i
    · subst hj
      simpa [ListHeap.view] using hshows
    · rw [Function.update_of_ne hj]
      refine (hr.shows j).congr ?_ (hother j hj)
      exact Function.update_of_ne hj ..
  · -- the new node was in none of the sequences
    have hapart : ∀ j ≠ i, ((op.act (seq i)).1).Disjoint (seq j) := by
      intro j hj p hp hpj
      rcases ListOp.act_mem hp with hmem | hnew
      · exact hr.apart j i hj hpj hmem
      · exact (ha.1 p hnew).2 j hpj
    intro j k hjk
    by_cases hj : j = i
    · subst hj
      rw [Function.update_self, Function.update_of_ne hjk.symm]
      exact hapart k hjk.symm
    · rw [Function.update_of_ne hj]
      by_cases hk : k = i
      · subst hk
        rw [Function.update_self]
        exact (hapart j hj).symm
      · rw [Function.update_of_ne hk]
        exact hr.apart j k hjk
  · exact Function.update_of_ne hj ..

end ListHeap.Refines

variable {node : Ptr → EafListNode} {heap : ListHeap ι} {seq : ι → List Ptr}
  {trace : List ((ι × ListOp) × Option Ptr)}

/-- The run lemma: the sequences take the same steps as the lists. -/
theorem ListRun.refines (h : ListRun node trace heap) :
    ∃ seq, SequenceRun trace seq ∧ heap.Refines seq := by
  have hinit : ListHeap.Refines (⟨node, fun _ => eafListInit⟩ : ListHeap ι)
      (fun _ => []) :=
    ⟨fun _ => ListMem.shows_init node, fun _ _ _ => List.disjoint_nil_left _⟩
  refine h.invariant (P := fun trace heap =>
    ∃ seq, SequenceRun trace seq ∧ heap.Refines seq) ⟨_, .refl, hinit⟩ ?_
  rintro trace heap events heap' - ⟨seq, hseq, hr⟩ ⟨a, ha, hnext⟩
  rw [hr.members] at ha
  obtain ⟨heap'', hnext', hr', -⟩ := hr.next ha
  obtain ⟨rfl, rfl⟩ : heap' = heap'' ∧ events = _ := by
    rw [hnext', Option.some.injEq, Prod.mk.injEq] at hnext
    exact ⟨hnext.1.symm, hnext.2.symm⟩
  exact ⟨_, hseq.snoc ⟨a, ha, rfl⟩, hr'⟩

/-- **Linked lists are sequences.**  After every run of operations on lists in
one memory, a run of the same operations on sequences has returned the same
pointers, and every list is its sequence: from the first node forwards, from
the last node backwards, and in size.  Every further operation that is allowed
goes through, and leaves the handlers and the nodes of all other lists as they
are; a pop from an empty list returns the null pointer and does nothing. -/
theorem linked_lists (h : ListRun node trace heap) :
    ∃ seq : ι → List Ptr, SequenceRun trace seq ∧
      (∀ i, (∀ turns > (heap.view i).eafListSize,
          passFrom 0 (heap.view i).eafListNext turns
            (heap.view i).eafListBegin = some (seq i) ∧
          passFrom 0 (heap.view i).eafListPrev turns
            (heap.view i).eafListEnd = some (seq i).reverse) ∧
        (heap.view i).eafListSize = (seq i).length ∧
        (heap.view i).eafListSize < 2 ^ 64 ∧
        (seq i = [] → (heap.view i).eafListPopFront = some (heap.view i, 0) ∧
          (heap.view i).eafListPopBack = some (heap.view i, 0))) ∧
      ∀ a, Allowed seq a → ∃ heap' seq' r, heap.next a = some (heap', [(a, r)]) ∧
        actOn seq a = some (seq', [(a, r)]) ∧
        ∀ j ≠ a.1, heap'.list j = heap.list j ∧ seq' j = seq j ∧
          ∀ p ∈ seq j, heap'.node p = heap.node p := by
  obtain ⟨seq, hseq, hr⟩ := h.refines
  refine ⟨seq, hseq, fun i => ⟨fun turns hturns => ?_, (hr.shows i).size,
    (hr.shows i).size_lt, fun hnil => ?_⟩, fun a ha => ?_⟩
  · exact ⟨(hr.shows i).forwards hturns, (hr.shows i).backwards hturns⟩
  · have hshows := hr.shows i
    rw [hnil] at hshows
    exact ⟨hshows.eafListPopFront_nil, hshows.eafListPopBack_nil⟩
  · obtain ⟨heap', hnext, -, hframe⟩ := hr.next ha
    refine ⟨heap', _, _, hnext, rfl, fun j hj => ?_⟩
    obtain ⟨hlist, hnode⟩ := hframe j hj
    exact ⟨hlist, Function.update_of_ne hj .., hnode⟩

/-- Operations on two lists: the second one gets the node that is taken out of
the first one. -/
def listCalls : List (Bool × ListOp) :=
  [(true, .pushBack 8), (true, .pushBack 16), (true, .pushFront 24),
    (true, .insertBefore 16 32), (true, .insertAfter 8 40), (true, .erase 8),
    (false, .pushFront 8), (true, .popBack), (false, .popBack)]

theorem listCalls_run : ∃ (heap : ListHeap Bool) (trace : _),
    ListRun (fun _ => ⟨0, 0⟩) trace heap ∧
      heap.members true = [24, 40, 32] ∧ heap.members false = [] := by
  have hreplay : (replay ListHeap.next (fun h : ListHeap Bool => Allowed h.members)
      ⟨fun _ => ⟨0, 0⟩, fun _ => eafListInit⟩ listCalls).any (fun r =>
        r.1.members true == [24, 40, 32] && r.1.members false == []) = true := by
    decide +kernel
  obtain ⟨heap, trace, hrun, hcheck⟩ := exists_run_of_replay hreplay
  rw [Bool.and_eq_true] at hcheck
  exact ⟨heap, trace, hrun, by simpa using hcheck.1, by simpa using hcheck.2⟩

/-- After these operations the first list has three nodes, and a pop from the
second one returns the null pointer. -/
theorem linked_lists_two : ∃ (heap : ListHeap Bool) (trace : _),
    ListRun (fun _ => ⟨0, 0⟩) trace heap ∧
      (∀ turns > (heap.view true).eafListSize,
        passFrom 0 (heap.view true).eafListPrev turns
          (heap.view true).eafListEnd = some [32, 40, 24]) ∧
      (heap.view false).eafListPopFront = some (heap.view false, 0) := by
  obtain ⟨heap, trace, hrun, htrue, hfalse⟩ := listCalls_run
  obtain ⟨seq, -, hlists, -⟩ := linked_lists hrun
  have hseq : heap.members = seq := by
    funext i
    rw [ListHeap.members, ((hlists i).1 _ (by omega)).1]
    rfl
  subst hseq
  refine ⟨heap, trace, hrun, fun turns hturns => ?_, ?_⟩
  · rw [((hlists true).1 turns hturns).2, htrue]
    rfl
  · exact ((hlists false).2.2.2 hfalse).1

end Utils
end Eaf

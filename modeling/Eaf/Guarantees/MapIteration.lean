import Eaf.Foundation.Iteration
import Eaf.Guarantees.Maps
import Eaf.Utils.MapIterate
import Eaf.Utils.MapList

/-!
# Walking through a map

From the first node to the null pointer `eaf_map_next` passes all nodes in
their order, and `eaf_map_prev` passes them backwards from the last one.  A
node may be erased when the next one has been fetched.
-/

namespace Eaf
namespace Utils

open RedBlack Core Iteration

section Loops

variable {K : Type*} [LinearOrder K] {key : Ptr → K} {order : Comparison K}
  {handler : EafMap} {T : RedBlack.Tree Ptr} {before after : List Ptr} {a : Ptr}
  {turns : Nat} {node : Ptr → MapLowNode} {tr : List (MapOp × Int)}

namespace EafMap.Shows

/-- The loop with `eaf_map_next`, from some node on. -/
theorem passFrom_next (h : handler.Shows key T)
    (hlist : T.toList = before ++ after) (hturns : after.length < turns) :
    passFrom 0 (eafMapNext handler) turns (nodePtr after.head?) =
      some after := by
  induction after generalizing before turns with
  | nil =>
      cases turns with
      | zero => omega
      | succ turns => rfl
  | cons a after ih =>
      cases turns with
      | zero => omega
      | succ turns =>
          have hne : a ≠ 0 := h.ne_zero (by rw [hlist]; simp)
          have hlist' : T.toList = (before ++ [a]) ++ after := by
            rw [hlist]
            simp
          exact passFrom_cons hne (h.next_eq hlist)
            (ih hlist' (by simpa using hturns))

/-- The loop with `eaf_map_prev`, from some node back. -/
theorem passFrom_prev (h : handler.Shows key T)
    (hlist : T.toList = before ++ after) (hturns : before.length < turns) :
    passFrom 0 (eafMapPrev handler) turns (nodePtr before.getLast?) =
      some before.reverse := by
  induction turns generalizing before after with
  | zero => omega
  | succ turns ih =>
      rcases List.eq_nil_or_concat before with rfl | ⟨front, a, rfl⟩
      · rfl
      · rw [List.concat_eq_append] at hlist hturns ⊢
        have hne : a ≠ 0 := h.ne_zero (by rw [hlist]; simp)
        have hlist' : T.toList = front ++ a :: after := by
          rw [hlist]
          simp
        have hrest := ih hlist' (by simpa using hturns)
        rw [List.getLast?_concat, List.reverse_append]
        exact passFrom_cons hne (h.prev_eq hlist') hrest

/-- Fetching the next node and erasing the node leaves the next node where it
is; the loop erases everything from its node on. -/
theorem cleanupLoop (h : handler.Shows key T)
    (hlist : T.toList = before ++ after) (hturns : after.length < turns) :
    ∃ handler' T', cleanupLoop turns handler (nodePtr after.head?) =
      some (handler', after) ∧ handler'.Shows key T' ∧ T'.toList = before := by
  induction after generalizing handler T turns with
  | nil =>
      cases turns with
      | zero => omega
      | succ turns => exact ⟨handler, T, rfl, h, by simpa using hlist⟩
  | cons a after ih =>
      cases turns with
      | zero => omega
      | succ turns =>
          have hmem : a ∈ T.toList := by
            rw [hlist]
            simp
          obtain ⟨handler₁, T₁, before₁, after₁, herase, h₁, hold, hnew⟩ :=
            h.erase hmem
          have hsplit : before₁ = before ∧ after₁ = after := by
            obtain ⟨path, c, l, r, rfl⟩ := Path.exists_fill hmem
            obtain ⟨rfl, rfl⟩ := h.split hlist
            exact h.split hold
          have hafter : after.length < turns := by simpa using hturns
          obtain ⟨rfl, rfl⟩ := hsplit
          obtain ⟨handler', T', hloop, h', hlist'⟩ :=
            ih h₁ hnew hafter
          refine ⟨handler', T', ?_, h', hlist'⟩
          show Utils.cleanupLoop (turns + 1) handler a = _
          rw [Utils.cleanupLoop, if_neg (h.ne_zero hmem), h.next_eq hlist]
          simp only [Option.bind_eq_bind, Option.bind_some, herase, hloop]

end EafMap.Shows

/-- **Walking through a map.**  The loops end at the null pointer and pass all
nodes in the order of their keys, or in the reverse order; going back undoes
going on; and a loop that erases the nodes behind it, from any node on, erases
exactly the nodes from there on.  From the first node on it empties the map. -/
theorem map_walked (order : Comparison K) (h : MapRun order.cmp node tr handler) :
    handler.nodes.Pairwise (fun a b => order.key a < order.key b) ∧
    (∀ turns > handler.size, ((eafMapBegin handler).bind
      (passFrom 0 (eafMapNext handler) turns)) = some handler.nodes) ∧
    (∀ turns > handler.size, ((eafMapEnd handler).bind
      (passFrom 0 (eafMapPrev handler) turns)) = some handler.nodes.reverse) ∧
    (∀ a ∈ handler.nodes, ∃ b, eafMapNext handler a = some b ∧
      (b ≠ 0 → eafMapPrev handler b = some a)) ∧
    (∀ before a after, handler.nodes = before ++ a :: after →
      ∃ handler', Utils.cleanupLoop (handler.size + 1) handler a =
        some (handler', a :: after) ∧ handler'.nodes = before) ∧
    ∃ handler', cleanup handler = some (handler', handler.nodes) ∧
      handler'.nodes = [] ∧ handler'.size = 0 := by
  obtain ⟨T, hT⟩ := h.shows
  rw [hT.nodes]
  refine ⟨hT.sorted, fun turns hturns => ?_, fun turns hturns => ?_,
    fun a ha => ?_, fun before a after hlist => ?_, ?_⟩
  · rw [hT.begin_eq]
    exact hT.passFrom_next (List.nil_append _).symm
      (by rw [← hT.size]; exact hturns)
  · rw [hT.end_eq]
    exact hT.passFrom_prev (List.append_nil _).symm
      (by rw [← hT.size]; exact hturns)
  · obtain ⟨before, after, hlist⟩ := List.append_of_mem ha
    refine ⟨_, hT.next_eq hlist, fun hne => ?_⟩
    cases after with
    | nil => exact absurd rfl hne
    | cons b rest =>
        have hlist' : T.toList = (before ++ [a]) ++ b :: rest := by
          rw [hlist]
          simp
        have hprev := hT.prev_eq hlist'
        rwa [List.getLast?_concat] at hprev
  · have hlength := congrArg List.length hlist
    rw [← hT.size, List.length_append] at hlength
    obtain ⟨handler', T', hloop, h', hlist'⟩ :=
      hT.cleanupLoop hlist
        (show (a :: after).length < handler.size + 1 by omega)
    exact ⟨handler', hloop, h'.nodes.trans hlist'⟩
  · obtain ⟨handler', T', hloop, h', hlist'⟩ :=
      hT.cleanupLoop (List.nil_append _).symm
        (show T.toList.length < handler.size + 1 by rw [hT.size]; omega)
    refine ⟨handler', ?_, h'.nodes.trans hlist', ?_⟩
    · rw [cleanup, hT.begin_eq]
      exact hloop
    · rw [h'.size, hlist']
      rfl

end Loops

/-- Five nodes, forwards, backwards and until none is left. -/
theorem map_walked_addresses : ∃ handler tr,
    MapRun addressOrder.cmp (fun _ => ⟨0, 0, 0⟩) tr handler ∧
      handler.nodes = [8, 24, 32, 40, 48] ∧
      (∀ turns > handler.size, ((eafMapEnd handler).bind
        (passFrom 0 (eafMapPrev handler) turns)) = some [48, 40, 32, 24, 8]) ∧
      ∃ handler', cleanup handler = some (handler', [8, 24, 32, 40, 48]) ∧
        handler'.nodes = [] := by
  obtain ⟨handler, tr, hrun, hnodes⟩ := mapCalls_run
  obtain ⟨-, -, hback, -, -, handler', hcleanup, hempty, -⟩ :=
    map_walked addressOrder hrun
  rw [hnodes] at hback hcleanup
  exact ⟨handler, tr, hrun, hnodes, hback, handler', hcleanup, hempty⟩

end Utils
end Eaf

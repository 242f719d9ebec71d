import Eaf.System.ListCalls

/-!
# The lists in memory are those of the model

One spec lemma for each list call: when the lists in memory show those of the
model, the call goes through, every list function is called as it may be
called, and the lists show those of the model again.
-/

namespace Eaf
namespace Core

open Utils LabelledRun

/-- The nodes that the lists of the model stand for. -/
def Nodes.linked (N : Nodes) (group : Nat → Group) :
    Nat × GroupList → List Ptr
  | (g, .busyList) => (group g).busyList.map (N.service g)
  | (g, .waitList) => (group g).waitList.map (N.service g)
  | (g, .queue i) => ((group g).table i).queue.map fun r => N.record r.rid

/-- The lists in memory are those of the model, and so are the states. -/
structure Links.Shows (m : Links) (N : Nodes) (group : Nat → Group) : Prop where
  refines : m.heap.Refines (N.linked group)
  state : ∀ g i, m.state g i = ((group g).table i).state

/-- List functions called one after the other, as they may be called. -/
abbrev AllowedRun (heap : ListHeap (Nat × GroupList)) (out : List ListEvent)
    (heap' : ListHeap (Nat × GroupList)) : Prop :=
  Run (Guarded ListHeap.next fun h => Allowed h.members) heap out heap'

variable {L : Layout} {N : Nodes} {m m' : Links} {group group' : Nat → Group}
  {g i : Nat} {st : ServiceState} {l : Nat × GroupList} {op : ListOp}
  {seq : Nat × GroupList → List Ptr} {r : MsgqRecord} {p : Ptr}
  {calls : List ListCall}

/-- A node is erased from the list that it is in. -/
theorem allowed_erase (h : p ∈ seq l) : Allowed seq (l, .erase p) :=
  ⟨fun n hn => (by cases hn), fun n hn => (by cases hn; exact h)⟩

/-- A node that is in no list is pushed. -/
theorem allowed_pushBack (hp : p ≠ 0) (hnew : ∀ l, p ∉ seq l) :
    Allowed seq (l, .pushBack p) :=
  ⟨fun n hn => (by cases hn; exact ⟨hp, hnew⟩), fun n hn => (by cases hn)⟩

theorem allowed_popFront : Allowed seq (l, .popFront) :=
  ⟨fun n hn => (by cases hn), fun n hn => (by cases hn)⟩

/-- A list function that is called as it may be called. -/
theorem Links.apply_spec (hr : m.heap.Refines seq) (ha : Allowed seq (l, op)) :
    ∃ m' out, m.apply l op = some (m', out) ∧ m'.state = m.state ∧
      m'.heap.Refines (Function.update seq l (op.act (seq l)).1) ∧
      AllowedRun m.heap out m'.heap := by
  obtain ⟨heap, hnext, hr', -⟩ := hr.next ha
  refine ⟨{ m with heap := heap }, _, ?_, rfl, hr', .single ⟨(l, op), ?_, hnext⟩⟩
  · rw [Links.apply, hnext]
    rfl
  · show Allowed m.heap.members (l, op)
    rwa [hr.members]

/-! ## What the calls mean for the nodes -/

/-- Erasing commutes with looking up the address, where the addresses are
different. -/
theorem erase_map_of_nodup {f : Nat → Ptr} {xs : List Nat}
    (hnodup : (xs.map f).Nodup) (hi : i ∈ xs) :
    (xs.map f).erase (f i) = (xs.erase i).map f := by
  induction xs with
  | nil => cases hi
  | cons j rest ih =>
      rw [List.map_cons, List.nodup_cons] at hnodup
      by_cases hj : j = i
      · subst hj
        simp
      · have hmem : i ∈ rest := (List.mem_cons.mp hi).resolve_left (Ne.symm hj)
        have hne : f j ≠ f i := fun heq =>
          hnodup.1 (heq ▸ List.mem_map_of_mem hmem)
        rw [List.map_cons, List.erase_cons_tail (by simpa using hne),
          List.erase_cons_tail (by simpa using hj), List.map_cons,
          ih hnodup.2 hmem]

/-- A service is on the list of its state. -/
theorem Lists.mem_list {c : GroupTable} (h : Lists c (group g))
    (hi : i < c.size) :
    N.service g i ∈ N.linked group (g, ((group g).table i).state.list) := by
  unfold ServiceState.list
  split
  · next hbusy => exact List.mem_map_of_mem ((h.mem_busy i).mpr ⟨hi, hbusy⟩)
  · next hwait =>
      exact List.mem_map_of_mem ((h.mem_wait i).mpr ⟨hi, by simpa using hwait⟩)

/-- The lists of the other groups are not touched. -/
theorem Nodes.linked_update_of_ne {G : Group} {k : Nat} {list : GroupList}
    (hk : k ≠ g) :
    N.linked (Function.update group g G) (k, list) = N.linked group (k, list) := by
  cases list <;> simp [Nodes.linked, hk]

theorem Group.setState_busyList (G : Group) (i : Nat) (st : ServiceState) :
    (G.setState i st).busyList =
      (if (G.table i).state.onBusyList then G.busyList.erase i
        else G.busyList) ++ if st.onBusyList then [i] else [] := rfl

theorem Group.setState_waitList (G : Group) (i : Nat) (st : ServiceState) :
    (G.setState i st).waitList =
      (if (G.table i).state.onBusyList then G.waitList
        else G.waitList.erase i) ++ if st.onBusyList then [] else [i] := rfl

/-- `_eaf_service_set_state_nolock` moves the node of the service. -/
theorem Nodes.linked_setState {c : GroupTable} (h : Lists c (group g))
    (hnodup : ∀ l, (N.linked group l).Nodup) (hi : i < c.size) :
    N.linked (Function.update group g ((group g).setState i st)) =
      Function.update
        (Function.update (N.linked group) (g, ((group g).table i).state.list)
          ((N.linked group (g, ((group g).table i).state.list)).erase
            (N.service g i)))
        (g, st.list)
        (Function.update (N.linked group) (g, ((group g).table i).state.list)
            ((N.linked group (g, ((group g).table i).state.list)).erase
              (N.service g i)) (g, st.list) ++ [N.service g i]) := by
  have hbusy := h.mem_busy i
  have hwait := h.mem_wait i
  have hqueue : ∀ G j, ((Group.setState G i st).table j).queue =
      (G.table j).queue := by
    intro G j
    by_cases hj : j = i <;> simp [hj]
  funext ⟨k, list⟩
  by_cases hk : k = g
  · subst hk
    cases hold : ((group k).table i).state.onBusyList <;>
      cases hnew : st.onBusyList <;>
      simp only [hold, hi, true_and, iff_true, Bool.false_eq_true,
        reduceCtorEq, iff_false] at hbusy hwait <;>
      cases list <;>
      simp [-Group.setState_table, Nodes.linked, ServiceState.list, hqueue,
        Group.setState_busyList,
        Group.setState_waitList, hold, hnew,
        erase_map_of_nodup (hnodup (k, .busyList)),
        erase_map_of_nodup (hnodup (k, .waitList)), hbusy, hwait]
  · rw [Nodes.linked_update_of_ne hk]
    simp [Function.update, hk]

/-- A record is appended to the queue of its service. -/
theorem Nodes.linked_push :
    N.linked (Function.update group g (ListCall.act (group g) (.push i r))) =
      Function.update (N.linked group) (g, .queue i)
        (N.linked group (g, .queue i) ++ [N.record r.rid]) := by
  funext ⟨k, list⟩
  by_cases hk : k = g
  · subst hk
    cases list with
    | busyList | waitList => simp [Nodes.linked, ListCall.act]
    | queue j => by_cases hj : j = i <;> simp [Nodes.linked, ListCall.act, hj]
  · rw [Nodes.linked_update_of_ne hk]
    simp [Function.update, hk]

/-- The first record is taken from the queue of a service. -/
theorem Nodes.linked_pop :
    N.linked (Function.update group g (ListCall.act (group g) (.pop i))) =
      Function.update (N.linked group) (g, .queue i)
        (N.linked group (g, .queue i)).tail := by
  funext ⟨k, list⟩
  by_cases hk : k = g
  · subst hk
    cases list with
    | busyList | waitList => simp [Nodes.linked, ListCall.act]
    | queue j =>
        by_cases hj : j = i <;>
          simp [Nodes.linked, ListCall.act, hj, List.map_tail]
  · rw [Nodes.linked_update_of_ne hk]
    simp [Function.update, hk]

/-! ## One call -/

/-- The address is that of a node which is in no list. -/
def Nodes.Unlinked (N : Nodes) (group : Nat → Group) (p : Ptr) : Prop :=
  p ≠ 0 ∧ ∀ l, p ∉ N.linked group l

/-- `_eaf_service_set_state_nolock` -/
theorem Links.Shows.setState {c : GroupTable} (h : m.Shows N group)
    (hlists : Lists c (group g)) (hi : i < c.size) (st : ServiceState) :
    ∃ m' out, m.setState N g i st = some (m', out) ∧
      m'.Shows N (Function.update group g ((group g).setState i st)) ∧
      AllowedRun m.heap out m'.heap := by
  have hmem := hlists.mem_list (N := N) hi
  rw [← h.state] at hmem
  obtain ⟨m₁, erased, herase, hstate₁, hr₁, hrun₁⟩ :=
    Links.apply_spec h.refines (allowed_erase hmem)
  -- the node that was erased is in no list any more
  have hnodup := (h.refines.shows (g, (m.state g i).list)).nodup
  have hnew : ∀ l, N.service g i ∉ Function.update (N.linked group)
      (g, (m.state g i).list) ((N.linked group (g, (m.state g i).list)).erase
        (N.service g i)) l := by
    intro l
    by_cases hl : l = (g, (m.state g i).list)
    · subst hl
      rw [Function.update_self]
      exact hnodup.not_mem_erase
    · rw [Function.update_of_ne hl]
      exact fun hother => h.refines.apart _ l (Ne.symm hl) hmem hother
  have hnonnull : N.service g i ≠ 0 :=
    (h.refines.shows (g, (m.state g i).list)).nonnull _ hmem
  obtain ⟨m₂, pushed, hpush, hstate₂, hr₂, hrun₂⟩ :=
    Links.apply_spec (l := (g, st.list)) hr₁ (allowed_pushBack hnonnull hnew)
  refine ⟨m₂.store g i st, erased ++ pushed, ?_, ⟨?_, ?_⟩, hrun₁.trans hrun₂⟩
  · simp [Links.setState, herase, hpush]
  · rw [Nodes.linked_setState hlists
      (fun l => (h.refines.shows l).nodup) hi, ← h.state]
    exact hr₂
  · intro k j
    by_cases hk : k = g
    · subst hk
      by_cases hj : j = i <;>
        simp [Links.store, hstate₂, hstate₁, h.state, hj]
    · simp [Links.store, hstate₂, hstate₁, h.state, hk]

/-- The push of `_eaf_service_push_msg`. -/
theorem Links.Shows.push (h : m.Shows N group)
    (hnew : N.Unlinked group (N.record r.rid)) :
    ∃ m' out, ListCall.run N g m (.push i r) = some (m', out) ∧
      m'.Shows N
        (Function.update group g (ListCall.act (group g) (.push i r))) ∧
      AllowedRun m.heap out m'.heap := by
  obtain ⟨m', out, happly, hstate, hr, hrun⟩ :=
    Links.apply_spec (l := (g, .queue i)) h.refines
      (allowed_pushBack hnew.1 hnew.2)
  refine ⟨m', out, happly, ⟨?_, fun k j => ?_⟩, hrun⟩
  · rw [Nodes.linked_push]
    exact hr
  · rw [hstate, h.state]
    by_cases hk : k = g
    · subst hk
      by_cases hj : j = i <;> simp [ListCall.act, hj]
    · simp [hk]

/-- A pop from a queue. -/
theorem Links.Shows.pop (h : m.Shows N group) :
    ∃ m' out, ListCall.run N g m (.pop i) = some (m', out) ∧
      m'.Shows N (Function.update group g (ListCall.act (group g) (.pop i))) ∧
      AllowedRun m.heap out m'.heap := by
  obtain ⟨m', out, happly, hstate, hr, hrun⟩ :=
    Links.apply_spec (l := (g, .queue i)) h.refines allowed_popFront
  refine ⟨m', out, happly, ⟨?_, fun k j => ?_⟩, hrun⟩
  · rw [Nodes.linked_pop]
    exact hr
  · rw [hstate, h.state]
    by_cases hk : k = g
    · subst hk
      by_cases hj : j = i <;> simp [ListCall.act, hj]
    · simp [hk]

/-! ## The calls of a step -/

/-- What a call relies on: the service is one of the group, and the node of a
record that is pushed is in no list. -/
def ListCall.Fits (L : Layout) (N : Nodes) (group : Nat → Group) (g : Nat) :
    ListCall → Prop
  | .setState i _ => i < (L.conf g).size
  | .push _ r => N.Unlinked group (N.record r.rid)
  | .pop _ => True

/-- Each call of a list finds what it relies on. -/
def ListCall.FitAll (L : Layout) (N : Nodes) (g : Nat) :
    (Nat → Group) → List ListCall → Prop
  | _, [] => True
  | group, call :: rest =>
      call.Fits L N group g ∧
        FitAll L N g (Function.update group g (call.act (group g))) rest

/-- Every call goes through. -/
theorem Links.Shows.call {call : ListCall} (h : m.Shows N group)
    (hlists : Lists (L.conf g) (group g)) (hfits : call.Fits L N group g) :
    ∃ m' out, call.run N g m = some (m', out) ∧
      m'.Shows N (Function.update group g (call.act (group g))) ∧
      AllowedRun m.heap out m'.heap := by
  cases call with
  | setState i st => exact h.setState hlists hfits st
  | push i r => exact h.push hfits
  | pop i => exact h.pop

/-- A call keeps the lists in step with the states. -/
theorem Lists.act {call : ListCall} (h : Lists (L.conf g) (group g))
    (hfits : call.Fits L N group g) :
    Lists (L.conf g) (call.act (group g)) := by
  cases call with
  | setState i st => exact h.setState hfits st
  | push i r => exact h.setService rfl
  | pop i => exact h.setService rfl

/-- All calls of a list go through. -/
theorem Links.Shows.runAll (h : m.Shows N group)
    (hlists : Lists (L.conf g) (group g))
    (hfit : ListCall.FitAll L N g group calls) :
    ∃ m' out, ListCall.runAll N g m calls = some (m', out) ∧
      m'.Shows N
        (Function.update group g (calls.foldl ListCall.act (group g))) ∧
      AllowedRun m.heap out m'.heap := by
  induction calls generalizing m group with
  | nil => exact ⟨m, [], rfl, by simpa using h, .refl⟩
  | cons call rest ih =>
      obtain ⟨hfits, hrest⟩ := hfit
      obtain ⟨m₁, out, hrun, hshows, hallowed⟩ := h.call hlists hfits
      obtain ⟨m₂, later, hrun', hshows', hallowed'⟩ :=
        ih hshows (by simpa using hlists.act hfits) hrest
      refine ⟨m₂, out ++ later, ?_, by simpa using hshows',
        hallowed.trans hallowed'⟩
      simp [ListCall.runAll, hrun, hrun']

/-- Only the lists, the queues and the states count. -/
theorem Links.Shows.congr (h : m.Shows N group)
    (halike : ∀ k, (group k).Alike (group' k)) : m.Shows N group' := by
  have hlinked : N.linked group' = N.linked group := by
    funext ⟨k, list⟩
    cases list <;> simp only [Nodes.linked, (halike k).busyList,
      (halike k).waitList, (halike k).queue]
  refine ⟨?_, fun k j => ?_⟩
  · rw [hlinked]
    exact h.refines
  · rw [h.state, (halike k).state]

end Core
end Eaf

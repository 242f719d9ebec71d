import Mathlib.Data.List.Nodup
import Eaf.Group.Protocol

/-!
# The two coroutine lists

Every service of a group is linked into exactly one of `busy_list` and
`wait_list`, and its state says into which.  `_eaf_service_set_state_nolock`
is the only operation that moves a node, and it keeps this; so does every
step of a group.
-/

namespace Eaf
namespace Core

/-- The lists hold the services of the group, each once, by their states. -/
structure Lists (c : GroupTable) (G : Group) : Prop where
  busyNodup : G.busyList.Nodup
  waitNodup : G.waitList.Nodup
  mem_busy : ∀ i, i ∈ G.busyList ↔
    i < c.size ∧ (G.table i).state.onBusyList = true
  mem_wait : ∀ i, i ∈ G.waitList ↔
    i < c.size ∧ (G.table i).state.onBusyList = false

namespace Lists

variable {c : GroupTable} {G G' : Group} {i : Nat}

theorem initial (c : GroupTable) : Lists c (Group.initial c) where
  busyNodup := by simp [Group.initial]
  waitNodup := by simp [Group.initial, List.nodup_range]
  mem_busy := by simp [Group.initial, Service.initial, ServiceState.onBusyList]
  mem_wait := by simp [Group.initial, Service.initial, ServiceState.onBusyList]

/-- Only the states and the lists matter. -/
theorem congr (h : Lists c G) (hbusy : G'.busyList = G.busyList)
    (hwait : G'.waitList = G.waitList)
    (hstate : ∀ j, (G'.table j).state = (G.table j).state) : Lists c G' where
  busyNodup := by rw [hbusy]; exact h.busyNodup
  waitNodup := by rw [hwait]; exact h.waitNodup
  mem_busy j := by rw [hbusy, hstate]; exact h.mem_busy j
  mem_wait j := by rw [hwait, hstate]; exact h.mem_wait j

theorem goto (h : Lists c G) (pc : Pc) : Lists c (G.goto pc) :=
  h.congr rfl rfl fun _ => rfl

/-- Changing a service without changing its state moves no node. -/
theorem setService (h : Lists c G) {S : Service}
    (hstate : S.state = (G.table i).state) : Lists c (G.setService i S) := by
  refine h.congr rfl rfl fun j => ?_
  by_cases hj : j = i
  · subst hj
    simp [hstate]
  · simp [hj]

/-- The node of the service moves to the end of the list of the new state. -/
theorem setState (h : Lists c G) (hi : i < c.size) (st : ServiceState) :
    Lists c (G.setState i st) := by
  have hbusy := h.mem_busy i
  have hwait := h.mem_wait i
  cases hold : (G.table i).state.onBusyList <;> cases hnew : st.onBusyList <;>
    simp only [hold, hi, true_and, and_true, iff_true, Bool.false_eq_true,
      reduceCtorEq, iff_false] at hbusy hwait
  · constructor
    · simpa [Group.setState, hold, hnew] using h.busyNodup
    · simp only [Group.setState, hold, hnew, Bool.false_eq_true, if_false]
      refine (h.waitNodup.erase i).append (List.nodup_singleton i) ?_
      simp [h.waitNodup.mem_erase_iff]
    · intro j
      by_cases hj : j = i <;>
        simp [Group.setState, hold, hnew, hj, hbusy, h.mem_busy]
    · intro j
      by_cases hj : j = i <;>
        simp [Group.setState, hold, hnew, hj, hi, h.waitNodup.mem_erase_iff,
          h.mem_wait]
  · constructor
    · simp only [Group.setState, hold, hnew, Bool.false_eq_true, if_false,
        if_true]
      refine h.busyNodup.append (List.nodup_singleton i) ?_
      simpa using hbusy
    · simpa [Group.setState, hold, hnew] using h.waitNodup.erase i
    · intro j
      by_cases hj : j = i <;>
        simp [Group.setState, hold, hnew, hj, hi, h.mem_busy]
    · intro j
      by_cases hj : j = i <;>
        simp [Group.setState, hold, hnew, hj, h.waitNodup.mem_erase_iff,
          h.mem_wait]
  · constructor
    · simpa [Group.setState, hold, hnew] using h.busyNodup.erase i
    · simp only [Group.setState, hold, hnew, Bool.false_eq_true, if_false,
        if_true]
      refine h.waitNodup.append (List.nodup_singleton i) ?_
      simpa using hwait
    · intro j
      by_cases hj : j = i <;>
        simp [Group.setState, hold, hnew, hj, h.busyNodup.mem_erase_iff,
          h.mem_busy]
    · intro j
      by_cases hj : j = i <;>
        simp [Group.setState, hold, hnew, hj, hi, h.mem_wait]
  · constructor
    · simp only [Group.setState, hold, hnew, if_true]
      refine (h.busyNodup.erase i).append (List.nodup_singleton i) ?_
      simp [h.busyNodup.mem_erase_iff]
    · simpa [Group.setState, hold, hnew] using h.waitNodup
    · intro j
      by_cases hj : j = i <;>
        simp [Group.setState, hold, hnew, hj, hi, h.busyNodup.mem_erase_iff,
          h.mem_busy]
    · intro j
      by_cases hj : j = i <;>
        simp [Group.setState, hold, hnew, hj, hwait, h.mem_wait]

theorem finishServiceInit (h : Lists c G) (hi : i < c.size) :
    Lists c (G.finishServiceInit i) := by
  unfold Group.finishServiceInit
  split
  · exact (h.setState hi .idle).setState hi .busy
  · exact h.setState hi .idle

theorem pushState (h : Lists c G) (hi : i < c.size) :
    Lists c (G.pushState i) := by
  unfold Group.pushState
  split
  · exact h.setState hi .init1
  · exact h.setState hi .busy
  · exact h

theorem pushMsg {r : MsgqRecord} (h : Lists c G) (hi : i < c.size)
    (hpush : G.pushMsg i r = some G') : Lists c G' := by
  unfold Group.pushMsg at hpush
  split at hpush
  · cases hpush
  · cases hpush
    exact (h.pushState hi).setService rfl

theorem resumeService (h : Lists c G) (hi : i < c.size)
    (hresume : G.resumeService i = some G') : Lists c G' := by
  unfold Group.resumeService at hresume
  split at hresume
  · cases hresume
    exact h.setState hi .busy
  · cases hresume

/-- The loader fixes one service after the other. -/
theorem loadFixState (h : Lists c G) : Lists c (G.loadFixState c) := by
  unfold Group.loadFixState
  suffices ∀ (indices : List Nat) (G : Group), (∀ i ∈ indices, i < c.size) →
      Lists c G → Lists c (indices.foldl
        (fun G i => G.setState i (Group.loadState (c.row i))) G) by
    exact this _ G (by simp) h
  intro indices
  induction indices with
  | nil => intro G _ h; exact h
  | cons i rest ih =>
      intro G hlt h
      exact ih _ (fun j hj => hlt j (by simp [hj]))
        (h.setState (hlt i (by simp)) _)

end Lists

end Core
end Eaf

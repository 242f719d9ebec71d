import Eaf.Guarantees.ListMembership

/-!
# Which callbacks a service sees

A registered service is initialised at most once, handles messages only
between its initialisation and its exit, and is exited at most once.  Both
shutdown paths also exit a lazily loaded service that nobody ever used, so
`on_exit` may come without `on_init` there, and only there.
-/

namespace Eaf
namespace Core

open LabelledRun CallbackLifecycle

/-- The callbacks of service `i` of group `g`, in the order of a trace. -/
def callbacks (tr : List Event) (g i : Nat) : List CallbackLifecycle.Event :=
  (tr.filterMap (groupEvent g)).filterMap (lifecycleEvent i)

variable {c : GroupTable} {G : Group} {i : Nat} {tr : List Event} {s : Sys}

/-- When the worker has returned, every service was exited, or none was ever
initialised. -/
theorem GroupInv.stage_of_returned {site : ReturnSite} (inv : GroupInv c G)
    (hreg : c.Registered i) (hworker : G.worker = .returned site) :
    G.lifeStage i = .fresh ∨ G.lifeStage i = .exited := by
  have hs := inv.sound i hreg.1
  rw [hworker] at hs
  simp only [Group.lifeStage, hworker, lifeStage]
  cases site with
  | finished =>
      right
      rw [hs.exited rfl hreg]
      rfl
  | storage | notBusy | noService =>
      left
      rcases hs.fresh rfl hreg with hst | hst | hst <;> rw [hst] <;> rfl

/-- **The callbacks of a service.**  In every run, and whatever the layout:
`on_init` is called at most once; handlers are entered only after `on_init`
has returned and before `on_exit` is called; `on_exit` is called at most once,
and only after `on_init` has returned or for a lazily loaded service whose
`on_init` was never called; and when all workers have returned, each service
whose `on_init` was called has had its `on_exit` called and returned exactly
once. -/
theorem callbacks_in_order (L : Layout) (h : Trace L (serial L) tr s)
    (g : Nat) (hreg : (L.conf g).Registered i) :
    (callbacks tr g i).count .initStart ≤ 1 ∧
    (∀ before after, callbacks tr g i = before ++ .handle :: after →
      .initDone ∈ before ∧ .exitStart ∉ before) ∧
    (callbacks tr g i).count .exitStart ≤ 1 ∧
    (∀ before after, callbacks tr g i = before ++ .exitStart :: after →
      .initDone ∈ before ∨
        (((L.conf g).row i).lazyload = true ∧ .initStart ∉ before)) ∧
    ((∀ k < L.size, ∃ site, (s.group k).worker = .returned site) →
      .initStart ∈ callbacks tr g i →
        (callbacks tr g i).count .exitStart = 1 ∧
        (callbacks tr g i).count .exitDone = 1) := by
  have hist : CallbackLifecycle.History (((L.conf g).row i).lazyload = true)
      (callbacks tr g i) ((s.group g).lifeStage i) := h.groupRun.lifecycle hreg
  refine ⟨count_initStart_le_one hist, ?_, count_exitStart_le_one hist, ?_, ?_⟩
  · intro before after hsplit
    rw [hsplit] at hist
    exact handle_within hist
  · intro before after hsplit
    rw [hsplit] at hist
    rcases exit_after_init hist with hinit | ⟨hlazy, rfl⟩
    · exact .inl hinit
    · exact .inr ⟨hlazy, by simp⟩
  · intro hreturned hinit
    have hg := Layout.lt_size_of_registered hreg
    obtain ⟨site, hsite⟩ := hreturned g hg
    exact exited_once hist
      ((GroupInv.ofRun h.groupRun).stage_of_returned hreg hsite) hinit

/-- `eaf_exit` after `eaf_load`, until the worker has returned. -/
def lazyPairExit : List Act :=
  lazyPairLoad ++ [.enter (.client 1) (.exit 0)] ++ clientSteps 1 5 ++
    workerSteps 0 8

/-- The ordinary service of the group is initialised and exited once. -/
theorem callbacks_in_order_pair :
    ∃ tr s, Trace lazyPair (serial lazyPair) tr s ∧
      .initStart ∈ callbacks tr 0 1 ∧
      (callbacks tr 0 1).count .exitStart = 1 := by
  obtain ⟨tr, s, hrun, hcheck⟩ :=
    exists_trace lazyPair (serial lazyPair) lazyPairExit
      (fun o => decide ((o.1.group 0).worker = .returned .finished ∧
        .initStart ∈ callbacks o.2 0 1)) (by decide +kernel)
  obtain ⟨hworker, hinit⟩ := of_decide_eq_true hcheck
  have hall := callbacks_in_order lazyPair hrun 0 (i := 1) (by decide)
  refine ⟨tr, s, hrun, hinit, (hall.2.2.2.2 ?_ hinit).1⟩
  intro k hk
  obtain rfl : k = 0 := Nat.lt_one_iff.mp hk
  exact ⟨.finished, hworker⟩

/-- The lazily loaded service is exited without having been initialised. -/
theorem exit_without_init :
    ∃ tr s, Trace lazyPair (serial lazyPair) tr s ∧
      .exitStart ∈ callbacks tr 0 0 ∧ .initStart ∉ callbacks tr 0 0 := by
  obtain ⟨tr, s, hrun, hcheck⟩ :=
    exists_trace lazyPair (serial lazyPair) lazyPairExit
      (fun o => decide (.exitStart ∈ callbacks o.2 0 0 ∧
        .initStart ∉ callbacks o.2 0 0)) (by decide +kernel)
  exact ⟨tr, s, hrun, of_decide_eq_true hcheck⟩

end Core
end Eaf

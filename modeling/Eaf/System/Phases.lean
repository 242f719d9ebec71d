import Eaf.System.GroupView

/-!
# Phases of the workers and the context state

A worker leaves its busy event loop only when the context is no longer busy,
and the context does not become busy again, because `eaf_load` stores that
state while all workers still wait for it.
-/

namespace Eaf
namespace Core

variable {L : Layout} {s s' : Sys} {g : Nat} {a : Act} {events : List Event}
  {tr : List Event} {c : GroupTable} {e : Env} {G G' : Group} {o : Outcome}
  {gevents : List GroupEvent}

/-- Shutdown has been asked for. -/
def CtxState.closing : CtxState → Bool
  | .teardown | .exit => true
  | .init | .busy => false

@[simp] theorem handlerPc_late (ph : Phase) (i : Nat) (fn : Option Fn) :
    (handlerPc ph i fn).late = (ph == .teardown) := by
  cases fn <;> rfl

theorem Pc.early_not_late {pc : Pc} (h : pc.early = true) :
    pc.late = false := by
  cases pc <;> simp_all [early, late]
  case returned site => cases site <;> simp_all

/-- The only way out of the busy event loop. -/
theorem WorkerTrans.late_origin (h : WorkerTrans c e G o G' gevents)
    (hlate : G'.worker.late = true) :
    G.worker.late = true ∨ (G.worker = .loopTest .busy ∧ e.ctx ≠ .busy) := by
  cases h
  case loopBusyEnd h hctx => exact .inr ⟨h, hctx⟩
  case initDone idx caller h hcall hyield =>
    cases caller <;> simp_all [Pc.late, afterInit]
  case dispatchReenter h _ _ _ | beforeStart h _ _ _ _ =>
    left
    rw [Group.goto_worker, handlerPc_late] at hlate
    rw [h]
    exact hlate
  all_goals simp_all [Pc.late]

/-- **Late workers.**  A worker outside its start-up and its busy event loop
finds the context in teardown or exit. -/
theorem Trace.late (h : Trace L (serial L) tr s) (hg : g < L.size)
    (hlate : (s.group g).worker.late = true) : s.ctx.closing = true := by
  suffices ∀ g < L.size, (s.group g).worker.late = true →
      s.ctx.closing = true from this g hg hlate
  clear hg hlate
  refine Trace.byTrans (P := fun _ s => ∀ g < L.size,
    (s.group g).worker.late = true → s.ctx.closing = true) h ?_ ?_
  · intro g _ hlate
    simp [Sys.initial, Group.initial, Pc.late] at hlate
  · intro tr s a events s' hrun ih hserial hstep g hg hlate
    cases hstep with
    | @worker k o G gevents hk hw =>
        rw [Sys.emitAll_ctx, Sys.setGroup_ctx]
        by_cases hgk : g = k
        · subst hgk
          simp only [Sys.emitAll_group, Sys.setGroup_group,
            Function.update_self] at hlate
          rcases hw.late_origin hlate with hold | ⟨hpc, hctx⟩
          · exact ih g hg hold
          · rcases hrun.order with hstart | hstarted
            · have hearly := hstart.early g hg
              simp [hpc, Pc.early] at hearly
            · have hinit := hstarted.ctx
              have hbusy : s.ctx ≠ .busy := hctx
              cases hc : s.ctx <;> simp_all [CtxState.closing]
        · simp only [Sys.emitAll_group, Sys.setGroup_group,
            Function.update_of_ne hgk] at hlate
          exact ih g hg hlate
    | @call t _ _ _ hlive hc =>
        rw [hc.worker_eq] at hlate
        rcases hc.ctx_cases with hctx | ⟨td, reason, -, hctx, -⟩ | ⟨hcall, -, -⟩
        · rw [hctx]
          exact ih g hg hlate
        · rw [hctx]
          cases td <;> rfl
        · -- the loader makes the context busy while all workers wait
          exfalso
          rcases hrun.order with hstart | hstarted
          · rw [Pc.early_not_late (hstart.early g hg)] at hlate
            cases hlate
          · have hdone := hstarted.done t
            rw [hcall] at hdone
            cases hdone
    | enter he =>
        rw [he.group_eq] at hlate
        rw [he.ctx_eq]
        exact ih g hg hlate
    | user hu =>
        rw [hu.group_eq] at hlate
        rw [hu.ctx_eq]
        exact ih g hg hlate

end Core
end Eaf

import Eaf.System.GroupView
import Eaf.Guarantees.ListMembership

/-!
# The order of the context states

`init`, `busy`, `teardown`, `exit`: `eaf_load`, `eaf_teardown` and `eaf_exit`
test the context state, run a hook, and store the next state without testing
again; and the test of `eaf_teardown` lets `exit` pass.  The state moves
forward as long as no shutdown is stored between the test and the store of
another call, and no `eaf_teardown` begins after an exit.  `StoresTested` ties
the calls between their test and their store to the state.
-/

namespace Eaf
namespace Core

open LabelledRun

variable {L : Layout} {s s' : Sys} {t : Tid} {a : Act}
  {tr tr' events : List Event}

/-- The position of a state in the documented order. -/
def CtxState.rank : CtxState → Nat
  | .init => 0
  | .busy => 1
  | .teardown => 2
  | .exit => 3

/-- The call is an `eaf_load` between its test and its store. -/
def Call.storingBusy : Call → Bool
  | .loadHook | .loadFix _ | .loadWrite => true
  | _ => false

/-- The call is an `eaf_teardown` between its test and its store. -/
def Call.storingTeardown : Call → Bool
  | .exitHook td _ | .exitWrite td _ => td
  | _ => false

/-- The stores are apart: `eaf_teardown` and `eaf_exit` do not store while an
`eaf_load` is between its test and its store, `eaf_exit` does not store while
an `eaf_teardown` is, and no `eaf_teardown` begins after an exit. -/
def storesApart (L : Layout) (s : Sys) : Act → Prop
  | .call t _ =>
      match s.call t with
      | .exitTest td _ => td = true → s.live = true → s.ctx ≠ .exit
      | .exitWrite td _ =>
          ∀ t' ∈ L.threads, (s.call t').storingBusy = false ∧
            (td = false → (s.call t').storingTeardown = false)
      | _ => True
  | _ => True

instance (L : Layout) (s : Sys) (a : Act) : Decidable (storesApart L s a) := by
  unfold storesApart
  split
  · split <;> infer_instance
  · infer_instance

/-- What the tests have seen of the state is true until the store. -/
structure StoresTested (L : Layout) (s : Sys) : Prop where
  outside : ∀ t, t ∉ L.threads → s.call t = .idle
  load : ∀ t, (s.call t).storingBusy = true → s.ctx = .init ∨ s.ctx = .busy
  teardown : ∀ t, (s.call t).storingTeardown = true → s.ctx ≠ .exit

theorem StoresTested.initial (L : Layout) :
    StoresTested L (Sys.initial L) :=
  ⟨fun _ _ => rfl, fun _ h => (by cases h), fun _ h => (by cases h)⟩

/-- A call gets between the test and the store of `eaf_load` by its test. -/
theorem CallTrans.storingBusy (h : CallTrans L s t events s')
    (hcall : (s'.call t).storingBusy = true) :
    s'.ctx = s.ctx ∧ ((s.call t).storingBusy = true ∨ s.ctx = .init) := by
  cases h
  case loadAccepted h hctx => exact ⟨rfl, .inr hctx⟩
  case loadHooked h | loadFixed h hk | loadAllFixed h hk =>
    exact ⟨rfl, .inl (by rw [h]; rfl)⟩
  case cleanQueued h _ _ | cleanCurrent h _ _ _ =>
    simp [h, Call.storingBusy] at hcall
  all_goals simp [Call.storingBusy] at hcall

/-- A call gets between the test and the store of `eaf_teardown` by its
test. -/
theorem CallTrans.storingTeardown (h : CallTrans L s t events s')
    (hcall : (s'.call t).storingTeardown = true) :
    s'.ctx = s.ctx ∧ ((s.call t).storingTeardown = true ∨
      s.live = true ∧ ∃ reason, s.call t = .exitTest true reason) := by
  cases h
  case exitAccepted td reason h hlive hctx =>
    obtain rfl : td = true := by simpa [Call.storingTeardown] using hcall
    exact ⟨rfl, .inr ⟨hlive, reason, h⟩⟩
  case exitHooked td reason h =>
    refine ⟨rfl, .inl ?_⟩
    rw [h]
    simpa [Call.storingTeardown] using hcall
  case cleanQueued h _ _ | cleanCurrent h _ _ _ =>
    simp [h, Call.storingTeardown] at hcall
  all_goals simp [Call.storingTeardown] at hcall

namespace StoresTested

/-- No thread is between its test and its store when another one stores. -/
theorem apart {td : Bool} {reason : Int} {o : Outcome}
    (h : StoresTested L s) (hok : storesApart L s (.call t o))
    (hcall : s.call t = .exitWrite td reason) (t' : Tid) :
    (s.call t').storingBusy = false ∧
      (td = false → (s.call t').storingTeardown = false) := by
  by_cases ht : t' ∈ L.threads
  · simp only [storesApart, hcall] at hok
    exact hok t' ht
  · rw [h.outside t' ht]
    exact ⟨rfl, fun _ => rfl⟩

/-- A thread outside the API, or where a call starts, has tested nothing. -/
theorem keep (inv : StoresTested L s) (hctx : s'.ctx = s.ctx)
    (houtside : ∀ t, t ∉ L.threads → s'.call t = .idle)
    (hcall : ∀ t, s'.call t = s.call t ∨ s'.call t = .idle ∨
      ∃ q : Request, s'.call t = q.start) : StoresTested L s' := by
  refine ⟨houtside, fun t ht => ?_, fun t ht => ?_⟩
  · rw [hctx]
    rcases hcall t with hc | hc | ⟨q, hc⟩ <;> rw [hc] at ht
    · exact inv.load t ht
    · cases ht
    · cases q <;> cases ht
  · rw [hctx]
    rcases hcall t with hc | hc | ⟨q, hc⟩ <;> rw [hc] at ht
    · exact inv.teardown t ht
    · cases ht
    · cases q <;> cases ht

/-- A call that goes on knows the state from its test, or from before. -/
theorem own_step {o : Outcome} (inv : StoresTested L s)
    (hok : storesApart L s (.call t o)) (h : CallTrans L s t events s') :
    ((s'.call t).storingBusy = true → s'.ctx = .init ∨ s'.ctx = .busy) ∧
      ((s'.call t).storingTeardown = true → s'.ctx ≠ .exit) := by
  refine ⟨fun hcall => ?_, fun hcall => ?_⟩
  · obtain ⟨hctx, hold | hinit⟩ := h.storingBusy hcall
    · exact hctx ▸ inv.load t hold
    · exact .inl (hctx.trans hinit)
  · obtain ⟨hctx, hold | ⟨hlive, reason, htest⟩⟩ := h.storingTeardown hcall
    · exact hctx ▸ inv.teardown t hold
    · simp only [storesApart, htest] at hok
      exact hctx ▸ hok trivial hlive

/-- A call that stores does so while no other thread is between a test and a
store that the new state would make stale. -/
theorem other_step {o : Outcome} {t' : Tid} (inv : StoresTested L s)
    (hok : storesApart L s (.call t o)) (h : CallTrans L s t events s') :
    ((s.call t').storingBusy = true → s'.ctx = .init ∨ s'.ctx = .busy) ∧
      ((s.call t').storingTeardown = true → s'.ctx ≠ .exit) := by
  rcases h.ctx_cases with hctx | ⟨td, reason, hcall, hctx, -⟩ | ⟨-, hctx, -⟩
  · rw [hctx]
    exact ⟨inv.load t', inv.teardown t'⟩
  · obtain ⟨hbusy, htd⟩ := inv.apart hok hcall t'
    refine ⟨fun hc => absurd hc (by simp [hbusy]), fun hc => ?_⟩
    rw [hctx]
    cases td
    · exact absurd hc (by simp [htd rfl])
    · simp [Sys.exitState]
  · rw [hctx]
    exact ⟨fun _ => .inr rfl, fun _ => by simp⟩

/-- Every step keeps what the tests have seen, as long as the stores are
apart. -/
theorem step (inv : StoresTested L s) (hok : storesApart L s a)
    (h : SysTrans L s a events s') : StoresTested L s' := by
  have houtside := h.outside inv.outside
  cases h with
  | @worker k o G gevents hk hw =>
      refine inv.keep (by simp) houtside fun t => ?_
      rcases Sys.emitAll_call (s.setGroup k G) (t := t) with
        hc | hc | ⟨b, hc⟩
      · exact .inl hc
      · exact .inr (.inl hc)
      · exact .inr (.inr ⟨.send b, hc⟩)
  | @call t o events s' hlive h =>
      have hboth : ∀ t', ((s'.call t').storingBusy = true →
          s'.ctx = .init ∨ s'.ctx = .busy) ∧
          ((s'.call t').storingTeardown = true → s'.ctx ≠ .exit) := by
        intro t'
        by_cases ht : t' = t
        · subst ht
          exact inv.own_step hok h
        · rw [h.call_of_ne ht]
          exact inv.other_step hok h
      exact ⟨houtside, fun t' => (hboth t').1, fun t' => (hboth t').2⟩
  | @enter t q events s' h =>
      refine inv.keep h.ctx_eq houtside fun t' => ?_
      by_cases ht : t' = t
      · subst ht
        exact .inr (.inr ⟨q, h.call_self⟩)
      · exact .inl (h.call_of_ne ht)
  | user h =>
      refine inv.keep h.ctx_eq houtside fun t => ?_
      rw [h.call_eq]
      exact .inl rfl

end StoresTested

end Core
end Eaf

import Mathlib.Tactic.Cases
import Eaf.Group.Lists

/-!
# What the states of a service mean

`Sound` says, for one service, what follows from its state and from where the
worker is: an idle service has nothing to do, a yielded one has a current
message, an `init1` one has never handled anything and waits either for the
initial scan or with a message in its queue, and the service the worker has in
its hands is in the state the program text takes for granted.  Together with
the two lists this is an invariant of every group, `GroupInv`.
-/

namespace Eaf
namespace Core

/-- The facts about one service, by its state and by the worker's program
point. -/
structure Sound (c : GroupTable) (pc : Pc) (i : Nat) (S : Service) : Prop where
  raw : S.state = .init0 → pc.early = true ∧ S.queue = [] ∧ S.curMsg = none
  lazy : S.state = .init2 →
    (c.row i).lazyload = true ∧ S.queue = [] ∧ S.curMsg = none
  waiting : S.state = .init1 → S.curMsg = none ∧
    (S.queue = [] ∨ (c.row i).lazyload = false → pc.awaits i = true)
  idle : S.state = .idle → S.queue = [] ∧ S.curMsg = none
  yielded : S.state = .yield → S.curMsg ≠ none
  leaving : S.state = .exit0 → pc.exiting i = true
  dead : ¬ c.Registered i → (S.state = .init0 ∨ S.state = .exit1) ∧
    S.queue = [] ∧ S.curMsg = none
  fresh : pc.untouched = true → c.Registered i →
    S.state = .init0 ∨ S.state = .init1 ∨ S.state = .init2
  exited : pc.doneWith i = true → c.Registered i → S.state = .exit1
  holds : pc.Holds i S

/-- The invariant of a group. -/
structure GroupInv (c : GroupTable) (G : Group) : Prop where
  lists : Lists c G
  focus : ∀ i, G.worker.focus = some i → i < c.size
  counted : G.worker.Counted
  sound : ∀ i < c.size, Sound c G.worker i (G.table i)

variable {c : GroupTable} {G G' : Group} {pc pc' : Pc} {i j : Nat}
  {S S' : Service}

namespace Pc

theorem early_of_running (h : pc.running = true) : pc.early = false := by
  cases pc <;> simp_all [running, early]

theorem awaits_of_running (h : pc.running = true) : pc.awaits i = false := by
  cases pc <;> simp_all [running, early, awaits]
  case inInit idx caller => cases caller <;> simp_all

theorem untouched_of_running (h : pc.running = true) :
    pc.untouched = false := by
  cases pc <;> simp_all [running, early, untouched]
  case inInit idx caller => cases caller <;> simp_all

theorem doneWith_of_running (h : pc.running = true) :
    pc.doneWith i = false := by
  cases pc <;> simp_all [running, doneWith]

theorem focus_of_exiting (h : pc.exiting i = true) : pc.focus = some i := by
  cases pc <;> simp_all [exiting, focus]

theorem holds_of_ne (h : pc.focus ≠ some i) : pc.Holds i S := by
  cases pc <;> simp_all [focus, Holds]

/-- Only a service in `init1`, `busy` or `exit0` is in the worker's hands, so a
change that leaves these states and the current message alone goes
unnoticed. -/
theorem holds_of_unnoticed (h : pc.Holds i S) (hexit0 : S.state ≠ .exit0)
    (hstate : S.state = .init1 ∨ S.state = .busy → S'.state = S.state)
    (hcur : S'.curMsg = S.curMsg) : pc.Holds i S' := by
  cases pc <;> simp only [Holds] at h ⊢ <;> intro hi <;> have hS := h hi <;>
    simp_all

@[simp] theorem handlerPc_focus (ph : Phase) (fn : Option Fn) :
    (handlerPc ph i fn).focus = some i := by
  cases fn <;> rfl

@[simp] theorem handlerPc_running (ph : Phase) (fn : Option Fn) :
    (handlerPc ph i fn).running = true := by
  cases fn <;> rfl

@[simp] theorem handlerPc_holds (ph : Phase) (fn : Option Fn) :
    (handlerPc ph i fn).Holds j S ↔
      (i = j → S.state = .busy ∧ S.curMsg ≠ none) := by
  cases fn <;> rfl

end Pc

namespace Sound

/-- When the worker moves on without touching the service, what the service
needs to know about the new program point is little. -/
theorem move (h : Sound c pc i S)
    (hearly : S.state = .init0 → pc.early = true → pc'.early = true)
    (hawaits : S.state = .init1 → pc.awaits i = true → pc'.awaits i = true)
    (hexiting : pc.exiting i = true → pc'.exiting i = true)
    (hfresh : pc'.untouched = true → pc.untouched = true)
    (hexited : pc'.doneWith i = true → c.Registered i →
      pc.doneWith i = true ∨ S.state = .exit1)
    (hholds : pc'.Holds i S) : Sound c pc' i S where
  raw hst := ⟨hearly hst (h.raw hst).1, (h.raw hst).2⟩
  lazy := h.lazy
  waiting hst := ⟨(h.waiting hst).1,
    fun hq => hawaits hst ((h.waiting hst).2 hq)⟩
  idle := h.idle
  yielded := h.yielded
  leaving hst := hexiting (h.leaving hst)
  dead := h.dead
  fresh hpc := h.fresh (hfresh hpc)
  exited hpc hreg := (hexited hpc hreg).elim (fun hdone => h.exited hdone hreg) id
  holds := hholds

/-- Between the initial scan and the final exit the program point matters for
an exiting service only. -/
theorem moveOn (h : Sound c pc i S) (hpc : pc.running = true)
    (hpc' : pc'.running = true)
    (hexiting : pc.exiting i = true → pc'.exiting i = true)
    (hholds : pc'.Holds i S) : Sound c pc' i S :=
  h.move (fun _ hearly => by simp [Pc.early_of_running hpc] at hearly)
    (fun _ hawaits => by simp [Pc.awaits_of_running hpc] at hawaits)
    hexiting (by simp [Pc.untouched_of_running hpc'])
    (by simp [Pc.doneWith_of_running hpc']) hholds

/-- A service the worker neither had nor has in its hands. -/
theorem away (h : Sound c pc i S) (hpc : pc.running = true)
    (hpc' : pc'.running = true) (hfocus : pc.focus ≠ some i)
    (hfocus' : pc'.focus ≠ some i) : Sound c pc' i S :=
  h.moveOn hpc hpc'
    (fun hexiting => absurd (Pc.focus_of_exiting hexiting) hfocus)
    (Pc.holds_of_ne hfocus')

theorem registered (h : Sound c pc i S) (hraw : S.state ≠ .init0)
    (hdead : S.state ≠ .exit1) : c.Registered i := by
  by_contra hreg
  rcases (h.dead hreg).1 with hst | hst
  · exact hraw hst
  · exact hdead hst

/-- The facts after one service was replaced. -/
theorem update {T : Nat → Service} (hself : j = i → Sound c pc j S)
    (hother : j ≠ i → Sound c pc j (T j)) :
    Sound c pc j (Function.update T i S j) := by
  by_cases hji : j = i
  · subst hji
    simpa using hself rfl
  · simpa [hji] using hother hji

end Sound

/-! ## The worker keeps the facts -/

/-- A step of the worker keeps the facts about every service. -/
theorem WorkerTrans.sound {e : Env} {o : Outcome} {events : List GroupEvent}
    (inv : GroupInv c G) (hfixed : e.ctx = .busy → G.Fixed c)
    (h : WorkerTrans c e G o G' events) (hj : j < c.size) :
    Sound c G'.worker j (G'.table j) := by
  have hs := inv.sound j hj
  have hcounted := inv.counted
  cases h
  -- start-up: the early program points and the initial scan
  case enterOk h _ | enterFail h _ | startWait h _ | startGo h _
    | startWake h _ | startNotBusy h _ =>
    rw [h] at hs
    exact hs.move (by simp [Pc.early]) (by simp [Pc.awaits, Pc.early])
      (by simp [Pc.exiting]) (by simp [Pc.untouched, Pc.early])
      (by simp [Pc.doneWith]) trivial
  case startBusy h hctx =>
    rw [h] at hs
    exact hs.move (fun hst => absurd hst (hfixed hctx j hj))
      (by simp [Pc.awaits]) (by simp [Pc.exiting])
      (by simp [Pc.untouched, Pc.early]) (by simp [Pc.doneWith]) trivial
  case scanInit idx counter h hlt hst =>
    rw [h] at hs
    exact hs.move (by simp [Pc.early]) (by simp [Pc.awaits])
      (by simp [Pc.exiting]) (by simp [Pc.untouched]) (by simp [Pc.doneWith])
      (by rintro rfl; exact hst)
  case scanSkip idx counter h hlt hst =>
    rw [h] at hs
    refine hs.move (by simp [Pc.early]) ?_ (by simp [Pc.exiting])
      (by simp [Pc.untouched]) (by simp [Pc.doneWith]) trivial
    intro hstj hawaits
    have hne : idx ≠ j := by rintro rfl; exact hst hstj
    simp only [Pc.awaits, decide_eq_true_eq] at hawaits ⊢
    omega
  case scanEnd idx counter h hge =>
    rw [h] at hs
    refine hs.move (by simp [Pc.early]) ?_ (by simp [Pc.exiting])
      (by simp [Pc.untouched]) (by simp [Pc.doneWith]) trivial
    intro _ hawaits
    simp only [Pc.awaits, decide_eq_true_eq] at hawaits
    omega
  case initDone idx caller h hcall hyield =>
    rw [h] at hs hcounted
    simp only [Group.goto_worker, Group.goto_table,
      Group.finishServiceInit_table, Group.setService_table,
      Function.update_idem]
    refine Sound.update ?_ fun hne => ?_
    · rintro rfl
      have hst := hs.holds rfl
      obtain ⟨hcur, hq⟩ := hs.waiting hst
      have hreg := hs.registered (by simp [hst]) (by simp [hst])
      cases caller with
      | scan counter =>
          have hpos : counter + 1 ≠ 0 := by
            simp only [Pc.Counted] at hcounted
            omega
          cases hqueue : (G.table j).queue <;> constructor <;>
            simp [Group.initDoneState, hcur, hreg, afterInit, Pc.Holds,
              Pc.untouched, Pc.doneWith, hpos]
      | loop ph =>
          cases hqueue : (G.table j).queue with
          | nil => simp [hqueue, Pc.awaits, Pc.early] at hq
          | cons r rest =>
              constructor <;>
                simp [Group.initDoneState, hreg, afterInit, Pc.Holds,
                  Pc.untouched, Pc.early, Pc.doneWith]
    · cases caller with
      | scan counter =>
          refine hs.move (by simp [Pc.early]) ?_ (by simp [Pc.exiting]) ?_
            (by simp [afterInit, Pc.doneWith]) trivial
          · intro _ hawaits
            simp only [Pc.awaits, afterInit, decide_eq_true_eq] at hawaits ⊢
            omega
          · intro huntouched
            simp only [Pc.Counted, afterInit, Pc.untouched,
              decide_eq_true_eq] at hcounted huntouched
            omega
      | loop ph =>
          exact hs.away rfl rfl (by simp [Pc.focus, hne.symm])
            (by simp [afterInit, Pc.focus, hne.symm])
  case readyNone n h hn =>
    rw [h] at hs hcounted
    refine hs.move (by simp [Pc.early]) (by simp [Pc.awaits])
      (by simp [Pc.exiting]) (fun _ => ?_) (by simp [Pc.doneWith]) trivial
    simp only [Pc.Counted, Pc.untouched, decide_eq_true_eq] at hcounted ⊢
    omega
  case readySome h _ =>
    rw [h] at hs
    exact hs.move (by simp [Pc.early]) (by simp [Pc.awaits, Pc.early])
      (by simp [Pc.exiting]) (by simp [Pc.untouched, Pc.early])
      (by simp [Pc.doneWith]) trivial
  -- the worker moves on and touches no service
  case loopGo h _ | loopBusyEnd h _ | pickNone h _ | pend h _
    | yieldDone h _ | tdEnter h _ | tdPass h _ | tdSkip h _ _ | tdEnd h _ =>
    rw [h] at hs
    exact hs.moveOn rfl rfl (by simp [Pc.exiting]) trivial
  case beforeDrop h _ _ _ | handledFinish h _ _ | afterDone h _ | tryPend h
    | tdAnswer h _ _ _ | tdNoAnswer h _ _ | tdSent h _ =>
    rw [h] at hs
    exact hs.moveOn rfl rfl (by simp [Pc.exiting]) hs.holds
  case pickSome ph i rest h hlist =>
    rw [h] at hs
    refine hs.moveOn rfl rfl (by simp [Pc.exiting]) ?_
    rintro rfl
    have hbusy := ((inv.lists.mem_busy i).mp (by simp [hlist])).2
    have hleaving := hs.leaving
    cases hst : (G.table i).state <;>
      simp_all [ServiceState.onBusyList, Pc.exiting]
  case handleInit ph i h hst =>
    rw [h] at hs
    exact hs.moveOn rfl rfl (by simp [Pc.exiting]) (by rintro rfl; exact hst)
  case handleGo ph i h hst =>
    rw [h] at hs
    exact hs.moveOn rfl rfl (by simp [Pc.exiting])
      (by rintro rfl; exact (hs.holds rfl).resolve_left hst)
  case dispatchPop ph i h hst hcur =>
    rw [h] at hs
    exact hs.moveOn rfl rfl (by simp [Pc.exiting])
      (by rintro rfl; exact ⟨hst, hcur⟩)
  case dispatchReenter ph i r fn h hst hcur hfn =>
    rw [h] at hs
    refine hs.moveOn rfl (Pc.handlerPc_running ph fn) (by simp [Pc.exiting]) ?_
    rw [Group.goto_worker, Pc.handlerPc_holds]
    rintro rfl
    exact ⟨hst, by simp [hcur]⟩
  case beforeStart ph i r fn h hcur hcall hret hfn =>
    rw [h] at hs
    refine hs.moveOn rfl (Pc.handlerPc_running ph fn) (by simp [Pc.exiting]) ?_
    rw [Group.goto_worker, Pc.handlerPc_holds]
    exact hs.holds
  case tdExitedIdle i h hcall hcur =>
    rw [h] at hs
    exact hs.moveOn rfl rfl (by simp [Pc.exiting])
      (by rintro rfl; exact ⟨hs.holds rfl, hcur⟩)
  case tdExitedCur i r h hcall hcur =>
    rw [h] at hs
    exact hs.moveOn rfl rfl (by simp [Pc.exiting])
      (by rintro rfl; exact ⟨hs.holds rfl, by simpa using hcur⟩)
  case tdFreeQueued i r h =>
    rw [h] at hs
    exact hs.moveOn rfl rfl (by simp [Pc.exiting])
      (by simpa [Pc.Holds] using hs.holds)
  case tdPopNone i h hq =>
    rw [h] at hs
    exact hs.moveOn rfl rfl (by simp [Pc.exiting])
      (by rintro rfl; exact ⟨(hs.holds rfl).1, (hs.holds rfl).2, hq⟩)
  -- the worker changes the service in its hands
  case popNone ph i h hq =>
    rw [h] at hs
    refine Sound.update ?_ fun hne =>
      hs.away rfl rfl (by simp [Pc.focus, hne.symm]) (by simp [Pc.focus])
    rintro rfl
    obtain ⟨hst, hcur⟩ := hs.holds rfl
    have hreg := hs.registered (by simp [hst]) (by simp [hst])
    constructor <;>
      simp [hq, hcur, hreg, Pc.Holds, Pc.untouched, Pc.early, Pc.doneWith]
  case popSome ph i r rest h hq =>
    rw [h] at hs
    refine Sound.update ?_ fun hne =>
      hs.away rfl rfl (by simp [Pc.focus, hne.symm])
        (by simp [Pc.focus, hne.symm])
    rintro rfl
    obtain ⟨hst, hcur⟩ := hs.holds rfl
    have hreg := hs.registered (by simp [hst]) (by simp [hst])
    constructor <;>
      simp [hst, hreg, Pc.Holds, Pc.untouched, Pc.early, Pc.doneWith]
  case handlerReturn ph i h hcall =>
    rw [h] at hs
    refine Sound.update ?_ fun hne =>
      hs.away rfl rfl (by simp [Pc.focus, hne.symm])
        (by simp [Pc.focus, hne.symm])
    rintro rfl
    obtain ⟨hst, hcur⟩ := hs.holds rfl
    have hreg := hs.registered (by simp [hst]) (by simp [hst])
    constructor <;>
      simp [hst, hcur, hreg, Pc.Holds, Pc.untouched, Pc.early, Pc.doneWith]
  case handledYield ph i r h hcur hcc =>
    rw [h] at hs
    refine Sound.update ?_ fun hne =>
      hs.away rfl rfl (by simp [Pc.focus, hne.symm])
        (by simp [Pc.focus, hne.symm])
    rintro rfl
    obtain ⟨hst, -⟩ := hs.holds rfl
    have hreg := hs.registered (by simp [hst]) (by simp [hst])
    constructor <;>
      simp [hcur, hreg, Pc.Holds, Pc.untouched, Pc.early, Pc.doneWith]
  case reset ph i r h hcur =>
    rw [h] at hs
    refine Sound.update ?_ fun hne =>
      hs.away rfl rfl (by simp [Pc.focus, hne.symm]) (by simp [Pc.focus])
    rintro rfl
    obtain ⟨hst, -⟩ := hs.holds rfl
    have hreg := hs.registered (by simp [hst]) (by simp [hst])
    constructor <;>
      simp [hst, hreg, Pc.Holds, Pc.untouched, Pc.early, Pc.doneWith]
  case tdExit0 i h halive hreg =>
    rw [h] at hs
    refine Sound.update ?_ fun hne =>
      hs.away rfl rfl (by simp [Pc.focus]) (by simp [Pc.focus, hne.symm])
    rintro rfl
    constructor <;>
      simp [hreg, Pc.exiting, Pc.Holds, Pc.untouched, Pc.early, Pc.doneWith]
  case tdFreeCur i r h =>
    rw [h] at hs
    refine Sound.update ?_ fun hne =>
      hs.away rfl rfl (by simp [Pc.focus, hne.symm])
        (by simp [Pc.focus, hne.symm])
    rintro rfl
    obtain ⟨hst, -⟩ := hs.holds rfl
    have hreg := hs.registered (by simp [hst]) (by simp [hst])
    constructor <;>
      simp [hst, hreg, Pc.exiting, Pc.Holds, Pc.untouched, Pc.early,
        Pc.doneWith]
  case tdPopSome i r rest h hq =>
    rw [h] at hs
    refine Sound.update ?_ fun hne =>
      hs.away rfl rfl (by simp [Pc.focus, hne.symm])
        (by simp [Pc.focus, hne.symm])
    rintro rfl
    obtain ⟨hst, hcur⟩ := hs.holds rfl
    have hreg := hs.registered (by simp [hst]) (by simp [hst])
    constructor <;>
      simp [hst, hcur, hreg, Pc.exiting, Pc.Holds, Pc.untouched, Pc.early,
        Pc.doneWith]
  case tdSetExit1 i h =>
    rw [h] at hs
    refine Sound.update ?_ fun hne =>
      hs.away rfl rfl (by simp [Pc.focus, hne.symm]) (by simp [Pc.focus])
    rintro rfl
    obtain ⟨hst, -⟩ := hs.holds rfl
    have hreg := hs.registered (by simp [hst]) (by simp [hst])
    constructor <;> simp [hreg, Pc.Holds, Pc.untouched, Pc.early]
  -- the final exit, from the last service to the first
  case loopTeardownEnd h _ =>
    rw [h] at hs
    refine hs.move (by simp [Pc.early]) (by simp [Pc.awaits, Pc.early])
      (by simp [Pc.exiting]) (by simp [Pc.untouched, Pc.early]) ?_ trivial
    intro hdone _
    simp only [Group.goto_worker, Pc.doneWith, decide_eq_true_eq] at hdone
    omega
  case exitEnd h =>
    rw [h] at hs
    exact hs.move (by simp [Pc.early]) (by simp [Pc.awaits])
      (by simp [Pc.exiting]) (by simp [Pc.untouched, Pc.early])
      (by simp [Pc.doneWith]) trivial
  case exitSkip i h hskip =>
    rw [h] at hs
    refine hs.move (by simp [Pc.early]) (by simp [Pc.awaits, Pc.early])
      (by simp [Pc.exiting]) (by simp [Pc.untouched, Pc.early]) ?_ trivial
    intro hdone hreg
    simp only [Group.goto_worker, Pc.doneWith, decide_eq_true_eq] at hdone ⊢
    rcases Nat.eq_or_lt_of_le hdone with rfl | hlt
    · exact .inr (hskip.resolve_right (not_not_intro hreg))
    · exact .inl hlt
  case exitExit0 i h hst hreg =>
    rw [h] at hs
    refine Sound.update ?_ fun hne => ?_
    · rintro rfl
      constructor <;>
        simp [hreg, Pc.exiting, Pc.Holds, Pc.untouched, Pc.early, Pc.doneWith]
    · refine hs.move (by simp [Pc.early]) (by simp [Pc.awaits, Pc.early])
        (by simp [Pc.exiting]) (by simp [Pc.untouched, Pc.early]) ?_
        (Pc.holds_of_ne (by simp [Pc.focus, hne.symm]))
      simp only [Pc.doneWith, decide_eq_true_eq]
      exact fun hdone _ => .inl hdone
  case exitExit1 i h hcall =>
    rw [h] at hs
    refine Sound.update ?_ fun hne => ?_
    · rintro rfl
      have hst := hs.holds rfl
      have hreg := hs.registered (by simp [hst]) (by simp [hst])
      constructor <;> simp [hreg, Pc.Holds, Pc.untouched, Pc.early]
    · refine hs.move (by simp [Pc.early]) (by simp [Pc.awaits, Pc.early])
        (by simp [Pc.exiting, hne.symm]) (by simp [Pc.untouched, Pc.early]) ?_
        trivial
      simp only [Group.goto_worker, Pc.doneWith, decide_eq_true_eq]
      exact fun hdone _ => .inl (by omega)

/-- The worker only takes services of its own group into its hands. -/
theorem WorkerTrans.focus {e : Env} {o : Outcome} {events : List GroupEvent}
    (inv : GroupInv c G) (h : WorkerTrans c e G o G' events)
    (hi : G'.worker.focus = some i) : i < c.size := by
  have hold := inv.focus i
  cases h
  case scanInit idx counter h hlt hst =>
    simp only [Pc.focus, Option.some.injEq] at hi
    exact hi ▸ hlt
  case initDone idx caller h hcall hyield =>
    rw [h] at hold
    cases caller <;> simp_all [Pc.focus, afterInit]
  case pickSome ph k rest h hlist =>
    simp only [Group.goto_worker, Pc.focus, Option.some.injEq] at hi
    exact hi ▸ ((inv.lists.mem_busy k).mp (by simp [hlist])).1
  case dispatchReenter ph k r fn h _ _ _ | beforeStart ph k r fn h _ _ _ _ =>
    rw [Group.goto_worker, Pc.handlerPc_focus] at hi
    exact hold (by rw [h]; exact hi)
  case tdExit0 k h halive hreg =>
    simp only [Group.goto_worker, Pc.focus, Option.some.injEq] at hi
    exact hi ▸ hreg.1
  case exitExit0 k h hst hreg =>
    simp only [Pc.focus, Option.some.injEq] at hi
    exact hi ▸ hreg.1
  -- all other steps keep the service in hand or let go of it
  all_goals simp_all [Pc.focus]

/-- The worker keeps the lists in order. -/
theorem WorkerTrans.lists {e : Env} {o : Outcome} {events : List GroupEvent}
    (inv : GroupInv c G) (h : WorkerTrans c e G o G' events) :
    Lists c G' := by
  have hlists := inv.lists
  have hfocus := inv.focus
  cases h
  case initDone idx caller h hcall hyield =>
    have hidx := hfocus idx (by rw [h]; rfl)
    exact ((hlists.setService (by rfl)).finishServiceInit hidx).goto _
  case popNone i h _ | handledYield i _ h _ _ | tdSetExit1 i h
    | exitExit1 i h _ =>
    exact (hlists.setState (hfocus i (by rw [h]; rfl)) _).goto _
  case tdExit0 i h halive hreg => exact (hlists.setState hreg.1 _).goto _
  case exitExit0 i h hst hreg =>
    exact (hlists.setState hreg.1 .exit0).congr rfl rfl fun _ => rfl
  case handlerReturn ph i h hcall =>
    refine hlists.congr rfl rfl fun k => ?_
    by_cases hk : k = i
    · subst hk
      simp
    · simp [hk]
  case popSome | reset | tdFreeCur | tdPopSome =>
    exact (hlists.setService (by rfl)).goto _
  all_goals exact hlists.congr rfl rfl fun _ => rfl

/-- The counter of the initial scan only grows. -/
theorem WorkerTrans.counted {e : Env} {o : Outcome} {events : List GroupEvent}
    (inv : GroupInv c G) (h : WorkerTrans c e G o G' events) :
    G'.worker.Counted := by
  have hold := inv.counted
  cases h
  case scanInit idx counter h _ _ | scanSkip idx counter h _ _
    | scanEnd idx counter h _ =>
    rw [h] at hold
    exact hold
  case initDone idx caller h hcall hyield =>
    rw [h] at hold
    cases caller with
    | scan counter => exact Int.add_nonneg hold (by decide)
    | loop ph => trivial
  case dispatchReenter ph i r fn h _ _ _ | beforeStart ph i r fn h _ _ _ _ =>
    cases fn <;> trivial
  case startBusy h _ => exact Int.le_refl 0
  all_goals trivial

/-! ## Everybody keeps the invariant -/

namespace GroupInv

theorem initial (c : GroupTable) : GroupInv c (Group.initial c) where
  lists := Lists.initial c
  focus := by simp [Group.initial, Pc.focus]
  counted := trivial
  sound i hi := by
    constructor <;>
      simp [Group.initial, Service.initial, Pc.early, Pc.Holds, Pc.doneWith]

theorem work {e : Env} {o : Outcome} {events : List GroupEvent}
    (inv : GroupInv c G) (hfixed : e.ctx = .busy → G.Fixed c)
    (h : WorkerTrans c e G o G' events) : GroupInv c G' where
  lists := h.lists inv
  focus _ hi := h.focus inv hi
  counted := h.counted inv
  sound _ hj := h.sound inv hfixed hj

/-- The loader meets services nobody has used. -/
theorem fix (inv : GroupInv c G) (hraw : G.Raw c) :
    GroupInv c (G.loadFixState c) where
  lists := inv.lists.loadFixState
  focus := by simpa using inv.focus
  counted := by simpa using inv.counted
  sound i hi := by
    have hs := inv.sound i hi
    obtain ⟨hearly, hq, hcur⟩ := hs.raw (hraw i hi)
    have hawaits : G.worker.awaits i = true := by
      cases hpc : G.worker <;> simp_all [Pc.early, Pc.awaits]
    have hdone : G.worker.doneWith i = false := by
      cases hpc : G.worker <;> simp_all [Pc.early, Pc.doneWith]
      case returned site => cases site <;> simp_all
    have hholds : ∀ S, G.worker.Holds i S := by
      cases hpc : G.worker <;> simp_all [Pc.early, Pc.Holds]
    have hentry : c.Registered i ↔ (c.row i).entry.isSome := by
      simp [GroupTable.Registered, hi]
    rw [Group.loadFixState_table, if_pos hi, Group.loadFixState_worker]
    unfold Group.loadState
    cases hopt : (c.row i).entry <;> cases hlazy : (c.row i).lazyload <;>
      constructor <;> simp_all

/-- A sender changes the state of a service as the facts allow. -/
theorem push {r : MsgqRecord} (inv : GroupInv c G) (hfixed : G.Fixed c)
    (hreg : c.Registered i) (hpush : G.pushMsg i r = some G') :
    GroupInv c G' := by
  obtain ⟨hexit0, htable, hworker, -⟩ := Group.pushMsg_some hpush
  refine ⟨inv.lists.pushMsg hreg.1 hpush, by rw [hworker]; exact inv.focus,
    by rw [hworker]; exact inv.counted, fun j hj => ?_⟩
  rw [htable, hworker]
  refine Sound.update ?_ fun _ => inv.sound j hj
  rintro rfl
  obtain ⟨-, h2, h3, h4, h5, -, -, h8, h9, h10⟩ := inv.sound j hj
  have hraw := hfixed j hj
  have hholds : G.worker.Holds j { G.table j with
      state := Group.pushedState (G.table j).state
      queue := (G.table j).queue ++ [r] } := by
    refine Pc.holds_of_unnoticed h10 hexit0 ?_ rfl
    rintro (hst | hst) <;> simp [hst, Group.pushedState]
  cases hst : (G.table j).state <;> rw [hst] at hholds <;>
    constructor <;> simp_all [Group.pushedState]

/-- `eaf_resume` makes a yielded service busy again. -/
theorem resume (inv : GroupInv c G) (hreg : c.Registered i)
    (hresume : G.resumeService i = some G') : GroupInv c G' := by
  obtain ⟨hst, rfl⟩ := Group.resumeService_some hresume
  refine ⟨inv.lists.setState hreg.1 _, inv.focus, inv.counted, fun j hj => ?_⟩
  refine Sound.update ?_ fun _ => inv.sound j hj
  rintro rfl
  have hs := inv.sound j hj
  have hholds : G.worker.Holds j { G.table j with state := .busy } :=
    Pc.holds_of_unnoticed hs.holds (by simp [hst]) (by simp [hst]) rfl
  obtain ⟨-, -, -, -, -, -, -, h8, h9, -⟩ := hs
  constructor <;> simp_all

/-- When the worker has returned, a service that still has messages was never
initialised, or it is done. -/
theorem returned_state {site : ReturnSite} (inv : GroupInv c G)
    (hworker : G.worker = .returned site) (hi : i < c.size)
    (hused : (G.table i).queue ≠ [] ∨ (G.table i).curMsg ≠ none) :
    c.Registered i ∧
      ((G.table i).state = .init1 ∨ (G.table i).state = .exit1) := by
  have hs := inv.sound i hi
  rw [hworker] at hs
  have hreg : c.Registered i := by
    by_contra hreg
    obtain ⟨-, hq, hcur⟩ := hs.dead hreg
    simp [hq, hcur] at hused
  refine ⟨hreg, ?_⟩
  have hstate : (G.table i).state = .init0 ∨ (G.table i).state = .init1 ∨
      (G.table i).state = .init2 ∨ (G.table i).state = .exit1 := by
    cases site with
    | finished => exact .inr (.inr (.inr (hs.exited rfl hreg)))
    | storage | notBusy | noService =>
        rcases hs.fresh rfl hreg with hst | hst | hst <;> simp [hst]
  rcases hstate with hst | hst | hst | hst
  · obtain ⟨-, hq, hcur⟩ := hs.raw hst
    simp [hq, hcur] at hused
  · exact .inl hst
  · obtain ⟨-, hq, hcur⟩ := hs.lazy hst
    simp [hq, hcur] at hused
  · exact .inr hst

/-- Emptying a service of a group whose worker has returned. -/
theorem purge {site : ReturnSite} (inv : GroupInv c G)
    (hworker : G.worker = .returned site) (hi : i < c.size)
    (hused : (G.table i).queue ≠ [] ∨ (G.table i).curMsg ≠ none)
    (hstate : S.state = (G.table i).state)
    (hcur : S.curMsg = (G.table i).curMsg ∨ S.curMsg = none) :
    GroupInv c (G.setService i S) := by
  obtain ⟨hreg, hst⟩ := inv.returned_state hworker hi hused
  refine ⟨inv.lists.setService hstate, inv.focus, inv.counted, fun j hj => ?_⟩
  refine Sound.update ?_ fun _ => inv.sound j hj
  rintro rfl
  obtain ⟨-, -, h3, -, -, -, -, h8, h9, -⟩ := inv.sound j hj
  rw [Group.setService_worker, hworker] at *
  rw [← hstate] at hst h3 h8 h9
  clear hstate
  rcases hst with hst | hst <;> constructor <;>
    simp_all [Pc.awaits, Pc.Holds]

/-- Every step of a group keeps its invariant. -/
theorem step {events : List GroupEvent} (inv : GroupInv c G)
    (h : GroupStep c G events G') : GroupInv c G' := by
  cases h with
  | work hfixed h => exact inv.work hfixed h
  | fix hraw => exact inv.fix hraw
  | push hfixed hreg h => exact inv.push hfixed hreg h
  | resume hreg h => exact inv.resume hreg h
  | post =>
      exact ⟨inv.lists.congr rfl rfl fun _ => rfl, inv.focus, inv.counted,
        inv.sound⟩
  | purgeQueued hi hworker hq =>
      exact inv.purge hworker hi (.inl (by simp [hq])) rfl (.inl rfl)
  | purgeCurrent hi hworker hcur =>
      exact inv.purge hworker hi (.inr (by simp [hcur])) rfl (.inr rfl)

/-- The invariant holds in every run of a group. -/
theorem ofRun {tr : List GroupEvent} (h : GroupRun c tr G) : GroupInv c G :=
  h.preserved (initial c) fun _ _ _ inv hstep => inv.step hstep

end GroupInv

end Core
end Eaf

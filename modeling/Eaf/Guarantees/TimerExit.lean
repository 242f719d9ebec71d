import Eaf.Powerpack.TimerFacts

/-!
# The exit of the timer service

`_timer_on_exit` waits until the sizes of the three queues add up to zero.  It reads
them one after the other and without the lock, so that it misses a record that the
thread of `libuv` has in its hands meanwhile, or carries from a queue whose size has
not been read to one whose size has.  An observer keeps the records that this thread
has had in its hands since the first size was read.
-/

namespace Eaf
namespace Powerpack

open Core LabelledRun Custody

/-- The queues whose sizes `_timer_on_exit` has yet to read before it returns. -/
def TimerPoint.unread? : TimerPoint → Option (List TimerQueue)
  | .reading unread => some unread
  | .exited => some []
  | _ => none

/-- The queue whose size is the last one to be read. -/
def TimerPoint.last? : TimerPoint → Option TimerQueue
  | .reading [q] => some q
  | _ => none

/-! ## An observer of the hands -/

/-- The timers, and the records that the thread of `libuv` has had in its hands since
`_timer_on_exit` read the first of the three sizes. -/
structure ObservedTimers where
  ctx : TimerCtx
  moved : List Nat

namespace ObservedTimers

def initial : ObservedTimers := ⟨.initial, []⟩

/-- What the observer has seen when a step has led to `s`. -/
def note (x : ObservedTimers) (s : TimerCtx) : TimerStep → List Nat
  | .evaluate _ => s.uvThread.hand?.toList
  | _ =>
      if x.ctx.service.isReading then x.moved ++ s.uvThread.hand?.toList else x.moved

/-- A step of the timers under observation. -/
def step (x : ObservedTimers) (a : TimerStep) :
    Option (ObservedTimers × List TimerEvent) :=
  (x.ctx.step a).map fun next => (⟨next.1, x.note next.1 a⟩, next.2)

/-- When the last of the three sizes is found zero, the thread of `libuv` has had no
record in its hands since the first of them was read. -/
def readsApart (x : ObservedTimers) : TimerStep → Prop
  | .readSize => ∀ q ∈ x.ctx.service.last?, x.ctx.queue q = [] → x.moved = []
  | _ => True

instance (x : ObservedTimers) : (a : TimerStep) → Decidable (x.readsApart a)
  | .readSize => inferInstanceAs
      (Decidable (∀ q ∈ x.ctx.service.last?, x.ctx.queue q = [] → x.moved = []))
  | .evaluate _ | .onInit | .reqDelay _ _ _ _ | .onExit | .sendExit _ | .onUvNotify
  | .onActive _ | .onTimerClose _ | .goOn _ | .onLibuvLoopExit =>
      inferInstanceAs (Decidable True)

end ObservedTimers

/-- Observed runs whose steps satisfy `ok`. -/
abbrev ObservedTimerRun (ok : ObservedTimers → TimerStep → Prop)
    (tr : List TimerEvent) (x : ObservedTimers) : Prop :=
  Run (Guarded ObservedTimers.step ok) .initial tr x

namespace TimerCtx

variable {s t : TimerCtx} {a : TimerStep} {tr events : List TimerEvent} {p : Nat}
  {q : TimerQueue} {unread : List TimerQueue} {x y : ObservedTimers}
  {ok : ObservedTimers → TimerStep → Prop}

/-- No timer record is alive. -/
structure Gone (s : TimerCtx) : Prop where
  busyQueue : s.busyQueue = []
  idleQueue : s.idleQueue = []
  deadQueue : s.deadQueue = []
  hand : s.uvThread.hand? = none

/-! ## How the records move -/

theorem mem_places : p ∈ s.places ↔ (∃ q, p ∈ s.queue q) ∨ s.uvThread.hand? = some p := by
  simp only [places, List.mem_append, Option.mem_toList]
  constructor
  · rintro (((h | h) | h) | h)
    · exact .inl ⟨.idle, h⟩
    · exact .inl ⟨.busy, h⟩
    · exact .inl ⟨.dead, h⟩
    · exact .inr h
  · rintro (⟨q, h⟩ | h)
    · cases q with
      | busy => exact .inl (.inl (.inr h))
      | idle => exact .inl (.inl (.inl h))
      | dead => exact .inl (.inr h)
    · exact .inr h

/-- A record gets into a queue from the hands of the thread of `libuv` only. -/
def FromHand (s t : TimerCtx) : Prop :=
  ∀ q p, p ∈ t.queue q → p ∈ s.queue q ∨ s.uvThread.hand? = some p

theorem FromHand.of_queues (hbusy : t.busyQueue.Sublist s.busyQueue)
    (hidle : t.idleQueue.Sublist s.idleQueue) (hdead : t.deadQueue.Sublist s.deadQueue) :
    s.FromHand t := by
  intro q p hp
  cases q with
  | busy => exact .inl (hbusy.subset hp)
  | idle => exact .inl (hidle.subset hp)
  | dead => exact .inl (hdead.subset hp)

theorem FromHand.pushed {point : TimerUvPoint} (hhand : s.uvThread.hand? = some p) :
    s.FromHand (s.pushed p point) := by
  intro q p' hp'
  cases q with
  | busy | idle => exact .inl hp'
  | dead =>
      rcases List.mem_append.mp hp' with hold | hnew
      · exact .inl hold
      · exact .inr (List.mem_singleton.mp hnew ▸ hhand)

/-- No record is made after `_timer_on_exit` has begun. -/
theorem TimerTrans.fromHand (h : TimerTrans s a events t) (hlooping : s.looping = false) :
    s.FromHand t := by
  cases h
  case created hset _ | unsent hset _ =>
    rw [hset] at hlooping
    cases hlooping
  case read =>
    unfold readQueue
    split
    · exact .of_queues (.refl _) (.refl _) (.refl _)
    · exact .of_queues (.refl _) (.refl _) (.refl _)
  case init p r hpoint hp =>
    intro q p' hp'
    cases q with
    | idle | dead => exact .inl hp'
    | busy =>
        rcases List.mem_append.mp hp' with hold | hnew
        · exact .inl hold
        · rw [hpoint, List.mem_singleton.mp hnew]
          exact .inr rfl
  case rollback hpoint hp => exact .pushed (by rw [hpoint]; rfl)
  case retire hpoint hp => exact .pushed hpoint.hand.1
  case take hpoint hidle | closeIdle hpoint hidle =>
    refine .of_queues (.refl _) ?_ (.refl _)
    rw [hidle]
    exact List.sublist_cons_self _ _
  case startFailed | expired | closeBusy =>
    exact .of_queues List.erase_sublist (.refl _) (.refl _)
  case timerClose => exact .of_queues (.refl _) (.refl _) List.erase_sublist
  all_goals exact .of_queues (.refl _) (.refl _) (.refl _)

/-- A transition reads a size, or `_timer_on_exit` is in no evaluation after it, or the
service stays where it is. -/
theorem TimerTrans.service_cases (h : TimerTrans s a events t) :
    (∃ q unread, s.Reads q unread a ∧ t = s.readQueue q unread) ∨
      t.service.unread? = none ∨
      (∀ order, a ≠ .evaluate order) ∧ t.service = s.service := by
  cases h
  case read q unread hreads => exact .inl ⟨q, unread, hreads, rfl⟩
  case onInit | onExit | sendExit => exact .inr (.inl rfl)
  all_goals exact .inr (.inr ⟨fun _ => TimerStep.noConfusion, rfl⟩)

/-- What is in the hands of the thread of `libuv` comes from a queue. -/
theorem TimerTrans.hand (h : TimerTrans s a events t)
    (hhand : t.uvThread.hand? = some p) : p ∈ s.places := by
  refine mem_places.mpr ?_
  cases h
  case read =>
    unfold readQueue at hhand
    split at hhand
    · exact .inr hhand
    · exact .inr hhand
  case onInit | refused | created | unsent | onExit | sendExit => exact .inr hhand
  case notify =>
    unfold timerOnUvNotify at hhand
    dsimp only at hhand
    split at hhand
    · cases hhand
    · cases hhand
  case timerClose hpoint hp hdead =>
    obtain rfl := Option.some.inj hhand
    exact .inl ⟨.dead, hdead⟩
  case take hpoint hidle | closeIdle hpoint hidle =>
    obtain rfl := Option.some.inj hhand
    refine .inl ⟨.idle, ?_⟩
    show _ ∈ s.idleQueue
    rw [hidle]
    exact List.mem_cons_self
  case initFailed hpoint _ =>
    rw [hpoint]
    exact .inr hhand
  case startFailed hpoint hp hbusy | expired hpoint hp hbusy | closeBusy hpoint hbusy =>
    obtain rfl := Option.some.inj hhand
    exact .inl ⟨.busy, hbusy⟩
  case retire hpoint hp | free hpoint hp =>
    exact absurd (hpoint.hand.2.symm.trans hhand) (Option.some_ne_none _).symm
  all_goals cases hhand

end TimerCtx

/-! ## What the sizes tell -/

open TimerCtx

variable {x y : ObservedTimers} {a : TimerStep} {tr events : List TimerEvent} {p : Nat}
  {ok : ObservedTimers → TimerStep → Prop}

theorem ObservedTimers.step_some (h : x.step a = some (y, events)) :
    x.ctx.step a = some (y.ctx, events) ∧ y.moved = x.note y.ctx a := by
  obtain ⟨⟨s, shown⟩, hnext, heq⟩ := Option.map_eq_some_iff.mp h
  cases heq
  exact ⟨hnext, rfl⟩

theorem ObservedTimers.note_other {s : TimerCtx} (hother : ∀ order, a ≠ .evaluate order) :
    x.note s a =
      if x.ctx.service.isReading then x.moved ++ s.uvThread.hand?.toList else x.moved := by
  cases a with
  | evaluate order => exact absurd rfl (hother order)
  | _ => rfl

/-- An observed run is a run. -/
theorem ObservedTimerRun.run (h : ObservedTimerRun ok tr x)
    (hok : ∀ x a, ok x a → x.ctx.Enabled a) : TimerRun Enabled tr x.ctx := by
  refine h.invariant (P := fun tr x => TimerRun Enabled tr x.ctx) .refl ?_
  rintro tr x events y - ih ⟨a, ha, hnext⟩
  exact ih.snoc ⟨a, hok x a ha, (ObservedTimers.step_some hnext).1⟩

/-- The records in the queues whose sizes have been read and in the hands of the
thread of `libuv` are among those that it has moved meanwhile. -/
def Accounted (x : ObservedTimers) : Prop :=
  ∀ unread, x.ctx.service.unread? = some unread →
    (∀ p, x.ctx.uvThread.hand? = some p → p ∈ x.moved) ∧
      ∀ q, q ∉ unread → ∀ p ∈ x.ctx.queue q, p ∈ x.moved

theorem Accounted.places (h : Accounted x) (hexited : x.ctx.service = .exited)
    (hp : p ∈ x.ctx.places) : p ∈ x.moved := by
  obtain ⟨hhand, hqueue⟩ := h [] (by rw [hexited]; rfl)
  rcases mem_places.mp hp with ⟨q, hq⟩ | hp
  · exact hqueue q List.not_mem_nil p hq
  · exact hhand p hp

theorem readQueue_uvThread {s : TimerCtx} (q : TimerQueue) (unread : List TimerQueue) :
    (s.readQueue q unread).uvThread = s.uvThread := by
  unfold readQueue
  split
  · rfl
  · rfl

theorem readQueue_queue {s : TimerCtx} (q : TimerQueue) (unread : List TimerQueue)
    (q' : TimerQueue) : (s.readQueue q unread).queue q' = s.queue q' := by
  unfold readQueue
  split
  · cases q' <;> rfl
  · cases q' <;> rfl

theorem readQueue_unread {s : TimerCtx} {q : TimerQueue} {unread rest : List TimerQueue}
    (h : (s.readQueue q unread).service.unread? = some rest) :
    s.queue q = [] ∧ rest = unread := by
  unfold readQueue at h
  split at h
  next hempty =>
    refine ⟨hempty, ?_⟩
    by_cases hlast : unread = []
    · rw [if_pos hlast] at h
      exact (Option.some.inj h).symm.trans hlast.symm
    · rw [if_neg hlast] at h
      exact (Option.some.inj h).symm
  next => cases h

/-- The last size, or another one, is read. -/
theorem Accounted.read {q : TimerQueue} {unread : List TimerQueue} (h : Accounted x)
    (hreads : x.ctx.Reads q unread a) (hctx : y.ctx = x.ctx.readQueue q unread)
    (hmoved : y.moved = x.note y.ctx a) : Accounted y := by
  have hqueue : ∀ q', y.ctx.queue q' = x.ctx.queue q' := fun q' => by
    rw [hctx, readQueue_queue]
  have hhand : y.ctx.uvThread = x.ctx.uvThread := by
    rw [hctx, readQueue_uvThread]
  intro rest hrest
  rw [hctx] at hrest
  obtain ⟨hempty, rfl⟩ := readQueue_unread hrest
  cases hreads with
  | first hservice hperm =>
      -- the observer starts with what is in the hands now
      have hnote : y.moved = x.ctx.uvThread.hand?.toList := by
        rw [hmoved, ObservedTimers.note, hhand]
      refine ⟨fun p hp => ?_, fun q' hq' p hp => ?_⟩
      · rw [hnote, ← hhand]
        exact Option.mem_toList.mpr hp
      · have hall : q' ∈ q :: rest := hperm.mem_iff.mpr (by cases q' <;> decide)
        obtain rfl := (List.mem_cons.mp hall).resolve_right hq'
        rw [hqueue, hempty] at hp
        cases hp
  | next hservice =>
      -- the sizes read before are still accounted for
      have hnote : y.moved = x.moved ++ x.ctx.uvThread.hand?.toList := by
        rw [hmoved, ObservedTimers.note_other fun _ => TimerStep.noConfusion, hhand,
          hservice]
        rfl
      obtain ⟨-, hbefore⟩ := h (q :: rest) (by rw [hservice]; rfl)
      refine ⟨fun p hp => ?_, fun q' hq' p hp => ?_⟩
      · rw [hnote, ← hhand]
        exact List.mem_append_right _ (Option.mem_toList.mpr hp)
      · rw [hqueue] at hp
        rw [hnote]
        by_cases hqq : q' = q
        · rw [hqq, hempty] at hp
          cases hp
        · exact List.mem_append_left _ (hbefore q' (by simp [hqq, hq']) p hp)

/-- The service stays where it is. -/
theorem Accounted.move (h : Accounted x) (hs : x.ctx.Phased)
    (htrans : TimerTrans x.ctx a events y.ctx) (hother : ∀ order, a ≠ .evaluate order)
    (hservice : y.ctx.service = x.ctx.service) (hmoved : y.moved = x.note y.ctx a) :
    Accounted y := by
  have hnote : y.moved = if x.ctx.service.isReading then
      x.moved ++ y.ctx.uvThread.hand?.toList else x.moved :=
    hmoved.trans (ObservedTimers.note_other hother)
  have hold : ∀ p ∈ x.moved, p ∈ y.moved := by
    intro p hp
    rw [hnote]
    split
    · exact List.mem_append_left _ hp
    · exact hp
  intro unread hunread
  rw [hservice] at hunread
  obtain ⟨hhand, hqueue⟩ := h unread hunread
  refine ⟨fun p hp => ?_, fun q hq p hp => ?_⟩
  · by_cases hreading : x.ctx.service.isReading = true
    · rw [hnote, if_pos hreading]
      exact List.mem_append_right _ (Option.mem_toList.mpr hp)
    · -- after the return the hands only get what is accounted for already
      have hexited : x.ctx.service = .exited := by
        cases hbefore : x.ctx.service with
        | exited => rfl
        | reading _ => exact absurd (by rw [hbefore]; rfl) hreading
        | waiting | serving | leaving | asleep =>
            rw [hbefore] at hunread
            cases hunread
      exact hold p (h.places hexited (htrans.hand hp))
  · have hlooping : x.ctx.looping = false := by
      by_contra hlooping
      rw [hs.looping.mp (Bool.not_eq_false _ ▸ hlooping)] at hunread
      cases hunread
    rcases htrans.fromHand hlooping q p hp with hp | hp
    · exact hold p (hqueue q hq p hp)
    · exact hold p (hhand p hp)

theorem Accounted.step (h : Accounted x) (hs : x.ctx.Sound) (hen : x.ctx.Enabled a)
    (hstep : x.step a = some (y, events)) : Accounted y := by
  obtain ⟨hnext, hmoved⟩ := ObservedTimers.step_some hstep
  have htrans := step_trans hnext hen
  rcases htrans.service_cases with
    ⟨q, unread, hreads, hctx⟩ | hnone | ⟨hother, hservice⟩
  · exact h.read hreads hctx hmoved
  · intro unread hunread
    rw [hnone] at hunread
    cases hunread
  · exact h.move hs.phased htrans hother hservice hmoved

theorem ObservedTimerRun.accounted (h : ObservedTimerRun ok tr x)
    (hok : ∀ x a, ok x a → x.ctx.Enabled a) : Accounted x := by
  refine h.invariant (P := fun _ x => Accounted x) ?_ ?_
  · intro unread hunread
    cases hunread
  · rintro tr x events y hrun ih ⟨a, ha, hstep⟩
    have hs := TimerRun.sound (ObservedTimerRun.run hrun hok) fun _ _ h => h
    exact ih.step hs (hok x a ha) hstep

/-- A record that is alive when `_timer_on_exit` has returned has been in the hands of
the thread of `libuv` while the three sizes were read. -/
theorem ObservedTimerRun.alive_moved (h : ObservedTimerRun ok tr x)
    (hok : ∀ x a, ok x a → x.ctx.Enabled a) (hexited : x.ctx.service = .exited)
    (hp : x.ctx.heap p ≠ none) : p ∈ x.moved := by
  have hs := TimerRun.sound (h.run hok) fun _ _ h => h
  refine (h.accounted hok).places hexited ((hs.kept.placed.mem p).mpr ?_)
  exact Option.isSome_iff_ne_none.mpr hp

/-- If it has had none, none has been moved until it returns. -/
theorem ObservedTimerRun.unmoved
    (h : ObservedTimerRun (fun x a => x.ctx.Enabled a ∧ x.readsApart a) tr x)
    (hexited : x.ctx.service = .exited) : x.moved = [] := by
  refine h.invariant
    (P := fun _ x => x.ctx.service = .exited → x.moved = []) ?_ ?_ hexited
  · exact fun _ => rfl
  · rintro tr x events y hrun ih ⟨a, ⟨hen, hapart⟩, hstep⟩ hexited
    have hok : ∀ (x : ObservedTimers) a,
        x.ctx.Enabled a ∧ x.readsApart a → x.ctx.Enabled a := fun _ _ h => h.1
    obtain ⟨hnext, hmoved⟩ := ObservedTimers.step_some hstep
    rcases (step_trans hnext hen).service_cases with
      ⟨q, unread, hreads, hctx⟩ | hnone | ⟨hother, hservice⟩
    · have hlast : (x.ctx.readQueue q unread).service.unread? = some [] := by
        rw [← hctx, hexited]
        rfl
      obtain ⟨hempty, rfl⟩ := readQueue_unread hlast
      cases hreads with
      | first _ hperm => cases hperm.length_eq
      | next hservice =>
          -- the last size: what is in the hands now has been noted before
          have hbefore : x.moved = [] := hapart q (by rw [hservice]; rfl) hempty
          obtain ⟨hhand, -⟩ := ObservedTimerRun.accounted hrun hok [q]
            (by rw [hservice]; rfl)
          have hnone : y.ctx.uvThread.hand? = none := by
            refine Option.eq_none_iff_forall_ne_some.mpr fun p hp => ?_
            rw [hctx, readQueue_uvThread] at hp
            exact List.not_mem_nil (hbefore ▸ hhand p hp)
          rw [hmoved, ObservedTimers.note_other fun _ => TimerStep.noConfusion, hservice,
            hbefore, hnone]
          rfl
    · rw [hexited] at hnone
      cases hnone
    · rw [hmoved, ObservedTimers.note_other hother, ← hservice, hexited]
      exact ih (hservice ▸ hexited)

/-! ## After `_timer_on_exit` -/

namespace TimerCtx

variable {s t : TimerCtx}

theorem Gone.of_places (h : s.places = []) : s.Gone := by
  obtain ⟨hqueues, hhand⟩ := List.append_eq_nil_iff.mp h
  obtain ⟨hqueues, hdead⟩ := List.append_eq_nil_iff.mp hqueues
  obtain ⟨hidle, hbusy⟩ := List.append_eq_nil_iff.mp hqueues
  exact ⟨hbusy, hidle, hdead, Option.toList_eq_nil_iff.mp hhand⟩

theorem Gone.places (h : s.Gone) : s.places = [] := by
  rw [TimerCtx.places, h.idleQueue, h.busyQueue, h.deadQueue, h.hand]
  rfl

theorem Gone.heap (h : s.Gone) (hs : s.Sound) (p : Nat) : s.heap p = none := by
  cases hp : s.heap p with
  | none => rfl
  | some r =>
      have hmem : p ∈ s.places := (hs.kept.placed.mem p).mpr (by rw [hp]; rfl)
      rw [h.places] at hmem
      cases hmem

/-- Without records no timer is started or closed, and the assertions of
`_timer_on_libuv_loop_exit` hold. -/
theorem Gone.quiet (h : s.Gone) (hs : s.Sound) (hstep : TimerTrans s a events t)
    {e : TimerEvent} (he : e ∈ events) : e.touchesTimer = false ∧ e ≠ .loopExit false := by
  have hheap := h.heap hs
  cases hstep
  case start hp | rollback hp | retire hp =>
    rw [hheap] at hp
    cases hp
  case loopExit =>
    obtain rfl := List.mem_singleton.mp he
    rw [h.busyQueue, h.deadQueue, h.idleQueue]
    exact ⟨rfl, by decide⟩
  case refused | created | onExit | expire | initFailed | free =>
    obtain rfl := List.mem_singleton.mp he
    exact ⟨rfl, TimerEvent.noConfusion⟩
  case unsent =>
    simp only [List.mem_cons, List.not_mem_nil, or_false] at he
    obtain rfl | rfl | rfl := he
    all_goals exact ⟨rfl, TimerEvent.noConfusion⟩
  all_goals cases he

end TimerCtx

/-- **The exit of the timer service.**  If the thread of `libuv` has no record in its
hands while `_timer_on_exit` reads the three sizes and finds them zero, no record is
alive when it returns, and from then on no timer is started or closed, and the
assertions of `_timer_on_libuv_loop_exit` hold.  In any run a record that is alive then
has been in the hands of this thread while the sizes were read. -/
theorem timers_gone (tr : List TimerEvent) (x : ObservedTimers) :
    (ObservedTimerRun (fun x a => x.ctx.Enabled a ∧ x.readsApart a) tr x →
      x.ctx.service = .exited →
        (∀ p, x.ctx.heap p = none) ∧ x.ctx.Gone ∧
          ∀ a s events, x.ctx.Enabled a → x.ctx.step a = some (s, events) →
            ∀ e ∈ events, e.touchesTimer = false ∧ e ≠ .loopExit false) ∧
    (ObservedTimerRun (fun x a => x.ctx.Enabled a) tr x →
      x.ctx.service = .exited → ∀ p, x.ctx.heap p ≠ none → p ∈ x.moved) := by
  refine ⟨fun h hexited => ?_, fun h hexited p hp =>
    h.alive_moved (fun _ _ h => h) hexited hp⟩
  have hs := TimerRun.sound (h.run fun _ _ h => h.1) fun _ _ h => h
  have hgone : x.ctx.Gone := by
    refine .of_places (List.eq_nil_iff_forall_not_mem.mpr fun p hp => ?_)
    have hmem := (h.accounted fun _ _ h => h.1).places hexited hp
    exact List.not_mem_nil (h.unmoved hexited ▸ hmem)
  exact ⟨hgone.heap hs, hgone, fun a s events hen hstep e he =>
    hgone.quiet hs (step_trans hstep hen) he⟩

/-- The record is on its way to `busy_queue` in the first evaluation, which finds it
there, and its timer is closed before the second one. -/
def exitAfterwards : List TimerStep :=
  [.onInit, .reqDelay 9 100 1 true, .onUvNotify, .goOn true, .onExit, .sendExit true,
    .evaluate [.idle, .busy, .dead], .goOn true, .readSize, .goOn true, .goOn true,
    .onUvNotify, .goOn true, .goOn true, .goOn true, .onTimerClose 1, .goOn true,
    .evaluate [.busy, .idle, .dead], .readSize, .readSize]

theorem timers_gone_afterwards :
    ∃ tr x, ObservedTimerRun (fun x a => x.ctx.Enabled a ∧ x.readsApart a) tr x ∧
      x.ctx.service = .exited ∧ .release 0 ∈ tr ∧ x.ctx.Gone := by
  have hreplay : (replay ObservedTimers.step (fun x a => x.ctx.Enabled a ∧ x.readsApart a)
      .initial exitAfterwards).any (fun o : ObservedTimers × List TimerEvent =>
        decide (o.1.ctx.service = .exited ∧ .release 0 ∈ o.2)) = true := by
    decide
  obtain ⟨x, tr, hrun, hcheck⟩ := exists_run_of_replay hreplay
  obtain ⟨hexited, hrelease⟩ := of_decide_eq_true hcheck
  exact ⟨tr, x, hrun, hexited, hrelease, ((timers_gone tr x).1 hrun hexited).2.1⟩

/-- The record is taken out of `idle_queue` before the exit, and its timer is started
after it. -/
def exitMeanwhile : List TimerStep :=
  [.onInit, .reqDelay 9 100 1 true, .onUvNotify, .goOn true, .onExit, .sendExit true,
    .evaluate [.busy, .idle, .dead], .readSize, .readSize]

/-- `_timer_on_exit` returns while the record is on its way, and the assertions fail. -/
theorem timer_missed :
    ∃ tr s, TimerRun Enabled tr s ∧ s.service = .exited ∧ s.uvThread = .starting 1 ∧
      ∃ tr' s', LabelledRun.Run (LabelledRun.Guarded step Enabled) s tr' s' ∧
        .start 0 100 ∈ tr' ∧ .loopExit false ∈ tr' := by
  obtain ⟨tr, s, hrun, hcheck⟩ :=
    exists_run Enabled exitMeanwhile
      (fun o => decide (o.1.service = .exited ∧ o.1.uvThread = .starting 1) &&
        (LabelledRun.replay step Enabled o.1
          [.goOn true, .goOn true, .goOn true, .onLibuvLoopExit]).any
          fun (o : TimerCtx × List TimerEvent) =>
            decide (TimerEvent.start 0 100 ∈ o.2 ∧ TimerEvent.loopExit false ∈ o.2))
      (by decide)
  obtain ⟨hexit, hrest⟩ := (Bool.and_eq_true _ _).mp hcheck
  obtain ⟨hexited, hhand⟩ := of_decide_eq_true hexit
  obtain ⟨s', tr', hrun', hafter⟩ := LabelledRun.exists_run_of_replay hrest
  obtain ⟨hstart, hassert⟩ := of_decide_eq_true hafter
  exact ⟨tr, s, hrun, hexited, hhand, tr', s', hrun', hstart, hassert⟩

end Powerpack
end Eaf

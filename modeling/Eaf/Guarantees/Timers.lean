import Eaf.Powerpack.TimerFacts

/-!
# Delay requests

A delay request is answered at most once, and its record is freed after the answer or
after `_timer_on_exit` has begun.
-/

namespace Eaf
namespace Powerpack

open Core LabelledRun Custody

/-- How often request `n` is answered. -/
def answers (tr : List TimerEvent) (n : Nat) : Nat :=
  (tr.filterMap TimerEvent.answered?).count n

theorem answers_append (tr events : List TimerEvent) (n : Nat) :
    answers (tr ++ events) n = answers tr n + answers events n := by
  rw [answers, List.filterMap_append, List.count_append]
  rfl

/-- How far the request of a record is. -/
inductive TimerStage
  /-- it is not answered -/
  | waiting
  /-- it has just been answered, and the timer has not been closed -/
  | expired
  /-- the record is still to be freed -/
  | dead
  deriving DecidableEq, Repr

/-- How far the request of the record at `p` is when it is not in `dead_queue`. -/
def TimerUvPoint.stage (p : Nat) : TimerUvPoint → TimerStage
  | .expired q | .retiring q => if q = p then .expired else .waiting
  | .refused q | .closed q => if q = p then .dead else .waiting
  | _ => .waiting

/-- A record goes from one stage to another with `n` answers; `begun` says that
`_timer_on_exit` has been called. -/
inductive TimerStage.Step (begun : Prop) : TimerStage → Nat → TimerStage → Prop
  | stay (st : TimerStage) : Step begun st 0 st
  | expire : Step begun .waiting 1 .expired
  | close : Step begun .expired 0 .dead
  | fail : Step begun .waiting 1 .dead
  | drop (h : begun) : Step begun .waiting 0 .dead

/-- What the answers to a request have to be in a stage. -/
def TimerStage.Answered (tr : List TimerEvent) (n : Nat) : TimerStage → Prop
  | .waiting => answers tr n = 0
  | .expired => answers tr n = 1
  | .dead => answers tr n = 1 ∨ .exitBegun ∈ tr

theorem TimerStage.Step.same {begun : Prop} {st st' : TimerStage} {n : Nat}
    (hstage : st' = st) (hn : n = 0) : Step begun st n st' := by
  rw [hstage, hn]
  exact .stay st

theorem TimerStage.Answered.step {tr events : List TimerEvent} {n : Nat}
    {st st' : TimerStage} {begun : Prop} (h : st.Answered tr n)
    (hstep : Step begun st (answers events n) st') (hbegun : begun → .exitBegun ∈ tr) :
    st'.Answered (tr ++ events) n := by
  have hsum := answers_append tr events n
  generalize answers events n = k at hstep hsum
  cases hstep with
  | stay =>
      cases st with
      | waiting => exact hsum.trans h
      | expired => exact hsum.trans h
      | dead =>
          rcases h with hone | hexit
          · exact .inl (hsum.trans hone)
          · exact .inr (List.mem_append_left _ hexit)
  | expire =>
      have hzero : answers tr n = 0 := h
      rw [hzero] at hsum
      exact hsum
  | close => exact .inl (hsum.trans h)
  | fail =>
      have hzero : answers tr n = 0 := h
      rw [hzero] at hsum
      exact .inl hsum
  | drop hexit => exact .inr (List.mem_append_left _ (hbegun hexit))

namespace TimerCtx

variable {s t : TimerCtx} {a : TimerStep} {tr events : List TimerEvent} {p q : Nat}
  {r : TimerRecord}

/-- The stage of the record at `p`. -/
def stage (s : TimerCtx) (p : Nat) : TimerStage :=
  if p ∈ s.deadQueue then .dead else s.uvThread.stage p

theorem stage_eq (hdead : p ∈ t.deadQueue ↔ p ∈ s.deadQueue)
    (hpoint : t.uvThread.stage p = s.uvThread.stage p) : t.stage p = s.stage p := by
  unfold stage
  simp only [hdead, hpoint]

theorem answers_cons (m n : Nat) (dst : UInt32) (code : Int) (rest : List TimerEvent) :
    answers (.answer m dst code :: rest) n =
      answers rest n + if m = n then 1 else 0 := by
  have hfirst : TimerEvent.answered? (.answer m dst code) = some m := rfl
  rw [answers, List.filterMap_cons_some hfirst, List.count_cons]
  simp only [beq_iff_eq]
  rfl

theorem stage_busy (hs : s.Sound) (hp : p ∈ s.busyQueue) :
    s.stage p = s.uvThread.stage p :=
  if_neg (hs.not_dead hp)

theorem stage_hand (hs : s.Sound) (hhand : s.uvThread.hand? = some p) :
    s.stage p = s.uvThread.stage p :=
  if_neg (hand_not_mem hs.kept.placed hhand .dead)

theorem stage_pushed {point : TimerUvPoint} (p : Nat) :
    (s.pushed p point).stage p = .dead :=
  if_pos (List.mem_append_right _ List.mem_cons_self)

/-- The other records stay where they are when one is closed. -/
theorem stage_pushed_other {point : TimerUvPoint} (hqp : q ≠ p)
    (hpoint : point.stage q = s.uvThread.stage q) :
    (s.pushed p point).stage q = s.stage q := by
  refine stage_eq ?_ hpoint
  simp [pushed, hqp]

theorem Retires.stage_other {point point' : TimerUvPoint} (h : Retires p point point')
    (hqp : q ≠ p) : point'.stage q = point.stage q := by
  rcases h with ⟨rfl, rfl⟩ | ⟨rfl, rfl⟩
  · exact (if_neg (Ne.symm hqp)).symm
  · rfl

theorem Frees.stage_other {point point' : TimerUvPoint} (h : Frees p point point')
    (hqp : q ≠ p) : point'.stage q = point.stage q := by
  rcases h with ⟨rfl, rfl⟩ | ⟨rfl, rfl⟩ | ⟨rfl, rfl⟩
  · exact (if_neg (Ne.symm hqp)).symm
  · exact (if_neg (Ne.symm hqp)).symm
  · rfl

/-- A record is freed after the answer, or in `_timer_close_all_timer`. -/
theorem Frees.stage {point point' : TimerUvPoint} (h : Frees p point point') :
    point.stage p = .dead ∨ point.closes = true := by
  rcases h with ⟨rfl, -⟩ | ⟨rfl, -⟩ | ⟨rfl, -⟩
  · exact .inl (if_pos rfl)
  · exact .inl (if_pos rfl)
  · exact .inr rfl

/-- The thread of `libuv` holds no record, and is at none whose timer has expired. -/
theorem stage_of_not_held {point : TimerUvPoint} (htimer : point.timer? ≠ some p)
    (hhand : point.hand? ≠ some p) : point.stage p = .waiting := by
  cases point with
  | expired q => exact if_neg fun hqp => htimer (congrArg some hqp)
  | retiring q | refused q | closed q => exact if_neg fun hqp => hhand (congrArg some hqp)
  | _ => rfl

theorem other_req (hs : s.Sound) {r' : TimerRecord} (hp : s.heap p = some r)
    (hq : s.heap q = some r') (hqp : q ≠ p) : r.req ≠ r'.req :=
  fun hreq => hqp (hs.kept.apart q p r' r hq hp hreq.symm)

/-- Each record that there is after a step is new, or goes on from its stage. -/
theorem TimerTrans.stage (h : TimerTrans s a events t) (hs : s.Sound)
    (hq : t.heap q = some r) :
    r.req = s.requests ∧ answers events r.req = 0 ∧ t.stage q = .waiting ∨
      s.heap q = some r ∧ TimerStage.Step (s.service.begun = true) (s.stage q)
        (answers events r.req) (t.stage q) := by
  cases h
  case onInit | onExit | sendExit => exact .inr ⟨hq, .same (stage_eq Iff.rfl rfl) rfl⟩
  case refused =>
    have hne := Nat.ne_of_gt (hs.kept.requests q r hq)
    refine .inr ⟨hq, .same (stage_eq Iff.rfl rfl) ?_⟩
    rw [answers_cons, if_neg hne]
    rfl
  case unsent src _ _ _ _ =>
    have hne := Nat.ne_of_gt (hs.kept.requests q r hq)
    refine .inr ⟨hq, .same (stage_eq Iff.rfl rfl) ?_⟩
    refine (answers_cons s.requests r.req src Errno.unknown [.release s.requests]).trans ?_
    rw [if_neg hne]
    rfl
  case read =>
    unfold readQueue at hq ⊢
    split
    · rename_i hempty
      rw [if_pos hempty] at hq
      exact .inr ⟨hq, .same (stage_eq Iff.rfl rfl) rfl⟩
    · rename_i hempty
      rw [if_neg hempty] at hq
      exact .inr ⟨hq, .same (stage_eq Iff.rfl rfl) rfl⟩
  case created src msec p hlooping hp =>
    rcases of_update_some hq with ⟨rfl, rfl⟩ | hold
    · have hnot : q ∉ s.places := fun hmem => by
        obtain ⟨r', hr'⟩ := hs.live hmem
        rw [hp] at hr'
        cases hr'
      refine .inl ⟨rfl, rfl, ?_⟩
      have hdead : q ∉ s.deadQueue := fun hmem => hnot (by simp [places, hmem])
      refine (if_neg hdead).trans (stage_of_not_held (fun htimer => ?_) fun hhand => ?_)
      · obtain ⟨hbusy, -⟩ := hs.handled.timer q htimer
        exact hnot (by simp [places, hbusy])
      · exact hnot (by simp [places, show s.uvThread.hand? = some q from hhand])
    · exact .inr ⟨hold, .same (stage_eq Iff.rfl rfl) rfl⟩
  case notify hpoint _ =>
    refine .inr ⟨hq, .same (stage_eq Iff.rfl ?_) rfl⟩
    rw [hpoint, timerOnUvNotify]
    dsimp only
    split
    · rfl
    · rfl
  case expire p r' hpoint hp hactive =>
    have hbusy := hs.handled.busy (by rw [hpoint]; rfl) hactive
    refine .inr ⟨hq, ?_⟩
    rw [answers_cons]
    by_cases hqp : q = p
    · subst hqp
      obtain rfl := Option.some.inj (hp.symm.trans hq)
      have hafter : TimerUvPoint.stage q (.expired q) = .expired := if_pos rfl
      rw [stage_busy hs hbusy, hpoint, TimerCtx.stage, if_neg (hs.not_dead hbusy), hafter,
        if_pos rfl]
      exact .expire
    · rw [if_neg (Ne.symm (other_req hs hq hp (Ne.symm hqp)))]
      refine .same (stage_eq Iff.rfl ?_) rfl
      rw [hpoint]
      exact if_neg (Ne.symm hqp)
  case timerClose p r' hpoint hp hdead =>
    -- the record leaves `dead_queue`, and is still to be freed
    refine .inr ⟨hq, .same ?_ rfl⟩
    by_cases hqp : q = p
    · subst hqp
      have hdeadQueue : s.deadQueue.Nodup := by
        have hnodup := hs.kept.placed.nodup
        rw [places, List.append_assoc] at hnodup
        exact hnodup.of_append_right.of_append_left
      have hafter : TimerUvPoint.stage q (.closed q) = .dead := if_pos rfl
      rw [TimerCtx.stage, TimerCtx.stage, if_neg hdeadQueue.not_mem_erase, hafter,
        if_pos hdead]
    · refine stage_eq (List.mem_erase_of_ne hqp) ?_
      rw [hpoint]
      exact if_neg (Ne.symm hqp)
  case initFailed p r' hpoint hp =>
    refine .inr ⟨hq, ?_⟩
    rw [answers_cons]
    by_cases hqp : q = p
    · subst hqp
      obtain rfl := Option.some.inj (hp.symm.trans hq)
      have hhand : s.uvThread.hand? = some q := by
        rw [hpoint]
        rfl
      have hafter : (s.goto (.refused q)).stage q = .dead :=
        (if_neg (hand_not_mem hs.kept.placed hhand .dead)).trans (if_pos rfl)
      rw [stage_hand hs hhand, hpoint, hafter, if_pos rfl]
      exact .fail
    · rw [if_neg (Ne.symm (other_req hs hq hp (Ne.symm hqp)))]
      refine .same (stage_eq Iff.rfl ?_) rfl
      rw [hpoint]
      exact if_neg (Ne.symm hqp)
  case rollback p r' hpoint hp =>
    refine .inr ⟨hq, ?_⟩
    rw [answers_cons]
    by_cases hqp : q = p
    · subst hqp
      obtain rfl := Option.some.inj (hp.symm.trans hq)
      rw [stage_hand hs (by rw [hpoint]; rfl), hpoint, stage_pushed, if_pos rfl]
      exact .fail
    · rw [if_neg (Ne.symm (other_req hs hq hp (Ne.symm hqp)))]
      exact .same (stage_pushed_other hqp (by rw [hpoint]; rfl)) rfl
  case retire p r' point hpoint hp =>
    refine .inr ⟨hq, ?_⟩
    by_cases hqp : q = p
    · subst hqp
      rw [stage_hand hs hpoint.hand.1, stage_pushed]
      rcases hpoint with ⟨hpoint, -⟩ | ⟨hpoint, -⟩
      · have hbefore : TimerUvPoint.stage q (.retiring q) = .expired := if_pos rfl
        rw [hpoint, hbefore]
        exact .close
      · -- `_timer_close_all_timer` answers nothing
        rw [hpoint]
        exact .drop (hs.phased.closes (by rw [hpoint]; rfl))
    · exact .same (stage_pushed_other hqp (hpoint.stage_other hqp)) rfl
  case free p r' point hpoint hp =>
    have hqp : q ≠ p := fun hqp => by
      subst hqp
      have hnone := Function.update_self q none s.heap
      exact Option.some_ne_none r (hq.symm.trans hnone)
    exact .inr ⟨of_update_none hq, .same (stage_eq Iff.rfl (hpoint.stage_other hqp)) rfl⟩
  case closeIdle hpoint hidle | closeEnd hpoint hidle =>
    refine .inr ⟨hq, .same (stage_eq Iff.rfl ?_) rfl⟩
    rcases hpoint with ⟨hpoint, -⟩ | hpoint
    · rw [hpoint]
      rfl
    · rw [hpoint]
      rfl
  case notifyEnd hpoint _ | take hpoint _ | init hpoint _ | start hpoint _
    | startFailed hpoint _ _ | expired hpoint _ _ | closeBusy hpoint _
    | loopExit hpoint _ =>
    exact .inr ⟨hq, .same (stage_eq Iff.rfl (by rw [hpoint]; rfl)) rfl⟩

/-- A step answers nothing, or once a request that is new or waits. -/
theorem TimerTrans.answers_cases (h : TimerTrans s a events t) (hs : s.Sound) :
    (∀ n, answers events n = 0) ∨
      ∃ m, (∀ n, answers events n = if m = n then 1 else 0) ∧
        (m = s.requests ∧ t.requests = s.requests + 1 ∨
          ∃ p r, s.heap p = some r ∧ r.req = m ∧ s.stage p = .waiting) := by
  have hone : ∀ m dst code n, answers [.answer m dst code] n = if m = n then 1 else 0 := by
    intro m dst code n
    rw [answers_cons]
    exact Nat.zero_add _
  cases h
  case refused => exact .inr ⟨_, hone _ _ _, .inl ⟨rfl, rfl⟩⟩
  case unsent src _ _ _ _ =>
    exact .inr ⟨_, hone s.requests src Errno.unknown, .inl ⟨rfl, rfl⟩⟩
  case expire p r hpoint hp hactive =>
    refine .inr ⟨_, hone _ _ _, .inr ⟨p, r, hp, rfl, ?_⟩⟩
    rw [stage_busy hs (hs.handled.busy (by rw [hpoint]; rfl) hactive), hpoint]
    rfl
  case initFailed p r hpoint hp =>
    refine .inr ⟨_, hone r.req r.src Errno.unknown, .inr ⟨p, r, hp, rfl, ?_⟩⟩
    rw [stage_hand hs (by rw [hpoint]; rfl), hpoint]
    rfl
  case rollback p r hpoint hp =>
    refine .inr ⟨_, hone r.req r.src Errno.unknown, .inr ⟨p, r, hp, rfl, ?_⟩⟩
    rw [stage_hand hs (by rw [hpoint]; rfl), hpoint]
    rfl
  all_goals exact .inl fun _ => rfl

theorem TimerTrans.begun (h : TimerTrans s a events t) (hbegun : t.service.begun = true) :
    s.service.begun = true ∨ .exitBegun ∈ events := by
  cases h
  case onInit => cases hbegun
  case onExit => exact .inr List.mem_cons_self
  case sendExit hservice =>
    rw [hservice]
    exact .inl rfl
  case read hreads => exact .inl hreads.service
  all_goals exact .inl hbegun

/-- The answers fit the stages of the records. -/
structure Answers (tr : List TimerEvent) (s : TimerCtx) : Prop where
  once : ∀ n, answers tr n ≤ 1
  later : ∀ n, s.requests ≤ n → answers tr n = 0
  begun : s.service.begun = true → .exitBegun ∈ tr
  stage : ∀ p r, s.heap p = some r → (s.stage p).Answered tr r.req

theorem Answers.step (ha : Answers tr s) (hs : s.Sound) (h : TimerTrans s a events t) :
    Answers (tr ++ events) t := by
  refine ⟨fun n => ?_, fun n hn => ?_, fun hbegun => ?_, fun p r hp => ?_⟩
  · have hold := ha.once n
    rw [answers_append]
    rcases h.answers_cases hs with hnone | ⟨m, hone, hm⟩
    · rw [hnone]
      exact hold
    · rw [hone]
      split
      · rename_i hmn
        have hzero : answers tr n = 0 := by
          rcases hm with ⟨hnew, -⟩ | ⟨p, r, hp, hreq, hstage⟩
          · exact ha.later n (by omega)
          · have hanswered := ha.stage p r hp
            rw [hstage, hreq, hmn] at hanswered
            exact hanswered
        omega
      · exact hold
  · have hle := h.heap_cases.1
    rw [answers_append, ha.later n (Nat.le_trans hle hn)]
    rcases h.answers_cases hs with hnone | ⟨m, hone, hm⟩
    · rw [hnone]
    · have hmn : m ≠ n := by
        rcases hm with ⟨hnew, hmore⟩ | ⟨p, r, hp, hreq, -⟩
        · omega
        · have hlt := hs.kept.requests p r hp
          omega
      rw [hone, if_neg hmn]
  · rcases h.begun hbegun with hold | hnew
    · exact List.mem_append_left _ (ha.begun hold)
    · exact List.mem_append_right _ hnew
  · rcases h.stage hs hp with ⟨hreq, hnone, hstage⟩ | ⟨hold, hstep⟩
    · rw [hstage]
      show answers (tr ++ events) r.req = 0
      rw [answers_append, hnone, ha.later r.req (Nat.le_of_eq hreq.symm)]
    · exact (ha.stage p r hold).step hstep ha.begun

/-! ## What is freed -/

/-- A record is freed after the answer, or after `_timer_on_exit` has begun. -/
def ReleasedLate (tr : List TimerEvent) : Prop :=
  ∀ front back n, tr = front ++ .release n :: back →
    0 < answers front n ∨ .exitBegun ∈ front

theorem releasedLate_append (h : ReleasedLate tr)
    (hevents : ∀ front back n, events = front ++ .release n :: back →
      0 < answers (tr ++ front) n ∨ .exitBegun ∈ tr ++ front) :
    ReleasedLate (tr ++ events) := by
  intro front back n hsplit
  rcases List.append_eq_append_iff.mp hsplit with ⟨rest, rfl, hrest⟩ | ⟨rest, rfl, hrest⟩
  · exact hevents rest back n hrest
  · cases rest with
    | nil =>
        have hfirst := hevents [] back n hrest.symm
        rwa [List.append_nil, List.append_nil] at hfirst
    | cons e rest =>
        obtain ⟨rfl, -⟩ := List.cons_eq_cons.mp hrest
        exact h front rest n rfl

/-- The only release of a step is its last event. -/
theorem split_release {pre front back : List TimerEvent} {m n : Nat}
    (hpre : ∀ n, .release n ∉ pre)
    (h : pre ++ [.release m] = front ++ .release n :: back) : front = pre ∧ n = m := by
  induction pre generalizing front with
  | nil =>
      cases front with
      | nil =>
          obtain ⟨hfirst, -⟩ := List.cons_eq_cons.mp h
          exact ⟨rfl, (TimerEvent.release.inj hfirst).symm⟩
      | cons e front => simp at h
  | cons e pre ih =>
      cases front with
      | nil =>
          obtain ⟨rfl, -⟩ := List.cons_eq_cons.mp h
          exact absurd List.mem_cons_self (hpre n)
      | cons e' front =>
          obtain ⟨rfl, hrest⟩ := List.cons_eq_cons.mp h
          obtain ⟨rfl, rfl⟩ := ih (fun n hn => hpre n (List.mem_cons_of_mem _ hn)) hrest
          exact ⟨rfl, rfl⟩

/-- What a step frees, it has answered before, or `_timer_on_exit` has begun. -/
theorem TimerTrans.releases (h : TimerTrans s a events t) (hs : s.Sound)
    (ha : Answers tr s) :
    (∀ n, .release n ∉ events) ∨
      ∃ pre m, events = pre ++ [.release m] ∧ (∀ n, .release n ∉ pre) ∧
        (0 < answers (tr ++ pre) m ∨ .exitBegun ∈ tr ++ pre) := by
  cases h
  case unsent src _ _ _ _ =>
    refine .inr ⟨[.create s.requests, .answer s.requests src Errno.unknown], s.requests,
      rfl, by simp, .inl ?_⟩
    have hone := answers_cons s.requests s.requests src Errno.unknown []
    rw [if_pos rfl] at hone
    rw [answers_append]
    show 0 < _ + answers [.answer s.requests src Errno.unknown] s.requests
    omega
  case free p r point hpoint hp =>
    refine .inr ⟨[], r.req, rfl, by simp, ?_⟩
    rw [List.append_nil]
    rcases hpoint.stage with hdead | hclose
    · have hanswered := ha.stage p r hp
      rw [stage_hand hs hpoint.hand.1, hdead] at hanswered
      rcases hanswered with hone | hexit
      · exact .inl (by omega)
      · exact .inr hexit
    · exact .inr (ha.begun (hs.phased.closes hclose))
  all_goals exact .inl (by simp [timerOnLibuvLoopExit])

theorem TimerTrans.releasedLate (h : TimerTrans s a events t) (hs : s.Sound)
    (ha : Answers tr s) (hlate : ReleasedLate tr) : ReleasedLate (tr ++ events) := by
  refine releasedLate_append hlate fun front back n hsplit => ?_
  rcases h.releases hs ha with hnone | ⟨pre, m, rfl, hpre, hanswered⟩
  · refine absurd ?_ (hnone n)
    rw [hsplit]
    exact List.mem_append_right _ List.mem_cons_self
  · obtain ⟨rfl, rfl⟩ := split_release hpre hsplit
    exact hanswered

theorem TimerRun.answers (h : TimerRun Enabled tr s) : Answers tr s ∧ ReleasedLate tr := by
  refine h.invariant (P := fun tr s => Answers tr s ∧ ReleasedLate tr) ?_ ?_
  · refine ⟨⟨fun _ => Nat.zero_le _, fun _ _ => rfl, fun hbegun => (by cases hbegun),
      fun _ _ hp => (by cases hp)⟩, fun front back n hsplit => ?_⟩
    cases front with
    | nil => cases hsplit
    | cons e front => cases hsplit
  · rintro tr s events t hrun ⟨ha, hlate⟩ ⟨a, hen, hstep⟩
    have hs := TimerRun.sound hrun fun _ _ h => h
    have htrans := step_trans hstep hen
    exact ⟨ha.step hs htrans, htrans.releasedLate hs ha hlate⟩

end TimerCtx

open TimerCtx

/-- **Delay requests.**  In every run of the two threads each request is answered at
most once; no record is freed before its request is answered, unless `_timer_on_exit`
has begun; each record that has not been freed is in one of the queues or in the hands
of the thread that moves it, and nowhere twice; and no step uses a record after it was
freed, or frees it twice. -/
theorem timers_kept {tr : List TimerEvent} {s : TimerCtx} (h : TimerRun Enabled tr s) :
    (∀ n, answers tr n ≤ 1) ∧
      (∀ front back n, tr = front ++ .release n :: back →
        0 < answers front n ∨ .exitBegun ∈ front) ∧
      (∀ p, s.places.count p = if (s.heap p).isSome then 1 else 0) ∧
      ∀ a, s.Enabled a → ∃ t events, s.step a = some (t, events) := by
  have hs := TimerRun.sound h fun _ _ h => h
  obtain ⟨ha, hlate⟩ := TimerRun.answers h
  refine ⟨ha.once, hlate, fun p => ?_, fun a hen => ?_⟩
  · have hplaced := hs.kept.placed
    split
    · rename_i hlive
      exact List.count_eq_one_of_mem hplaced.nodup ((hplaced.mem p).mpr hlive)
    · rename_i hfreed
      exact List.count_eq_zero.mpr fun hmem => hfreed ((hplaced.mem p).mp hmem)
  · obtain ⟨⟨t, events⟩, hstep⟩ := hs.step_defined hen
    exact ⟨t, events, hstep⟩

/-- A request that is answered when its timer expires, and its record freed. -/
def delayOnce : List TimerStep :=
  [.onInit, .reqDelay 9 100 1 true, .onUvNotify, .goOn true, .goOn true, .goOn true,
    .goOn true, .onActive 1, .goOn true, .goOn true, .onTimerClose 1, .goOn true]

theorem timers_kept_once :
    ∃ tr s, TimerRun Enabled tr s ∧ .release 0 ∈ tr ∧ answers tr 0 ≤ 1 := by
  obtain ⟨tr, s, hrun, hcheck⟩ :=
    exists_run Enabled delayOnce (fun o => decide (.release 0 ∈ o.2)) (by decide)
  exact ⟨tr, s, hrun, of_decide_eq_true hcheck, (timers_kept hrun).1 0⟩

end Powerpack
end Eaf

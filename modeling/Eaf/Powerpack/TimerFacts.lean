import Eaf.Foundation.Custody
import Eaf.Powerpack.Timer

/-!
# What the timers keep

The transitions of the timers one by one, and what holds between their steps: each
record is in one place, the timers that `libuv` knows are those of the records in
`busy_queue` and `dead_queue`, and no step is undefined.
-/

namespace Eaf
namespace Powerpack

open Core LabelledRun Custody

namespace TimerCtx

/-- A size is read: the first one of the condition, or the next one. -/
inductive Reads (s : TimerCtx) (q : TimerQueue) (unread : List TimerQueue) :
    TimerStep → Prop
  | first : s.service = .asleep → (q :: unread).Perm [.busy, .idle, .dead] →
      Reads s q unread (.evaluate (q :: unread))
  | next : s.service = .reading (q :: unread) → Reads s q unread .readSize

/-- A record comes into being. -/
def created (s : TimerCtx) (src msec : UInt32) (p : Nat) : TimerCtx :=
  { s with
    heap := Function.update s.heap p (some { req := s.requests, src, msec })
    idleQueue := s.idleQueue ++ [p]
    notifier := true
    requests := s.requests + 1 }

/-- A record has been taken out of `busy_queue`. -/
def erased (s : TimerCtx) (p : Nat) (point : TimerUvPoint) : TimerCtx :=
  { s with busyQueue := s.busyQueue.erase p, uvThread := point }

/-- A record has gone to `dead_queue`, and its timer is closed. -/
def pushed (s : TimerCtx) (p : Nat) (point : TimerUvPoint) : TimerCtx :=
  { s with
    deadQueue := s.deadQueue ++ [p]
    active := s.active.erase p
    closing := s.closing ++ [p]
    uvThread := point }

/-- A record has been freed. -/
def freed (s : TimerCtx) (p : Nat) (point : TimerUvPoint) : TimerCtx :=
  { s with heap := Function.update s.heap p none, uvThread := point }

/-- In `_timer_on_active` and `_timer_close_all_timer`, the thread of `libuv` goes from
one point to the other when it puts `p` into `dead_queue` and closes its timer. -/
def Retires (p : Nat) (point point' : TimerUvPoint) : Prop :=
  point = .retiring p ∧ point' = .polling ∨ point = .stopping p ∧ point' = .closingBusy

/-- The thread of `libuv` goes from one point to the other when it frees `p`. -/
def Frees (p : Nat) (point point' : TimerUvPoint) : Prop :=
  point = .refused p ∧ point' = .notified ∨ point = .closed p ∧ point' = .polling ∨
    point = .dropping p ∧ point' = .closingIdle

/-- The transitions of the timers. -/
inductive TimerTrans (s : TimerCtx) :
    TimerStep → List TimerEvent → TimerCtx → Prop
  | onInit (h : s.service = .waiting) : TimerTrans s .onInit [] s.timerOnInit
  | refused {src msec p sent} (h : s.looping = false) :
      TimerTrans s (.reqDelay src msec p sent) [.answer s.requests src Errno.state]
        { s with requests := s.requests + 1 }
  | created {src msec p} (h : s.looping = true) (hp : s.heap p = none) :
      TimerTrans s (.reqDelay src msec p true) [.create s.requests]
        (s.created src msec p)
  | unsent {src msec p} (h : s.looping = true) (hp : s.heap p = none) :
      TimerTrans s (.reqDelay src msec p false)
        [.create s.requests, .answer s.requests src Errno.unknown, .release s.requests]
        { s with
          idleQueue := (s.idleQueue ++ [p]).erase p
          requests := s.requests + 1 }
  | onExit (h : s.service = .waiting ∨ s.service = .serving) :
      TimerTrans s .onExit [.exitBegun] s.timerOnExit
  | sendExit {sent} (h : s.service = .leaving) :
      TimerTrans s (.sendExit sent) [] (s.timerSendExit sent)
  | read {q unread a} (h : s.Reads q unread a) : TimerTrans s a [] (s.readQueue q unread)
  | notify (h : s.uvThread = .polling) (hsent : s.notifier = true) :
      TimerTrans s .onUvNotify [] s.timerOnUvNotify
  | expire {p r} (h : s.uvThread = .polling) (hp : s.heap p = some r)
      (hactive : p ∈ s.active) :
      TimerTrans s (.onActive p) [.answer r.req r.src Errno.success]
        { s with active := s.active.erase p, uvThread := .expired p }
  | timerClose {p r} (h : s.uvThread = .polling) (hp : s.heap p = some r)
      (hdead : p ∈ s.deadQueue) :
      TimerTrans s (.onTimerClose p) []
        { s with
          deadQueue := s.deadQueue.erase p
          closing := s.closing.erase p
          uvThread := .closed p }
  | notifyEnd {ok} (h : s.uvThread = .notified) (hidle : s.idleQueue = []) :
      TimerTrans s (.goOn ok) [] (s.goto .polling)
  | take {ok p rest} (h : s.uvThread = .notified) (hidle : s.idleQueue = p :: rest) :
      TimerTrans s (.goOn ok) []
        { s with idleQueue := rest, uvThread := .starting p }
  | init {p r} (h : s.uvThread = .starting p) (hp : s.heap p = some r) :
      TimerTrans s (.goOn true) []
        { s with busyQueue := s.busyQueue ++ [p], uvThread := .initialised p }
  | initFailed {p r} (h : s.uvThread = .starting p) (hp : s.heap p = some r) :
      TimerTrans s (.goOn false) [.answer r.req r.src Errno.unknown]
        (s.goto (.refused p))
  | start {p r} (h : s.uvThread = .initialised p) (hp : s.heap p = some r) :
      TimerTrans s (.goOn true) [.start r.req r.msec]
        { s with active := s.active ++ [p], uvThread := .notified }
  | startFailed {p r} (h : s.uvThread = .initialised p) (hp : s.heap p = some r)
      (hbusy : p ∈ s.busyQueue) :
      TimerTrans s (.goOn false) [] (s.erased p (.rollback p))
  | rollback {ok p r} (h : s.uvThread = .rollback p) (hp : s.heap p = some r) :
      TimerTrans s (.goOn ok) [.answer r.req r.src Errno.unknown, .close r.req]
        (s.pushed p .notified)
  | expired {ok p r} (h : s.uvThread = .expired p) (hp : s.heap p = some r)
      (hbusy : p ∈ s.busyQueue) :
      TimerTrans s (.goOn ok) [] (s.erased p (.retiring p))
  | retire {ok p r point} (h : Retires p s.uvThread point) (hp : s.heap p = some r) :
      TimerTrans s (.goOn ok) [.close r.req] (s.pushed p point)
  | free {ok p r point} (h : Frees p s.uvThread point) (hp : s.heap p = some r) :
      TimerTrans s (.goOn ok) [.release r.req] (s.freed p point)
  | closeBusy {ok p} (h : s.uvThread = .closingBusy) (hbusy : p ∈ s.busyQueue) :
      TimerTrans s (.goOn ok) [] (s.erased p (.stopping p))
  | closeIdle {ok p rest}
      (h : s.uvThread = .closingBusy ∧ s.busyQueue = [] ∨ s.uvThread = .closingIdle)
      (hidle : s.idleQueue = p :: rest) :
      TimerTrans s (.goOn ok) []
        { s with idleQueue := rest, uvThread := .dropping p }
  | closeEnd {ok}
      (h : s.uvThread = .closingBusy ∧ s.busyQueue = [] ∨ s.uvThread = .closingIdle)
      (hidle : s.idleQueue = []) : TimerTrans s (.goOn ok) [] (s.goto .polling)
  | loopExit (h : s.uvThread = .polling) (hservice : s.service = .exited) :
      TimerTrans s .onLibuvLoopExit s.timerOnLibuvLoopExit.2 (s.goto .ended)

variable {s t : TimerCtx} {a : TimerStep} {events : List TimerEvent} {p q : Nat}
  {r : TimerRecord} {rest : List Nat} {l : List Nat}

theorem eraseNode_some {l' : List Nat} (h : eraseNode l p = some l') :
    p ∈ l ∧ l' = l.erase p := by
  unfold eraseNode at h
  split at h
  next hmem => exact ⟨hmem, (Option.some.inj h).symm⟩
  next => cases h

theorem eraseBusy_some {point : TimerUvPoint} (h : s.eraseBusy p point = some t) :
    p ∈ s.busyQueue ∧ t = s.erased p point := by
  rw [eraseBusy, Option.bind_eq_bind] at h
  obtain ⟨busy, hbusy, ht⟩ := Option.bind_eq_some_iff.mp h
  obtain ⟨hmem, rfl⟩ := eraseNode_some hbusy
  exact ⟨hmem, (Option.some.inj ht).symm⟩

theorem pushDead_some {point : TimerUvPoint} (h : s.pushDead p point = some t) :
    t = s.pushed p point := by
  rw [pushDead, Option.bind_eq_bind] at h
  obtain ⟨u, hclose, ht⟩ := Option.bind_eq_some_iff.mp h
  unfold uvClose at hclose
  split at hclose
  next => cases hclose
  next =>
    obtain rfl := Option.some.inj hclose
    exact (Option.some.inj ht).symm

theorem retire_trans {ok : Bool} {point : TimerUvPoint} (hpoint : Retires p s.uvThread point)
    (h : s.timerRetire p point = some (t, events)) : TimerTrans s (.goOn ok) events t := by
  simp only [timerRetire, Option.bind_eq_bind] at h
  obtain ⟨r, hp, h⟩ := Option.bind_eq_some_iff.mp h
  obtain ⟨u, hpush, h⟩ := Option.bind_eq_some_iff.mp h
  obtain ⟨rfl, rfl⟩ := Prod.mk.inj (Option.some.inj h)
  rw [pushDead_some hpush]
  exact .retire hpoint hp

theorem free_trans {ok : Bool} {point : TimerUvPoint} (hpoint : Frees p s.uvThread point)
    (h : s.free p point = some (t, events)) : TimerTrans s (.goOn ok) events t := by
  rw [TimerCtx.free, Option.bind_eq_bind] at h
  obtain ⟨r, hp, h⟩ := Option.bind_eq_some_iff.mp h
  obtain ⟨rfl, rfl⟩ := Prod.mk.inj (Option.some.inj h)
  exact .free hpoint hp

theorem closeIdle_trans {ok : Bool}
    (hpoint : s.uvThread = .closingBusy ∧ s.busyQueue = [] ∨ s.uvThread = .closingIdle)
    (h : s.timerCloseIdle = (t, events)) : TimerTrans s (.goOn ok) events t := by
  unfold timerCloseIdle at h
  split at h
  next hidle =>
    obtain ⟨rfl, rfl⟩ := Prod.mk.inj h
    exact .closeEnd hpoint hidle
  next p rest hidle =>
    obtain ⟨rfl, rfl⟩ := Prod.mk.inj h
    exact .closeIdle hpoint hidle

theorem goOn_trans {ok : Bool} (h : s.goOn ok = some (t, events)) :
    TimerTrans s (.goOn ok) events t := by
  unfold goOn at h
  split at h
  next => cases h
  next => cases h
  next hpoint =>
    split at h
    next hidle =>
      obtain ⟨rfl, rfl⟩ := Prod.mk.inj (Option.some.inj h)
      exact .notifyEnd hpoint hidle
    next p rest hidle =>
      obtain ⟨rfl, rfl⟩ := Prod.mk.inj (Option.some.inj h)
      exact .take hpoint hidle
  next p hpoint =>
    rw [timerInit, Option.bind_eq_bind] at h
    obtain ⟨r, hp, h⟩ := Option.bind_eq_some_iff.mp h
    cases ok with
    | true =>
        obtain ⟨rfl, rfl⟩ := Prod.mk.inj (Option.some.inj h)
        exact .init hpoint hp
    | false =>
        obtain ⟨rfl, rfl⟩ := Prod.mk.inj (Option.some.inj h)
        exact .initFailed hpoint hp
  next p hpoint => exact free_trans (.inl ⟨hpoint, rfl⟩) h
  next p hpoint =>
    simp only [timerStart, Option.bind_eq_bind] at h
    obtain ⟨r, hp, h⟩ := Option.bind_eq_some_iff.mp h
    cases ok with
    | true =>
        obtain ⟨rfl, rfl⟩ := Prod.mk.inj (Option.some.inj h)
        exact .start hpoint hp
    | false =>
        obtain ⟨u, herase, h⟩ := Option.bind_eq_some_iff.mp h
        obtain ⟨rfl, rfl⟩ := Prod.mk.inj (Option.some.inj h)
        obtain ⟨hbusy, rfl⟩ := eraseBusy_some herase
        exact .startFailed hpoint hp hbusy
  next p hpoint =>
    simp only [timerRollback, Option.bind_eq_bind] at h
    obtain ⟨r, hp, h⟩ := Option.bind_eq_some_iff.mp h
    obtain ⟨u, hpush, h⟩ := Option.bind_eq_some_iff.mp h
    obtain ⟨rfl, rfl⟩ := Prod.mk.inj (Option.some.inj h)
    rw [pushDead_some hpush]
    exact .rollback hpoint hp
  next p hpoint =>
    simp only [timerExpired, Option.bind_eq_bind] at h
    obtain ⟨r, hp, h⟩ := Option.bind_eq_some_iff.mp h
    obtain ⟨u, herase, h⟩ := Option.bind_eq_some_iff.mp h
    obtain ⟨rfl, rfl⟩ := Prod.mk.inj (Option.some.inj h)
    obtain ⟨hbusy, rfl⟩ := eraseBusy_some herase
    exact .expired hpoint hp hbusy
  next p hpoint => exact retire_trans (.inl ⟨hpoint, rfl⟩) h
  next p hpoint => exact free_trans (.inr (.inl ⟨hpoint, rfl⟩)) h
  next hpoint =>
    unfold timerCloseBusy at h
    split at h
    next hbusy => exact closeIdle_trans (.inl ⟨hpoint, hbusy⟩) (Option.some.inj h)
    next p rest hbusy =>
      obtain ⟨rfl, rfl⟩ := Prod.mk.inj (Option.some.inj h)
      have herased : TimerTrans s (.goOn ok) [] (s.erased p (.stopping p)) :=
        .closeBusy hpoint (by rw [hbusy]; exact List.mem_cons_self)
      rw [erased, hbusy, List.erase_cons_head] at herased
      exact herased
  next p hpoint => exact retire_trans (.inr ⟨hpoint, rfl⟩) h
  next hpoint => exact closeIdle_trans (.inr hpoint) (Option.some.inj h)
  next p hpoint => exact free_trans (.inr (.inr ⟨hpoint, rfl⟩)) h

/-- Every step that can come next is one of the transitions. -/
theorem step_trans (h : s.step a = some (t, events)) (hen : s.Enabled a) :
    TimerTrans s a events t := by
  cases a with
  | onInit =>
      obtain ⟨rfl, rfl⟩ := Prod.mk.inj (Option.some.inj h)
      exact .onInit hen
  | reqDelay src msec p sent =>
      simp only [step, timerOnReqDelay] at h
      by_cases hlooping : s.looping = true
      · rw [if_pos hlooping, Option.bind_eq_bind] at h
        cases sent with
        | true =>
            obtain ⟨rfl, rfl⟩ := Prod.mk.inj (Option.some.inj h)
            exact .created hlooping hen.2.1
        | false =>
            obtain ⟨idle, hidle, h⟩ := Option.bind_eq_some_iff.mp h
            obtain ⟨-, rfl⟩ := eraseNode_some hidle
            obtain ⟨rfl, rfl⟩ := Prod.mk.inj (Option.some.inj h)
            exact .unsent hlooping hen.2.1
      · rw [if_neg hlooping] at h
        obtain ⟨rfl, rfl⟩ := Prod.mk.inj (Option.some.inj h)
        exact .refused (Bool.eq_false_iff.mpr hlooping)
  | onExit =>
      obtain ⟨rfl, rfl⟩ := Prod.mk.inj (Option.some.inj h)
      exact .onExit hen
  | sendExit sent =>
      obtain ⟨rfl, rfl⟩ := Prod.mk.inj (Option.some.inj h)
      exact .sendExit hen
  | evaluate order =>
      cases order with
      | nil => cases h
      | cons q unread =>
          obtain ⟨rfl, rfl⟩ := Prod.mk.inj (Option.some.inj h)
          exact .read (.first hen.1 hen.2)
  | readSize =>
      rw [step] at h
      split at h
      next q unread hservice =>
        obtain ⟨rfl, rfl⟩ := Prod.mk.inj (Option.some.inj h)
        exact .read (.next hservice)
      next => cases h
  | onUvNotify =>
      obtain ⟨rfl, rfl⟩ := Prod.mk.inj (Option.some.inj h)
      exact .notify hen.1 hen.2
  | onActive p =>
      rw [step, timerOnActive, Option.bind_eq_bind] at h
      obtain ⟨r, hp, h⟩ := Option.bind_eq_some_iff.mp h
      obtain ⟨rfl, rfl⟩ := Prod.mk.inj (Option.some.inj h)
      exact .expire hen.1 hp hen.2
  | onTimerClose p =>
      simp only [step, timerOnTimerClose, Option.bind_eq_bind] at h
      obtain ⟨r, hp, h⟩ := Option.bind_eq_some_iff.mp h
      obtain ⟨dead, hdead, h⟩ := Option.bind_eq_some_iff.mp h
      obtain ⟨hmem, rfl⟩ := eraseNode_some hdead
      obtain ⟨rfl, rfl⟩ := Prod.mk.inj (Option.some.inj h)
      exact .timerClose hen.1 hp hmem
  | goOn ok => exact goOn_trans h
  | onLibuvLoopExit =>
      obtain ⟨rfl, rfl⟩ := Prod.mk.inj (Option.some.inj h)
      exact .loopExit hen.1 hen.2

/-! ## The records -/

/-- Each record is in one place, and is for a request of its own. -/
structure Kept (s : TimerCtx) : Prop where
  placed : Placed (fun p => (s.heap p).isSome = true) s.places
  requests : ∀ p r, s.heap p = some r → r.req < s.requests
  apart : ∀ p q r r', s.heap p = some r → s.heap q = some r' → r.req = r'.req → p = q

theorem isSome_update_none (p q : Nat) :
    (Function.update s.heap p none q).isSome = true ↔
      q ≠ p ∧ (s.heap q).isSome = true := by
  by_cases hqp : q = p
  · subst hqp
    simp
  · simp [hqp]

theorem isSome_update_some (p q : Nat) (r : TimerRecord) :
    (Function.update s.heap p (some r) q).isSome = true ↔
      q = p ∨ (s.heap q).isSome = true := by
  by_cases hqp : q = p
  · subst hqp
    simp
  · simp [hqp]

theorem perm_created (src msec : UInt32) (p : Nat) :
    (s.created src msec p).places.Perm (p :: s.places) := by
  refine List.perm_iff_count.mpr fun x => ?_
  simp only [places, created, List.count_append, List.count_cons, List.count_nil]
  omega

theorem perm_erased {point : TimerUvPoint} (hbusy : p ∈ s.busyQueue)
    (hbefore : s.uvThread.hand? = none) (hafter : point.hand? = some p) :
    (s.erased p point).places.Perm s.places := by
  refine List.perm_iff_count.mpr fun x => ?_
  have herase := (List.perm_cons_erase hbusy).count_eq x
  simp only [places, erased, hbefore, hafter, Option.toList_none, Option.toList_some,
    List.append_nil, List.count_append, List.count_cons, List.count_nil] at herase ⊢
  omega

theorem perm_pushed {point : TimerUvPoint} (hbefore : s.uvThread.hand? = some p)
    (hafter : point.hand? = none) : (s.pushed p point).places.Perm s.places := by
  simp only [places, pushed, hbefore, hafter, Option.toList_none, Option.toList_some,
    List.append_nil, List.append_assoc]
  exact .refl _

theorem perm_freed {point : TimerUvPoint} (hbefore : s.uvThread.hand? = some p)
    (hafter : point.hand? = none) : s.places.Perm (p :: (s.freed p point).places) := by
  simp only [places, freed, hbefore, hafter, Option.toList_none, Option.toList_some,
    List.append_nil]
  exact List.perm_append_singleton p _

theorem Retires.hand {point point' : TimerUvPoint} (h : Retires p point point') :
    point.hand? = some p ∧ point'.hand? = none := by
  rcases h with ⟨rfl, rfl⟩ | ⟨rfl, rfl⟩
  · exact ⟨rfl, rfl⟩
  · exact ⟨rfl, rfl⟩

theorem Frees.hand {point point' : TimerUvPoint} (h : Frees p point point') :
    point.hand? = some p ∧ point'.hand? = none := by
  rcases h with ⟨rfl, rfl⟩ | ⟨rfl, rfl⟩ | ⟨rfl, rfl⟩
  · exact ⟨rfl, rfl⟩
  · exact ⟨rfl, rfl⟩
  · exact ⟨rfl, rfl⟩

/-- The second loop of `_timer_close_all_timer` begins with empty hands. -/
theorem hand_closeIdle
    (h : s.uvThread = .closingBusy ∧ s.busyQueue = [] ∨ s.uvThread = .closingIdle) :
    s.uvThread.hand? = none := by
  rcases h with ⟨h, -⟩ | h
  · rw [h]
    rfl
  · rw [h]
    rfl

/-- The first record of `idle_queue` is taken out of it. -/
theorem perm_taken {rest : List Nat} {point : TimerUvPoint} (hidle : s.idleQueue = p :: rest)
    (hbefore : s.uvThread.hand? = none) (hafter : point.hand? = some p) :
    (places { s with idleQueue := rest, uvThread := point }).Perm s.places := by
  refine List.perm_iff_count.mpr fun x => ?_
  simp only [places, hbefore, hafter, hidle, Option.toList_none, Option.toList_some,
    List.append_nil, List.count_append, List.count_cons, List.count_nil]
  omega

/-- The thread of `libuv` goes on with empty hands. -/
theorem placed_goOn (hplaced : Placed (fun p => (s.heap p).isSome = true) s.places)
    (hbefore : s.uvThread.hand? = none) (hafter : t.uvThread.hand? = none)
    (hheap : t.heap = s.heap) (hidle : t.idleQueue = s.idleQueue)
    (hbusy : t.busyQueue = s.busyQueue) (hdead : t.deadQueue = s.deadQueue) :
    Placed (fun p => (t.heap p).isSome = true) t.places := by
  rw [places, hbefore] at hplaced
  rw [places, hafter, hheap, hidle, hbusy, hdead]
  exact hplaced

/-- A record in the hands of the thread of `libuv` is in no queue. -/
theorem hand_not_mem (hplaced : Placed (fun p => (s.heap p).isSome = true) s.places)
    (hhand : s.uvThread.hand? = some p) (q : TimerQueue) : p ∉ s.queue q := by
  intro hmem
  have hnodup := hplaced.nodup
  rw [places, hhand] at hnodup
  refine (List.nodup_append'.mp hnodup).2.2 ?_ List.mem_cons_self
  cases q with
  | busy => exact List.mem_append_left _ (List.mem_append_right _ hmem)
  | idle => exact List.mem_append_left _ (List.mem_append_left _ hmem)
  | dead => exact List.mem_append_right _ hmem

/-- Each record stays in one place. -/
theorem TimerTrans.placed (h : TimerTrans s a events t)
    (hplaced : Placed (fun p => (s.heap p).isSome = true) s.places) :
    Placed (fun p => (t.heap p).isSome = true) t.places := by
  cases h
  case onInit | refused | onExit | sendExit => exact hplaced
  case read =>
    unfold readQueue
    split
    · exact hplaced
    · exact hplaced
  case created src msec p hlooping hp =>
    refine hplaced.put ?_ (perm_created src msec p) fun q => isSome_update_some p q _
    rw [hp]
    exact Bool.false_ne_true
  case unsent src msec p hlooping hp =>
    have hidle : p ∉ s.idleQueue := fun hmem => by
      have hlive := (hplaced.mem p).mp (by simp [places, hmem])
      rw [hp] at hlive
      cases hlive
    refine hplaced.move (.of_eq ?_)
    simp only [places]
    rw [List.erase_append_right _ hidle, List.erase_cons_head, List.append_nil]
  case notify hpoint hsent =>
    refine placed_goOn hplaced (by rw [hpoint]; rfl) ?_ rfl rfl rfl rfl
    unfold timerOnUvNotify
    dsimp only
    split
    · rfl
    · rfl
  case expire p r hpoint hp hactive =>
    exact placed_goOn hplaced (by rw [hpoint]; rfl) rfl rfl rfl rfl rfl
  case notifyEnd hpoint _ | start hpoint _ | loopExit hpoint _ =>
    exact placed_goOn hplaced (by rw [hpoint]; rfl) rfl rfl rfl rfl rfl
  case closeEnd hpoint hidle =>
    exact placed_goOn hplaced (hand_closeIdle hpoint) rfl rfl rfl rfl rfl
  case timerClose p r hpoint hp hdead =>
    refine hplaced.move (List.perm_iff_count.mpr fun x => ?_)
    have herase := (List.perm_cons_erase hdead).count_eq x
    simp only [places, hpoint, TimerUvPoint.hand?, Option.toList_none,
      Option.toList_some, List.append_nil, List.count_append, List.count_cons,
      List.count_nil] at herase ⊢
    omega
  case take hpoint hidle =>
    exact hplaced.move (perm_taken hidle (by rw [hpoint]; rfl) rfl)
  case closeIdle hpoint hidle =>
    exact hplaced.move (perm_taken hidle (hand_closeIdle hpoint) rfl)
  case init p r hpoint hp =>
    refine hplaced.move (List.perm_iff_count.mpr fun x => ?_)
    simp only [places, hpoint, TimerUvPoint.hand?, Option.toList_none,
      Option.toList_some, List.append_nil, List.count_append, List.count_cons,
      List.count_nil]
    omega
  case initFailed p r hpoint hp =>
    refine hplaced.move (.of_eq ?_)
    rw [places, places, hpoint]
    rfl
  case startFailed hpoint hp hbusy | expired hpoint hp hbusy | closeBusy hpoint hbusy =>
    exact hplaced.move (perm_erased hbusy (by rw [hpoint]; rfl) rfl)
  case rollback hpoint hp => exact hplaced.move (perm_pushed (by rw [hpoint]; rfl) rfl)
  case retire hpoint hp =>
    exact hplaced.move (perm_pushed hpoint.hand.1 hpoint.hand.2)
  case free p r point hpoint hp =>
    exact hplaced.take (perm_freed hpoint.hand.1 hpoint.hand.2)
      fun q => isSome_update_none p q

/-- A step leaves the records as they are, makes one, or frees one. -/
theorem TimerTrans.heap_cases (h : TimerTrans s a events t) :
    s.requests ≤ t.requests ∧
      (t.heap = s.heap ∨ (∃ src msec p, t = s.created src msec p) ∨
        ∃ p, t.heap = Function.update s.heap p none) := by
  cases h
  case created src msec p _ _ => exact ⟨Nat.le_succ _, .inr (.inl ⟨src, msec, p, rfl⟩)⟩
  case refused | unsent => exact ⟨Nat.le_succ _, .inl rfl⟩
  case free p _ _ _ _ => exact ⟨le_rfl, .inr (.inr ⟨p, rfl⟩)⟩
  case read =>
    unfold readQueue
    split
    · exact ⟨le_rfl, .inl rfl⟩
    · exact ⟨le_rfl, .inl rfl⟩
  all_goals exact ⟨le_rfl, .inl rfl⟩

theorem of_update_none (h : Function.update s.heap p none q = some r) :
    s.heap q = some r := by
  by_cases hqp : q = p
  · subst hqp
    rw [Function.update_self] at h
    cases h
  · rwa [Function.update_of_ne hqp] at h

theorem of_update_some {r' : TimerRecord}
    (h : Function.update s.heap p (some r') q = some r) :
    q = p ∧ r = r' ∨ s.heap q = some r := by
  by_cases hqp : q = p
  · subst hqp
    rw [Function.update_self] at h
    exact .inl ⟨rfl, (Option.some.inj h).symm⟩
  · rw [Function.update_of_ne hqp] at h
    exact .inr h

theorem Kept.step (hs : s.Kept) (h : TimerTrans s a events t) : t.Kept := by
  obtain ⟨hle, hheap⟩ := h.heap_cases
  refine ⟨h.placed hs.placed, ?_, ?_⟩
  · rcases hheap with hsame | ⟨src, msec, p, rfl⟩ | ⟨p, hfree⟩
    · intro q r hq
      rw [hsame] at hq
      exact Nat.lt_of_lt_of_le (hs.requests q r hq) hle
    · intro q r hq
      rcases of_update_some hq with ⟨-, rfl⟩ | hold
      · exact Nat.lt_succ_self _
      · exact Nat.lt_succ_of_lt (hs.requests q r hold)
    · intro q r hq
      rw [hfree] at hq
      exact Nat.lt_of_lt_of_le (hs.requests q r (of_update_none hq)) hle
  · rcases hheap with hsame | ⟨src, msec, p, rfl⟩ | ⟨p, hfree⟩
    · rw [hsame]
      exact hs.apart
    · intro q q' r r' hq hq' hreq
      rcases of_update_some hq with ⟨rfl, rfl⟩ | hold
      · rcases of_update_some hq' with ⟨rfl, -⟩ | hold'
        · rfl
        · exact absurd hreq.symm (Nat.ne_of_lt (hs.requests q' r' hold'))
      · rcases of_update_some hq' with ⟨rfl, rfl⟩ | hold'
        · exact absurd hreq (Nat.ne_of_lt (hs.requests q r hold))
        · exact hs.apart q q' r r' hold hold' hreq
    · rw [hfree]
      exact fun q q' r r' hq hq' =>
        hs.apart q q' r r' (of_update_none hq) (of_update_none hq')

/-! ## The timers -/

/-- The timers that `libuv` knows are those of the records in two of the queues. -/
structure Handled (s : TimerCtx) : Prop where
  nodup : s.active.Nodup
  active : ∀ p ∈ s.active, p ∈ s.busyQueue ∨ s.uvThread = .stopping p
  closing : s.closing = s.deadQueue
  timer : ∀ p, s.uvThread.timer? = some p → p ∈ s.busyQueue ∧ p ∉ s.active

theorem Handled.busy (hs : s.Handled) (hhand : s.uvThread.hand? = none)
    (hactive : p ∈ s.active) : p ∈ s.busyQueue := by
  rcases hs.active p hactive with hbusy | hpoint
  · exact hbusy
  · rw [hpoint] at hhand
    cases hhand

/-- The thread of `libuv` goes on, and the timers stay as they are. -/
theorem Handled.goOn (hs : s.Handled) (hbefore : ∀ q, s.uvThread ≠ .stopping q)
    (hafter : t.uvThread.timer? = none) (hbusy : t.busyQueue = s.busyQueue)
    (hdead : t.deadQueue = s.deadQueue) (hactive : t.active = s.active)
    (hclosing : t.closing = s.closing) : t.Handled where
  nodup := by
    rw [hactive]
    exact hs.nodup
  active q hq := by
    rw [hactive] at hq
    rw [hbusy]
    exact .inl ((hs.active q hq).resolve_right (hbefore q))
  closing := by
    rw [hclosing, hdead]
    exact hs.closing
  timer q hq := by
    rw [hafter] at hq
    cases hq

theorem Handled.erased {point : TimerUvPoint} (hs : s.Handled)
    (htimer : s.uvThread.timer? = some p) (hpoint : point.timer? = none) :
    (s.erased p point).Handled where
  nodup := hs.nodup
  active q hq := by
    have hqp : q ≠ p := fun hqp => (hs.timer p htimer).2 (hqp ▸ hq)
    rcases hs.active q hq with hbusy | hstopping
    · exact .inl ((List.mem_erase_of_ne hqp).mpr hbusy)
    · rw [hstopping] at htimer
      cases htimer
  closing := hs.closing
  timer q hq := by
    rw [TimerCtx.erased, hpoint] at hq
    cases hq

theorem Handled.pushed {point : TimerUvPoint} (hs : s.Handled)
    (hhand : s.uvThread.hand? = some p) (hpoint : point.timer? = none) :
    (s.pushed p point).Handled where
  nodup := hs.nodup.erase p
  active q hq := by
    obtain ⟨hne, hmem⟩ := hs.nodup.mem_erase_iff.mp hq
    rcases hs.active q hmem with hbusy | hstopping
    · exact .inl hbusy
    · rw [hstopping] at hhand
      exact absurd (Option.some.inj hhand) hne
  closing := congrArg (· ++ [p]) hs.closing
  timer q hq := by
    rw [TimerCtx.pushed, hpoint] at hq
    cases hq

theorem Retires.timer {point point' : TimerUvPoint} (h : Retires p point point') :
    point'.timer? = none := by
  rcases h with ⟨-, rfl⟩ | ⟨-, rfl⟩
  · rfl
  · rfl

theorem Frees.timer {point point' : TimerUvPoint} (h : Frees p point point') :
    (∀ q, point ≠ .stopping q) ∧ point'.timer? = none := by
  rcases h with ⟨rfl, rfl⟩ | ⟨rfl, rfl⟩ | ⟨rfl, rfl⟩
  · exact ⟨fun _ => TimerUvPoint.noConfusion, rfl⟩
  · exact ⟨fun _ => TimerUvPoint.noConfusion, rfl⟩
  · exact ⟨fun _ => TimerUvPoint.noConfusion, rfl⟩

theorem Handled.step (hs : s.Handled)
    (hplaced : Placed (fun p => (s.heap p).isSome = true) s.places)
    (h : TimerTrans s a events t) : t.Handled := by
  cases h
  case startFailed hpoint hp hbusy | expired hpoint hp hbusy =>
    exact hs.erased (by rw [hpoint]; rfl) rfl
  case rollback hpoint hp => exact hs.pushed (by rw [hpoint]; rfl) rfl
  case retire hpoint hp => exact hs.pushed hpoint.hand.1 hpoint.timer
  case free hpoint hp => exact hs.goOn hpoint.timer.1 hpoint.timer.2 rfl rfl rfl rfl
  case closeBusy p hpoint hbusy =>
    -- the timer of `p` is still active while `p` is in no queue
    refine ⟨hs.nodup, fun q hq => ?_, hs.closing, fun q hq => by cases hq⟩
    have hmem := hs.busy (by rw [hpoint]; rfl) hq
    by_cases hqp : q = p
    · rw [hqp]
      exact .inr rfl
    · exact .inl ((List.mem_erase_of_ne hqp).mpr hmem)
  case read =>
    unfold readQueue
    split
    · exact ⟨hs.nodup, hs.active, hs.closing, hs.timer⟩
    · exact ⟨hs.nodup, hs.active, hs.closing, hs.timer⟩
  case onInit | refused | created | unsent | onExit | sendExit =>
    exact ⟨hs.nodup, hs.active, hs.closing, hs.timer⟩
  case notify hpoint hsent =>
    refine hs.goOn (by simp [hpoint]) ?_ rfl rfl rfl rfl
    unfold timerOnUvNotify
    dsimp only
    split
    · rfl
    · rfl
  case expire p r hpoint hp hactive =>
    have hhand : s.uvThread.hand? = none := by
      rw [hpoint]
      rfl
    refine ⟨hs.nodup.erase p,
      fun q hq => .inl (hs.busy hhand (List.mem_of_mem_erase hq)), hs.closing,
      fun q hq => ?_⟩
    obtain rfl := Option.some.inj hq
    exact ⟨hs.busy hhand hactive, hs.nodup.not_mem_erase⟩
  case timerClose p r hpoint hp hdead =>
    refine ⟨hs.nodup, fun q hq => .inl (hs.busy (by rw [hpoint]; rfl) hq),
      congrArg (List.erase · p) hs.closing, fun q hq => by cases hq⟩
  case init p r hpoint hp =>
    have hnot : p ∉ s.busyQueue := hand_not_mem hplaced (by rw [hpoint]; rfl) .busy
    have hold : ∀ q ∈ s.active, q ∈ s.busyQueue := fun q hq =>
      (hs.active q hq).resolve_right (by simp [hpoint])
    refine ⟨hs.nodup, fun q hq => .inl (List.mem_append_left _ (hold q hq)), hs.closing,
      fun q hq => ?_⟩
    obtain rfl := Option.some.inj hq
    exact ⟨List.mem_append_right _ List.mem_cons_self, fun hactive =>
      hnot (hold p hactive)⟩
  case start p r hpoint hp =>
    obtain ⟨hbusy, hactive⟩ := hs.timer p (by rw [hpoint]; rfl)
    refine ⟨?_, fun q hq => .inl ?_, hs.closing, fun q hq => by cases hq⟩
    · exact List.nodup_append'.mpr ⟨hs.nodup, List.nodup_singleton p, fun q hq hq' =>
        hactive (List.mem_singleton.mp hq' ▸ hq)⟩
    · rcases List.mem_append.mp hq with hq | hq
      · exact hs.busy (by rw [hpoint]; rfl) hq
      · rwa [List.mem_singleton.mp hq]
  case closeIdle hpoint _ | closeEnd hpoint _ =>
    refine hs.goOn (fun q hq => ?_) rfl rfl rfl rfl rfl
    have hhand := hand_closeIdle hpoint
    rw [hq] at hhand
    cases hhand
  case notifyEnd hpoint _ | take hpoint _ | initFailed hpoint _ | loopExit hpoint _ =>
    exact hs.goOn (by simp [hpoint]) rfl rfl rfl rfl rfl

/-! ## The phases -/

/-- `looping` is set from `_timer_on_init` to `_timer_on_exit`, and timers are closed
only after that. -/
structure Phased (s : TimerCtx) : Prop where
  looping : s.looping = true ↔ s.service = .serving
  notifier : s.notifier = true → s.service ≠ .waiting
  closes : s.uvThread.closes = true → s.service.begun = true
  unread : s.service ≠ .reading []

/-- The service does not move, and the thread of `libuv` is not at a close. -/
theorem Phased.goOn (hs : s.Phased) (hlooping : t.looping = s.looping)
    (hservice : t.service = s.service) (hnotifier : t.notifier = true → s.notifier = true)
    (hcloses : t.uvThread.closes = true → s.service.begun = true) : t.Phased where
  looping := by
    rw [hlooping, hservice]
    exact hs.looping
  notifier hsent := by
    rw [hservice]
    exact hs.notifier (hnotifier hsent)
  closes hclose := by
    rw [hservice]
    exact hcloses hclose
  unread := by
    rw [hservice]
    exact hs.unread

theorem Reads.service {q : TimerQueue} {unread : List TimerQueue}
    (h : s.Reads q unread a) : s.service.begun = true := by
  cases h with
  | first hservice _ | next hservice =>
      rw [hservice]
      rfl

theorem Phased.read {q : TimerQueue} {unread : List TimerQueue} (hs : s.Phased)
    (h : s.Reads q unread a) : (s.readQueue q unread).Phased := by
  have hbegun := h.service
  have hlooping : s.looping = false := by
    by_contra hlooping
    rw [hs.looping.mp (Bool.not_eq_false _ ▸ hlooping)] at hbegun
    cases hbegun
  unfold readQueue
  split
  · split
    · exact ⟨by simp [hlooping], fun _ => by simp, fun _ => rfl, by simp⟩
    · rename_i hunread
      exact ⟨by simp [hlooping], fun _ => by simp, fun _ => rfl, by simp [hunread]⟩
  · exact ⟨by simp [hlooping], fun _ => by simp, fun _ => rfl, by simp⟩

theorem Retires.closes {point point' : TimerUvPoint} (h : Retires p point point')
    (hclose : point'.closes = true) : point.closes = true := by
  rcases h with ⟨rfl, rfl⟩ | ⟨rfl, rfl⟩
  · cases hclose
  · rfl

theorem Frees.closes {point point' : TimerUvPoint} (h : Frees p point point')
    (hclose : point'.closes = true) : point.closes = true := by
  rcases h with ⟨rfl, rfl⟩ | ⟨rfl, rfl⟩ | ⟨rfl, rfl⟩
  · cases hclose
  · cases hclose
  · rfl

theorem closes_closeIdle
    (h : s.uvThread = .closingBusy ∧ s.busyQueue = [] ∨ s.uvThread = .closingIdle) :
    s.uvThread.closes = true := by
  rcases h with ⟨h, -⟩ | h
  · rw [h]
    rfl
  · rw [h]
    rfl

theorem Phased.step (hs : s.Phased) (h : TimerTrans s a events t) : t.Phased := by
  cases h
  case onInit hwaiting =>
    refine ⟨iff_of_true rfl rfl, fun _ => by simp [timerOnInit], fun hclose => ?_,
      by simp [timerOnInit]⟩
    have hbegun := hs.closes hclose
    rw [hwaiting] at hbegun
    cases hbegun
  case onExit hservice =>
    exact ⟨by simp [timerOnExit], fun _ => by simp [timerOnExit], fun _ => rfl,
      by simp [timerOnExit]⟩
  case sendExit hservice =>
    have hlooping : ¬s.looping = true := by simp [hs.looping, hservice]
    exact ⟨by simp [timerSendExit, hlooping], fun _ => by simp [timerSendExit],
      fun _ => rfl, by simp [timerSendExit]⟩
  case read hreads => exact hs.read hreads
  case created src msec p hlooping hp =>
    have hserving := hs.looping.mp hlooping
    refine ⟨hs.looping, fun _ => ?_, hs.closes, hs.unread⟩
    show s.service ≠ .waiting
    rw [hserving]
    exact TimerPoint.noConfusion
  case notify hpoint hsent =>
    refine hs.goOn rfl rfl (fun h => by cases h) fun hclose => ?_
    have hwaiting := hs.notifier hsent
    have hlooping : ¬s.looping = true := fun hlooping => by
      rw [timerOnUvNotify, if_pos hlooping] at hclose
      cases hclose
    rw [hs.looping] at hlooping
    cases hservice : s.service with
    | waiting => exact absurd hservice hwaiting
    | serving => exact absurd hservice hlooping
    | leaving | asleep | reading _ | exited => rfl
  case closeBusy hpoint _ =>
    exact hs.goOn rfl rfl id fun _ => hs.closes (by rw [hpoint]; rfl)
  case closeIdle hpoint _ =>
    exact hs.goOn rfl rfl id fun _ => hs.closes (closes_closeIdle hpoint)
  case retire hpoint _ =>
    exact hs.goOn rfl rfl id fun hclose => hs.closes (hpoint.closes hclose)
  case free hpoint _ =>
    exact hs.goOn rfl rfl id fun hclose => hs.closes (hpoint.closes hclose)
  case refused | unsent => exact hs.goOn rfl rfl id hs.closes
  all_goals exact hs.goOn rfl rfl id fun hclose => by cases hclose

/-! ## All together -/

/-- What holds between the steps. -/
structure Sound (s : TimerCtx) : Prop where
  kept : s.Kept
  handled : s.Handled
  phased : s.Phased

theorem Sound.initial : initial.Sound where
  kept := by
    refine ⟨?_, fun _ _ h => (by cases h), fun _ _ _ _ h => (by cases h)⟩
    exact ⟨List.nodup_nil, fun p => iff_of_false List.not_mem_nil Bool.false_ne_true⟩
  handled := ⟨List.nodup_nil, fun _ h => (by cases h), rfl, fun _ h => (by cases h)⟩
  phased := by
    refine ⟨iff_of_false Bool.false_ne_true TimerPoint.noConfusion, fun h => (by cases h),
      fun h => (by cases h), TimerPoint.noConfusion⟩

theorem Sound.step (hs : s.Sound) (h : TimerTrans s a events t) : t.Sound where
  kept := hs.kept.step h
  handled := hs.handled.step hs.kept.placed h
  phased := hs.phased.step h

theorem TimerRun.sound {ok : TimerCtx → TimerStep → Prop} {tr : List TimerEvent}
    (h : TimerRun ok tr s) (hok : ∀ s a, ok s a → s.Enabled a) : s.Sound := by
  refine Run.preserved h Sound.initial ?_
  rintro s events t hs ⟨a, ha, hstep⟩
  exact hs.step (step_trans hstep (hok s a ha))

/-! ## Every step is defined -/

/-- A record that is in one of the places has not been freed. -/
theorem Sound.live (hs : s.Sound) (hp : p ∈ s.places) : ∃ r, s.heap p = some r :=
  Option.isSome_iff_exists.mp ((hs.kept.placed.mem p).mp hp)

theorem Sound.live_busy (hs : s.Sound) (hp : p ∈ s.busyQueue) : ∃ r, s.heap p = some r :=
  hs.live (by simp [places, hp])

theorem Sound.not_dead (hs : s.Sound) (hp : p ∈ s.busyQueue) : p ∉ s.deadQueue := by
  intro hdead
  have hnodup := hs.kept.placed.nodup
  rw [places, List.append_assoc] at hnodup
  have hdisjoint := (List.nodup_append'.mp hnodup).2.2
  exact hdisjoint (List.mem_append_right _ hp) (List.mem_append_left _ hdead)

theorem Sound.live_hand (hs : s.Sound) (hhand : s.uvThread.hand? = some p) :
    ∃ r, s.heap p = some r :=
  hs.live (by simp [places, hhand])

/-- The record of a callback can be taken out of `busy_queue`. -/
theorem Sound.erase_defined (hs : s.Sound) (htimer : s.uvThread.timer? = some p)
    (point : TimerUvPoint) :
    ∃ r, s.heap p = some r ∧ s.eraseBusy p point = some (s.erased p point) := by
  obtain ⟨hbusy, -⟩ := hs.handled.timer p htimer
  obtain ⟨r, hr⟩ := hs.live_busy hbusy
  refine ⟨r, hr, ?_⟩
  rw [eraseBusy, eraseNode, if_pos hbusy]
  rfl

/-- A record in the hands of the thread of `libuv` can be closed. -/
theorem Sound.push_defined (hs : s.Sound) (hhand : s.uvThread.hand? = some p)
    (point : TimerUvPoint) :
    ∃ r, s.heap p = some r ∧ s.pushDead p point = some (s.pushed p point) := by
  obtain ⟨r, hr⟩ := hs.live_hand hhand
  have hclosing : p ∉ s.closing :=
    hs.handled.closing ▸ hand_not_mem hs.kept.placed hhand .dead
  refine ⟨r, hr, ?_⟩
  rw [pushDead, uvClose, if_neg hclosing]
  rfl

/-- A record in the hands of the thread of `libuv` can be freed. -/
theorem Sound.free_defined (hs : s.Sound) (hhand : s.uvThread.hand? = some p)
    (point : TimerUvPoint) : ∃ x, s.free p point = some x := by
  obtain ⟨r, hr⟩ := hs.live_hand hhand
  exact ⟨_, by rw [TimerCtx.free, hr]; rfl⟩

theorem Sound.retire_defined (hs : s.Sound) (hhand : s.uvThread.hand? = some p)
    (point : TimerUvPoint) : ∃ x, s.timerRetire p point = some x := by
  obtain ⟨r, hr, hpush⟩ := hs.push_defined hhand point
  exact ⟨_, by rw [timerRetire, hr, hpush]; rfl⟩

theorem Sound.goOn_defined (hs : s.Sound) (ok : Bool) (hpolling : s.uvThread ≠ .polling)
    (hended : s.uvThread ≠ .ended) : ∃ x, s.goOn ok = some x := by
  unfold TimerCtx.goOn
  split
  next hpoint => exact absurd hpoint hpolling
  next hpoint => exact absurd hpoint hended
  next =>
    split
    · exact ⟨_, rfl⟩
    · exact ⟨_, rfl⟩
  next p hpoint =>
    obtain ⟨r, hr⟩ := hs.live_hand (p := p) (by rw [hpoint]; rfl)
    rw [timerInit, hr, Option.bind_eq_bind, Option.bind_some]
    cases ok
    · exact ⟨_, rfl⟩
    · exact ⟨_, rfl⟩
  next hpoint => exact hs.free_defined (by rw [hpoint]; rfl) _
  next p hpoint =>
    obtain ⟨r, hr, herase⟩ :=
      hs.erase_defined (p := p) (by rw [hpoint]; rfl) (.rollback p)
    cases ok
    · exact ⟨_, by simp only [timerStart, hr, herase, Option.bind_eq_bind,
        Option.bind_some, Bool.false_eq_true, if_false]; rfl⟩
    · exact ⟨_, by rw [timerStart, hr]; rfl⟩
  next p hpoint =>
    obtain ⟨r, hr, hpush⟩ := hs.push_defined (p := p) (by rw [hpoint]; rfl) .notified
    exact ⟨_, by rw [timerRollback, hr, hpush]; rfl⟩
  next p hpoint =>
    obtain ⟨r, hr, herase⟩ :=
      hs.erase_defined (p := p) (by rw [hpoint]; rfl) (.retiring p)
    exact ⟨_, by rw [timerExpired, hr, herase]; rfl⟩
  next hpoint => exact hs.retire_defined (by rw [hpoint]; rfl) _
  next hpoint => exact hs.free_defined (by rw [hpoint]; rfl) _
  next => exact ⟨_, rfl⟩
  next hpoint => exact hs.retire_defined (by rw [hpoint]; rfl) _
  next => exact ⟨_, rfl⟩
  next hpoint => exact hs.free_defined (by rw [hpoint]; rfl) _

/-- No record is used after it was freed, or freed twice, no node is taken out of a
list it is not in, and no timer is closed twice. -/
theorem Sound.step_defined (hs : s.Sound) (hen : s.Enabled a) : ∃ x, s.step a = some x := by
  cases a with
  | onInit | onExit | sendExit | onUvNotify | onLibuvLoopExit => exact ⟨_, rfl⟩
  | reqDelay src msec p sent =>
      simp only [TimerCtx.step, timerOnReqDelay]
      by_cases hlooping : s.looping = true
      · rw [if_pos hlooping, Option.bind_eq_bind]
        cases sent with
        | true => exact ⟨_, rfl⟩
        | false =>
            have hmem : p ∈ s.idleQueue ++ [p] :=
              List.mem_append_right _ List.mem_cons_self
            exact ⟨_, by rw [eraseNode, if_pos hmem]; rfl⟩
      · rw [if_neg hlooping]
        exact ⟨_, rfl⟩
  | evaluate order =>
      cases order with
      | nil => cases hen.2.length_eq
      | cons q unread => exact ⟨_, rfl⟩
  | readSize =>
      cases hservice : s.service with
      | reading unread =>
          cases unread with
          | nil => exact absurd hservice hs.phased.unread
          | cons q unread => exact ⟨_, by rw [TimerCtx.step, hservice]⟩
      | waiting | serving | leaving | asleep | exited =>
          have hreading : s.service.isReading = true := hen
          rw [hservice] at hreading
          cases hreading
  | onActive p =>
      obtain ⟨r, hr⟩ := hs.live_busy (hs.handled.busy (by rw [hen.1]; rfl) hen.2)
      exact ⟨_, by rw [TimerCtx.step, timerOnActive, hr]; rfl⟩
  | onTimerClose p =>
      have hdead : p ∈ s.deadQueue := hs.handled.closing ▸ hen.2
      obtain ⟨r, hr⟩ := hs.live (p := p) (by simp [places, hdead])
      exact ⟨_, by rw [TimerCtx.step, timerOnTimerClose, hr, eraseNode, if_pos hdead]; rfl⟩
  | goOn ok => exact hs.goOn_defined ok hen.1 hen.2

end TimerCtx

end Powerpack
end Eaf

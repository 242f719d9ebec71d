import Eaf.Powerpack.SocketWait

/-!
# What holds while services wait for sockets

`Net.Sound` is about the records, the table and the handles that are being
closed; `Net.InStep` is about the services that have to be resumed.
-/

namespace Eaf
namespace Powerpack

open Core KeyedTable LabelledRun

/-! ## Records -/

namespace PollRecord

variable {r r' : PollRecord} {m : PollMember} {id evts timeout : UInt32}
  {pollInit : Bool}

/-- Both handles have been passed to `uv_close`. -/
def close (r : PollRecord) : PollRecord where
  uvPoll := { r.uvPoll with closing := true }
  uvTimer := { r.uvTimer with closing := true }
  refcnt := r.refcnt
  hasLocal := r.hasLocal
  id := r.id
  evts := r.evts
  timeout := r.timeout

/-- The close callback of a handle has begun. -/
def markClosed (r : PollRecord) (m : PollMember) : PollRecord :=
  r.setHandle { r.handle m with closed := true } m

/-- Of the handles that are closed, the one whose callback goes wrong. -/
def lastMember (r : PollRecord) : PollMember :=
  if r.uvPoll.initialised then .uvTimer else .uvPoll

/-- No handle of it has been started, or each has been stopped. -/
def Stopped (r : PollRecord) : Prop :=
  r.uvPoll.initialised = true ∧ r.uvPoll.active = none ∧ r.uvTimer.active = none

/-- What a record keeps until it is freed. -/
structure Before (r r' : PollRecord) : Prop where
  id : r'.id = r.id
  initialised : r'.uvPoll.initialised = r.uvPoll.initialised
  hasLocal : r.hasLocal = true → r'.hasLocal = true
  closing : r.uvPoll.closing = true → r'.uvPoll.closing = true

/-- It may be in the table. -/
structure Open (r : PollRecord) : Prop where
  initialised : r.uvPoll.initialised = true
  uvPoll : r.uvPoll.closing = false
  uvTimer : r.uvTimer.closing = false

/-- The close callback of a handle is to come. -/
structure Closing (m : PollMember) (r : PollRecord) : Prop where
  closing : (r.handle m).closing = true
  closed : (r.handle m).closed = false
  initialised : m = .uvTimer → r.uvPoll.initialised = true

structure Sound (r : PollRecord) : Prop where
  /-- only the callback of the `uv_poll` counts down -/
  refcnt : r.refcnt =
    if r.uvPoll.initialised = true ∧ r.uvPoll.closed = false then 2 else 1
  timer : r.uvTimer.initialised = true
  /-- without a `uv_poll` the `uv_timer` stays open -/
  timerOpen : r.uvPoll.initialised = false → r.uvTimer.closed = false
  closed : ∀ m, (r.handle m).closed = true → (r.handle m).closing = true
  active : ∀ m, (r.handle m).active.isSome = true →
    r.uvPoll.initialised = true ∧ r.hasLocal = true ∧
      (r.handle m).closing = false

theorem sound_fresh : (fresh id evts timeout pollInit).Sound where
  refcnt := by cases pollInit <;> rfl
  timer := rfl
  timerOpen := fun _ => rfl
  closed := fun m hclosed => by cases m <;> cases hclosed
  active := fun m hactive => by cases m <;> cases hactive

/-- `uv_poll` is closed without having been initialised. -/
theorem sound_noPoll : ((fresh id evts timeout false).setHandle
    { UvHandle.unused false with closing := true } .uvPoll).Sound where
  refcnt := rfl
  timer := rfl
  timerOpen := fun _ => rfl
  closed := fun m hclosed => by cases m <;> cases hclosed
  active := fun m hactive => by cases m <;> cases hactive

theorem before_close : r.Before r.close := ⟨rfl, rfl, fun h => h, fun _ => rfl⟩

theorem before_stop : r.Before r.stop := ⟨rfl, rfl, fun h => h, fun h => h⟩

theorem Before.trans {r'' : PollRecord} (h : r.Before r') (h' : r'.Before r'') :
    r.Before r'' where
  id := h'.id.trans h.id
  initialised := h'.initialised.trans h.initialised
  hasLocal := fun hr => h'.hasLocal (h.hasLocal hr)
  closing := fun hr => h'.closing (h.closing hr)

theorem before_markClosed : r.Before (r.markClosed m) := by
  cases m
  · exact ⟨rfl, rfl, fun h => h, fun h => h⟩
  · exact ⟨rfl, rfl, fun h => h, fun h => h⟩

/-- A record that is stopped and closed. -/
theorem Sound.stop_close (h : r.Sound) : r.stop.close.Sound where
  refcnt := h.refcnt
  timer := h.timer
  timerOpen := h.timerOpen
  closed := fun m _ => by cases m <;> rfl
  active := fun m hactive => by cases m <;> cases hactive

end PollRecord

/-! ## The records in memory -/

namespace Net

variable {L : PollLayout} {n t : Net} {p q : Nat} {r r' : PollRecord}
  {m : PollMember} {id : UInt32} {P Q : PollRecord → Prop}

/-- There is a record, and this is known about it. -/
def Holds (n : Net) (p : Nat) (P : PollRecord → Prop) : Prop :=
  ∃ r, n.heap p = some r ∧ P r

/-- The record at `p` belongs to a service. -/
def Known (n : Net) (id : UInt32) (p : Nat) : Prop :=
  n.Holds p fun r => r.id = id ∧ r.uvPoll.initialised = true

/-- No handle of it may fire, and none has. -/
def Unstarted (n : Net) (p : Nat) : Prop :=
  n.Holds p PollRecord.Stopped ∧ n.uvThread ≠ some p

theorem Holds.imp (h : n.Holds p P) (himp : ∀ r, P r → Q r) : n.Holds p Q := by
  obtain ⟨r, hr, hP⟩ := h
  exact ⟨r, hr, himp r hP⟩

theorem Holds.of_heap (h : n.Holds p P) (hp : n.heap p = some r) : P r := by
  obtain ⟨s, hs, hP⟩ := h
  obtain rfl := Option.some.inj (hp.symm.trans hs)
  exact hP

theorem Holds.congr (h : n.Holds p P) (hheap : t.heap p = n.heap p) :
    t.Holds p P := by
  obtain ⟨r, hr, hP⟩ := h
  exact ⟨r, hheap.trans hr, hP⟩

theorem heap_setRecord : (n.setRecord p r).heap p = some r :=
  Function.update_self ..

theorem heap_setRecord_ne (h : q ≠ p) : (n.setRecord p r).heap q = n.heap q :=
  Function.update_of_ne h ..

/-- No record with a `uv_poll` is lost. -/
def Grows (n t : Net) : Prop :=
  ∀ p r, n.heap p = some r → r.uvPoll.initialised = true →
    ∃ r', t.heap p = some r' ∧ r.Before r'

theorem Grows.known (h : n.Grows t) (hknown : n.Known id p) : t.Known id p := by
  obtain ⟨r, hr, hid, hinit⟩ := hknown
  obtain ⟨r', hr', hbefore⟩ := h p r hr hinit
  exact ⟨r', hr', hbefore.id.trans hid, hbefore.initialised.trans hinit⟩

/-- A new record. -/
theorem grows_new (hp : n.heap p = none)
    (hheap : t.heap = Function.update n.heap p (some r)) : n.Grows t := by
  intro q s hq _
  have hne : q ≠ p := fun heq => by
    rw [heq, hp] at hq
    cases hq
  exact ⟨s, by rw [hheap, Function.update_of_ne hne]; exact hq,
    rfl, rfl, fun h => h, fun h => h⟩

/-- A record changes. -/
theorem grows_set (hp : n.heap p = some r)
    (hheap : t.heap = Function.update n.heap p (some r')) (hbefore : r.Before r') :
    n.Grows t := by
  intro q s hq _
  by_cases hne : q = p
  · subst hne
    obtain rfl := Option.some.inj (hp.symm.trans hq)
    exact ⟨r', by rw [hheap, Function.update_self], hbefore⟩
  · exact ⟨s, by rw [hheap, Function.update_of_ne hne]; exact hq,
      rfl, rfl, fun h => h, fun h => h⟩

/-- Only a record without a `uv_poll` is freed. -/
theorem grows_free (hp : n.heap p = some r) (hinit : r.uvPoll.initialised = false)
    (hheap : t.heap = Function.update n.heap p none) : n.Grows t := by
  intro q s hq hs
  have hne : q ≠ p := fun heq => by
    rw [heq, hp] at hq
    obtain rfl := Option.some.inj hq
    rw [hinit] at hs
    cases hs
  exact ⟨s, by rw [hheap, Function.update_of_ne hne]; exact hq,
    rfl, rfl, fun h => h, fun h => h⟩

/-! ## What the steps compute -/

theorem uvClose_eq (hp : n.heap p = some r) (hopen : (r.handle m).closing = false) :
    n.uvClose p m = some { n with
      heap := Function.update n.heap p
        (some (r.setHandle { r.handle m with closing := true } m))
      pending := n.pending ++ [(p, m)] } := by
  simp [uvClose, hp, hopen]

theorem uvCloseBoth_eq (hp : n.heap p = some r) (hpoll : r.uvPoll.closing = false)
    (htimer : r.uvTimer.closing = false) :
    n.uvCloseBoth p = some { n with
      heap := Function.update n.heap p (some r.close)
      pending := n.pending ++ [(p, .uvPoll), (p, .uvTimer)] } := by
  let s : PollRecord := { r with uvPoll := { r.uvPoll with closing := true } }
  have htimer' : (s.handle .uvTimer).closing = false := htimer
  rw [uvCloseBoth, uvClose_eq (m := .uvPoll) hp hpoll, Option.bind_eq_bind,
    Option.bind_some, uvClose_eq (Function.update_self ..) htimer']
  simp only [Function.update_idem, List.append_assoc, List.cons_append, List.nil_append]
  rfl

/-- `_powerpack_net_cleanup` works on a record of the table. -/
theorem cleanup_eq (hp : n.heap p = some r) (htable : n.tablePoll r.id = some p)
    (hpoll : r.uvPoll.closing = false) (htimer : r.uvTimer.closing = false) :
    n.cleanup p = some { n with
      heap := Function.update n.heap p (some r.stop.close)
      tablePoll := Function.update n.tablePoll r.id none
      queueGc := n.queueGc ++ [p]
      pending := n.pending ++ [(p, .uvPoll), (p, .uvTimer)] } := by
  have hmove : n.moveToGcQueue p r.id = some { n with
      tablePoll := Function.update n.tablePoll r.id none
      queueGc := n.queueGc ++ [p] } := by
    rw [moveToGcQueue, Table.erase_of_some htable]
    rfl
  have hstop : ({ n with
      tablePoll := Function.update n.tablePoll r.id none
      queueGc := n.queueGc ++ [p] }.setRecord p r.stop).heap p = some r.stop :=
    heap_setRecord
  rw [cleanup, hp, Option.bind_eq_bind, Option.bind_some, hmove,
    Option.bind_eq_bind, Option.bind_some, uvCloseBoth_eq hstop hpoll htimer]
  simp only [setRecord, Function.update_idem]

/-- Without a record in the table it is undefined. -/
theorem cleanup_some (h : n.cleanup p = some t) :
    ∃ r, n.heap p = some r ∧ n.tablePoll r.id = some p := by
  cases hp : n.heap p with
  | none => simp [cleanup, hp] at h
  | some r =>
      refine ⟨r, rfl, ?_⟩
      by_contra htable
      simp [cleanup, hp, moveToGcQueue, Table.erase, htable] at h

/-! ## Records, table and closing handles -/

/-- What is true of the memory at any time. -/
structure Sound (L : PollLayout) (n : Net) : Prop where
  apart : ∀ p q, (n.heap p).isSome = true → (n.heap q).isSome = true → p ≠ q →
    p + L.size ≤ q ∨ q + L.size ≤ p
  records : ∀ p r, n.heap p = some r → r.Sound
  table : ∀ id p, n.tablePoll id = some p → n.Holds p fun r => r.id = id ∧ r.Open
  nodup : n.pending.Nodup
  pending : ∀ p m, (p, m) ∈ n.pending → n.Holds p (PollRecord.Closing m)

theorem sound_initial (unsafe0 : UInt32 → UInt32) : (initial unsafe0).Sound L where
  apart := fun p q hp => by cases hp
  records := fun p r hp => by cases hp
  table := fun id p hp => by cases hp
  nodup := List.nodup_nil
  pending := fun p m hp => by cases hp

theorem Fresh.heap (h : n.Fresh L p) : n.heap p = none := by
  cases hp : n.heap p with
  | none => rfl
  | some r =>
      have hpos := L.uvTimer_lt_size
      have happart := h p r hp
      omega

theorem Sound.table_ne (h : n.Sound L) (hp : n.heap p = none)
    (htable : n.tablePoll id = some q) : q ≠ p := by
  rintro rfl
  obtain ⟨r, hr, -⟩ := h.table id q htable
  rw [hp] at hr
  cases hr

theorem Sound.pending_ne (h : n.Sound L) (hp : n.heap p = none)
    (hpending : (q, m) ∈ n.pending) : q ≠ p := by
  rintro rfl
  obtain ⟨r, hr, -⟩ := h.pending q m hpending
  rw [hp] at hr
  cases hr

/-- A record that is in the table is not being closed. -/
theorem Sound.not_pending (h : n.Sound L) (htable : n.tablePoll id = some p) :
    (p, m) ∉ n.pending := by
  intro hpending
  obtain ⟨r, hr, -, hopen⟩ := h.table id p htable
  have hclosing := (h.pending p m hpending).of_heap hr
  cases m with
  | uvPoll => exact absurd hclosing.closing (by rw [PollRecord.handle, hopen.uvPoll]; decide)
  | uvTimer => exact absurd hclosing.closing (by rw [PollRecord.handle, hopen.uvTimer]; decide)

/-- Only the heap, the table and the pending callbacks matter. -/
theorem Sound.congr (h : n.Sound L) (hheap : t.heap = n.heap)
    (htable : t.tablePoll = n.tablePoll) (hpending : t.pending = n.pending) :
    t.Sound L where
  apart := by rw [hheap]; exact h.apart
  records := by rw [hheap]; exact h.records
  table := fun id p hp => by
    rw [htable] at hp
    exact (h.table id p hp).congr (by rw [hheap])
  nodup := by rw [hpending]; exact h.nodup
  pending := fun p m hp => by
    rw [hpending] at hp
    exact (h.pending p m hp).congr (by rw [hheap])

/-- One record is new or changes. -/
theorem Sound.update (h : n.Sound L)
    (hplace : (n.heap p).isSome = true ∨ n.Fresh L p) (hr : r.Sound)
    (hheap : t.heap = Function.update n.heap p (some r))
    (htable : ∀ id q, t.tablePoll id = some q →
      q = p ∧ r.id = id ∧ r.Open ∨ q ≠ p ∧ n.tablePoll id = some q)
    (hnodup : t.pending.Nodup)
    (hpending : ∀ q m, (q, m) ∈ t.pending →
      q = p ∧ r.Closing m ∨ q ≠ p ∧ (q, m) ∈ n.pending) : t.Sound L := by
  have hself : t.heap p = some r := by rw [hheap, Function.update_self]
  have hother : ∀ q, q ≠ p → t.heap q = n.heap q := fun q hq => by
    rw [hheap, Function.update_of_ne hq]
  have happart : ∀ q, (t.heap q).isSome = true → q ≠ p →
      p + L.size ≤ q ∨ q + L.size ≤ p := by
    intro q hq hne
    rw [hother q hne] at hq
    rcases hplace with hold | hfresh
    · exact h.apart p q hold hq (Ne.symm hne)
    · obtain ⟨s, hs⟩ := Option.isSome_iff_exists.mp hq
      exact hfresh q s hs
  refine ⟨fun q q' hq hq' hne => ?_, fun q s hq => ?_, fun id q hq => ?_, hnodup,
    fun q m hq => ?_⟩
  · by_cases hqp : q = p
    · subst hqp
      exact happart q' hq' (Ne.symm hne)
    by_cases hqp' : q' = p
    · subst hqp'
      exact (happart q hq hqp).symm
    rw [hother q hqp] at hq
    rw [hother q' hqp'] at hq'
    exact h.apart q q' hq hq' hne
  · by_cases hqp : q = p
    · subst hqp
      obtain rfl := Option.some.inj (hself.symm.trans hq)
      exact hr
    · rw [hother q hqp] at hq
      exact h.records q s hq
  · rcases htable id q hq with ⟨rfl, hid, hopen⟩ | ⟨hne, hold⟩
    · exact ⟨r, hself, hid, hopen⟩
    · exact (h.table id q hold).congr (hother q hne)
  · rcases hpending q m hq with ⟨rfl, hclosing⟩ | ⟨hne, hold⟩
    · exact ⟨r, hself, hclosing⟩
    · exact (h.pending q m hold).congr (hother q hne)

/-- A record that is neither in the table nor being closed is freed. -/
theorem Sound.free (h : n.Sound L) (hheap : t.heap = Function.update n.heap p none)
    (htable : ∀ id q, t.tablePoll id = some q → q ≠ p ∧ n.tablePoll id = some q)
    (hnodup : t.pending.Nodup)
    (hpending : ∀ q m, (q, m) ∈ t.pending → q ≠ p ∧ (q, m) ∈ n.pending) :
    t.Sound L := by
  have hself : t.heap p = none := by rw [hheap, Function.update_self]
  have hother : ∀ q, q ≠ p → t.heap q = n.heap q := fun q hq => by
    rw [hheap, Function.update_of_ne hq]
  have hne : ∀ q, (t.heap q).isSome = true → q ≠ p := by
    rintro q hq rfl
    rw [hself] at hq
    cases hq
  refine ⟨fun q q' hq hq' => ?_, fun q s hq => ?_, fun id q hq => ?_, hnodup,
    fun q m hq => ?_⟩
  · rw [hother q (hne q hq)] at hq
    rw [hother q' (hne q' hq')] at hq'
    exact h.apart q q' hq hq'
  · have hqp := hne q (by rw [hq]; rfl)
    rw [hother q hqp] at hq
    exact h.records q s hq
  · obtain ⟨hqp, hold⟩ := htable id q hq
    exact (h.table id q hold).congr (hother q hqp)
  · obtain ⟨hqp, hold⟩ := hpending q m hq
    exact (h.pending q m hold).congr (hother q hqp)

/-! ## What a step can do -/

/-- `n` after a cleanup of `r` at `p`. -/
def cleanedUp (n : Net) (p : Nat) (r : PollRecord) : Net :=
  { n with
    heap := Function.update n.heap p (some r.stop.close)
    tablePoll := Function.update n.tablePoll r.id none
    queueGc := n.queueGc ++ [p]
    pending := n.pending ++ [(p, .uvPoll), (p, .uvTimer)] }

/-- `n` after the close callback of `m` has changed `r` at `p` into `r'`. -/
def calledBack (n : Net) (p : Nat) (m : PollMember) (r' : PollRecord) : Net :=
  { n with
    heap := Function.update n.heap p (some r')
    pending := n.pending.erase (p, m) }

/-- The other entries stay. -/
theorem Sound.table_cleanedUp (h : n.Sound L) (hp : n.heap p = some r)
    (hq : (n.cleanedUp p r).tablePoll id = some q) :
    id ≠ r.id ∧ q ≠ p ∧ n.tablePoll id = some q := by
  by_cases hid : id = r.id
  · have hnone : (n.cleanedUp p r).tablePoll r.id = none := Function.update_self ..
    rw [hid, hnone] at hq
    cases hq
  · have hold : (n.cleanedUp p r).tablePoll id = n.tablePoll id :=
      Function.update_of_ne hid ..
    rw [hold] at hq
    refine ⟨hid, ?_, hq⟩
    rintro rfl
    exact hid ((h.table id q hq).of_heap hp).1.symm

inductive Effect (L : PollLayout) (n : Net) : NetStep → Net → Prop
  | unchanged {id evts timeout : UInt32} {outcome : SetupOutcome} :
      outcome.record? = none → Effect L n (.setup id evts timeout outcome) n
  /-- a setup that has failed closes the handles `ms` -/
  | refused {id evts timeout : UInt32} {outcome : SetupOutcome} {p : Nat}
      {r : PollRecord} {ms : List PollMember} :
      outcome.record? = some p → n.Fresh L p → r.Sound → ms.Nodup → (∀ m ∈ ms, r.Closing m) →
      r.lastMember ∈ ms → Effect L n (.setup id evts timeout outcome) { n with
        heap := Function.update n.heap p (some r)
        queueGc := n.queueGc ++ [p]
        pending := n.pending ++ ms.map fun m => (p, m) }
  | entered {id evts timeout : UInt32} {p : Nat} : n.Fresh L p →
      n.commit id = .idle → n.tablePoll id = none →
      Effect L n (.setup id evts timeout (.ready p)) ({ n with
        heap := Function.update n.heap p (some (.fresh id evts timeout true))
        tablePoll := Function.update n.tablePoll id (some p)
        waits := n.waits ++ [(id, p)] }.setCommit id .ready)
  | notFound {id : UInt32} : n.commit id = .ready → n.tablePoll id = none →
      Effect L n (.commitFind id) (n.setCommit id .idle)
  | found {id : UInt32} {p : Nat} {r : PollRecord} : n.commit id = .ready →
      n.tablePoll id = some p → n.heap p = some r →
      Effect L n (.commitFind id)
        ((n.setRecord p { r with hasLocal := true }).setCommit id (.found p))
  | pollStarted {id : UInt32} {p : Nat} {r : PollRecord} {events : UInt32} :
      n.commit id = .found p → n.heap p = some r → r.uvPoll.closing = false →
      Effect L n (.commitPollStart id p true) ((n.setRecord p { r with
        uvPoll := { r.uvPoll with active := some events } }).setCommit id (.polling p))
  | pollFailed {id : UInt32} {p : Nat} {ok : Bool} : n.commit id = .found p →
      Effect L n (.commitPollStart id p ok) (n.setCommit id (.failed p))
  | timerStarted {id : UInt32} {p : Nat} {r : PollRecord} {timeout : UInt32} :
      n.commit id = .polling p → n.heap p = some r → r.uvTimer.closing = false →
      Effect L n (.commitTimerStart id p true) ((n.setRecord p { r with
        uvTimer := { r.uvTimer with active := some timeout } }).setCommit id .idle)
  | timerFailed {id : UInt32} {p : Nat} {ok : Bool} : n.commit id = .polling p →
      Effect L n (.commitTimerStart id p ok) (n.setCommit id (.failed p))
  | cleaned {id : UInt32} {p : Nat} {r : PollRecord} : n.commit id = .failed p →
      n.heap p = some r → n.tablePoll r.id = some p →
      Effect L n (.commitCleanup id p) ((n.cleanedUp p r).setCommit id (.cleaned p))
  | resumed {id : UInt32} {p : Nat} : n.commit id = .cleaned p →
      Effect L n (.commitResume id p) ((n.resume id p).setCommit id .idle)
  | fired {a : NetStep} {p : Nat} {m : PollMember} {r : PollRecord}
      {unsafe0 : UInt32 → UInt32} :
      (a = .onTimer p ∨ ∃ status events, a = .onUvPoll p status events) →
      n.uvThread = none → n.heap p = some r → (r.handle m).active.isSome = true →
      Effect L n a { { n with unsafe0 := unsafe0 }.resume r.id p with
        uvThread := some p }
  | uvCleaned {p : Nat} {r : PollRecord} : n.uvThread = some p →
      n.heap p = some r → n.tablePoll r.id = some p →
      Effect L n (.uvCleanup p) { n.cleanedUp p r with uvThread := none }
  /-- the address taken for the record is wrong -/
  | missed {p : Nat} {r : PollRecord} : n.uvThread = none →
      (p, .uvTimer) ∈ n.pending → n.heap p = some r →
      Effect L n (.closeCallback p .uvTimer false)
        (n.calledBack p .uvTimer (r.markClosed .uvTimer))
  | counted {p : Nat} {r : PollRecord} {harmful : Bool} : n.uvThread = none →
      (p, .uvPoll) ∈ n.pending → n.heap p = some r →
      r.uvPoll.initialised = true →
      Effect L n (.closeCallback p .uvPoll harmful)
        (n.calledBack p .uvPoll { r.markClosed .uvPoll with refcnt := 1 })
  | freed {p : Nat} {r : PollRecord} {harmful : Bool} : n.uvThread = none →
      (p, .uvPoll) ∈ n.pending → n.heap p = some r →
      r.uvPoll.initialised = false → p ∈ n.queueGc →
      Effect L n (.closeCallback p .uvPoll harmful) { n with
        heap := Function.update n.heap p none
        queueGc := n.queueGc.erase p
        pending := n.pending.erase (p, .uvPoll) }

/-- Where the record is taken to be. -/
theorem offset_uvPoll (L : PollLayout) (p : Nat) :
    p + L.offset .uvPoll - L.uvPoll = p := Nat.add_sub_cancel ..

/-- From the `uv_timer` the address is inside the record, not at its start, so
it is that of no record. -/
theorem Sound.missed (h : n.Sound L) (hp : n.heap p = some r) :
    n.heap (p + L.offset .uvTimer - L.uvPoll) = none := by
  by_contra hne
  have hpos := L.uvPoll_lt_uvTimer
  have hsize := L.uvTimer_lt_size
  have happart := h.apart p (p + L.offset .uvTimer - L.uvPoll) (by rw [hp]; rfl)
    (Option.isSome_iff_ne_none.mpr hne)
  rw [PollLayout.offset] at happart
  omega

theorem setup_effect {evts timeout : UInt32} {outcome : SetupOutcome}
    (hidle : n.commit id = .idle) (hfresh : ∀ p ∈ outcome.record?, n.Fresh L p)
    (h : (n.socketWaitSetup id evts timeout outcome).map Prod.fst = some t) :
    n.Effect L (.setup id evts timeout outcome) t := by
  cases outcome with
  | noMemory =>
      obtain rfl := Option.some.inj h
      exact .unchanged rfl
  | noTimer =>
      obtain rfl := Option.some.inj h
      exact .unchanged rfl
  | noPoll p =>
      let r := PollRecord.fresh id evts timeout false
      have hclose := @uvClose_eq ((n.setRecord p r).appendToGc p) p r .uvPoll
        heap_setRecord rfl
      rw [socketWaitSetup, hclose] at h
      obtain rfl := Option.some.inj h
      simp only [setRecord, appendToGc, Function.update_idem]
      have hms : ([.uvPoll] : List PollMember).Nodup := List.nodup_singleton _
      refine .refused rfl (hfresh p rfl) ?_ hms ?_ ?_
      · exact PollRecord.sound_noPoll
      · intro m hm
        obtain rfl := List.mem_singleton.mp hm
        exact ⟨rfl, rfl, fun h => by cases h⟩
      · exact List.mem_singleton.mpr rfl
  | ready p =>
      let r := PollRecord.fresh id evts timeout true
      cases htable : n.tablePoll id with
      | none =>
          have hinsert : (n.setRecord p r).tablePoll.insert id p =
              some (Function.update n.tablePoll id (some p)) :=
            Table.insert_of_none htable
          rw [socketWaitSetup, hinsert] at h
          obtain rfl := Option.some.inj h
          exact .entered (hfresh p rfl) hidle htable
      | some q =>
          have hinsert : (n.setRecord p r).tablePoll.insert id p = none :=
            Table.insert_eq_none.mpr (by rw [setRecord, htable]; rfl)
          have hclose := @uvCloseBoth_eq ((n.setRecord p r).appendToGc p) p r
            heap_setRecord rfl rfl
          rw [socketWaitSetup, hinsert, hclose] at h
          obtain rfl := Option.some.inj h
          simp only [setRecord, appendToGc, Function.update_idem]
          have hms : ([.uvPoll, .uvTimer] : List PollMember).Nodup := by decide
          refine .refused rfl (hfresh p rfl) ?_ hms ?_ ?_
          · exact PollRecord.sound_fresh.stop_close
          · intro m _
            cases m with
            | uvPoll => exact ⟨rfl, rfl, fun _ => rfl⟩
            | uvTimer => exact ⟨rfl, rfl, fun _ => rfl⟩
          · exact List.mem_cons_of_mem _ (List.mem_singleton.mpr rfl)

theorem commitFind_effect (hready : n.commit id = .ready)
    (h : n.commitFind id = some t) : n.Effect L (.commitFind id) t := by
  cases htable : n.tablePoll id with
  | none =>
      rw [commitFind, htable] at h
      obtain rfl := Option.some.inj h
      exact .notFound hready htable
  | some p =>
      cases hp : n.heap p with
      | none =>
          rw [commitFind, htable] at h
          simp [hp] at h
      | some r =>
          rw [commitFind, htable] at h
          simp only [hp] at h
          obtain rfl := Option.some.inj h
          exact .found hready htable hp

theorem pollStart_effect {ok : Bool} (hfound : n.commit id = .found p)
    (h : n.commitPollStart id p ok = some t) :
    n.Effect L (.commitPollStart id p ok) t := by
  cases hp : n.heap p with
  | none => simp [commitPollStart, hp] at h
  | some r =>
      rw [commitPollStart, hp, Option.bind_eq_bind, Option.bind_some] at h
      cases hclosing : r.uvPoll.closing with
      | true => simp [hclosing] at h
      | false =>
          rw [hclosing, if_neg (by decide)] at h
          cases ok with
          | true =>
              obtain rfl := Option.some.inj h
              exact .pollStarted hfound hp hclosing
          | false =>
              obtain rfl := Option.some.inj h
              exact .pollFailed hfound

theorem timerStart_effect {ok : Bool} (hpolling : n.commit id = .polling p)
    (h : n.commitTimerStart id p ok = some t) :
    n.Effect L (.commitTimerStart id p ok) t := by
  cases hp : n.heap p with
  | none => simp [commitTimerStart, hp] at h
  | some r =>
      rw [commitTimerStart, hp, Option.bind_eq_bind, Option.bind_some] at h
      by_cases hok : ok = true ∧ r.uvTimer.closing = false
      · rw [if_pos hok] at h
        obtain rfl := Option.some.inj h
        obtain ⟨rfl, hopen⟩ := hok
        exact .timerStarted hpolling hp hopen
      · rw [if_neg hok] at h
        obtain rfl := Option.some.inj h
        exact .timerFailed hpolling

/-- A cleanup that is defined finds the record in the table. -/
theorem Sound.cleanup_cases (hs : n.Sound L) (h : n.cleanup p = some t) :
    ∃ r, n.heap p = some r ∧ n.tablePoll r.id = some p ∧ t = n.cleanedUp p r := by
  obtain ⟨r, hp, htable⟩ := cleanup_some h
  obtain ⟨-, hopen⟩ := (hs.table r.id p htable).of_heap hp
  rw [cleanup_eq hp htable hopen.uvPoll hopen.uvTimer] at h
  exact ⟨r, hp, htable, (Option.some.inj h).symm⟩

theorem fire_effect {a : NetStep} {result : UInt32}
    (ha : a = .onTimer p ∨ ∃ status events, a = .onUvPoll p status events)
    (hfires : n.Fires p m) (h : n.onUvFire p result = some t) : n.Effect L a t := by
  obtain ⟨hthread, r, hp, hactive⟩ := hfires
  rw [onUvFire, hp, Option.bind_eq_bind, Option.bind_some] at h
  cases hlocal : r.hasLocal with
  | false => simp [hlocal] at h
  | true =>
      rw [hlocal, if_pos rfl] at h
      obtain rfl := Option.some.inj h
      exact .fired ha hthread hp hactive

/-- A close callback of a `uv_timer` changes no record. -/
theorem Sound.callback_timer (hs : n.Sound L) (hp : n.heap p = some r)
    (harmful : Bool) : n.closeCallback L p .uvTimer harmful =
      if harmful then none
      else some (n.calledBack p .uvTimer (r.markClosed .uvTimer)) := by
  have hmissed := hs.missed hp
  have hne : p + L.offset .uvTimer - L.uvPoll ≠ p := fun heq => by
    rw [heq, hp] at hmissed
    cases hmissed
  have hheap : (n.calledBack p .uvTimer (r.markClosed .uvTimer)).heap
      (p + L.offset .uvTimer - L.uvPoll) = none :=
    (Function.update_of_ne hne ..).trans hmissed
  rw [closeCallback, hp, Option.bind_eq_bind, Option.bind_some]
  show (n.calledBack p .uvTimer (r.markClosed .uvTimer)).onPollClose L _ _ = _
  simp only [onPollClose, hheap]

/-- A close callback of a `uv_poll` counts down. -/
theorem callback_poll (hp : n.heap p = some r) (harmful : Bool) :
    n.closeCallback L p .uvPoll harmful =
      if r.refcnt - 1 ≠ 0 then
        some (n.calledBack p .uvPoll
          { r.markClosed .uvPoll with refcnt := r.refcnt - 1 })
      else if p ∈ n.queueGc then
        some { n with
          heap := Function.update n.heap p none
          queueGc := n.queueGc.erase p
          pending := n.pending.erase (p, .uvPoll) }
      else none := by
  have hheap : (n.calledBack p .uvPoll (r.markClosed .uvPoll)).heap p =
      some (r.markClosed .uvPoll) := Function.update_self ..
  rw [closeCallback, hp, Option.bind_eq_bind, Option.bind_some]
  show (n.calledBack p .uvPoll (r.markClosed .uvPoll)).onPollClose L _ _ = _
  unfold onPollClose
  simp only [offset_uvPoll, hheap]
  simp only [calledBack, setRecord, Function.update_idem]
  rfl

theorem Sound.callback_effect {harmful : Bool} (hs : n.Sound L)
    (hthread : n.uvThread = none) (hpending : (p, m) ∈ n.pending)
    (h : n.closeCallback L p m harmful = some t) :
    n.Effect L (.closeCallback p m harmful) t := by
  obtain ⟨r, hp, hclosing⟩ := hs.pending p m hpending
  have hrefcnt := (hs.records p r hp).refcnt
  cases m with
  | uvTimer =>
      rw [hs.callback_timer hp] at h
      cases harmful with
      | true => cases h
      | false =>
          obtain rfl := Option.some.inj h
          exact .missed hthread hpending hp
  | uvPoll =>
      have hclosed : r.uvPoll.closed = false := hclosing.closed
      rw [callback_poll hp] at h
      cases hinit : r.uvPoll.initialised with
      | true =>
          rw [if_pos ⟨hinit, hclosed⟩] at hrefcnt
          rw [hrefcnt, if_pos (by decide)] at h
          obtain rfl := Option.some.inj h
          exact .counted hthread hpending hp hinit
      | false =>
          rw [if_neg (by simp [hinit])] at hrefcnt
          rw [hrefcnt, if_neg (by decide)] at h
          by_cases hqueue : p ∈ n.queueGc
          · rw [if_pos hqueue] at h
            obtain rfl := Option.some.inj h
            exact .freed hthread hpending hp hinit hqueue
          · rw [if_neg hqueue] at h
            cases h

theorem Sound.step_effect (hs : n.Sound L) {a : NetStep} (ha : n.Enabled L a)
    (h : n.step L a = some t) : n.Effect L a t := by
  cases a with
  | setup id evts timeout outcome => exact setup_effect ha.1 ha.2 h
  | commitFind id => exact commitFind_effect ha h
  | commitPollStart id p ok => exact pollStart_effect ha h
  | commitTimerStart id p ok => exact timerStart_effect ha h
  | commitCleanup id p =>
      obtain ⟨u, hu, rfl⟩ := Option.map_eq_some_iff.mp h
      obtain ⟨r, hp, htable, rfl⟩ := hs.cleanup_cases hu
      exact .cleaned ha hp htable
  | commitResume id p =>
      obtain rfl := Option.some.inj h
      exact .resumed ha
  | onUvPoll p status events => exact fire_effect (.inr ⟨_, _, rfl⟩) ha h
  | onTimer p => exact fire_effect (.inl rfl) ha h
  | uvCleanup p =>
      obtain ⟨u, hu, rfl⟩ := Option.map_eq_some_iff.mp h
      obtain ⟨r, hp, htable, rfl⟩ := hs.cleanup_cases hu
      exact .uvCleaned ha hp htable
  | closeCallback p m harmful => exact hs.callback_effect ha.1 ha.2 h

end Net

end Powerpack
end Eaf

import Eaf.Powerpack.SocketRuns

/-!
# Waiting for sockets

When `eaf_powerpack_net_socket_wait_setup` refuses a service, and what becomes
of the records that are closed.
-/

namespace Eaf
namespace Powerpack

open Core KeyedTable LabelledRun

variable {L : PollLayout} {unsafe0 : UInt32 → UInt32} {tr : List NetEvent}
  {last : Option Net} {n t : Net} {e : NetEvent}

/-! ## Duplicates -/

namespace NetEvent

/-- `eaf_powerpack_net_socket_wait_setup` returns `eaf_errno_duplicate`. -/
def Duplicate (e : NetEvent) (id : UInt32) : Prop :=
  ∃ evts timeout outcome, e.step = .setup id evts timeout outcome ∧
    (e.before.socketWaitSetup id evts timeout outcome).map Prod.snd =
      some Errno.duplicate

/-- A setup comes to the table between `eaf_resume` and the cleanup of the
callback that has resumed the service. -/
def InGap (e : NetEvent) : Prop :=
  ∃ id evts timeout p q, e.step = .setup id evts timeout (.ready p) ∧
    e.before.uvThread = some q ∧ e.before.tablePoll id = some q

end NetEvent

namespace Net

variable {id evts timeout : UInt32} {p q : Nat} {outcome : SetupOutcome}

/-- A setup is refused when there is a record of the service. -/
theorem setup_duplicate (hfull : (n.tablePoll id).isSome = true) (evts timeout : UInt32)
    (p : Nat) :
    ∃ t, n.socketWaitSetup id evts timeout (.ready p) = some (t, Errno.duplicate) := by
  let r := PollRecord.fresh id evts timeout true
  have hinsert : (n.setRecord p r).tablePoll.insert id p = none :=
    Table.insert_eq_none.mpr hfull
  have hclose := @uvCloseBoth_eq ((n.setRecord p r).appendToGc p) p r
    heap_setRecord rfl rfl
  exact ⟨_, by rw [socketWaitSetup, hinsert, hclose]; rfl⟩

/-- And for no other reason. -/
theorem table_of_duplicate
    (h : (n.socketWaitSetup id evts timeout outcome).map Prod.snd =
      some Errno.duplicate) :
    ∃ p q, outcome = .ready p ∧ n.tablePoll id = some q := by
  cases outcome with
  | noMemory => cases h
  | noTimer => cases h
  | noPoll p =>
      have hclose := @uvClose_eq ((n.setRecord p (.fresh id evts timeout false)).appendToGc p)
        p (.fresh id evts timeout false) .uvPoll heap_setRecord rfl
      rw [socketWaitSetup, hclose] at h
      cases h
  | ready p =>
      cases htable : n.tablePoll id with
      | some q => exact ⟨p, q, rfl, rfl⟩
      | none =>
          have hinsert : (n.setRecord p (.fresh id evts timeout true)).tablePoll.insert
              id p = some (Function.update n.tablePoll id (some p)) :=
            Table.insert_of_none htable
          rw [socketWaitSetup, hinsert] at h
          cases h

end Net

/-- In every run of the services and `libuv`, a setup returns
`eaf_errno_duplicate` only while a wait of the same service has not resumed it
exactly when no setup comes to the table between the resumption of its service
and the cleanup that follows. -/
theorem duplicates_justified_iff (h : NetRun L unsafe0 tr last) :
    (∀ e ∈ tr, ∀ id, e.Duplicate id → ∃ p, (id, p) ∈ e.before.waits) ↔
      ∀ e ∈ tr, ¬e.InGap := by
  constructor
  · rintro hjustified e he ⟨id, evts, timeout, p, q, hstep, hthread, htable⟩
    obtain ⟨-, hi, henabled, -⟩ := h.before e he
    rw [hstep] at henabled
    have hfull : (e.before.tablePoll id).isSome = true := by rw [htable]; rfl
    obtain ⟨t, ht⟩ := Net.setup_duplicate hfull evts timeout p
    obtain ⟨q', hwait⟩ := hjustified e he id ⟨evts, timeout, _, hstep, by rw [ht]; rfl⟩
    rcases hi.waiting id q' hwait with hq | hc
    · obtain rfl := Option.some.inj (htable.symm.trans hq)
      exact hi.fired id q hthread hwait
    · have hidle : e.before.commit id = .idle := henabled.1
      rw [hidle] at hc
      cases hc
  · rintro hgap e he id ⟨evts, timeout, outcome, hstep, hcode⟩
    obtain ⟨-, hi, -, -⟩ := h.before e he
    obtain ⟨p, q, rfl, htable⟩ := Net.table_of_duplicate hcode
    rcases hi.inTable id q htable with hwait | hthread
    · exact ⟨q, hwait⟩
    · exact absurd ⟨id, evts, timeout, p, q, hstep, hthread, htable⟩ (hgap e he)

/-- A layout as on a machine with 64 bits. -/
def layout64 : PollLayout where
  uvPoll := 24
  uvTimer := 184
  size := 384
  uvPoll_lt_uvTimer := by decide
  uvTimer_lt_size := by decide

/-- Service 7 waits for its socket. -/
def waitSteps : List NetStep :=
  [.setup 7 1 100 (.ready 1000), .commitFind 7, .commitPollStart 7 1000 true,
    .commitTimerStart 7 1000 true]

/-- Where the first record is, and nothing else. -/
theorem fresh_second {f : Nat → Option PollRecord}
    (hf : ∀ q, q ≠ 1000 → f q = none) :
    ∀ q r, f q = some r → 2000 + layout64.size ≤ q ∨ q + layout64.size ≤ 2000 := by
  intro q r hq
  by_cases hne : q = 1000
  · subst hne
    exact .inr (by decide)
  · rw [hf q hne] at hq
    cases hq

theorem update_away {f : Nat → Option PollRecord} {p : Nat} {v : Option PollRecord}
    (hf : ∀ q, q ≠ p → f q = none) : ∀ q, q ≠ p → Function.update f p v q = none :=
  fun q hq => (Function.update_of_ne hq v f).trans (hf q hq)

/-- A second setup is refused while the service waits. -/
theorem duplicates_justified_waiting : ∃ tr last,
    NetRun layout64 (fun _ => 0) tr last ∧ (∃ e ∈ tr, e.Duplicate 7) ∧
      ∀ e ∈ tr, ∀ id, e.Duplicate id → ∃ p, (id, p) ∈ e.before.waits := by
  have hpermitted : NetPermitted layout64 (some (.initial fun _ => 0))
      (waitSteps ++ [.setup 7 1 100 (.ready 2000)]) := by
    refine ⟨⟨rfl, fun p _ q r hq => by cases hq⟩, rfl, rfl, rfl, ⟨rfl, ?_⟩, trivial⟩
    intro p hp
    obtain rfl := Option.some.inj hp
    exact fresh_second (update_away (update_away (update_away (update_away
      fun _ _ => rfl))))
  have hrun := run_of_permitted hpermitted
  refine ⟨_, _, hrun, ⟨_, List.mem_of_getLast? rfl, 1, 100, _, rfl, rfl⟩,
    (duplicates_justified_iff hrun).mpr ?_⟩
  rintro e he ⟨id, evts, timeout, p, q, -, hthread, -⟩
  -- nothing fires
  rcases List.mem_cons.mp he with rfl | he
  · cases hthread
  rcases List.mem_cons.mp he with rfl | he
  · cases hthread
  rcases List.mem_cons.mp he with rfl | he
  · cases hthread
  rcases List.mem_cons.mp he with rfl | he
  · cases hthread
  obtain rfl := List.mem_singleton.mp he
  cases hthread

/-- The libuv thread has resumed service 7, which waits again before its record
is cleaned up. -/
theorem duplicate_unjustified : ∃ tr last, NetRun layout64 (fun _ => 0) tr last ∧
    ∃ e ∈ tr, e.Duplicate 7 ∧ ∀ p, (7, p) ∉ e.before.waits := by
  have hpermitted : NetPermitted layout64 (some (.initial fun _ => 0))
      (waitSteps ++ [.onUvPoll 1000 0 1, .setup 7 1 100 (.ready 2000)]) := by
    refine ⟨⟨rfl, fun p _ q r hq => by cases hq⟩, rfl, rfl, rfl, ⟨rfl, _, rfl, rfl⟩,
      ⟨rfl, ?_⟩, trivial⟩
    intro p hp
    obtain rfl := Option.some.inj hp
    exact fresh_second (update_away (update_away (update_away (update_away
      fun _ _ => rfl))))
  refine ⟨_, _, run_of_permitted hpermitted, _, List.mem_of_getLast? rfl,
    ⟨1, 100, _, rfl, rfl⟩, fun p hp => ?_⟩
  cases hp

/-! ## Closing -/

namespace Net

/-- What a close callback of the handle `m` of the record at `p` has to do:
count down the references of that record, or free it with the last one, when it
is in `queue_gc` and every handle that was initialised has been closed. -/
def CountsDown (n : Net) (p : Nat) (m : PollMember) (t : Net) : Prop :=
  ∃ r, n.heap p = some r ∧ (∀ q, q ≠ p → t.heap q = n.heap q) ∧
    if r.refcnt = 1 then
      p ∈ n.queueGc ∧ t.queueGc = n.queueGc.erase p ∧ t.heap p = none ∧
        ∀ m', (r.handle m').initialised = true → m' = m ∨ (r.handle m').closed = true
    else
      t.queueGc = n.queueGc ∧
        ∃ r', t.heap p = some r' ∧ r'.refcnt = r.refcnt - 1

/-- Nobody waits, and no callback is to come. -/
structure Quiet (n : Net) : Prop where
  pending : n.pending = []
  thread : n.uvThread = none
  table : ∀ id, n.tablePoll id = none
  commit : ∀ id, n.commit id = .idle

end Net

namespace NetEvent

/-- The step is defined, and no record is freed but by its last close
callback. -/
def Reclaims (e : NetEvent) : Prop :=
  ∃ t, e.after = some t ∧
    match e.step with
    | .closeCallback p m _ => e.before.CountsDown p m t
    | _ => ∀ q, t.heap q = none → e.before.heap q = none

/-- A close callback is of an initialised `uv_poll`, and a cleanup is of a
record that nobody has cleaned up. -/
def Safe (e : NetEvent) : Prop :=
  match e.step with
  | .closeCallback p m _ =>
      m = .uvPoll ∧ e.before.Holds p fun r => r.uvPoll.initialised = true
  | .uvCleanup p | .commitCleanup _ p =>
      e.before.Holds p fun r => e.before.tablePoll r.id = some p
  | _ => True

/-- `eaf_powerpack_net_socket_wait_setup` has got past `uv_timer_init`. -/
def Creates (e : NetEvent) : Prop :=
  ∃ id evts timeout outcome p, e.step = .setup id evts timeout outcome ∧
    outcome.record? = some p

end NetEvent

/-- Each close callback counts down its own record, and when all have run every
record has been freed. -/
structure Reclaimed (tr : List NetEvent) (last : Option Net) : Prop where
  steps : ∀ e ∈ tr, e.Reclaims
  done : ∀ n, last = some n → n.Quiet → ∀ p, n.heap p = none

namespace Net

variable {p q : Nat} {m : PollMember} {r : PollRecord} {a : NetStep} {id : UInt32}

/-- The callback of an initialised `uv_poll` does what it has to. -/
theorem Sound.countsDown_poll (hs : n.Sound L) (hp : n.heap p = some r)
    (hpending : (p, .uvPoll) ∈ n.pending) (hinit : r.uvPoll.initialised = true)
    (harmful : Bool) :
    ∃ t, n.closeCallback L p .uvPoll harmful = some t ∧ n.CountsDown p .uvPoll t := by
  have hclosed := ((hs.pending p .uvPoll hpending).of_heap hp).closed
  have hrefcnt : r.refcnt = 2 := by
    rw [(hs.records p r hp).refcnt]
    exact if_pos ⟨hinit, hclosed⟩
  refine ⟨n.calledBack p .uvPoll { r.markClosed .uvPoll with refcnt := r.refcnt - 1 },
    ?_, r, hp, fun q hq => Function.update_of_ne hq .., ?_⟩
  · rw [callback_poll hp, hrefcnt, if_pos (by decide)]
  · rw [if_neg (by rw [hrefcnt]; decide)]
    exact ⟨rfl, _, Function.update_self .., rfl⟩

/-- The callback of another handle does not. -/
theorem Sound.initialised_of_countsDown {harmful : Bool} (hs : n.Sound L)
    (hpending : (p, m) ∈ n.pending) (h : n.closeCallback L p m harmful = some t)
    (hcounts : n.CountsDown p m t) :
    m = .uvPoll ∧ n.Holds p fun r => r.uvPoll.initialised = true := by
  obtain ⟨r, hp, -, hdown⟩ := hcounts
  have hrecord := hs.records p r hp
  have hclosing := (hs.pending p m hpending).of_heap hp
  cases m with
  | uvTimer =>
      -- the record is not found, and keeps its count
      rw [hs.callback_timer hp] at h
      cases harmful with
      | true => cases h
      | false =>
          obtain rfl := Option.some.inj h
          have hself : (n.calledBack p .uvTimer (r.markClosed .uvTimer)).heap p =
              some (r.markClosed .uvTimer) := Function.update_self ..
          by_cases hone : r.refcnt = 1
          · rw [if_pos hone, hself] at hdown
            cases hdown.2.2.1
          · rw [if_neg hone, hself] at hdown
            obtain ⟨-, r', hr', hcount⟩ := hdown
            obtain rfl := Option.some.inj hr'
            have hkept : r.refcnt = r.refcnt - 1 := hcount
            have htwo : r.refcnt = 2 := by
              by_contra hne
              have hcases := hrecord.refcnt
              split at hcases
              · exact hne hcases
              · exact hone hcases
            rw [htwo] at hkept
            exact absurd hkept (by decide)
  | uvPoll =>
      refine ⟨rfl, r, hp, ?_⟩
      cases hinit : r.uvPoll.initialised with
      | true => exact hinit
      | false =>
          -- its `uv_timer` is still open
          have hone : r.refcnt = 1 := by
            rw [hrecord.refcnt]
            exact if_neg (by simp [hinit])
          rw [if_pos hone] at hdown
          rcases hdown.2.2.2 .uvTimer hrecord.timer with hm | hclosed
          · cases hm
          · have hopen : (r.handle .uvTimer).closed = false := hrecord.timerOpen hinit
            rw [hclosed] at hopen
            cases hopen

/-! ## The steps are defined -/

theorem setup_defined (evts timeout : UInt32) (outcome : SetupOutcome) :
    ∃ t, n.step L (.setup id evts timeout outcome) = some t := by
  cases outcome with
  | noMemory => exact ⟨n, rfl⟩
  | noTimer => exact ⟨n, rfl⟩
  | noPoll p =>
      have hclose := @uvClose_eq ((n.setRecord p (.fresh id evts timeout false)).appendToGc p)
        p (.fresh id evts timeout false) .uvPoll heap_setRecord rfl
      exact ⟨_, by rw [step, socketWaitSetup, hclose]; rfl⟩
  | ready p =>
      cases htable : n.tablePoll id with
      | some q =>
          have hfull : (n.tablePoll id).isSome = true := by rw [htable]; rfl
          obtain ⟨t, ht⟩ := setup_duplicate hfull evts timeout p
          exact ⟨t, by rw [step, ht]; rfl⟩
      | none =>
          have hinsert : (n.setRecord p (.fresh id evts timeout true)).tablePoll.insert
              id p = some (Function.update n.tablePoll id (some p)) :=
            Table.insert_of_none htable
          exact ⟨_, by rw [step, socketWaitSetup, hinsert]; rfl⟩

theorem Sound.fire_defined (hs : n.Sound L) (hfires : n.Fires p m) (result : UInt32) :
    ∃ t, n.onUvFire p result = some t := by
  obtain ⟨-, r, hp, hactive⟩ := hfires
  obtain ⟨-, hlocal, -⟩ := (hs.records p r hp).active m hactive
  rw [onUvFire, hp, Option.bind_eq_bind, Option.bind_some, hlocal, if_pos rfl]
  exact ⟨_, rfl⟩

/-- Commit never meets a record that is gone. -/
theorem Sound.commitFind_defined (hs : n.Sound L) (id : UInt32) :
    ∃ t, n.commitFind id = some t := by
  cases htable : n.tablePoll id with
  | none => exact ⟨_, by rw [commitFind, htable]⟩
  | some p =>
      obtain ⟨r, hp, -⟩ := hs.table id p htable
      exact ⟨_, by simp only [commitFind, htable, hp]; rfl⟩

/-- Commit goes on with a record that is still there and not closing. -/
theorem Sound.commit_defined (hs : n.Sound L) (hi : n.InStep) {ok : Bool} :
    (n.commit id = .found p → ∃ t, n.commitPollStart id p ok = some t) ∧
      (n.commit id = .polling p → ∃ t, n.commitTimerStart id p ok = some t) := by
  refine ⟨fun hfound => ?_, fun hpolling => ?_⟩
  · obtain ⟨htable, -⟩ := hi.found id p hfound
    obtain ⟨r, hp, -, hopen⟩ := hs.table id p htable
    rw [commitPollStart, hp, Option.bind_eq_bind, Option.bind_some, hopen.uvPoll,
      if_neg (by decide)]
    cases ok
    · exact ⟨_, rfl⟩
    · exact ⟨_, rfl⟩
  · obtain ⟨r, hp, -⟩ := hi.commit id p (by rw [hpolling]; rfl)
    rw [commitTimerStart, hp, Option.bind_eq_bind, Option.bind_some]
    by_cases hok : ok = true ∧ r.uvTimer.closing = false
    · exact ⟨_, if_pos hok⟩
    · exact ⟨_, if_neg hok⟩

theorem Sound.cleanup_defined (hs : n.Sound L)
    (hsafe : n.Holds p fun r => n.tablePoll r.id = some p) :
    ∃ t, n.cleanup p = some t := by
  obtain ⟨r, hp, htable⟩ := hsafe
  obtain ⟨-, hopen⟩ := (hs.table r.id p htable).of_heap hp
  exact ⟨_, cleanup_eq hp htable hopen.uvPoll hopen.uvTimer⟩

theorem heap_of_update (h : Function.update n.heap p (some r) q = none) :
    n.heap q = none := by
  by_cases hqp : q = p
  · rw [hqp, Function.update_self] at h
    cases h
  · rw [Function.update_of_ne hqp] at h
    exact h

theorem heap_update_self : Function.update n.heap p (some r) p ≠ none := by
  rw [Function.update_self]
  exact Option.some_ne_none r

/-- Only a callback of a `uv_poll` that was never initialised frees a record. -/
theorem Effect.keeps (he : n.Effect L a t)
    (ha : ∀ p b, a = .closeCallback p .uvPoll b →
      n.Holds p fun r => r.uvPoll.initialised = true)
    (hq : t.heap q = none) : n.heap q = none := by
  cases he with
  | refused _ _ _ _ _ _ | entered _ _ _ | found _ _ _ | pollStarted _ _ _
  | timerStarted _ _ _ | cleaned _ _ _ | uvCleaned _ _ _ | missed _ _ _
  | counted _ _ _ _ => exact heap_of_update hq
  | unchanged _ | notFound _ _ | pollFailed _ | timerFailed _ | resumed _
  | fired _ _ _ _ => exact hq
  | freed _ _ hp hinit _ =>
      have hpoll := (ha _ _ rfl).of_heap hp
      rw [hinit] at hpoll
      cases hpoll

end Net

/-! ## Safe steps -/

/-- A step does what it has to exactly when it is safe. -/
theorem NetEvent.reclaims_iff (hs : e.before.Sound L) (hi : e.before.InStep)
    (ha : e.before.Enabled L e.step) (hafter : e.after = e.before.step L e.step) :
    e.Reclaims ↔ e.Safe := by
  obtain ⟨n, a, after⟩ := e
  obtain rfl : after = n.step L a := hafter
  have hs : n.Sound L := hs
  have hi : n.InStep := hi
  -- where the step is defined, no record is freed but by a close callback
  have hkeeps : (∀ p b, a ≠ .closeCallback p .uvPoll b) → ∀ t, n.step L a = some t →
      ∀ q, t.heap q = none → n.heap q = none :=
    fun hne t ht q hq =>
      (hs.step_effect ha ht).keeps (fun p b heq => absurd heq (hne p b)) hq
  cases a with
  | setup id evts timeout outcome =>
      refine iff_of_true ?_ trivial
      obtain ⟨t, ht⟩ := Net.setup_defined evts timeout outcome
      exact ⟨t, ht, hkeeps (by simp) t ht⟩
  | commitFind id =>
      refine iff_of_true ?_ trivial
      obtain ⟨t, ht⟩ := hs.commitFind_defined id
      exact ⟨t, ht, hkeeps (by simp) t ht⟩
  | commitPollStart id p ok =>
      refine iff_of_true ?_ trivial
      obtain ⟨t, ht⟩ := (hs.commit_defined hi).1 ha
      exact ⟨t, ht, hkeeps (by simp) t ht⟩
  | commitTimerStart id p ok =>
      refine iff_of_true ?_ trivial
      obtain ⟨t, ht⟩ := (hs.commit_defined hi).2 ha
      exact ⟨t, ht, hkeeps (by simp) t ht⟩
  | commitCleanup id p =>
      constructor
      · rintro ⟨t, ht, -⟩
        obtain ⟨u, hu, -⟩ := Option.map_eq_some_iff.mp ht
        exact Net.cleanup_some hu
      · intro hsafe
        obtain ⟨u, hu⟩ := hs.cleanup_defined hsafe
        have ht : n.step L (.commitCleanup id p) = some _ := congrArg (Option.map _) hu
        exact ⟨_, ht, hkeeps (by simp) _ ht⟩
  | commitResume id p => exact iff_of_true ⟨_, rfl, hkeeps (by simp) _ rfl⟩ trivial
  | onUvPoll p status events =>
      refine iff_of_true ?_ trivial
      obtain ⟨t, ht⟩ := hs.fire_defined ha (socketEvents status events)
      exact ⟨t, ht, hkeeps (by simp) t ht⟩
  | onTimer p =>
      refine iff_of_true ?_ trivial
      obtain ⟨t, ht⟩ := hs.fire_defined ha socketEventTimeout
      exact ⟨t, ht, hkeeps (by simp) t ht⟩
  | uvCleanup p =>
      constructor
      · rintro ⟨t, ht, -⟩
        obtain ⟨u, hu, -⟩ := Option.map_eq_some_iff.mp ht
        exact Net.cleanup_some hu
      · intro hsafe
        obtain ⟨u, hu⟩ := hs.cleanup_defined hsafe
        have ht : n.step L (.uvCleanup p) = some _ := congrArg (Option.map _) hu
        exact ⟨_, ht, hkeeps (by simp) _ ht⟩
  | closeCallback p m harmful =>
      constructor
      · rintro ⟨t, ht, hcounts⟩
        exact hs.initialised_of_countsDown ha.2 ht hcounts
      · rintro ⟨rfl, r, hp, hinit⟩
        obtain ⟨t, ht, hcounts⟩ := hs.countsDown_poll hp ha.2 hinit harmful
        exact ⟨t, ht, hcounts⟩

namespace Net

variable {p q : Nat} {m : PollMember} {r : PollRecord} {a : NetStep} {id : UInt32}

/-- Where every step is safe, each record waits in the table or for the callback
that would go wrong. -/
def Accounted (n : Net) : Prop :=
  ∀ p r, n.heap p = some r →
    r.uvPoll.initialised = true ∧ n.tablePoll r.id = some p ∨
      (p, r.lastMember) ∈ n.pending

theorem Accounted.update {r' : PollRecord} (h : n.Accounted)
    (hheap : t.heap = Function.update n.heap p (some r'))
    (hself : r'.uvPoll.initialised = true ∧ t.tablePoll r'.id = some p ∨
      (p, r'.lastMember) ∈ t.pending)
    (htable : ∀ id q, q ≠ p → n.tablePoll id = some q → t.tablePoll id = some q)
    (hpending : ∀ q m, q ≠ p → (q, m) ∈ n.pending → (q, m) ∈ t.pending) :
    t.Accounted := by
  intro q s hq
  rw [hheap] at hq
  by_cases hqp : q = p
  · rw [hqp, Function.update_self] at hq
    obtain rfl := Option.some.inj hq
    rw [hqp]
    exact hself
  · rw [Function.update_of_ne hqp] at hq
    rcases h q s hq with ⟨hinit, hold⟩ | hold
    · exact .inl ⟨hinit, htable _ q hqp hold⟩
    · exact .inr (hpending q _ hqp hold)

theorem Accounted.set {r' : PollRecord} (h : n.Accounted) (hp : n.heap p = some r)
    (hheap : t.heap = Function.update n.heap p (some r'))
    (hinit : r'.uvPoll.initialised = r.uvPoll.initialised) (hid : r'.id = r.id)
    (htable : t.tablePoll = n.tablePoll) (hpending : t.pending = n.pending) :
    t.Accounted := by
  refine h.update hheap ?_ (fun id q _ hq => by rw [htable]; exact hq)
    fun q m _ hq => by rw [hpending]; exact hq
  rw [htable, hpending, hid, PollRecord.lastMember, hinit]
  exact h p r hp

theorem Accounted.cleanedUp (h : n.Accounted) (hs : n.Sound L) (hp : n.heap p = some r)
    (htable : n.tablePoll r.id = some p) : (n.cleanedUp p r).Accounted := by
  have hinit := ((hs.table r.id p htable).of_heap hp).2.initialised
  refine h.update rfl (.inr ?_) (fun id q hqp hq => ?_)
    fun q m _ hq => List.mem_append_left _ hq
  · have hlast : r.stop.close.lastMember = .uvTimer := if_pos hinit
    rw [hlast]
    exact List.mem_append_right _ (List.mem_cons_of_mem _ List.mem_cons_self)
  · have hid : id ≠ r.id := fun heq => by
      rw [heq, htable] at hq
      exact hqp (Option.some.inj hq).symm
    exact (Function.update_of_ne hid ..).trans hq

theorem Accounted.step (h : n.Accounted) (hs : n.Sound L) (he : n.Effect L a t)
    (hsafe : NetEvent.Safe ⟨n, a, some t⟩) : t.Accounted := by
  cases he with
  | unchanged _ | notFound _ _ | pollFailed _ | timerFailed _ | resumed _
  | fired _ _ _ _ => exact h
  | refused _ _ _ _ _ hlast =>
      exact h.update rfl
        (.inr (List.mem_append_right _ (List.mem_map_of_mem hlast)))
        (fun id q _ hq => hq) fun q m _ hq => List.mem_append_left _ hq
  | entered hfresh _ htable =>
      refine h.update rfl (.inl ⟨rfl, Function.update_self ..⟩) (fun id' q _ hq => ?_)
        fun q m _ hq => hq
      refine (Function.update_of_ne (fun heq => ?_) ..).trans hq
      rw [heq, htable] at hq
      cases hq
  | found _ _ hp => exact h.set hp rfl rfl rfl rfl rfl
  | pollStarted _ hp _ => exact h.set hp rfl rfl rfl rfl rfl
  | timerStarted _ hp _ => exact h.set hp rfl rfl rfl rfl rfl
  | cleaned _ hp htable => exact h.cleanedUp hs hp htable
  | uvCleaned _ hp htable => exact h.cleanedUp hs hp htable
  | missed _ _ _ => cases hsafe.1
  | @counted p r _ _ hpending hp hinit =>
      refine h.update rfl (.inr ?_) (fun id q _ hq => hq) fun q m hqp hq => ?_
      · rcases h p r hp with ⟨-, htable⟩ | hlast
        · exact absurd hpending (hs.not_pending htable)
        · have hmember : PollRecord.lastMember r = .uvTimer := if_pos hinit
          have hmember' : PollRecord.lastMember
              { r.markClosed .uvPoll with refcnt := 1 } = .uvTimer := if_pos hinit
          rw [hmember] at hlast
          rw [hmember']
          exact (List.mem_erase_of_ne (by simp)).mpr hlast
      · exact (List.mem_erase_of_ne (fun heq => hqp (Prod.mk.inj heq).1)).mpr hq
  | freed _ _ hp hinit _ =>
      have hsafe' := hsafe.2.of_heap hp
      rw [hinit] at hsafe'
      cases hsafe'

/-- A setup that gets past `uv_timer_init` leaves a record. -/
theorem Effect.creates {evts timeout : UInt32} {outcome : SetupOutcome}
    (he : n.Effect L (.setup id evts timeout outcome) t)
    (hp : outcome.record? = some p) : ∃ q, t.heap q ≠ none := by
  cases he with
  | unchanged hnone =>
      rw [hnone] at hp
      cases hp
  | refused _ _ _ _ _ _ => exact ⟨_, heap_update_self⟩
  | entered _ _ _ => exact ⟨_, heap_update_self⟩
  | fired ha _ _ _ =>
      rcases ha with ha | ⟨status, events, ha⟩
      · cases ha
      · cases ha

end Net

/-- Where every step is safe, no record is lost. -/
theorem NetEvent.Safe.keeps (hsafe : e.Safe) : ∀ p b, e.step = .closeCallback p .uvPoll b →
    e.before.Holds p fun r => r.uvPoll.initialised = true := by
  obtain ⟨n, a, after⟩ := e
  rintro p b rfl
  exact hsafe.2

/-- Where every step is safe, each record is accounted for, and there is one
when one has been created. -/
theorem NetRun.accounted (h : NetRun L unsafe0 tr last) (hsafe : ∀ e ∈ tr, e.Safe) :
    ∀ n ∈ last, n.Accounted ∧
      ((∃ e ∈ tr, e.Creates) → ∃ p, n.heap p ≠ none) := by
  induction h with
  | refl =>
      intro n hn
      obtain rfl := Option.some.inj hn
      refine ⟨fun p r hp => (by cases hp), ?_⟩
      rintro ⟨e, he, -⟩
      cases he
  | @snoc front s events t hrun hlast ih =>
      intro t' ht'
      obtain ⟨n, a, rfl, ha, rfl, rfl⟩ := hlast
      obtain ⟨hs, -⟩ := NetRun.sound hrun n rfl
      have hlastSafe := hsafe _ (List.mem_append_right _ List.mem_cons_self)
      obtain ⟨hold, hcreated⟩ :=
        ih (fun e he => hsafe e (List.mem_append_left _ he)) n rfl
      have hstep : n.step L a = some t' := ht'
      have heffect := hs.step_effect ha hstep
      rw [hstep] at hlastSafe
      refine ⟨hold.step hs heffect hlastSafe, fun hcreates => ?_⟩
      obtain ⟨e, he, hcreate⟩ := hcreates
      rcases List.mem_append.mp he with he | he
      · obtain ⟨p, hp⟩ := hcreated ⟨e, he, hcreate⟩
        exact ⟨p, fun hnone => hp (heffect.keeps hlastSafe.keeps hnone)⟩
      · obtain rfl := List.mem_singleton.mp he
        obtain ⟨id, evts, timeout, outcome, p, rfl, hp⟩ := hcreate
        exact heffect.creates hp

/-- Without a setup that gets past `uv_timer_init` there are no records. -/
theorem Net.Effect.no_record {a : NetStep} (he : n.Effect L a t)
    (hnone : ∀ p, n.heap p = none) (hcreates : ¬NetEvent.Creates ⟨n, a, some t⟩) :
    ∀ p, t.heap p = none := by
  cases he with
  | unchanged _ | notFound _ _ | pollFailed _ | timerFailed _ | resumed _
  | fired _ _ _ _ => exact hnone
  | refused hp _ _ _ _ _ => exact absurd ⟨_, _, _, _, _, rfl, hp⟩ hcreates
  | entered _ _ _ => exact absurd ⟨_, _, _, _, _, rfl, rfl⟩ hcreates
  | found _ _ hp | pollStarted _ hp _ | timerStarted _ hp _ | cleaned _ hp _
  | uvCleaned _ hp _ | missed _ _ hp | counted _ _ hp _ | freed _ _ hp _ _ =>
      rw [hnone] at hp
      cases hp

theorem NetRun.no_record (h : NetRun L unsafe0 tr last)
    (hcreates : ∀ e ∈ tr, ¬e.Creates) : ∀ n ∈ last, ∀ p, n.heap p = none := by
  induction h with
  | refl =>
      intro n hn
      obtain rfl := Option.some.inj hn
      exact fun p => rfl
  | @snoc front s events t hrun hlast ih =>
      intro t' ht'
      obtain ⟨n, a, rfl, ha, rfl, rfl⟩ := hlast
      obtain ⟨hs, -⟩ := NetRun.sound hrun n rfl
      have hstep : n.step L a = some t' := ht'
      have hnot := hcreates _ (List.mem_append_right _ List.mem_cons_self)
      rw [hstep] at hnot
      exact (hs.step_effect ha hstep).no_record
        (ih (fun e he => hcreates e (List.mem_append_left _ he)) n rfl) hnot

/-- Without a record there is nothing to close and nothing to clean up. -/
theorem NetEvent.safe_of_no_record (hs : e.before.Sound L) (hi : e.before.InStep)
    (ha : e.before.Enabled L e.step) (hnone : ∀ p, e.before.heap p = none) : e.Safe := by
  obtain ⟨n, a, after⟩ := e
  have hempty : ∀ {p : Nat} {P : PollRecord → Prop}, ¬n.Holds p P := by
    rintro p P ⟨r, hr, -⟩
    rw [hnone p] at hr
    cases hr
  cases a with
  | closeCallback p m harmful => exact absurd (hs.pending p m ha.2) hempty
  | uvCleanup p =>
      obtain ⟨id, hknown⟩ := hi.thread p ha
      exact absurd hknown hempty
  | commitCleanup id p =>
      have hfailed : n.commit id = .failed p := ha
      exact absurd (hi.commit id p (by rw [hfailed]; rfl)) hempty
  | _ => trivial

theorem NetRun.safe_of_no_record (h : NetRun L unsafe0 tr last)
    (hcreates : ∀ e ∈ tr, ¬e.Creates) : ∀ e ∈ tr, e.Safe := by
  intro e he
  obtain ⟨front, s, events, t, rest, hfront, ⟨n, a, rfl, ha, rfl, rfl⟩, -, rfl, hmem⟩ :=
    h.step_of_mem he
  obtain rfl := List.mem_singleton.mp hmem
  obtain ⟨hs, hi⟩ := NetRun.sound hfront n rfl
  have hempty := NetRun.no_record hfront
    (fun e he => hcreates e (List.mem_append_left _ (List.mem_append_left _ he))) n rfl
  exact NetEvent.safe_of_no_record hs hi ha hempty

/-- In every run, each close callback counts down the record of its handle, and
every record is freed once, with its last callback, exactly when each close
callback is of an initialised `uv_poll` and nobody cleans a record up a second
time.  Where everybody is done, that means that no setup has got past
`uv_timer_init`. -/
theorem records_reclaimed_iff (h : NetRun L unsafe0 tr last) :
    (Reclaimed tr last ↔ ∀ e ∈ tr, e.Safe) ∧
      ∀ n, last = some n → n.Quiet →
        (Reclaimed tr last ↔ ∀ e ∈ tr, ¬e.Creates) := by
  have hsteps : (∀ e ∈ tr, e.Reclaims) ↔ ∀ e ∈ tr, e.Safe := by
    refine forall₂_congr fun e he => ?_
    obtain ⟨hs, hi, ha, hafter⟩ := h.before e he
    exact NetEvent.reclaims_iff hs hi ha hafter
  have hiff : Reclaimed tr last ↔ ∀ e ∈ tr, e.Safe := by
    refine ⟨fun hall => hsteps.mp hall.steps, fun hsafe => ⟨hsteps.mpr hsafe, ?_⟩⟩
    intro n hn hquiet p
    obtain ⟨haccounted, -⟩ := h.accounted hsafe n hn
    by_contra hp
    obtain ⟨r, hr⟩ := Option.ne_none_iff_exists'.mp hp
    rcases haccounted p r hr with ⟨-, htable⟩ | hpending
    · rw [hquiet.table] at htable
      cases htable
    · rw [hquiet.pending] at hpending
      cases hpending
  refine ⟨hiff, fun n hn hquiet => ⟨fun hall e he hcreates => ?_, fun hnone => ?_⟩⟩
  · obtain ⟨-, hrecord⟩ := h.accounted (hiff.mp hall) n hn
    obtain ⟨p, hp⟩ := hrecord ⟨e, he, hcreates⟩
    exact hp (hall.done n hn hquiet p)
  · exact hiff.mpr (h.safe_of_no_record hnone)

/-- The record of a failed setup is never counted down by its `uv_timer`. -/
theorem records_reclaimed_none : ∃ tr n, NetRun layout64 (fun _ => 0) tr (some n) ∧
    n.Quiet ∧ tr ≠ [] ∧ Reclaimed tr (some n) := by
  have hpermitted : NetPermitted layout64 (some (.initial fun _ => 0))
      [.setup 7 1 100 .noTimer] :=
    ⟨⟨rfl, fun p hp => by cases hp⟩, trivial⟩
  have hrun := run_of_permitted hpermitted
  have hquiet : (Net.initial fun _ => 0).Quiet :=
    ⟨rfl, rfl, fun _ => rfl, fun _ => rfl⟩
  refine ⟨_, _, hrun, hquiet, List.cons_ne_nil _ _,
    ((records_reclaimed_iff hrun).2 _ rfl hquiet).mpr ?_⟩
  rintro e he ⟨id, evts, timeout, outcome, p, hstep, hp⟩
  obtain rfl := List.mem_singleton.mp he
  cases hstep
  cases hp

/-- The socket of service 7 cannot be polled, so commit closes both handles, and
the callback of its `uv_timer` misses the record. -/
theorem record_not_reclaimed : ∃ tr last, NetRun layout64 (fun _ => 0) tr last ∧
    ¬Reclaimed tr last := by
  let steps : List NetStep := [.setup 7 1 100 (.ready 1000), .commitFind 7,
    .commitPollStart 7 1000 false, .commitCleanup 7 1000,
    .closeCallback 1000 .uvTimer false]
  have hpermitted : NetPermitted layout64 (some (.initial fun _ => 0)) steps := by
    refine ⟨⟨rfl, fun p _ q r hq => by cases hq⟩, rfl, rfl, rfl,
      ⟨rfl, List.mem_cons_of_mem _ List.mem_cons_self⟩, trivial⟩
  have hrun := run_of_permitted hpermitted
  refine ⟨_, _, hrun, fun hall => ?_⟩
  have hlast : (_ : NetEvent) ∈ netTrace layout64 (some (.initial fun _ => 0)) steps :=
    List.mem_of_getLast? rfl
  obtain ⟨hs, hi, ha, hafter⟩ := NetRun.before hrun _ hlast
  have hsafe := (NetEvent.reclaims_iff hs hi ha hafter).mp (hall.steps _ hlast)
  cases hsafe.1

end Powerpack
end Eaf

import Eaf.Powerpack.SocketFacts

/-!
# Runs of services that wait for sockets

Every step keeps `Net.Sound` and `Net.InStep`, so both hold in every state of a
run.
-/

namespace Eaf
namespace Powerpack

open Core KeyedTable LabelledRun

namespace Net

variable {L : PollLayout} {n t : Net} {p q : Nat} {r r' : PollRecord}
  {m : PollMember} {id : UInt32} {a : NetStep}

/-! ## The memory -/

theorem pending_append {ms : List PollMember} (hnodup : n.pending.Nodup)
    (hms : ms.Nodup) (hp : ∀ m, (p, m) ∉ n.pending) :
    (n.pending ++ ms.map fun m => (p, m)).Nodup := by
  refine hnodup.append (hms.map fun m m' heq => (Prod.mk.inj heq).2) ?_
  intro x hx hx'
  obtain ⟨m, -, rfl⟩ := List.mem_map.mp hx'
  exact hp m hx

/-- A new record that is closed at once. -/
theorem Sound.refused {ms : List PollMember} (h : n.Sound L) (hfresh : n.Fresh L p)
    (hr : r.Sound) (hms : ms.Nodup) (hclosing : ∀ m ∈ ms, r.Closing m)
    {queue : List Nat} : Sound L { n with
      heap := Function.update n.heap p (some r)
      queueGc := queue
      pending := n.pending ++ ms.map fun m => (p, m) } := by
  have hnone := hfresh.heap
  refine h.update (.inr hfresh) hr rfl (fun id q hq => .inr ⟨h.table_ne hnone hq, hq⟩)
    (pending_append h.nodup hms fun m hm => h.pending_ne hnone hm rfl) ?_
  intro q m hq
  rcases List.mem_append.mp hq with hq | hq
  · exact .inr ⟨h.pending_ne hnone hq, hq⟩
  · obtain ⟨m', hm', heq⟩ := List.mem_map.mp hq
    obtain ⟨rfl, rfl⟩ := Prod.mk.inj heq
    exact .inl ⟨rfl, hclosing m' hm'⟩

/-- A record changes that is not being closed by it. -/
theorem Sound.setRecord (h : n.Sound L) (hp : n.heap p = some r) (hr' : r'.Sound)
    (hid : r'.id = r.id) (hopen : r.Open → r'.Open)
    (hclosing : ∀ m, r.Closing m → r'.Closing m) :
    (n.setRecord p r').Sound L := by
  refine h.update (.inl (by rw [hp]; rfl)) hr' rfl (fun id q hq => ?_) h.nodup
    fun q m hq => ?_
  · by_cases hqp : q = p
    · subst hqp
      obtain ⟨hqid, hqopen⟩ := (h.table id q hq).of_heap hp
      exact .inl ⟨rfl, hid.trans hqid, hopen hqopen⟩
    · exact .inr ⟨hqp, hq⟩
  · by_cases hqp : q = p
    · subst hqp
      exact .inl ⟨rfl, hclosing m ((h.pending q m hq).of_heap hp)⟩
    · exact .inr ⟨hqp, hq⟩

/-- The record comes out of the table, and both of its handles are closed. -/
theorem Sound.cleanedUp (h : n.Sound L) (hp : n.heap p = some r)
    (htable : n.tablePoll r.id = some p) : (n.cleanedUp p r).Sound L := by
  obtain ⟨-, hopen⟩ := (h.table r.id p htable).of_heap hp
  have hrecord := h.records p r hp
  have hboth : ([.uvPoll, .uvTimer] : List PollMember).Nodup := by decide
  have hpending := pending_append h.nodup hboth fun m => h.not_pending htable
  refine h.update (.inl (by rw [hp]; rfl)) hrecord.stop_close rfl (fun id q hq => ?_)
    hpending fun q m hq => ?_
  · obtain ⟨-, hne, hold⟩ := h.table_cleanedUp hp hq
    exact .inr ⟨hne, hold⟩
  · rcases List.mem_append.mp hq with hq | hq
    · exact .inr ⟨fun hqp => h.not_pending htable (hqp ▸ hq), hq⟩
    · have hqp : q = p := by
        rcases List.mem_cons.mp hq with heq | heq
        · exact (Prod.mk.inj heq).1
        · exact (Prod.mk.inj (List.mem_singleton.mp heq)).1
      refine .inl ⟨hqp, ?_⟩
      -- a handle that is not closing has not been closed
      have hclosed : (r.handle m).closed = false := by
        rw [Bool.eq_false_iff]
        intro hm
        have hclosing := hrecord.closed m hm
        cases m with
        | uvPoll => exact absurd hclosing (by rw [PollRecord.handle, hopen.uvPoll]; decide)
        | uvTimer => exact absurd hclosing (by rw [PollRecord.handle, hopen.uvTimer]; decide)
      cases m with
      | uvPoll => exact ⟨rfl, hclosed, fun _ => hopen.initialised⟩
      | uvTimer => exact ⟨rfl, hclosed, fun _ => hopen.initialised⟩

/-- A close callback has marked its handle. -/
theorem Sound.calledBack (h : n.Sound L) (hp : n.heap p = some r)
    (hpending : (p, m) ∈ n.pending) (hr' : r'.Sound)
    (hother : ∀ m', m' ≠ m → r.Closing m' → r'.Closing m') :
    (n.calledBack p m r').Sound L := by
  refine h.update (.inl (by rw [hp]; rfl)) hr' rfl (fun id q hq => .inr ⟨?_, hq⟩)
    (h.nodup.erase _) fun q m' hq => ?_
  · rintro rfl
    exact h.not_pending hq hpending
  · have hold := List.mem_of_mem_erase hq
    by_cases hqp : q = p
    · subst hqp
      have hne : m' ≠ m := by
        rintro rfl
        exact h.nodup.not_mem_erase hq
      exact .inl ⟨rfl, hother m' hne ((h.pending q m' hold).of_heap hp)⟩
    · exact .inr ⟨hqp, hold⟩

/-- A record whose `uv_poll` was not initialised is freed by its only
callback. -/
theorem Sound.freed (h : n.Sound L) (hp : n.heap p = some r)
    (hinit : r.uvPoll.initialised = false) (hpending : (p, .uvPoll) ∈ n.pending)
    {queue : List Nat} : Sound L { n with
      heap := Function.update n.heap p none
      queueGc := queue
      pending := n.pending.erase (p, .uvPoll) } := by
  refine h.free rfl (fun id q hq => ⟨?_, hq⟩) (h.nodup.erase _) fun q m hq => ?_
  · rintro rfl
    exact h.not_pending hq hpending
  · have hold := List.mem_of_mem_erase hq
    refine ⟨?_, hold⟩
    rintro rfl
    cases m with
    | uvPoll => exact h.nodup.not_mem_erase hq
    | uvTimer =>
        have htimer := ((h.pending q .uvTimer hold).of_heap hp).initialised rfl
        rw [hinit] at htimer
        cases htimer

theorem Sound.calledBack_poll (h : n.Sound L) (hp : n.heap p = some r)
    (hpending : (p, .uvPoll) ∈ n.pending) (hinit : r.uvPoll.initialised = true) :
    (n.calledBack p .uvPoll { r.markClosed .uvPoll with refcnt := 1 }).Sound L := by
  have hrecord := h.records p r hp
  have hclosing := ((h.pending p .uvPoll hpending).of_heap hp).closing
  refine h.calledBack hp hpending ⟨?_, hrecord.timer, ?_, fun m hm => ?_,
    fun m hm => ?_⟩ fun m hm hold => ?_
  · exact (if_neg (by simp [PollRecord.markClosed, PollRecord.setHandle])).symm
  · exact fun hnot => absurd (hinit.symm.trans hnot) (by decide)
  · cases m with
    | uvPoll => exact hclosing
    | uvTimer => exact hrecord.closed .uvTimer hm
  · cases m with
    | uvPoll => exact hrecord.active .uvPoll hm
    | uvTimer => exact hrecord.active .uvTimer hm
  · cases m with
    | uvPoll => exact absurd rfl hm
    | uvTimer => exact ⟨hold.closing, hold.closed, hold.initialised⟩

theorem Sound.calledBack_timer (h : n.Sound L) (hp : n.heap p = some r)
    (hpending : (p, .uvTimer) ∈ n.pending) :
    (n.calledBack p .uvTimer (r.markClosed .uvTimer)).Sound L := by
  have hrecord := h.records p r hp
  have hclosing := (h.pending p .uvTimer hpending).of_heap hp
  have hinit : r.uvPoll.initialised = true := hclosing.initialised rfl
  refine h.calledBack hp hpending ⟨hrecord.refcnt, hrecord.timer, ?_, fun m hm => ?_,
    fun m hm => ?_⟩ fun m hm hold => ?_
  · exact fun hnot => absurd (hinit.symm.trans hnot) (by decide)
  · cases m with
    | uvPoll => exact hrecord.closed .uvPoll hm
    | uvTimer => exact hclosing.closing
  · cases m with
    | uvPoll => exact hrecord.active .uvPoll hm
    | uvTimer => exact hrecord.active .uvTimer hm
  · cases m with
    | uvPoll => exact ⟨hold.closing, hold.closed, hold.initialised⟩
    | uvTimer => exact absurd rfl hm

/-- A handle is started. -/
theorem Sound.started (h : n.Sound L) (hp : n.heap p = some r)
    (hinit : r.uvPoll.initialised = true) (hlocal : r.hasLocal = true)
    (hopen : (r.handle m).closing = false) (value : UInt32) :
    (n.setRecord p
      (r.setHandle { r.handle m with active := some value } m)).Sound L := by
  have hrecord := h.records p r hp
  cases m with
  | uvPoll =>
      refine h.setRecord hp ⟨hrecord.refcnt, hrecord.timer, hrecord.timerOpen,
        fun m hm => ?_, fun m hm => ?_⟩ rfl (fun ho => ⟨ho.1, ho.2, ho.3⟩) fun m hc => ?_
      · cases m with
        | uvPoll => exact hrecord.closed .uvPoll hm
        | uvTimer => exact hrecord.closed .uvTimer hm
      · cases m with
        | uvPoll => exact ⟨hinit, hlocal, hopen⟩
        | uvTimer => exact hrecord.active .uvTimer hm
      · cases m <;> exact ⟨hc.closing, hc.closed, hc.initialised⟩
  | uvTimer =>
      refine h.setRecord hp ⟨hrecord.refcnt, hrecord.timer, hrecord.timerOpen,
        fun m hm => ?_, fun m hm => ?_⟩ rfl (fun ho => ⟨ho.1, ho.2, ho.3⟩) fun m hc => ?_
      · cases m with
        | uvPoll => exact hrecord.closed .uvPoll hm
        | uvTimer => exact hrecord.closed .uvTimer hm
      · cases m with
        | uvPoll => exact hrecord.active .uvPoll hm
        | uvTimer => exact ⟨hinit, hlocal, hopen⟩
      · cases m <;> exact ⟨hc.closing, hc.closed, hc.initialised⟩

/-- A record that is not new to the table. -/
theorem Sound.located (h : n.Sound L) (hp : n.heap p = some r) :
    (n.setRecord p { r with hasLocal := true }).Sound L := by
  have hrecord := h.records p r hp
  refine h.setRecord hp ⟨hrecord.refcnt, hrecord.timer, hrecord.timerOpen,
    fun m hm => ?_, fun m hm => ?_⟩ rfl (fun ho => ⟨ho.1, ho.2, ho.3⟩) fun m hc => ?_
  · cases m with
    | uvPoll => exact hrecord.closed .uvPoll hm
    | uvTimer => exact hrecord.closed .uvTimer hm
  · cases m with
    | uvPoll => exact ⟨(hrecord.active .uvPoll hm).1, rfl, (hrecord.active .uvPoll hm).2.2⟩
    | uvTimer =>
        exact ⟨(hrecord.active .uvTimer hm).1, rfl, (hrecord.active .uvTimer hm).2.2⟩
  · cases m <;> exact ⟨hc.closing, hc.closed, hc.initialised⟩

/-- A new record comes into the table. -/
theorem Sound.entered (h : n.Sound L) {evts timeout : UInt32} (hfresh : n.Fresh L p)
    {waits : List (UInt32 × Nat)} : Sound L ({ n with
      heap := Function.update n.heap p (some (.fresh id evts timeout true))
      tablePoll := Function.update n.tablePoll id (some p)
      waits := waits }.setCommit id .ready) := by
  refine h.update (.inr hfresh) PollRecord.sound_fresh rfl (fun id' q hq => ?_)
    h.nodup fun q m hq => .inr ⟨h.pending_ne hfresh.heap hq, hq⟩
  have hq : Function.update n.tablePoll id (some p) id' = some q := hq
  by_cases hid : id' = id
  · rw [hid, Function.update_self] at hq
    exact .inl ⟨(Option.some.inj hq).symm, hid.symm, rfl, rfl, rfl⟩
  · rw [Function.update_of_ne hid] at hq
    exact .inr ⟨h.table_ne hfresh.heap hq, hq⟩

/-! ## The services -/

/-- What is true of the services, the thread of `libuv` and the waits. -/
structure InStep (n : Net) : Prop where
  waits : ∀ id p, (id, p) ∈ n.waits → n.Known id p
  thread : ∀ p, n.uvThread = some p → ∃ id, n.Known id p
  commit : ∀ id p, (n.commit id).record? = some p →
    n.Holds p fun r => r.id = id ∧ r.uvPoll.initialised = true ∧ r.hasLocal = true
  ready : ∀ id p, n.commit id = .ready → n.tablePoll id = some p → n.Unstarted p
  found : ∀ id p, n.commit id = .found p →
    n.tablePoll id = some p ∧ n.Unstarted p
  cleaned : ∀ id p, n.commit id = .cleaned p →
    n.Holds p fun r => r.uvPoll.initialised = true ∧ r.uvPoll.closing = true
  /-- a wait ends when it resumes the service -/
  waiting : ∀ id p, (id, p) ∈ n.waits →
    n.tablePoll id = some p ∨ n.commit id = .cleaned p
  /-- a record in the table is of a wait, or has just fired -/
  inTable : ∀ id p, n.tablePoll id = some p →
    (id, p) ∈ n.waits ∨ n.uvThread = some p
  fired : ∀ id p, n.uvThread = some p → (id, p) ∉ n.waits

theorem inStep_initial (unsafe0 : UInt32 → UInt32) : (initial unsafe0).InStep where
  waits := fun id p h => by cases h
  thread := fun p h => by cases h
  commit := fun id p h => by cases h
  ready := fun id p h => by cases h
  found := fun id p h => by cases h
  cleaned := fun id p h => by cases h
  waiting := fun id p h => by cases h
  inTable := fun id p h => by cases h
  fired := fun id p h => by cases h

/-- The records change, and nothing else does. -/
theorem InStep.grow (h : n.InStep) (hgrows : n.Grows t)
    (hunstarted : ∀ id p, (n.commit id = .ready ∨ n.commit id = .found p) →
      n.tablePoll id = some p → n.Unstarted p → t.Unstarted p)
    (htable : t.tablePoll = n.tablePoll) (hthread : t.uvThread = n.uvThread)
    (hcommit : t.commit = n.commit) (hwaits : t.waits = n.waits) : t.InStep where
  waits := fun id p hp => hgrows.known (h.waits id p (hwaits ▸ hp))
  thread := fun p hp => by
    obtain ⟨id, hknown⟩ := h.thread p (hthread ▸ hp)
    exact ⟨id, hgrows.known hknown⟩
  commit := fun id p hp => by
    rw [hcommit] at hp
    obtain ⟨r, hr, hid, hinit, hlocal⟩ := h.commit id p hp
    obtain ⟨r', hr', hbefore⟩ := hgrows p r hr hinit
    exact ⟨r', hr', hbefore.id.trans hid, hbefore.initialised.trans hinit,
      hbefore.hasLocal hlocal⟩
  ready := fun id p hc hp => by
    rw [hcommit] at hc
    rw [htable] at hp
    exact hunstarted id p (.inl hc) hp (h.ready id p hc hp)
  found := fun id p hc => by
    rw [hcommit] at hc
    obtain ⟨hp, hun⟩ := h.found id p hc
    exact ⟨by rw [htable]; exact hp, hunstarted id p (.inr hc) hp hun⟩
  cleaned := fun id p hc => by
    rw [hcommit] at hc
    obtain ⟨r, hr, hinit, hclosing⟩ := h.cleaned id p hc
    obtain ⟨r', hr', hbefore⟩ := hgrows p r hr hinit
    exact ⟨r', hr', hbefore.initialised.trans hinit, hbefore.closing hclosing⟩
  waiting := by rw [hwaits, htable, hcommit]; exact h.waiting
  inTable := by rw [hwaits, htable, hthread]; exact h.inTable
  fired := by rw [hwaits, hthread]; exact h.fired

/-- A service comes to another point of commit. -/
theorem InStep.setCommit {c : CommitPoint} (h : n.InStep)
    (hrecord : ∀ p, c.record? = some p → n.Holds p fun r =>
      r.id = id ∧ r.uvPoll.initialised = true ∧ r.hasLocal = true)
    (hready : ∀ p, c = .ready → n.tablePoll id = some p → n.Unstarted p)
    (hfound : ∀ p, c = .found p → n.tablePoll id = some p ∧ n.Unstarted p)
    (hcleaned : ∀ p, c = .cleaned p →
      n.Holds p fun r => r.uvPoll.initialised = true ∧ r.uvPoll.closing = true)
    (hold : ∀ p, n.commit id = .cleaned p → (id, p) ∉ n.waits) :
    (n.setCommit id c).InStep := by
  have hself : (n.setCommit id c).commit id = c := Function.update_self ..
  have hother : ∀ id', id' ≠ id → (n.setCommit id c).commit id' = n.commit id' :=
    fun id' hne => Function.update_of_ne hne ..
  refine ⟨h.waits, h.thread, fun id' p hc => ?_, fun id' p hc hp => ?_,
    fun id' p hc => ?_, fun id' p hc => ?_, fun id' p hp => ?_, h.inTable, h.fired⟩
  · by_cases hid : id' = id
    · subst hid
      rw [hself] at hc
      exact hrecord p hc
    · rw [hother id' hid] at hc
      exact h.commit id' p hc
  · by_cases hid : id' = id
    · subst hid
      rw [hself] at hc
      exact hready p hc hp
    · rw [hother id' hid] at hc
      exact h.ready id' p hc hp
  · by_cases hid : id' = id
    · subst hid
      rw [hself] at hc
      exact hfound p hc
    · rw [hother id' hid] at hc
      exact h.found id' p hc
  · by_cases hid : id' = id
    · subst hid
      rw [hself] at hc
      exact hcleaned p hc
    · rw [hother id' hid] at hc
      exact h.cleaned id' p hc
  · rcases h.waiting id' p hp with htable | hc
    · exact .inl htable
    · by_cases hid : id' = id
      · subst hid
        exact absurd hp (hold p hc)
      · exact .inr ((hother id' hid).trans hc)

/-- A service leaves a point of commit without a record that is in its way. -/
theorem InStep.leave (h : n.InStep) (hold : ∀ p, n.commit id = .cleaned p →
      (id, p) ∉ n.waits) : (n.setCommit id .idle).InStep :=
  h.setCommit (fun p hc => by cases hc) (fun p hc => by cases hc)
    (fun p hc => by cases hc) (fun p hc => by cases hc) hold

/-- A handle cannot be started. -/
theorem InStep.fail (h : n.InStep) (hcommit : (n.commit id).record? = some p)
    (hnot : n.commit id ≠ .cleaned p) : (n.setCommit id (.failed p)).InStep := by
  refine h.setCommit (fun q hq => ?_) (fun q hq => by cases hq) (fun q hq => by cases hq)
    (fun q hq => by cases hq) fun q hq => ?_
  · obtain rfl := Option.some.inj hq
    exact h.commit id p hcommit
  · rw [hq] at hcommit
    obtain rfl := Option.some.inj hcommit
    exact absurd hq hnot

/-- A record comes into the table. -/
theorem InStep.enter (h : n.InStep) (hknown : n.Known id p) (hun : n.Unstarted p)
    (hidle : n.commit id = .idle) (htable : n.tablePoll id = none) : InStep ({ n with
      tablePoll := Function.update n.tablePoll id (some p)
      waits := n.waits ++ [(id, p)] }.setCommit id .ready) := by
  let t := { n with
      tablePoll := Function.update n.tablePoll id (some p)
      waits := n.waits ++ [(id, p)] }.setCommit id .ready
  have htSelf : t.tablePoll id = some p := Function.update_self ..
  have htOther : ∀ id', id' ≠ id → t.tablePoll id' = n.tablePoll id' :=
    fun id' hne => Function.update_of_ne hne ..
  have hcSelf : t.commit id = .ready := Function.update_self ..
  have hcOther : ∀ id', id' ≠ id → t.commit id' = n.commit id' :=
    fun id' hne => Function.update_of_ne hne ..
  have hwaits : ∀ id' q, (id', q) ∈ t.waits →
      (id', q) ∈ n.waits ∨ id' = id ∧ q = p := by
    intro id' q hq
    rcases List.mem_append.mp hq with hq | hq
    · exact .inl hq
    · exact .inr (Prod.mk.inj (List.mem_singleton.mp hq))
  show t.InStep
  refine ⟨fun id' q hq => ?_, h.thread, fun id' q hc => ?_, fun id' q hc hq => ?_,
    fun id' q hc => ?_, fun id' q hc => ?_, fun id' q hq => ?_, fun id' q hq => ?_,
    fun id' q hq hmem => ?_⟩
  · rcases hwaits id' q hq with hold | ⟨rfl, rfl⟩
    · exact h.waits id' q hold
    · exact hknown
  · by_cases hid : id' = id
    · rw [hid, hcSelf] at hc
      cases hc
    · rw [hcOther id' hid] at hc
      exact h.commit id' q hc
  · by_cases hid : id' = id
    · rw [hid, htSelf] at hq
      obtain rfl := Option.some.inj hq
      exact hun
    · rw [hcOther id' hid] at hc
      rw [htOther id' hid] at hq
      exact h.ready id' q hc hq
  · by_cases hid : id' = id
    · rw [hid, hcSelf] at hc
      cases hc
    · rw [hcOther id' hid] at hc
      rw [htOther id' hid]
      exact h.found id' q hc
  · by_cases hid : id' = id
    · rw [hid, hcSelf] at hc
      cases hc
    · rw [hcOther id' hid] at hc
      exact h.cleaned id' q hc
  · rcases hwaits id' q hq with hold | ⟨rfl, rfl⟩
    · have hid : id' ≠ id := by
        rintro rfl
        rcases h.waiting id' q hold with hq | hc
        · rw [htable] at hq
          cases hq
        · rw [hidle] at hc
          cases hc
      rw [htOther id' hid, hcOther id' hid]
      exact h.waiting id' q hold
    · exact .inl htSelf
  · by_cases hid : id' = id
    · rw [hid, htSelf] at hq
      obtain rfl := Option.some.inj hq
      rw [hid]
      exact .inl (List.mem_append_right _ List.mem_cons_self)
    · rw [htOther id' hid] at hq
      exact (h.inTable id' q hq).imp (List.mem_append_left _) fun hfire => hfire
  · rcases hwaits id' q hmem with hold | ⟨rfl, rfl⟩
    · exact h.fired id' q hq hold
    · exact hun.2 hq

/-- Nobody knows a record that is new. -/
theorem InStep.fresh_thread (h : n.InStep) (hp : n.heap p = none) :
    n.uvThread ≠ some p := by
  intro hthread
  obtain ⟨id, r, hr, -⟩ := h.thread p hthread
  rw [hp] at hr
  cases hr

theorem Unstarted.new (h : n.Unstarted q) (hp : n.heap p = none)
    (hheap : t.heap = Function.update n.heap p (some r))
    (hthread : t.uvThread = n.uvThread) : t.Unstarted q := by
  have hne : q ≠ p := by
    rintro rfl
    obtain ⟨r, hr, -⟩ := h.1
    rw [hp] at hr
    cases hr
  exact ⟨h.1.congr (by rw [hheap, Function.update_of_ne hne]), by rw [hthread]; exact h.2⟩

theorem Unstarted.set (h : n.Unstarted q) (hp : n.heap p = some r)
    (hheap : t.heap = Function.update n.heap p (some r'))
    (hthread : t.uvThread = n.uvThread) (hr' : r.Stopped → r'.Stopped) :
    t.Unstarted q := by
  refine ⟨?_, by rw [hthread]; exact h.2⟩
  by_cases hqp : q = p
  · subst hqp
    exact ⟨r', by rw [hheap, Function.update_self], hr' (h.1.of_heap hp)⟩
  · exact h.1.congr (by rw [hheap, Function.update_of_ne hqp])

/-- A wait is set up. -/
theorem InStep.entered (h : n.InStep) {evts timeout : UInt32}
    (hfresh : n.Fresh L p) (hidle : n.commit id = .idle)
    (htable : n.tablePoll id = none) : InStep ({ n with
      heap := Function.update n.heap p (some (.fresh id evts timeout true))
      tablePoll := Function.update n.tablePoll id (some p)
      waits := n.waits ++ [(id, p)] }.setCommit id .ready) := by
  have hnone := hfresh.heap
  let t : Net := { n with
    heap := Function.update n.heap p (some (.fresh id evts timeout true)) }
  have ht : t.InStep := h.grow (grows_new hnone rfl)
    (fun _ q _ _ hun => hun.new hnone rfl rfl) rfl rfl rfl rfl
  have hself : t.heap p = some (.fresh id evts timeout true) := Function.update_self ..
  exact ht.enter ⟨_, hself, rfl, rfl⟩
    ⟨⟨_, hself, rfl, rfl, rfl⟩, h.fresh_thread hnone⟩ hidle htable

/-- Commit finds the record of its service. -/
theorem InStep.foundRecord (h : n.InStep) (hs : n.Sound L) (hready : n.commit id = .ready)
    (htable : n.tablePoll id = some p) (hp : n.heap p = some r) :
    ((n.setRecord p { r with hasLocal := true }).setCommit id (.found p)).InStep := by
  obtain ⟨hid, hopen⟩ := (hs.table id p htable).of_heap hp
  have hset : (n.setRecord p { r with hasLocal := true }).InStep :=
    h.grow (grows_set hp rfl ⟨rfl, rfl, fun _ => rfl, fun h => h⟩)
      (fun _ q _ _ hun => hun.set hp rfl rfl fun hr => ⟨hr.1, hr.2.1, hr.2.2⟩)
      rfl rfl rfl rfl
  refine hset.setCommit (fun q hq => ?_) (fun q hq => by cases hq) (fun q hq => ?_)
    (fun q hq => by cases hq) fun q hq => ?_
  · obtain rfl := Option.some.inj hq
    exact ⟨_, heap_setRecord, hid, hopen.initialised, rfl⟩
  · obtain rfl := CommitPoint.found.inj hq
    exact ⟨htable, hset.ready id p hready htable⟩
  · have hc : n.commit id = .cleaned q := hq
    rw [hready] at hc
    cases hc

/-- A handle is started by the commit of its service. -/
theorem InStep.started {c : CommitPoint} (h : n.InStep) (hs : n.Sound L)
    (hcommit : (n.commit id).record? = some p) (hnot : n.commit id ≠ .cleaned p)
    (hc : c = .polling p ∨ c = .idle) (hp : n.heap p = some r) (value : UInt32) :
    ((n.setRecord p
      (r.setHandle { r.handle m with active := some value } m)).setCommit id c).InStep := by
  obtain ⟨hid, hinit, hlocal⟩ := (h.commit id p hcommit).of_heap hp
  have hmove : (n.setCommit id c).InStep := by
    refine h.setCommit (fun q hq => ?_) (fun q hq => ?_) (fun q hq => ?_)
      (fun q hq => ?_) fun q hq => ?_
    · rcases hc with rfl | rfl
      · obtain rfl := Option.some.inj hq
        exact h.commit id p hcommit
      · cases hq
    · rcases hc with rfl | rfl <;> cases hq
    · rcases hc with rfl | rfl <;> cases hq
    · rcases hc with rfl | rfl <;> cases hq
    · rw [hq] at hcommit
      obtain rfl := Option.some.inj hcommit
      exact absurd hq hnot
  have hbefore : r.Before (r.setHandle { r.handle m with active := some value } m) := by
    cases m
    · exact ⟨rfl, rfl, fun h => h, fun h => h⟩
    · exact ⟨rfl, rfl, fun h => h, fun h => h⟩
  refine InStep.grow (t := (n.setCommit id c).setRecord p _) hmove
    (grows_set hp rfl hbefore) (fun id' q hq htable hun => ?_) rfl rfl rfl rfl
  -- no other service waits with this record
  have hqp : q ≠ p := by
    rintro rfl
    have hid' : id' = id := ((hs.table id' q htable).of_heap hp).1.symm.trans hid
    have hself : (n.setCommit id c).commit id = c := Function.update_self ..
    rw [hid', hself] at hq
    rcases hc with rfl | rfl <;> rcases hq with hq | hq <;> cases hq
  exact ⟨hun.1.congr (heap_setRecord_ne hqp), hun.2⟩

theorem mem_resume {id' : UInt32} :
    (id', q) ∈ (n.resume id p).waits ↔ (id', q) ∈ n.waits ∧ (id', q) ≠ (id, p) := by
  rw [resume, List.mem_filter, decide_eq_true_eq]

/-- Commit has cleaned up and resumes its service. -/
theorem InStep.resumed (h : n.InStep) (hs : n.Sound L)
    (hcleaned : n.commit id = .cleaned p) :
    ((n.resume id p).setCommit id .idle).InStep := by
  have hresume : (n.resume id p).InStep := by
    refine ⟨fun id' q hq => h.waits id' q (mem_resume.mp hq).1, h.thread, h.commit,
      h.ready, h.found, h.cleaned, fun id' q hq => h.waiting id' q (mem_resume.mp hq).1,
      fun id' q hq => ?_, fun id' q hq hmem => h.fired id' q hq (mem_resume.mp hmem).1⟩
    rcases h.inTable id' q hq with hwait | hthread
    · refine .inl (mem_resume.mpr ⟨hwait, fun heq => ?_⟩)
      -- the record is being closed, so it is not in the table
      obtain ⟨rfl, rfl⟩ := Prod.mk.inj heq
      obtain ⟨r, hr, -, hclosing⟩ := h.cleaned id' q hcleaned
      have hopen := ((hs.table id' q hq).of_heap hr).2.uvPoll
      rw [hclosing] at hopen
      cases hopen
    · exact .inr hthread
  refine hresume.leave fun q hq hmem => ?_
  have hc : n.commit id = .cleaned q := hq
  obtain rfl := CommitPoint.cleaned.inj (hcleaned.symm.trans hc)
  exact (mem_resume.mp hmem).2 rfl

/-- A handle fires, and its service is resumed. -/
theorem InStep.fired_resume {unsafe0 : UInt32 → UInt32} (h : n.InStep) (hs : n.Sound L)
    (hthread : n.uvThread = none) (hp : n.heap p = some r)
    (hactive : (r.handle m).active.isSome = true) :
    InStep { { n with unsafe0 := unsafe0 }.resume r.id p with uvThread := some p } := by
  obtain ⟨hinit, -, -⟩ := (hs.records p r hp).active m hactive
  have hknown : n.Known r.id p := ⟨r, hp, rfl, hinit⟩
  have hun : ∀ q, n.Unstarted q → q ≠ p := by
    rintro q ⟨hstopped, -⟩ rfl
    obtain ⟨-, hpoll, htimer⟩ := hstopped.of_heap hp
    cases m with
    | uvPoll => rw [PollRecord.handle, hpoll] at hactive; cases hactive
    | uvTimer => rw [PollRecord.handle, htimer] at hactive; cases hactive
  have hkeep : ∀ q, n.Unstarted q →
      Unstarted { { n with unsafe0 := unsafe0 }.resume r.id p with uvThread := some p } q :=
    fun q hq => ⟨hq.1, fun heq => hun q hq (Option.some.inj heq).symm⟩
  refine ⟨fun id q hq => h.waits id q (mem_resume.mp hq).1, fun q hq => ?_, h.commit,
    fun id q hc hq => hkeep q (h.ready id q hc hq),
    fun id q hc => ⟨(h.found id q hc).1, hkeep q (h.found id q hc).2⟩, h.cleaned,
    fun id q hq => h.waiting id q (mem_resume.mp hq).1, fun id q hq => ?_,
    fun id q hq hmem => ?_⟩
  · obtain rfl := Option.some.inj hq
    exact ⟨r.id, hknown⟩
  · rcases h.inTable id q hq with hwait | hthread'
    · by_cases heq : (id, q) = (r.id, p)
      · obtain ⟨-, rfl⟩ := Prod.mk.inj heq
        exact .inr rfl
      · exact .inl (mem_resume.mpr ⟨hwait, heq⟩)
    · rw [hthread] at hthread'
      cases hthread'
  · obtain rfl := Option.some.inj hq
    obtain ⟨hwait, hne⟩ := mem_resume.mp hmem
    have hid : r.id = id := ((h.waits id p hwait).of_heap hp).1
    exact hne (by rw [hid])

theorem grows_cleanedUp (hp : n.heap p = some r) : n.Grows (n.cleanedUp p r) :=
  grows_set hp rfl (PollRecord.before_stop.trans PollRecord.before_close)

theorem Unstarted.cleanedUp (h : n.Unstarted q) (hp : n.heap p = some r) :
    (n.cleanedUp p r).Unstarted q :=
  h.set hp rfl rfl fun hr => ⟨hr.1, rfl, rfl⟩

/-- The thread of `libuv` cleans up the record that has fired. -/
theorem InStep.uvCleaned (h : n.InStep) (hs : n.Sound L) (hthread : n.uvThread = some p)
    (hp : n.heap p = some r) (htable : n.tablePoll r.id = some p) :
    InStep { n.cleanedUp p r with uvThread := none } := by
  have hgrows := grows_cleanedUp hp
  have hne : ∀ id q, n.tablePoll id = some q → n.Unstarted q → id ≠ r.id := by
    rintro id q hq hun rfl
    obtain rfl := Option.some.inj (htable.symm.trans hq)
    exact hun.2 hthread
  have htableOther : ∀ id, id ≠ r.id →
      (n.cleanedUp p r).tablePoll id = n.tablePoll id :=
    fun id hid => Function.update_of_ne hid ..
  have hkeep : ∀ q, n.Unstarted q →
      Unstarted { n.cleanedUp p r with uvThread := none } q :=
    fun q hq => ⟨(hq.cleanedUp hp).1, fun heq => by cases heq⟩
  refine ⟨fun id q hq => hgrows.known (h.waits id q hq), fun q hq => (by cases hq),
    fun id q hc => ?_, fun id q hc hq => ?_, fun id q hc => ?_, fun id q hc => ?_,
    fun id q hq => ?_, fun id q hq => ?_, fun id q hq => (by cases hq)⟩
  · obtain ⟨s, hr, hid, hinit, hlocal⟩ := h.commit id q hc
    obtain ⟨s', hs', hbefore⟩ := hgrows q s hr hinit
    exact ⟨s', hs', hbefore.id.trans hid, hbefore.initialised.trans hinit,
      hbefore.hasLocal hlocal⟩
  · obtain ⟨-, -, hold⟩ := hs.table_cleanedUp hp hq
    exact hkeep q (h.ready id q hc hold)
  · obtain ⟨hq, hun⟩ := h.found id q hc
    exact ⟨(htableOther id (hne id q hq hun)).trans hq, hkeep q hun⟩
  · obtain ⟨s, hr, hinit, hclosing⟩ := h.cleaned id q hc
    obtain ⟨s', hs', hbefore⟩ := hgrows q s hr hinit
    exact ⟨s', hs', hbefore.initialised.trans hinit, hbefore.closing hclosing⟩
  · rcases h.waiting id q hq with hold | hc
    · refine .inl ((htableOther id ?_).trans hold)
      rintro rfl
      obtain rfl := Option.some.inj (htable.symm.trans hold)
      exact h.fired r.id p hthread hq
    · exact .inr hc
  · obtain ⟨-, hqp, hold⟩ := hs.table_cleanedUp hp hq
    rcases h.inTable id q hold with hwait | hfire
    · exact .inl hwait
    · rw [hthread] at hfire
      exact absurd (Option.some.inj hfire).symm hqp

/-- Commit cleans up the record that it could not start. -/
theorem InStep.cleanedFailed (h : n.InStep) (hs : n.Sound L)
    (hfailed : n.commit id = .failed p) (hp : n.heap p = some r)
    (htable : n.tablePoll r.id = some p) :
    ((n.cleanedUp p r).setCommit id (.cleaned p)).InStep := by
  obtain ⟨hid, hinit, -⟩ := (h.commit id p (by rw [hfailed]; rfl)).of_heap hp
  have hgrows := grows_cleanedUp hp
  let t := (n.cleanedUp p r).setCommit id (.cleaned p)
  have hcSelf : t.commit id = .cleaned p := Function.update_self ..
  have hcOther : ∀ id', id' ≠ id → t.commit id' = n.commit id' :=
    fun id' hne => Function.update_of_ne hne ..
  have htOther : ∀ id', id' ≠ id → t.tablePoll id' = n.tablePoll id' :=
    fun id' hne => Function.update_of_ne (by rw [hid]; exact hne) ..
  have hclosed : t.heap p = some r.stop.close := Function.update_self ..
  show t.InStep
  refine ⟨fun id' q hq => hgrows.known (h.waits id' q hq), fun q hq => ?_,
    fun id' q hc => ?_, fun id' q hc hq => ?_, fun id' q hc => ?_, fun id' q hc => ?_,
    fun id' q hq => ?_, fun id' q hq => ?_, h.fired⟩
  · obtain ⟨id', hknown⟩ := h.thread q hq
    exact ⟨id', hgrows.known hknown⟩
  · have hold : (n.commit id').record? = some q := by
      by_cases hne : id' = id
      · rw [hne, hcSelf] at hc
        rw [hne, hfailed]
        exact hc
      · rw [hcOther id' hne] at hc
        exact hc
    obtain ⟨s, hr, hid', hinit', hlocal⟩ := h.commit id' q hold
    obtain ⟨s', hs', hbefore⟩ := hgrows q s hr hinit'
    exact ⟨s', hs', hbefore.id.trans hid', hbefore.initialised.trans hinit',
      hbefore.hasLocal hlocal⟩
  · obtain ⟨hne, -, hold⟩ := hs.table_cleanedUp hp hq
    rw [hid] at hne
    rw [hcOther id' hne] at hc
    exact (h.ready id' q hc hold).cleanedUp hp
  · have hne : id' ≠ id := by
      rintro rfl
      rw [hcSelf] at hc
      cases hc
    rw [hcOther id' hne] at hc
    obtain ⟨hold, hun⟩ := h.found id' q hc
    exact ⟨(htOther id' hne).trans hold, hun.cleanedUp hp⟩
  · by_cases hne : id' = id
    · rw [hne, hcSelf] at hc
      obtain rfl := CommitPoint.cleaned.inj hc
      exact ⟨_, hclosed, hinit, rfl⟩
    · rw [hcOther id' hne] at hc
      obtain ⟨s, hr, hinit', hclosing⟩ := h.cleaned id' q hc
      obtain ⟨s', hs', hbefore⟩ := hgrows q s hr hinit'
      exact ⟨s', hs', hbefore.initialised.trans hinit', hbefore.closing hclosing⟩
  · by_cases hne : id' = id
    · rcases h.waiting id' q hq with hold | hc
      · rw [hne, ← hid] at hold
        obtain rfl := Option.some.inj (htable.symm.trans hold)
        exact .inr (by rw [hne, hcSelf])
      · rw [hne, hfailed] at hc
        cases hc
    · rw [htOther id' hne, hcOther id' hne]
      exact h.waiting id' q hq
  · obtain ⟨-, -, hold⟩ := hs.table_cleanedUp hp hq
    exact h.inTable id' q hold

/-- A close callback runs for a record that is not in the table. -/
theorem InStep.calledBack (h : n.InStep) (hs : n.Sound L) (hp : n.heap p = some r)
    (hpending : (p, m) ∈ n.pending) (hbefore : r.Before r') :
    (n.calledBack p m r').InStep := by
  refine h.grow (grows_set hp rfl hbefore) (fun id q _ hq hun => ⟨?_, hun.2⟩)
    rfl rfl rfl rfl
  have hqp : q ≠ p := by
    rintro rfl
    exact hs.not_pending hq hpending
  exact hun.1.congr (Function.update_of_ne hqp ..)

theorem InStep.freed (h : n.InStep) (hs : n.Sound L) (hp : n.heap p = some r)
    (hpending : (p, m) ∈ n.pending) (hinit : r.uvPoll.initialised = false)
    {queue : List Nat} : InStep { n with
      heap := Function.update n.heap p none
      queueGc := queue
      pending := n.pending.erase (p, m) } := by
  refine h.grow (grows_free hp hinit rfl) (fun id q _ hq hun => ⟨?_, hun.2⟩)
    rfl rfl rfl rfl
  have hqp : q ≠ p := by
    rintro rfl
    exact hs.not_pending hq hpending
  exact hun.1.congr (Function.update_of_ne hqp ..)

/-! ## Every step -/

/-- A step keeps the memory in order. -/
theorem Sound.step (h : n.Sound L) (hi : n.InStep) (he : n.Effect L a t) :
    t.Sound L := by
  cases he with
  | unchanged _ => exact h
  | refused _ hfresh hr hms hclosing _ => exact h.refused hfresh hr hms hclosing
  | entered hfresh hidle htable =>
      exact h.entered hfresh
  | notFound _ _ => exact h.congr rfl rfl rfl
  | found _ _ hp => exact (h.located hp).congr rfl rfl rfl
  | pollStarted hfound hp hopen =>
      obtain ⟨-, hinit, hlocal⟩ := (hi.commit _ _ (by rw [hfound]; rfl)).of_heap hp
      exact (h.started (m := .uvPoll) hp hinit hlocal hopen _).congr rfl rfl rfl
  | pollFailed _ => exact h.congr rfl rfl rfl
  | timerStarted hpolling hp hopen =>
      obtain ⟨-, hinit, hlocal⟩ := (hi.commit _ _ (by rw [hpolling]; rfl)).of_heap hp
      exact (h.started (m := .uvTimer) hp hinit hlocal hopen _).congr rfl rfl rfl
  | timerFailed _ => exact h.congr rfl rfl rfl
  | cleaned _ hp htable => exact (h.cleanedUp hp htable).congr rfl rfl rfl
  | resumed _ => exact h.congr rfl rfl rfl
  | fired _ _ _ _ => exact h.congr rfl rfl rfl
  | uvCleaned _ hp htable => exact (h.cleanedUp hp htable).congr rfl rfl rfl
  | missed _ hpending hp => exact h.calledBack_timer hp hpending
  | counted _ hpending hp hinit => exact h.calledBack_poll hp hpending hinit
  | freed _ hpending hp hinit _ => exact h.freed hp hinit hpending

/-- And the services in step. -/
theorem InStep.step (h : n.InStep) (hs : n.Sound L) (he : n.Effect L a t) :
    t.InStep := by
  cases he with
  | unchanged _ => exact h
  | refused _ hfresh _ _ _ _ =>
      exact h.grow (grows_new hfresh.heap rfl)
        (fun _ q _ _ hun => hun.new hfresh.heap rfl rfl) rfl rfl rfl rfl
  | entered hfresh hidle htable => exact h.entered hfresh hidle htable
  | notFound hready _ => exact h.leave fun p hc => by rw [hready] at hc; cases hc
  | found hready htable hp => exact h.foundRecord hs hready htable hp
  | pollStarted hfound hp _ =>
      exact h.started (m := .uvPoll) hs (by rw [hfound]; rfl) (by rw [hfound]; simp)
        (.inl rfl) hp _
  | pollFailed hfound => exact h.fail (by rw [hfound]; rfl) (by rw [hfound]; simp)
  | timerStarted hpolling hp _ =>
      exact h.started (m := .uvTimer) hs (by rw [hpolling]; rfl) (by rw [hpolling]; simp)
        (.inr rfl) hp _
  | timerFailed hpolling =>
      exact h.fail (by rw [hpolling]; rfl) (by rw [hpolling]; simp)
  | cleaned hfailed hp htable => exact h.cleanedFailed hs hfailed hp htable
  | resumed hcleaned => exact h.resumed hs hcleaned
  | fired _ hthread hp hactive => exact h.fired_resume hs hthread hp hactive
  | uvCleaned hthread hp htable => exact h.uvCleaned hs hthread hp htable
  | missed _ hpending hp =>
      exact h.calledBack hs hp hpending PollRecord.before_markClosed
  | counted _ hpending hp _ =>
      exact h.calledBack hs hp hpending ⟨rfl, rfl, fun h => h, fun h => h⟩
  | freed _ hpending hp hinit _ => exact h.freed hs hp hpending hinit

end Net

/-! ## Every run -/

/-- The events of the steps `as`. -/
def netTrace (L : PollLayout) : Option Net → List NetStep → List NetEvent
  | some n, a :: rest => ⟨n, a, n.step L a⟩ :: netTrace L (n.step L a) rest
  | _, _ => []

/-- Where they lead. -/
def netLast (L : PollLayout) : Option Net → List NetStep → Option Net
  | some n, a :: rest => netLast L (n.step L a) rest
  | s, _ => s

/-- Each of them may be taken. -/
def NetPermitted (L : PollLayout) : Option Net → List NetStep → Prop
  | some n, a :: rest => n.Enabled L a ∧ NetPermitted L (n.step L a) rest
  | none, _ :: _ => False
  | _, [] => True

theorem run_of_permitted {L : PollLayout} {s : Option Net} {steps : List NetStep}
    (h : NetPermitted L s steps) :
    Run (NetMoves L) s (netTrace L s steps) (netLast L s steps) := by
  induction steps generalizing s with
  | nil => cases s <;> exact .refl
  | cons a rest ih =>
      cases s with
      | none => exact h.elim
      | some n =>
          obtain ⟨ha, hrest⟩ := h
          have hfirst : NetMoves L (some n) [⟨n, a, n.step L a⟩] (n.step L a) :=
            ⟨n, a, rfl, ha, rfl, rfl⟩
          exact (Run.single hfirst).trans (ih hrest)

/-- Both hold in every state of a run. -/
theorem NetRun.sound {L : PollLayout} {unsafe0 : UInt32 → UInt32}
    {tr : List NetEvent} {last : Option Net} (h : NetRun L unsafe0 tr last) :
    ∀ n ∈ last, n.Sound L ∧ n.InStep := by
  refine h.preserved (P := fun s => ∀ n ∈ s, n.Sound L ∧ n.InStep) ?_ ?_
  · intro n hn
    obtain rfl := Option.some.inj hn
    exact ⟨Net.sound_initial unsafe0, Net.inStep_initial unsafe0⟩
  · rintro s events t hs ⟨n, a, rfl, ha, rfl, -⟩ n' hn'
    obtain ⟨hsound, hstep⟩ := hs n rfl
    have heffect := hsound.step_effect ha hn'
    exact ⟨hsound.step hstep heffect, hstep.step hsound heffect⟩

/-- So both hold before every step. -/
theorem NetRun.before {L : PollLayout} {unsafe0 : UInt32 → UInt32}
    {tr : List NetEvent} {last : Option Net} (h : NetRun L unsafe0 tr last) :
    ∀ e ∈ tr, e.before.Sound L ∧ e.before.InStep ∧ e.before.Enabled L e.step ∧
      e.after = e.before.step L e.step := by
  intro e he
  obtain ⟨front, s, events, t, rest, hfront, ⟨n, a, rfl, ha, rfl, rfl⟩, -, -, hmem⟩ :=
    h.step_of_mem he
  obtain rfl := List.mem_singleton.mp hmem
  obtain ⟨hsound, hstep⟩ := NetRun.sound hfront n rfl
  exact ⟨hsound, hstep, ha, rfl⟩

end Powerpack
end Eaf

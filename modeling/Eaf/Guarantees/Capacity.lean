import Eaf.System.RecordOrigins
import Eaf.System.FailedSends
import Eaf.Guarantees.ListMembership

/-!
# The capacity of a queue

A request is refused for lack of capacity only when the queue is full, and a
response never is.  The size of the queue is tested before the locked part of
the push and not again in it, so the capacity is kept as long as no other
request for the service gets to its locked part in between.
-/

namespace Eaf
namespace Core

open LabelledRun

variable {L : Layout} {s s' : Sys} {g i : Nat} {t : Tid} {a : Act}
  {o : Outcome} {events : List Event} {log : List StepRecord}
  {e : StepRecord} {b : SendArgs} {fn : Option Fn} {r : MsgqRecord}
  {c : GroupTable} {env : Env} {G G' : Group} {gevents : List GroupEvent}

/-- The requests that wait in the queue of a service: the records that
`eaf_send_req` made. -/
def Service.requests (S : Service) : Nat :=
  (S.queue.filter fun r => r.reqFn.isSome).length

/-- `msgq.capacity` -/
def Layout.capacity (L : Layout) (g i : Nat) : Nat :=
  ((L.conf g).row i).msgqSize.toNat

/-- A request between the size test and its insertion. -/
def Call.passedTest (g i : Nat) : Call → Prop
  | .pushAlloc b g' i' _ | .pushLock b g' i' _ =>
      b.kind = .req ∧ g' = g ∧ i' = i
  | _ => False

instance (g i : Nat) (c : Call) : Decidable (c.passedTest g i) := by
  cases c <;> unfold Call.passedTest <;> infer_instance

/-- The group and the service for which a request is at the locked part of its
push. -/
def Call.inserts? : Call → Option (Nat × Nat)
  | .pushLock b g i _ => if b.kind = .req then some (g, i) else none
  | _ => none

/-- No request gets to the locked part of its push while a request of another
thread is between the size test for the same service and its insertion. -/
def insertsApart (L : Layout) (s : Sys) : Act → Prop
  | .call t _ => ∀ q ∈ (s.call t).inserts?, ∀ t' ∈ L.threads,
      (s.call t').passedTest q.1 q.2 → t' = t
  | _ => True

instance (L : Layout) (s : Sys) : (a : Act) → Decidable (insertsApart L s a)
  | .call t _ => inferInstanceAs (Decidable (∀ q ∈ (s.call t).inserts?,
      ∀ t' ∈ L.threads, (s.call t').passedTest q.1 q.2 → t' = t))
  | .worker _ _ | .enter _ _ | .user _ => inferInstanceAs (Decidable True)

/-- The step is the one that puts a request into the queue. -/
def StepRecord.InsertsRequest (e : StepRecord) (g i : Nat) : Prop :=
  ∃ t o b r, e.act = .call t o ∧ b.kind = .req ∧
    e.before.call t = .pushLock b g i r ∧ e.after.call t = .pushPost b g

/-! ## Queues grow by pushes only -/

theorem Service.requests_le {S S' : Service}
    (h : S'.queue.Sublist S.queue) : S'.requests ≤ S.requests :=
  (h.filter _).length_le

/-- Replacing a service by one with fewer records. -/
theorem queue_sublist_update {T : Nat → Service} {S : Service} {j : Nat}
    (h : S.queue.Sublist (T j).queue) :
    (Function.update T j S i).queue.Sublist (T i).queue := by
  by_cases hij : i = j
  · subst hij
    rwa [Function.update_self]
  · rw [Function.update_of_ne hij]

/-- A worker puts nothing into a queue. -/
theorem WorkerTrans.queue_sublist (h : WorkerTrans c env G o G' gevents) :
    (G'.table i).queue.Sublist (G.table i).queue := by
  cases h
  case popSome hpc hq | tdPopSome hpc hq =>
    refine queue_sublist_update ?_
    rw [hq]
    exact List.sublist_cons_self _ _
  case initDone =>
    simp only [Group.goto_table, Group.finishServiceInit_table,
      Group.setService_table, Function.update_idem]
    refine queue_sublist_update ?_
    simp
  case reset | tdFreeCur | popNone | handlerReturn | handledYield | tdExit0
    | tdSetExit1 | exitExit0 | exitExit1 =>
    exact queue_sublist_update (.refl _)
  all_goals exact .refl _

/-- A call puts nothing into a queue, unless it is the locked part of a
push. -/
theorem CallTrans.queue (h : CallTrans L s t events s') :
    ((s'.group g).table i).queue.Sublist ((s.group g).table i).queue ∨
      ∃ b r, s.call t = .pushLock b g i r ∧ s'.call t = .pushPost b g ∧
        ((s'.group g).table i).queue = ((s.group g).table i).queue ++ [r] := by
  cases h
  case pushAccepted b k j r G hcall hpush =>
    by_cases hgk : g = k
    · subst hgk
      simp only [Sys.setCall_group, Sys.setGroup_group, Function.update_self,
        (Group.pushMsg_some hpush).2.1]
      by_cases hij : i = j
      · subst hij
        rw [Function.update_self]
        exact .inr ⟨b, r, hcall, by simp, rfl⟩
      · rw [Function.update_of_ne hij]
        exact .inl (.refl _)
    · simp only [Sys.setCall_group, Sys.setGroup_group,
        Function.update_of_ne hgk]
      exact .inl (.refl _)
  case resumeAccepted k j G hcall hresume =>
    obtain ⟨-, rfl⟩ := Group.resumeService_some hresume
    left
    by_cases hgk : g = k
    · subst hgk
      simp only [Sys.setCall_group, Sys.setGroup_group, Function.update_self]
      exact queue_sublist_update (.refl _)
    · simp [hgk]
  case loadFixed k _ _ =>
    left
    by_cases hgk : g = k
    · subst hgk
      simp only [Sys.setCall_group, Sys.setGroup_group, Function.update_self,
        Group.loadFixState_table]
      split <;> exact .refl _
    · simp [hgk]
  case cleanQueued k j r rest hcall _ hq =>
    left
    by_cases hgk : g = k
    · subst hgk
      simp only [Sys.decRef_group, Sys.setGroup_group, Function.update_self]
      refine queue_sublist_update ?_
      rw [hq]
      exact List.sublist_cons_self _ _
    · simp [hgk]
  case cleanCurrent k j r hcall _ hq _ =>
    left
    by_cases hgk : g = k
    · subst hgk
      simp only [Sys.decRef_group, Sys.setGroup_group, Function.update_self]
      exact queue_sublist_update (.refl _)
    · simp [hgk]
  case pushPosted k _ | resumePosted k _ | exitPosted k _ _
    | loadPosted k _ _ =>
    left
    by_cases hgk : g = k
    · subst hgk
      simp only [Sys.setCall_group, Sys.setGroup_group, Function.update_self]
      exact .refl _
    · simp [hgk]
  all_goals exact .inl (by simp)

/-- A record of a request has a handler, a record of a response has none. -/
theorem LogRun.stored_iff (h : LogRun L log s)
    (hcall : s.call t = .pushLock b g i r) :
    r.reqFn.isSome = true ↔ b.kind = .req := by
  have hfor : HandlerFor L s b g i r.reqFn :=
    h.handlerFor (t := t) (by rw [hcall]; rfl)
  cases hkind : b.kind with
  | rsp =>
      have hnone : r.reqFn = none := by simpa [HandlerFor, hkind] using hfor
      simp [hnone]
  | req =>
      simp only [HandlerFor, hkind] at hfor
      obtain ⟨f, -, hf, -⟩ := hfor
      simp [hf]

/-- The number of requests grows by one when a request is put in, and does not
grow otherwise. -/
theorem LogRun.requests_step (h : LogRun L log s)
    (hstep : step L s a = some (s', events)) :
    ((s'.group g).table i).requests ≤ ((s.group g).table i).requests ∨
      StepRecord.InsertsRequest ⟨s, a, events, s'⟩ g i ∧
        ((s'.group g).table i).requests =
          ((s.group g).table i).requests + 1 := by
  cases step_trans hstep with
  | @worker k o G gevents hk hw =>
      left
      rw [Sys.emitAll_group, Sys.setGroup_group]
      by_cases hgk : g = k
      · subst hgk
        rw [Function.update_self]
        exact Service.requests_le hw.queue_sublist
      · rw [Function.update_of_ne hgk]
  | @call t o _ _ hlive hc =>
      rcases hc.queue (g := g) (i := i) with hsub | ⟨b, r, hcall, hafter, hq⟩
      · exact .inl (Service.requests_le hsub)
      · have hstored := h.stored_iff hcall
        cases hfn : r.reqFn.isSome with
        | false =>
            left
            simp [Service.requests, hq, List.filter_append, hfn]
        | true =>
            right
            refine ⟨⟨t, o, b, r, rfl, hstored.mp hfn, hcall, hafter⟩, ?_⟩
            simp [Service.requests, hq, List.filter_append, hfn]
  | enter he => rw [he.group_eq]; exact .inl (Nat.le_refl _)
  | user hu => rw [hu.group_eq]; exact .inl (Nat.le_refl _)

/-! ## The size test -/

/-- What the size test can do. -/
theorem callStep_pushTest (hcall : s.call t = .pushTest b g i fn)
    (h : s.callStep L t o = some (s', events)) :
    (b.kind = .req ∧
        L.capacity g i ≤ ((s.group g).table i).queue.length ∧
        s' = s.setCall t (.sendAfter b Errno.overflow)) ∨
      (¬(b.kind = .req ∧
          L.capacity g i ≤ ((s.group g).table i).queue.length) ∧
        s' = s.setCall t (.pushAlloc b g i fn)) := by
  unfold Sys.callStep at h
  split at h
  · simp only [hcall, Sys.sendStep] at h
    split at h <;> obtain ⟨rfl, -⟩ := Prod.mk.inj (Option.some.inj h)
    · next hfull => exact .inl ⟨hfull.1, hfull.2, rfl⟩
    · next hroom => exact .inr ⟨hroom, rfl⟩
  · cases h

/-- The step with which a send decides that the queue is full. -/
theorem callStep_overflow (h : s.callStep L t o = some (s', events))
    (hbefore : s.call t ≠ .sendAfter b Errno.overflow)
    (hafter : s'.call t = .sendAfter b Errno.overflow) :
    ∃ g i fn, s.call t = .pushTest b g i fn ∧ b.kind = .req ∧
      L.capacity g i ≤ ((s.group g).table i).queue.length := by
  obtain ⟨-, hc⟩ := callStep_trans h
  cases hc
  case pushOverflow b' g i fn hcall =>
    obtain rfl : b' = b := by simpa using hafter
    rcases callStep_pushTest hcall h with ⟨hreq, hfull, -⟩ | ⟨-, heq⟩
    · exact ⟨g, i, fn, hcall, hreq, hfull⟩
    · rw [heq] at hafter
      simp at hafter
  case cleanQueued | cleanCurrent => exact absurd hafter hbefore
  all_goals
    simp [Errno.overflow, Errno.notfound, Errno.memory, Errno.state,
      Errno.success] at hafter

/-- The step with which a send returns the code for a full queue: the size
test has decided so before, or a hook has returned this code. -/
theorem callStep_ret_overflow {k : SendKind}
    (h : s.callStep L t o = some (s', events))
    (hret : .ret t k.api Errno.overflow ∈ events) :
    ∃ b, b.kind = k ∧ (s.call t = .sendAfter b Errno.overflow ∨
      s.call t = .sendHook b ∧ o.ret = Errno.overflow) := by
  obtain ⟨hlive, hc⟩ := callStep_trans h
  cases hc
  case sendDone b' code hcall =>
    simp only [List.mem_singleton, Event.ret.injEq, true_and] at hret
    obtain ⟨hkind, rfl⟩ := hret
    exact ⟨b', (SendKind.api_injective hkind).symm, .inl hcall⟩
  case sendVeto b' ret hcall hneg =>
    simp only [List.mem_singleton, Event.ret.injEq, true_and] at hret
    obtain ⟨hkind, rfl⟩ := hret
    refine ⟨b', (SendKind.api_injective hkind).symm, .inr ⟨hcall, ?_⟩⟩
    rcases callStep_sendHook hcall h with ⟨-, -, hevents⟩ | ⟨-, -, hevents⟩
    · simpa using hevents.symm
    · cases hevents
  all_goals
    cases k <;> simp [SendKind.api, Errno.overflow, Errno.notfound,
      Errno.state, Errno.success, Sys.exitApi] at hret

/-! ## The bound -/

/-- A request passes the size test only when it finds room. -/
theorem callStep_passedTest (h : s.callStep L t o = some (s', events))
    (hafter : (s'.call t).passedTest g i) :
    (s.call t).passedTest g i ∨
      ((s.group g).table i).requests < L.capacity g i := by
  obtain ⟨-, hc⟩ := callStep_trans h
  cases hc
  case pushRoom b' g' i' fn hcall =>
    right
    obtain ⟨hkind, rfl, rfl⟩ : b'.kind = .req ∧ g' = g ∧ i' = i := by
      simpa [Call.passedTest] using hafter
    rcases callStep_pushTest hcall h with ⟨-, -, heq⟩ | ⟨hroom, -⟩
    · exact absurd (congrArg (Sys.call · t) heq) (by simp)
    · have hlt := Nat.lt_of_not_le fun hle => hroom ⟨hkind, hle⟩
      exact lt_of_le_of_lt (List.length_filter_le _ _) hlt
  case pushRecord hcall =>
    left
    rw [hcall]
    simpa [Call.passedTest] using hafter
  case cleanQueued | cleanCurrent => exact .inl hafter
  all_goals simp [Call.passedTest] at hafter

/-- The other kinds of step bring no request past the size test. -/
theorem SysTrans.passedTest (h : SysTrans L s a events s')
    (hafter : (s'.call t).passedTest g i) (hact : ∀ o, a ≠ .call t o) :
    (s.call t).passedTest g i := by
  rcases h.call_cases t with hc | ⟨o, ho, -⟩ | hc | ⟨q, hc⟩
  · rwa [hc] at hafter
  · exact absurd ho (hact o)
  · rw [hc] at hafter
    cases hafter
  · rw [hc] at hafter
    cases q <;> cases hafter

/-- A request that has passed the size test, and one that is put in, has the
room that the test has found. -/
theorem LogRun.room_of_apart (h : LogRun L log s)
    (hapart : ∀ e ∈ log, insertsApart L e.before e.act) :
    (∀ e ∈ log, ∀ g i, e.InsertsRequest g i →
      ((e.before.group g).table i).requests < L.capacity g i) ∧
    ∀ t g i, (s.call t).passedTest g i →
      ((s.group g).table i).requests < L.capacity g i := by
  revert hapart
  refine h.bySteps (P := fun log s =>
    (∀ e ∈ log, insertsApart L e.before e.act) →
    (∀ e ∈ log, ∀ g i, e.InsertsRequest g i →
      ((e.before.group g).table i).requests < L.capacity g i) ∧
    ∀ t g i, (s.call t).passedTest g i →
      ((s.group g).table i).requests < L.capacity g i) ?_ ?_
  · exact fun _ => ⟨fun e he => by simp at he, fun t g i hpass => hpass.elim⟩
  · intro log s a events s' hlog ih hserial hstep hapart
    obtain ⟨hlog', hstate⟩ :=
      ih fun e he => hapart e (List.mem_append_left _ he)
    have hnow : insertsApart L s a := hapart ⟨s, a, events, s'⟩ (by simp)
    refine ⟨fun e he g i hins => ?_, fun t g i hpass => ?_⟩
    · rcases List.mem_append.mp he with he | he
      · exact hlog' e he g i hins
      · obtain rfl := List.mem_singleton.mp he
        obtain ⟨t, o, b, r, -, hkind, hcall, -⟩ := hins
        refine hstate t g i ?_
        rw [show s.call t = .pushLock b g i r from hcall]
        exact ⟨hkind, rfl, rfl⟩
    · have hbefore : (s.call t).passedTest g i ∨
          ((s.group g).table i).requests < L.capacity g i := by
        by_cases hact : ∃ o, a = .call t o
        · obtain ⟨o, rfl⟩ := hact
          exact callStep_passedTest hstep hpass
        · exact .inl ((step_trans hstep).passedTest hpass
            fun o ho => hact ⟨o, ho⟩)
      have hroom : ((s.group g).table i).requests < L.capacity g i :=
        hbefore.elim (hstate t g i) id
      rcases hlog.requests_step (g := g) (i := i) hstep with
        hle | ⟨⟨t', o, b, r, hact, hkind, hcall, hafter⟩, -⟩
      · exact lt_of_le_of_lt hle hroom
      · -- the request that was put in belonged to another thread, which the
        -- schedule does not allow
        obtain rfl : a = .call t' o := hact
        have hcall : s.call t' = .pushLock b g i r := hcall
        have hne : t ≠ t' := by
          rintro rfl
          rw [show s'.call t = .pushPost b g from hafter] at hpass
          exact hpass
        have hpass' : (s.call t).passedTest g i :=
          (step_trans hstep).passedTest hpass fun o' ho' =>
            hne (Act.call.inj ho').1.symm
        have ht : t ∈ L.threads := by
          by_contra hout
          rw [hlog.trace.guards.calls.outside t hout] at hpass'
          exact hpass'
        have hinserts : (s.call t').inserts? = some (g, i) := by
          rw [hcall]
          exact if_pos hkind
        exact absurd (hnow (g, i) hinserts t ht hpass') hne

/-- While every request that is put in finds room, the capacity is kept. -/
theorem LogRun.requests_le_capacity (h : LogRun L log s)
    (hroom : ∀ e ∈ log, ∀ g i, e.InsertsRequest g i →
      ((e.before.group g).table i).requests < L.capacity g i) :
    ∀ g i, ((s.group g).table i).requests ≤ L.capacity g i := by
  revert hroom
  refine h.bySteps (P := fun log s => (∀ e ∈ log, ∀ g i,
    e.InsertsRequest g i →
      ((e.before.group g).table i).requests < L.capacity g i) →
    ∀ g i, ((s.group g).table i).requests ≤ L.capacity g i) ?_ ?_
  · intro _ g i
    exact Nat.zero_le _
  · intro log s a events s' hlog ih hserial hstep hroom g i
    have hbefore := ih (fun e he => hroom e (List.mem_append_left _ he)) g i
    rcases hlog.requests_step (g := g) (i := i) hstep with hle | ⟨hins, heq⟩
    · exact hle.trans hbefore
    · have hlt := hroom _ (by simp) g i hins
      rw [heq]
      exact hlt

/-- **The capacity of a queue.**  As long as no request gets to the locked part
of its push while another one is between its size test and its insertion into
the same queue, no queue ever holds more requests than its capacity.  A send
that gives up because the queue is full is a request, and found the queue full;
it returns the code for a full queue only then, or when a hook has returned this
code. -/
theorem capacity_respected (L : Layout) (h : LogRun L log s) :
    ((∀ e ∈ log, insertsApart L e.before e.act) →
      ∀ e ∈ log, ∀ g i,
        ((e.after.group g).table i).requests ≤ L.capacity g i) ∧
    (∀ e ∈ log, ∀ t o b, e.act = .call t o →
      e.before.call t ≠ .sendAfter b Errno.overflow →
      e.after.call t = .sendAfter b Errno.overflow →
      ∃ g i fn, e.before.call t = .pushTest b g i fn ∧ b.kind = .req ∧
        L.capacity g i ≤ ((e.before.group g).table i).queue.length) ∧
    ∀ e ∈ log, ∀ t o k, e.act = .call t o →
      .ret t (SendKind.api k) Errno.overflow ∈ e.events →
      ∃ b, b.kind = k ∧ (e.before.call t = .sendAfter b Errno.overflow ∨
        e.before.call t = .sendHook b ∧ o.ret = Errno.overflow) := by
  refine ⟨fun hapart e he => ?_, ?_, ?_⟩
  · obtain ⟨front, rest, rfl⟩ := List.append_of_mem he
    obtain ⟨hfront, hserial, hstep, -⟩ := h.split
    have hrun : LogRun L (front ++ [e]) e.after :=
      hfront.snoc ⟨e.act, e.events, hserial, hstep, rfl⟩
    refine hrun.requests_le_capacity (hrun.room_of_apart fun e' he' => ?_).1
    refine hapart e' ?_
    simp only [List.mem_append, List.mem_cons] at he' ⊢
    tauto
  · intro e he t o b hact hbefore hafter
    obtain ⟨front, rest, rfl⟩ := List.append_of_mem he
    obtain ⟨-, -, hstep, -⟩ := h.split
    rw [hact] at hstep
    exact callStep_overflow hstep hbefore hafter
  · intro e he t o k hact hret
    obtain ⟨front, rest, rfl⟩ := List.append_of_mem he
    obtain ⟨-, -, hstep, -⟩ := h.split
    rw [hact] at hstep
    exact callStep_ret_overflow hstep hret

/-- One service whose queue holds one request, and two clients. -/
def narrowPair : Layout where
  group := [⟨[⟨1, 1, attributeLazyload, some ⟨[⟨5, 7⟩]⟩⟩, ⟨2, 2, 0, some ⟨[]⟩⟩]⟩]
  clients := 3

/-- Two clients send one request each. -/
def narrowPairSends (first second third : Nat) : List Act :=
  lazyPairLoad ++
    [.user (.createReq 5 0 0), .user (.createReq 5 0 0),
      .enter (.client 1) (.send ⟨.req, 9, 1, 0, false⟩),
      .enter (.client 2) (.send ⟨.req, 9, 1, 1, false⟩)] ++
    clientSteps 1 first ++ clientSteps 2 second ++ clientSteps 1 third

/-- The second client makes its size test when the first one has put its request
in, and its request is refused. -/
theorem capacity_respected_narrow :
    ∃ log s, LogRun narrowPair log s ∧
      s.call (.client 2) =
        .sendAfter ⟨.req, 9, 1, 1, false⟩ Errno.overflow ∧
      ∀ e ∈ log, ∀ g i,
        ((e.after.group g).table i).requests ≤ narrowPair.capacity g i := by
  obtain ⟨tr, s, hrun, hcheck⟩ :=
    exists_trace narrowPair
      (fun s a => serial narrowPair s a ∧ insertsApart narrowPair s a)
      (narrowPairSends 6 4 0)
      (fun o => decide (o.1.call (.client 2) =
        .sendAfter ⟨.req, 9, 1, 1, false⟩ Errno.overflow)) (by decide +kernel)
  obtain ⟨log, hlog, hapart⟩ := hrun.exists_log_of
  exact ⟨log, s, hlog, of_decide_eq_true hcheck,
    (capacity_respected narrowPair hlog).1 hapart⟩

/-- Both clients pass the size test before either puts its request in, and the
queue then holds two requests where there is room for one. -/
theorem capacity_exceeded :
    ∃ tr s, Trace narrowPair (serial narrowPair) tr s ∧
      narrowPair.capacity 0 0 = 1 ∧ ((s.group 0).table 0).requests = 2 := by
  obtain ⟨tr, s, hrun, hcheck⟩ :=
    exists_trace narrowPair (serial narrowPair)
      (narrowPairSends 4 4 2 ++ clientSteps 2 2)
      (fun o => decide (((o.1.group 0).table 0).requests = 2))
      (by decide +kernel)
  exact ⟨tr, s, hrun, by decide, of_decide_eq_true hcheck⟩

end Core
end Eaf

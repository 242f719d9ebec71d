import Eaf.Foundation.Ledger
import Eaf.System.References
import Eaf.System.Phases
import Eaf.Guarantees.ListMembership

/-!
# How much is left to do

A measure of the work that is in the system: the messages in the queues and in
the hands of services, the services that are ready, the tokens of the
semaphores, and the way that workers and calls still have to go.  Once the
loader is through, every step of a worker and of a call uses some of it up; only
user code brings in more.
-/

namespace Eaf
namespace Core

variable {L : Layout} {s s' : Sys} {g i : Nat} {t : Tid} {c : GroupTable}
  {e : Env} {G G' : Group} {o : Outcome} {gevents : List GroupEvent}
  {events : List Event} {S : Service} {r : MsgqRecord}

/-! ## The effort of a group -/

/-- The event loop has something to do for a service in this state. -/
def ServiceState.ready : ServiceState → Bool
  | .init1 | .busy => true
  | _ => false

/-- What is left to do for a service. -/
def Service.effort (S : Service) : Nat :=
  12 * S.queue.length + 12 * S.curMsg.toList.length + 11 * S.state.ready.toNat

/-- What is left to do when the worker has reached the end of the event loop
`ph`, in a group of `n` services. -/
def Phase.effort (n : Nat) : Phase → Nat
  | .busy => 11 * n + 15
  | .teardown => 2 * n + 1

/-- How far the worker has to go, to the next test of its event loop and behind
the loops. -/
def Pc.effort (n : Nat) : Pc → Nat
  | .enter | .startPend => 13 * n + 32
  | .startTest => 13 * n + 31
  | .startCheck => 13 * n + 30
  | .initScan idx _ => 2 * (n - idx) + 11 * n + 29
  | .inInit idx (.scan _) => 2 * (n - (idx + 1)) + 11 * n + 30
  | .postReady _ => 11 * n + 28
  | .hookYield ph _ => ph.effort n + 13
  | .loopTest ph => ph.effort n + 12
  | .pickBusy ph => ph.effort n + 11
  | .semPend ph | .semTryPend ph _ => ph.effort n + 10
  | .handle ph _ => ph.effort n + 9
  | .inInit _ (.loop ph) => ph.effort n + 8
  | .dispatch ph _ => ph.effort n + 7
  | .popMsg ph _ => ph.effort n + 6
  | .hookBefore ph _ => ph.effort n + 5
  | .inHandler ph _ => ph.effort n + 4
  | .handled ph _ => ph.effort n + 3
  | .hookAfter ph _ => ph.effort n + 2
  | .resetMsg ph _ => ph.effort n + 1
  | .tdTest => 11 * n + 15
  | .tdScan i => 9 * (n - i) + 2 * n + 14
  | .tdInExit i => 9 * (n - (i + 1)) + 2 * n + 22
  | .tdMsg i _ _ => 9 * (n - (i + 1)) + 2 * n + 21
  | .tdSend i _ _ _ => 9 * (n - (i + 1)) + 2 * n + 19
  | .tdFree i _ _ => 9 * (n - (i + 1)) + 2 * n + 17
  | .tdPop i => 9 * (n - (i + 1)) + 2 * n + 16
  | .tdExit1 i => 9 * (n - (i + 1)) + 2 * n + 15
  | .exitScan k => 2 * k + 1
  | .exInExit i => 2 * i + 2
  | .returned _ => 0

/-- What is left to do in a group. -/
def Group.effort (c : GroupTable) (G : Group) : Nat :=
  G.worker.effort c.size + 3 * G.sem +
    Ledger.total (List.range c.size) fun i => (G.table i).effort

/-- The worker moves on and no service changes. -/
theorem Group.effort_of_same {H : Group} {k : Nat} (htable : H.table = G.table)
    (hle : H.worker.effort c.size + 3 * H.sem + k ≤
      G.worker.effort c.size + 3 * G.sem) : H.effort c + k ≤ G.effort c := by
  simp only [Group.effort, htable]
  omega

/-- One service is replaced. -/
theorem Group.effort_update {H : Group} (hi : i < c.size)
    (htable : H.table = Function.update G.table i S) :
    H.effort c + (G.table i).effort + G.worker.effort c.size + 3 * G.sem =
      G.effort c + S.effort + H.worker.effort c.size + 3 * H.sem := by
  have hchange := Ledger.total_change
    (f := fun j => (G.table j).effort) (g := fun j => (H.table j).effort)
    (List.nodup_range (n := c.size)) (List.mem_range.mpr hi)
    (fun j hj => by rw [htable, Function.update_of_ne hj])
  rw [htable] at hchange
  simp only [Function.update_self] at hchange
  simp only [Group.effort, htable]
  omega

theorem Group.effort_of_update {H : Group} {k : Nat} (hi : i < c.size)
    (htable : H.table = Function.update G.table i S)
    (hle : S.effort + H.worker.effort c.size + 3 * H.sem + k ≤
      (G.table i).effort + G.worker.effort c.size + 3 * G.sem) :
    H.effort c + k ≤ G.effort c := by
  have hupdate := Group.effort_update (c := c) hi htable
  omega

/-- Every step of a worker uses some effort up, and one more for its part in
answering a request. -/
theorem WorkerTrans.effort (inv : GroupInv c G) (hctx : e.ctx ≠ .init)
    (h : WorkerTrans c e G o G' gevents) :
    G'.effort c + (1 + gevents.countP (fun ev => !ev.silent)) ≤
      G.effort c := by
  have hholds : ∀ i, G.worker.focus = some i → i < c.size ∧
      G.worker.Holds i (G.table i) := fun i hi =>
    ⟨inv.focus i hi, (inv.sound i (inv.focus i hi)).holds⟩
  cases h
  case startWait h hinit => exact absurd hinit hctx
  -- steps that change a service
  case initDone idx caller h _ _ =>
    obtain ⟨hi, hinit⟩ := hholds idx (by rw [h]; rfl)
    rw [h] at hinit
    have hstate : (G.table idx).state = .init1 := hinit rfl
    refine Group.effort_of_update hi
      (by simp only [Group.goto_table, Group.finishServiceInit_table,
        Group.setService_table, Function.update_idem, Function.update_self]
          rfl) ?_
    have hready := Bool.toNat_le (Group.initDoneState
      { G.table idx with branch := 0 }).ready
    cases caller <;>
      simp [h, Pc.effort, afterInit, Service.effort, hstate,
        ServiceState.ready, GroupEvent.silent] at hready ⊢ <;> omega
  case popNone ph i h hq =>
    obtain ⟨hi, hbusy⟩ := hholds i (by rw [h]; rfl)
    rw [h] at hbusy
    refine Group.effort_of_update hi rfl ?_
    simp [h, Pc.effort, Service.effort, (hbusy rfl).1, ServiceState.ready]
    omega
  case popSome ph i r rest h hq =>
    obtain ⟨hi, hbusy⟩ := hholds i (by rw [h]; rfl)
    rw [h] at hbusy
    refine Group.effort_of_update hi rfl ?_
    simp [h, Pc.effort, Service.effort, hq, (hbusy rfl).2, GroupEvent.silent]
    omega
  case handlerReturn ph i h _ =>
    obtain ⟨hi, -⟩ := hholds i (by rw [h]; rfl)
    refine Group.effort_of_update hi rfl ?_
    simp only [h, Pc.effort, Service.effort, List.countP_nil]
    show _ + 3 * G.sem + (1 + 0) ≤ _
    omega
  case handledYield ph i r h hcur _ =>
    obtain ⟨hi, hbusy⟩ := hholds i (by rw [h]; rfl)
    rw [h] at hbusy
    refine Group.effort_of_update hi rfl ?_
    simp [h, Pc.effort, Service.effort, (hbusy rfl).1, ServiceState.ready,
      GroupEvent.silent]
    omega
  case reset ph i r h hcur =>
    obtain ⟨hi, -⟩ := hholds i (by rw [h]; rfl)
    refine Group.effort_of_update hi rfl ?_
    simp [h, Pc.effort, Service.effort, hcur, GroupEvent.silent]
    omega
  case tdExit0 i h _ hreg =>
    have hi := hreg.1
    refine Group.effort_of_update hi rfl ?_
    simp [h, Pc.effort, Service.effort, ServiceState.ready, GroupEvent.silent]
    omega
  case tdFreeCur i r h =>
    obtain ⟨hi, -⟩ := hholds i (by rw [h]; rfl)
    refine Group.effort_of_update hi rfl ?_
    simp [h, Pc.effort, Service.effort, GroupEvent.silent]
    omega
  case tdPopSome i r rest h hq =>
    obtain ⟨hi, -⟩ := hholds i (by rw [h]; rfl)
    refine Group.effort_of_update hi rfl ?_
    simp [h, Pc.effort, Service.effort, hq, GroupEvent.silent]
    omega
  case tdSetExit1 i h =>
    obtain ⟨hi, -⟩ := hholds i (by rw [h]; rfl)
    refine Group.effort_of_update hi rfl ?_
    simp [h, Pc.effort, Service.effort, ServiceState.ready]
    omega
  case exitExit0 i h _ hreg =>
    refine Group.effort_of_update hreg.1 rfl ?_
    simp [h, Pc.effort, Service.effort, ServiceState.ready, GroupEvent.silent]
    omega
  case exitExit1 i h _ =>
    obtain ⟨hi, -⟩ := hholds i (by rw [h]; rfl)
    refine Group.effort_of_update hi rfl ?_
    simp [h, Pc.effort, Service.effort, ServiceState.ready, GroupEvent.silent]
    omega
  -- steps that change none
  case dispatchReenter ph i r fn h _ _ _ | beforeStart ph i r fn h _ _ _ _ =>
    refine Group.effort_of_same rfl ?_
    cases fn <;> simp [h, handlerPc, Pc.effort, GroupEvent.silent] <;> omega
  case readyNone n h _ =>
    refine Group.effort_of_same rfl ?_
    split <;> simp [h, Pc.effort, GroupEvent.silent] <;> omega
  all_goals
    refine Group.effort_of_same rfl ?_
    simp_all [Pc.effort, Phase.effort, GroupEvent.silent]
    try omega

/-! ## What others do to a group -/

theorem Group.effort_push (hi : i < c.size) (h : G.pushMsg i r = some G') :
    G'.effort c ≤ G.effort c + 23 := by
  obtain ⟨-, htable, hworker, hsem⟩ := Group.pushMsg_some h
  have hupdate := Group.effort_update (c := c) hi htable
  have hready := Bool.toNat_le (Group.pushedState (G.table i).state).ready
  simp only [hworker, hsem, Service.effort, List.length_append,
    List.length_singleton] at hupdate
  omega

theorem Group.effort_resume (hi : i < c.size)
    (h : G.resumeService i = some G') : G'.effort c ≤ G.effort c + 11 := by
  obtain ⟨-, rfl⟩ := Group.resumeService_some h
  have hupdate := Group.effort_update (c := c) (G := G)
    (H := G.setState i .busy) hi rfl
  simp [Service.effort, ServiceState.ready] at hupdate
  omega

theorem Group.effort_semPost : G.semPost.effort c = G.effort c + 3 := by
  simp only [Group.effort, Group.semPost_worker, Group.semPost_sem,
    Group.semPost_table]
  omega

/-! ## The effort of a call -/

/-- What `eaf_cleanup` has to do for the groups from `k` on. -/
def Layout.cleanEffort (L : Layout) (k : Nat) : Nat :=
  Ledger.total (List.range L.size) fun g =>
    if k ≤ g then (L.conf g).size + 2 else 0

theorem Layout.cleanEffort_succ {k : Nat} (hk : k < L.size) :
    L.cleanEffort k = L.cleanEffort (k + 1) + (L.conf k).size + 2 := by
  have hchange := Ledger.total_change
    (f := fun g => if k ≤ g then (L.conf g).size + 2 else 0)
    (g := fun g => if k + 1 ≤ g then (L.conf g).size + 2 else 0)
    (List.nodup_range (n := L.size)) (List.mem_range.mpr hk)
    (fun g hg => by
      have hiff : k + 1 ≤ g ↔ k ≤ g := by omega
      simp only [hiff])
  simp only [Nat.le_refl, if_true, Nat.not_succ_le_self, if_false] at hchange
  simp only [Layout.cleanEffort]
  omega

/-- How much a call has to do, and brings into the system.  A send is refused
unless the context is busy, and `eaf_load` unless it is in `init`. -/
def Call.effort (L : Layout) (ctx : CtxState) : Call → Nat
  | .idle | .done _ => 0
  | .sendTest _ => if ctx = .busy then 34 else 1
  | .sendHook _ => 33
  | .sendFind _ => 32
  | .pushTest _ _ _ _ => 31
  | .pushAlloc _ _ _ _ => 30
  | .pushLock _ _ _ _ => 29
  | .pushPost _ _ => 5
  | .pushRevert _ _ => 2
  | .sendAfter _ _ => 1
  | .resumeFind _ => 17
  | .resumeLock _ _ => 16
  | .resumePost _ => 4
  | .exitTest _ _ => 4 * L.size + 4
  | .exitHook _ _ => 4 * L.size + 3
  | .exitWrite _ _ => 4 * L.size + 2
  | .exitPost _ k => 4 * (L.size - k) + 1
  | .loadPost k => 4 * (L.size - k) + L.size + 3
  | .loadPend k => L.size - k + 2
  | .loadTest | .loadHook | .loadFix _ | .loadWrite | .loadAfter _ => 1
  | .cleanTest => L.cleanEffort 0 + 3
  | .cleanJoin k => L.cleanEffort k + 2
  | .cleanMsgq k i => (L.conf k).size - i + L.cleanEffort (k + 1) + 3
  | .cleanFree => 1
  | .initTest => 1

/-- Away from `busy` a call has less to do. -/
theorem Call.effort_mono {ctx ctx' : CtxState} (h : ctx' = .busy → ctx = .busy)
    (call : Call) : call.effort L ctx' ≤ call.effort L ctx := by
  cases call <;> simp only [Call.effort, Nat.le_refl]
  split
  · next hbusy => simp [h hbusy]
  · split <;> omega

/-! ## The effort of the system -/

/-- What is left to do in the system. -/
def Sys.effort (L : Layout) (s : Sys) : Nat :=
  Ledger.total (List.range L.size) (fun g => (s.group g).effort (L.conf g)) +
    Ledger.total L.threads fun t => (s.call t).effort L s.ctx

/-- One call goes on, and one group changes. -/
theorem Sys.effort_lt {k : Nat} (hk : k < L.size) (ht : t ∈ L.threads)
    (hgroup : ∀ g ≠ k, s'.group g = s.group g)
    (hcall : ∀ t' ≠ t, s'.call t' = s.call t') (hctx : s'.ctx = s.ctx)
    (hlt : (s'.group k).effort (L.conf k) + (s'.call t).effort L s.ctx <
      (s.group k).effort (L.conf k) + (s.call t).effort L s.ctx) :
    s'.effort L < s.effort L := by
  have hgroups := Ledger.total_change
    (f := fun g => (s.group g).effort (L.conf g))
    (g := fun g => (s'.group g).effort (L.conf g))
    (List.nodup_range (n := L.size)) (List.mem_range.mpr hk)
    (fun g hg => by rw [hgroup g hg])
  have hcalls := Ledger.total_change
    (f := fun t => (s.call t).effort L s.ctx)
    (g := fun t => (s'.call t).effort L s.ctx)
    L.nodup_threads ht (fun t' ht' => by rw [hcall t' ht'])
  simp only [Sys.effort, hctx]
  omega

/-- One call goes on, and no group changes. -/
theorem Sys.effort_lt_of_call (ht : t ∈ L.threads)
    (hgroup : s'.group = s.group)
    (hcall : ∀ t' ≠ t, s'.call t' = s.call t')
    (hctx : s'.ctx = .busy → s.ctx = .busy)
    (hlt : (s'.call t).effort L s'.ctx < (s.call t).effort L s'.ctx) :
    s'.effort L < s.effort L := by
  have hcalls := Ledger.total_change
    (f := fun t' => (s.call t').effort L s'.ctx)
    (g := fun t' => (s'.call t').effort L s'.ctx)
    L.nodup_threads ht (fun t' ht' => by rw [hcall t' ht'])
  have hmono : Ledger.total L.threads (fun t' => (s.call t').effort L s'.ctx) ≤
      Ledger.total L.threads fun t' => (s.call t').effort L s.ctx :=
    Ledger.total_mono fun t' _ => Call.effort_mono hctx _
  simp only [Sys.effort, hgroup]
  omega

/-- Once the loader is through, every step of a call uses some effort up. -/
theorem CallTrans.effort (calls : CallFacts L s) (hstarted : Started L s)
    (h : CallTrans L s t events s') : s'.effort L < s.effort L := by
  have ht : t ∈ L.threads := by
    by_contra ht
    have hbusy := h.not_free
    rw [calls.outside t ht] at hbusy
    cases hbusy
  have hplaced := calls.placed t
  have hother : ∀ t' ≠ t, s'.call t' = s.call t' := fun t' ht' =>
    h.call_of_ne ht'
  have hdone := hstarted.done t
  have hinit := hstarted.ctx
  cases h
  case pushAccepted b g i r G hcall hpush =>
    rw [hcall] at hplaced
    have hle := Group.effort_push (c := L.conf g) hplaced.2.1.1 hpush
    refine Sys.effort_lt hplaced.1 ht (fun k hk => ?_) hother rfl ?_
    · simp [hk]
    · simp [hcall, Call.effort]
      omega
  case pushPosted b g hcall =>
    rw [hcall] at hplaced
    refine Sys.effort_lt (k := g) hplaced ht (fun k hk => ?_) hother rfl ?_
    · simp [hk]
    · simp [hcall, Call.effort, Group.effort_semPost]
  case resumeAccepted g i G hcall hresume =>
    rw [hcall] at hplaced
    have hle := Group.effort_resume (c := L.conf g) hplaced.2.1 hresume
    refine Sys.effort_lt hplaced.1 ht (fun k hk => ?_) hother rfl ?_
    · simp [hk]
    · simp [hcall, Call.effort]
      omega
  case resumePosted g hcall =>
    rw [hcall] at hplaced
    refine Sys.effort_lt (k := g) hplaced ht (fun k hk => ?_) hother rfl ?_
    · simp [hk]
    · simp [hcall, Call.effort, Group.effort_semPost]
  case exitPosted td k hcall hk | loadPosted k hcall hk =>
    refine Sys.effort_lt hk ht (fun g hg => ?_) hother rfl ?_
    · simp [hg]
    · simp [hcall, Call.effort, Group.effort_semPost]
      omega
  case cleanQueued k i r rest hcall hi hq =>
    rw [hcall] at hplaced
    have hle := Group.effort_of_update (c := L.conf k) (G := s.group k)
      (H := (s.group k).setService i
        { (s.group k).table i with queue := rest }) (k := 12) hi rfl (by
        simp [Service.effort, hq]
        omega)
    refine Sys.effort_lt hplaced ht (fun g hg => ?_) hother rfl ?_
    · simp [hg]
    · simp [hcall] at hle ⊢
      omega
  case cleanCurrent k i r hcall hi hq hcur =>
    rw [hcall] at hplaced
    have hle := Group.effort_of_update (c := L.conf k) (G := s.group k)
      (H := (s.group k).setService i
        { (s.group k).table i with curMsg := none }) (k := 12) hi rfl (by
        simp [Service.effort, hcur]
        omega)
    refine Sys.effort_lt hplaced ht (fun g hg => ?_) hother rfl ?_
    · simp [hg]
    · simp [hcall] at hle ⊢
      omega
  case exitWritten td reason hcall =>
    refine Sys.effort_lt_of_call ht rfl hother ?_ ?_
    · cases td <;> simp [Sys.exitState]
    · simp [hcall, Call.effort]
  case loadHooked hcall | loadFixed hcall _ | loadAllFixed hcall _
    | loadWritten hcall =>
    simp [hcall, Call.loading] at hdone
  case loadAccepted hcall hctx => exact absurd hctx hinit
  case cleanJoined k site hcall hk hret =>
    refine Sys.effort_lt_of_call ht rfl hother id ?_
    simp [hcall, Call.effort, L.cleanEffort_succ hk]
    omega
  case sendRefused b hcall hctx =>
    refine Sys.effort_lt_of_call ht (by simp) hother (by simp) ?_
    simp only [Sys.setCall_call, Function.update_self, hcall, Call.effort]
    split <;> omega
  all_goals
    refine Sys.effort_lt_of_call ht (by simp) hother (by simp) ?_
    simp_all [Call.effort]
    try omega

/-- Once the loader is through, every step of a worker uses some effort up,
although the answers of teardown are calls of their own. -/
theorem Trace.worker_effort {tr : List Event} (h : Trace L (serial L) tr s)
    (hstarted : Started L s) (hg : g < L.size)
    (hw : WorkerTrans (L.conf g) (s.env g) (s.group g) o G gevents) :
    ((s.setGroup g G).emitAll L g gevents).effort L < s.effort L := by
  have hdrop := hw.effort (GroupInv.ofRun h.groupRun) hstarted.ctx
  have ht : Tid.worker g ∈ L.threads :=
    List.mem_append_right _
      (List.mem_map.mpr ⟨g, List.mem_range.mpr hg, rfl⟩)
  refine Sys.effort_lt hg ht (fun k hk => by simp [hk])
    (fun t' ht' => Sys.emitAll_call_of_ne ht') (by simp) ?_
  rw [Sys.emitAll_group, Sys.setGroup_group, Function.update_self]
  rcases hw.own_call with ⟨i, r, cur, x, hpc, -, rfl, -⟩ |
    ⟨i, r, rsp, cur, code, -, -, rfl, -⟩ | ⟨hsilent, -⟩
  · -- the answer will be refused, since the context is closing
    have hlate : (s.group g).worker.late = true := by rw [hpc]; rfl
    have hclosing := h.late hg hlate
    have hbusy : s.ctx ≠ .busy := by
      rintro hbusy
      rw [hbusy] at hclosing
      cases hclosing
    simp [Sys.emitAll, Sys.emit, Call.effort, hbusy, GroupEvent.silent]
      at hdrop ⊢
    omega
  · simp [Sys.emitAll, Sys.emit, Call.effort, GroupEvent.silent] at hdrop ⊢
    omega
  · rw [Sys.emitAll_call_of_silent _ hsilent, Sys.setGroup_call]
    omega

end Core
end Eaf

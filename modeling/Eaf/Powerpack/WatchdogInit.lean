import Eaf.Powerpack.WatchdogSteps

/-!
# The life of the watchdog

What `eaf_watchdog_init` and `eaf_watchdog_exit` leave behind, and what holds
in between.
-/

namespace Eaf
namespace Powerpack

open Core LabelledRun

variable {T : List WatchItem} {s s' t : Watchdog} {m : MapName} {r : Nat}
  {c : Stmt} {cs : List Stmt} {log : List Executed} {now : ClockTime}
  {sends : Nat → SendResult} {msg : Msg} {a : WatchdogAct}
  {events tr : List Handled}

namespace Watchdog

/-! ## Cleaning up -/

theorem setMap_setMap (s : Watchdog) (m : MapName) (xs ys : List Nat) :
    (s.setMap m xs).setMap m ys = s.setMap m ys := by
  cases m <;> rfl

theorem setMap_self (s : Watchdog) (m : MapName) :
    s.setMap m (s.map m) = s := by
  cases m <;> rfl

/-- A clean-up function empties its map. -/
theorem cleanup_eq (s : Watchdog) (m : MapName) :
    s.cleanup m = some (s.setMap m []) := by
  have hloop : ∀ (xs : List Nat) (s : Watchdog), s.map m = xs →
      cleanupLoop m xs.length xs.head? s = some (s.setMap m []) := by
    intro xs
    induction xs with
    | nil =>
        intro s hxs
        have hsame := s.setMap_self m
        rw [hxs] at hsame
        rw [hsame]
        rfl
    | cons r rest ih =>
        intro s hxs
        have hr : r ∈ s.map m := by
          rw [hxs]
          exact List.mem_cons_self
        have herase : s.erase m r = some (s.setMap m rest) := by
          rw [erase, if_pos hr, hxs, List.erase_cons_head]
        have hnext : SortedMap.next r (s.map m) = rest.head? := by
          rw [hxs, SortedMap.next, if_pos rfl]
        simp only [List.length_cons, List.head?_cons, cleanupLoop, herase,
          hnext]
        rw [ih (s.setMap m rest) (by rw [setMap_map, if_pos rfl]),
          setMap_setMap]
  exact hloop _ s rfl

/-- What is left after the error path of init: the outstanding heartbeats. -/
theorem errRegister_eq (s : Watchdog) :
    s.errRegister = some { initial with
      busyStack := s.busyStack, busyTable := s.busyTable } := by
  rw [errRegister, cleanup_eq]
  rfl

/-- What is left after exit: `busy_table`. -/
theorem eafWatchdogExit_eq (hfn : s.fn ≠ 0) :
    s.eafWatchdogExit = some { initial with busyTable := s.busyTable } := by
  rw [eafWatchdogExit, if_neg hfn, cleanup_eq, Option.bind_some, cleanup_eq]
  rfl

/-! ## The loop of init -/

/-- What the loop of `eaf_watchdog_init` does not touch. -/
structure InitKeeps (s t : Watchdog) : Prop where
  busyStack : t.busyStack = s.busyStack
  busyTable : t.busyTable = s.busyTable
  fn : t.fn = s.fn
  arg : t.arg = s.arg

/-- The records of the context. -/
def room (s : Watchdog) : Nat := (s.records.getD []).length

theorem setRecord_of_room (hr : r < s.room)
    (f : WatchdogRecord → WatchdogRecord) :
    ∃ s', s.setRecord r f = some s' ∧ s'.room = s.room ∧ InitKeeps s s' ∧
      s'.idleStack = s.idleStack := by
  unfold room at hr
  unfold setRecord
  cases hrecords : s.records with
  | none => simp [hrecords] at hr
  | some records =>
      rw [hrecords] at hr
      refine ⟨_, if_pos hr, ?_, ⟨rfl, rfl, rfl, rfl⟩, rfl⟩
      simp [room, hrecords]

/-- The loop comes to its end, with or without success. -/
theorem initLoop_returns (turns i : Nat) (s : Watchdog)
    (hroom : i + turns ≤ s.room) :
    ∃ t ok log, s.initLoop T turns i = some (t, ok, log) ∧ InitKeeps s t := by
  induction turns generalizing i s with
  | zero => exact ⟨s, true, [], rfl, rfl, rfl, rfl, rfl⟩
  | succ turns ih =>
      obtain ⟨s₁, hset₁, hroom₁, hkeeps₁, -⟩ := setRecord_of_room
        (s := s) (r := i) (by omega) fun x => { x with recAt := i + 1 }
      obtain ⟨s₂, hset₂, hroom₂, hkeeps₂, -⟩ := setRecord_of_room
        (s := s₁) (r := i) (by omega) fun x => { x with token := i }
      have hrun : s.run T [.setRec i (i + 1), .setToken i i] =
          some (s₂, [(s, .setRec i (i + 1)), (s₁, .setToken i i)]) := by
        simp only [run, exec, hset₁, hset₂, Option.map_some]
      have hkeeps : InitKeeps s s₂ :=
        ⟨hkeeps₂.busyStack.trans hkeeps₁.busyStack,
          hkeeps₂.busyTable.trans hkeeps₁.busyTable,
          hkeeps₂.fn.trans hkeeps₁.fn, hkeeps₂.arg.trans hkeeps₁.arg⟩
      rw [initLoop, hrun]
      dsimp only
      cases hinsert : s₂.insert T .idleStack i with
      | none => exact ⟨s₂, false, _, rfl, hkeeps⟩
      | some s₃ =>
          have hs₃ : ∃ xs, s₃ = s₂.setMap .idleStack xs := by
            simp only [Watchdog.insert] at hinsert
            split at hinsert
            · cases hinsert
            · obtain ⟨xs, -, rfl⟩ := Option.map_eq_some_iff.mp hinsert
              exact ⟨xs, rfl⟩
          obtain ⟨xs, rfl⟩ := hs₃
          obtain ⟨t, ok, log, hloop, hlast⟩ := ih (i + 1)
            (s₂.setMap .idleStack xs) (by
              show i + 1 + turns ≤ s₂.room
              omega)
          refine ⟨t, ok, _, by dsimp only; rw [hloop]; rfl, ?_⟩
          exact ⟨hlast.busyStack.trans hkeeps.busyStack,
            hlast.busyTable.trans hkeeps.busyTable,
            hlast.fn.trans hkeeps.fn, hlast.arg.trans hkeeps.arg⟩

/-! ## With different service ids -/

/-- The loop of init, at index `i`. -/
structure Filling (T : List WatchItem) (i : Nat) (s : Watchdog) : Prop where
  inOrder : InOrder T s
  busyStack : s.busyStack = []
  busyTable : s.busyTable = []
  idle : ∀ r, r ∈ s.idleStack ↔ r < i
  zero : ∀ r, (s.record r).beginTime = ⟨0, 0⟩ ∧ (s.record r).cerrc = 0

theorem Filling.free {i : Nat} (h : Filling T i s) (hr : i ≤ r) :
    s.Free r := by
  intro m
  cases m with
  | idleStack => exact (h.idle r).not.mpr (by omega)
  | busyStack =>
      show r ∉ s.busyStack
      rw [h.busyStack]
      exact List.not_mem_nil
  | busyTable =>
      show r ∉ s.busyTable
      rw [h.busyTable]
      exact List.not_mem_nil

/-- A change of a record that is not in the maps yet. -/
theorem Filling.setRecord {i : Nat} (h : Filling T i s) (hi : i < T.length)
    {f : WatchdogRecord → WatchdogRecord}
    (hf : ∀ x, (f x).beginTime = x.beginTime ∧ (f x).cerrc = x.cerrc) :
    ∃ s', s.setRecord i f = some s' ∧ ChangesOnly s s' i f ∧
      Filling T i s' := by
  obtain ⟨s', hset, honly, h'⟩ := h.inOrder.setRecord hi (h.free le_rfl) f
  refine ⟨s', hset, honly, h', ?_, ?_, fun r => ?_, fun r => ?_⟩
  · exact (honly.map .busyStack).trans h.busyStack
  · exact (honly.map .busyTable).trans h.busyTable
  · show r ∈ s'.map .idleStack ↔ r < i
    rw [honly.map]
    exact h.idle r
  · by_cases hr : r = i
    · rw [hr, honly.self, (hf _).1, (hf _).2]
      exact h.zero i
    · rw [honly.other r hr]
      exact h.zero r

/-- The entry and the token of a record are set. -/
theorem Filling.number {i : Nat} (h : Filling T i s) (hi : i < T.length) :
    ∃ s' log, s.run T [.setRec i (i + 1), .setToken i i] = some (s', log) ∧
      (s'.record i).recAt = i + 1 ∧ (s'.record i).token = i ∧
      Filling T i s' ∧ ∀ e ∈ log, Executed.Sound T e := by
  obtain ⟨s₁, hset₁, honly₁, h₁⟩ := h.setRecord (f := fun x =>
    { x with recAt := i + 1 }) hi fun _ => ⟨rfl, rfl⟩
  obtain ⟨s₂, hset₂, honly₂, h₂⟩ := h₁.setRecord (f := fun x =>
    { x with token := i }) hi fun _ => ⟨rfl, rfl⟩
  have hfree := h.free le_rfl
  refine ⟨s₂, [(s, .setRec i (i + 1)), (s₁, .setToken i i)], ?_, ?_, ?_, h₂, ?_⟩
  · simp only [run, exec, hset₁, hset₂, Option.map_some]
  · rw [honly₂.self, honly₁.self]
  · rw [honly₂.self]
  · intro e he
    simp only [List.mem_cons, List.not_mem_nil, or_false] at he
    rcases he with rfl | rfl
    · exact ⟨h.inOrder.ordered, hfree .idleStack, hfree .busyStack⟩
    · exact ⟨h₁.inOrder.ordered, h₁.free le_rfl .busyTable⟩

/-- The record goes into the idle stack. -/
theorem Filling.insert {i : Nat} (h : Filling T i s)
    (hi : i < intSize T.length) (hrec : (s.record i).recAt = i + 1)
    (htoken : (s.record i).token = i)
    (hnew : ∀ x ∈ s.map .idleStack, s.cmp T .idleStack i x ≠ 0) :
    ∃ s', s.insert T .idleStack i = some s' ∧ Filling T (i + 1) s' := by
  obtain ⟨xs, hinsert, hperm, h'⟩ := h.inOrder.insert (m := .idleStack) hi hrec
    htoken ((h.free le_rfl).linked .idleStack) hnew
  refine ⟨_, hinsert, h', h.busyStack, h.busyTable, fun r => ?_, fun r => ?_⟩
  · show r ∈ xs ↔ r < i + 1
    rw [hperm.mem_iff, List.mem_cons]
    show r = i ∨ r ∈ s.idleStack ↔ r < i + 1
    rw [h.idle]
    omega
  · rw [setMap_record]
    exact h.zero r

/-- With different service ids the loop succeeds. -/
theorem Filling.initLoop (hsids : Distinct T) (turns i : Nat)
    (s : Watchdog) (h : Filling T i s) (hlength : i + turns ≤ intSize T.length) :
    ∃ t log, s.initLoop T turns i = some (t, true, log) ∧
      Filling T (i + turns) t ∧ ∀ e ∈ log, Executed.Sound T e := by
  induction turns generalizing i s with
  | zero => exact ⟨s, [], rfl, h, by simp⟩
  | succ turns ih =>
      have hi : i < intSize T.length := by omega
      obtain ⟨s₁, log₁, hrun, hrec, htoken, h₁, hlog₁⟩ :=
        h.number (hi.trans_le (intSize_le T.length))
      obtain ⟨s₂, hinsert, h₂⟩ := h₁.insert hi hrec htoken fun x hx => by
        obtain ⟨hlt, hrec', htoken'⟩ := h₁.inOrder.known .idleStack x hx
        have hne : i ≠ x := ((h₁.idle x).mp hx).ne'
        exact cmp_ne_zero hsids hi hlt hne hrec hrec' htoken htoken' _
      obtain ⟨t, log, hloop, ht, hlog⟩ := ih (i + 1) s₂ h₂ (by omega)
      refine ⟨t, log₁ ++ (s₁, .insert .idleStack i) :: log, ?_, ?_, ?_⟩
      · rw [Watchdog.initLoop, hrun]
        simp only [hinsert, hloop, Option.map_some]
      · rw [← Nat.add_assoc, Nat.add_right_comm]
        exact ht
      · intro e he
        rcases List.mem_append.mp he with he | he
        · exact hlog₁ e he
        · rcases List.mem_cons.mp he with rfl | he
          · exact ⟨h₁.inOrder.ordered, by simp [Stmt.Sound, hinsert]⟩
          · exact hlog e he

/-- Two records that have not been used are compared by their service ids. -/
theorem Filling.cmp_zero {i k : Nat} (h : Filling T i s)
    (hsid : (s.item T i).sid = (s.item T k).sid) :
    s.cmp T .idleStack i k = 0 := by
  have hsame : (timeDiffclock (s.record i).beginTime
      (s.record k).beginTime).1 = 0 := by
    rw [(h.zero i).1, (h.zero k).1]
    exact timeDiffclock_zero.mpr rfl
  rw [cmp, cmpBegin, hsame, if_pos hsid]
  rfl

/-- When the loop succeeds, the service ids are different. -/
theorem Filling.distinct {turns i : Nat} (h : Filling T i s)
    (hlength : i + turns ≤ intSize T.length)
    (hloop : s.initLoop T turns i = some (t, true, log))
    (hfirst : ((T.take i).map (·.sid)).Nodup) :
    ((T.take (i + turns)).map (·.sid)).Nodup := by
  induction turns generalizing i s log with
  | zero => exact hfirst
  | succ turns ih =>
      have hi : i < intSize T.length := by omega
      have hlt := hi.trans_le (intSize_le T.length)
      obtain ⟨s₁, log₁, hrun, hrec, htoken, h₁, -⟩ := h.number hlt
      rw [Watchdog.initLoop, hrun] at hloop
      dsimp only at hloop
      cases hinsert : s₁.insert T .idleStack i with
      | none => simp [hinsert] at hloop
      | some s₂ =>
          have hnew : ∀ x ∈ s₁.map .idleStack,
              s₁.cmp T .idleStack i x ≠ 0 := by
            intro x hx hzero
            have hnone := (h₁.inOrder.ordered .idleStack).insert_eq_none
              (cmp_consistent T s₁ .idleStack) hx hzero
            simp [Watchdog.insert, hnone] at hinsert
          obtain ⟨s₂', hinsert', h₂⟩ := h₁.insert hi hrec htoken hnew
          obtain rfl : s₂ = s₂' :=
            Option.some.inj (hinsert.symm.trans hinsert')
          simp only [hinsert, Option.map_eq_some_iff, Prod.mk.injEq] at hloop
          obtain ⟨⟨t', ok, log'⟩, hrest, rfl, rfl, -⟩ := hloop
          rw [← Nat.add_assoc, Nat.add_right_comm]
          refine ih h₂ (by omega) hrest ?_
          rw [List.take_succ_eq_append_getElem hlt, List.map_append,
            List.nodup_append]
          refine ⟨hfirst, by simp, ?_⟩
          intro sid hsid sid' hsid' heq
          simp only [List.map_cons, List.map_nil, List.mem_singleton] at hsid'
          obtain ⟨k, hk, hget⟩ := List.getElem_of_mem hsid
          simp only [List.length_map, List.length_take, Nat.lt_min] at hk
          have hk' : k ∈ s₁.map .idleStack := (h₁.idle k).mpr hk.1
          refine hnew k hk' (h₁.cmp_zero ?_)
          have hreck := (h₁.inOrder.known .idleStack k hk').2.1
          simp only [List.getElem_map, List.getElem_take] at hget
          simp [item, hrec, hreck, hlt, hk.2, hget, heq, hsid']

/-- After `calloc`. -/
theorem filling_zero (T : List WatchItem) :
    Filling T 0 (initial.allocated T) where
  inOrder := by
    refine ⟨⟨_, rfl, by simp⟩, ?_, ?_, ?_⟩
    · intro m r hr
      cases m <;> cases hr
    · intro m
      cases m <;> exact .nil
    · intro r hr
      cases hr
  busyStack := rfl
  busyTable := rfl
  idle r := by simp [allocated, initial]
  zero r := by
    have hrecord : (initial.allocated T).record r = .zero := by
      simp [record, allocated, List.getD_eq_getElem?_getD,
        List.getElem?_replicate]
      split <;> rfl
    rw [hrecord]
    exact ⟨rfl, rfl⟩

/-- The watchdog is ready to run. -/
structure Started (T : List WatchItem) (s : Watchdog) : Prop where
  inOrder : InOrder T s
  paired : s.Paired
  busyStack : s.busyStack = []
  cerrc : ∀ r, (s.record r).cerrc = 0

theorem Filling.started {i : Nat} (h : Filling T i s) (fn : Fn) (arg : Nat) :
    Started T { s with fn := fn, arg := arg } := by
  have hmaps : ∀ m, ({ s with fn := fn, arg := arg } : Watchdog).map m =
      s.map m := by
    intro m
    cases m <;> rfl
  refine ⟨⟨h.inOrder.room, ?_, ?_, h.inOrder.apart⟩, ?_, h.busyStack,
    fun r => (h.zero r).2⟩
  · intro m r hr
    rw [hmaps] at hr
    exact h.inOrder.known m r hr
  · intro m
    rw [hmaps]
    exact h.inOrder.ordered m
  · intro r
    show r ∈ s.busyStack ↔ r ∈ s.busyTable
    rw [h.busyStack, h.busyTable]

/-- A watch list with different service ids is accepted. -/
theorem eafWatchdogInit_success (hsids : Distinct T) (fn : Fn)
    (arg : Nat) :
    ∃ s log, initial.eafWatchdogInit T fn arg true Errno.success =
        some (s, Errno.success, log) ∧ Started T s ∧
      ∀ e ∈ log, Executed.Sound T e := by
  obtain ⟨t, log, hloop, ht, hlog⟩ :=
    (filling_zero T).initLoop hsids (intSize T.length) 0 _
      (by rw [Nat.zero_add])
  refine ⟨{ t with fn := fn, arg := arg }, log, ?_, ht.started fn arg, hlog⟩
  unfold eafWatchdogInit
  rw [if_neg (by decide), if_neg (by simp), hloop]
  exact if_neg (by simp)

/-- No other watch list is. -/
theorem eafWatchdogInit_distinct {fn : Fn} {arg : Nat} {memory : Bool}
    {registered : Int} (h : initial.eafWatchdogInit T fn arg memory registered =
      some (s, Errno.success, log)) : Distinct T ∧ Started T s := by
  unfold eafWatchdogInit at h
  rw [if_neg (by decide)] at h
  split at h
  · cases h
  · split at h
    · cases h
    · simp only [Option.map_eq_some_iff, Prod.mk.injEq] at h
      obtain ⟨-, -, -, hcode, -⟩ := h
      exact absurd hcode (by decide)
    · next t log' hloop =>
      have hdistinct : Distinct T := by
        have hall := (filling_zero T).distinct (by rw [Nat.zero_add]) hloop
          (by simp)
        rwa [Nat.zero_add] at hall
      obtain ⟨t', log'', hloop', ht, -⟩ := (filling_zero T).initLoop hdistinct
        (intSize T.length) 0 _ (by rw [Nat.zero_add])
      rw [hloop] at hloop'
      cases hloop'
      refine ⟨hdistinct, ?_⟩
      dsimp only at h
      split at h
      · next hfail =>
        simp only [Option.map_eq_some_iff, Prod.mk.injEq] at h
        obtain ⟨-, -, -, hcode, -⟩ := h
        exact absurd hcode hfail
      · cases h
        exact ht.started fn arg

/-! ## Steps and runs -/

/-- Nothing but init and exit changes the callback. -/
theorem setRecord_fn {f : WatchdogRecord → WatchdogRecord}
    (h : s.setRecord r f = some s') : s'.fn = s.fn := by
  simp only [setRecord] at h
  split at h
  · cases h
  · split at h
    · cases h
      rfl
    · cases h

theorem exec_fn (h : s.exec T c = some s') : s'.fn = s.fn := by
  cases c with
  | insert m r =>
      simp only [exec, Watchdog.insert] at h
      split at h
      · cases h
      · obtain ⟨xs, -, rfl⟩ := Option.map_eq_some_iff.mp h
        cases m <;> rfl
  | erase m r =>
      simp only [exec, Watchdog.erase] at h
      split at h
      · cases h
        cases m <;> rfl
      · cases h
  | setRec | setToken | setBegin | setEnd | setCerrc => exact setRecord_fn h
  | send | error =>
      cases h
      rfl

theorem run_fn (h : s.run T cs = some (t, log)) : t.fn = s.fn := by
  induction cs generalizing s log with
  | nil =>
      cases h
      rfl
  | cons c rest ih =>
      simp only [run] at h
      split at h
      · cases h
      · next s' hc =>
        obtain ⟨out, hout, heq⟩ := Option.map_eq_some_iff.mp h
        cases heq
        exact (ih hout).trans (exec_fn hc)

theorem idleLoop_fn {turns : Nat} {it : Option Nat}
    (h : s.idleLoop T now sends turns it = some (t, log)) : t.fn = s.fn := by
  induction turns generalizing it s log with
  | zero =>
      cases it with
      | none =>
          cases h
          rfl
      | some r => cases h
  | succ turns ih =>
      cases it with
      | none =>
          cases h
          rfl
      | some r =>
          simp only [idleLoop] at h
          split at h
          · cases h
            rfl
          · split at h
            · cases h
            · next s' log' hr =>
              obtain ⟨out, hout, heq⟩ := Option.map_eq_some_iff.mp h
              cases heq
              exact (ih hout).trans (run_fn hr)

theorem step_fn (h : s.step T a = some (s', events)) : s'.fn = s.fn := by
  obtain ⟨out, hout, heq⟩ := Option.map_eq_some_iff.mp h
  cases heq
  cases a with
  | tick now sends =>
      obtain ⟨out', hout', rfl⟩ := Option.map_eq_some_iff.mp hout
      exact idleLoop_fn hout'
  | rsp sender msg now =>
      simp only [onHeartbeatRsp] at hout
      split at hout
      · cases hout
      · exact run_fn hout

end Watchdog

theorem WatchdogRun.fn_eq {s₀ : Watchdog} (h : WatchdogRun T s₀ tr s) :
    s.fn = s₀.fn := by
  refine h.preserved (P := fun s => s.fn = s₀.fn) rfl ?_
  rintro s events s' hs ⟨a, -, hstep⟩
  exact (Watchdog.step_fn hstep).trans hs

namespace Watchdog

variable {token : Int}

theorem findRecordByToken_some (h : s.findRecordByToken token = some r) :
    r ∈ s.busyTable ∧ (s.record r).token = token := by
  have hzero := List.find?_some h
  refine ⟨List.mem_of_find?_eq_some h, ?_⟩
  simp only [decide_eq_true_eq] at hzero
  omega

/-- A token in the table is found. -/
theorem InOrder.find_index (h : InOrder T s) (hr : r ∈ s.busyTable) :
    s.findRecordByToken r = some r := by
  have hsome : (s.findRecordByToken r).isSome := by
    refine List.find?_isSome.mpr ⟨r, hr, ?_⟩
    simp [(h.known .busyTable r hr).2.2]
  obtain ⟨x, hx⟩ := Option.isSome_iff_exists.mp hsome
  obtain ⟨hmem, htoken⟩ := findRecordByToken_some hx
  rw [(h.known .busyTable x hmem).2.2] at htoken
  rw [hx, Int.ofNat_inj.mp htoken]

/-- A tick is handled. -/
theorem InOrder.tick (h : InOrder T s) (hp : s.Paired)
    (hsids : Distinct T) (now : ClockTime)
    (sends : Nat → SendResult) :
    ∃ t log, s.step T (.tick now sends) =
        some (t, [⟨.tick now sends, s, log⟩]) ∧ Checked T s t log := by
  obtain ⟨t, log, hcheck, hchecked⟩ := h.checkIdle hp hsids now sends
  refine ⟨t, log, ?_, hchecked⟩
  simp only [Watchdog.step, onTimer, hcheck, checkBusy_eq_nil,
    Option.map_some, List.append_nil]

/-- A response to an outstanding heartbeat is handled. -/
theorem InOrder.rsp (h : InOrder T s) (hp : s.Paired)
    (hsids : Distinct T) (sender : UInt32) (now : ClockTime)
    (hfind : s.findRecordByToken (msgGetToken msg) = some r) :
    ∃ t log, s.step T (.rsp sender msg now) =
        some (t, [⟨.rsp sender msg now, s, log⟩]) ∧ Answered T s r now t ∧
      log.map (·.2) = s.rspStmts T now r ∧
      ∀ e ∈ log, Executed.Sound T e := by
  obtain ⟨t, ⟨log, hrun, hsound⟩, hanswered⟩ :=
    h.rspStmts hp hsids (findRecordByToken_some hfind).1 now
  refine ⟨t, log, ?_, hanswered, run_stmts hrun, hsound⟩
  simp only [Watchdog.step, onHeartbeatRsp, hfind, hrun, Option.map_some]

/-- Every step is one of these. -/
theorem InOrder.step_cases (h : InOrder T s) (hp : s.Paired)
    (hsids : Distinct T)
    (hstep : s.step T a = some (s', events)) :
    ∃ log, events = [⟨a, s, log⟩] ∧
      ((∃ now sends, a = .tick now sends ∧ Checked T s s' log) ∨
      ∃ sender msg now r, a = .rsp sender msg now ∧
        s.findRecordByToken (msgGetToken msg) = some r ∧
        Answered T s r now s' ∧ log.map (·.2) = s.rspStmts T now r ∧
        ∀ e ∈ log, Executed.Sound T e) := by
  cases a with
  | tick now sends =>
      obtain ⟨t, log, heq, hchecked⟩ := h.tick hp hsids now sends
      rw [heq] at hstep
      cases hstep
      exact ⟨log, rfl, .inl ⟨now, sends, rfl, hchecked⟩⟩
  | rsp sender msg now =>
      cases hfind : s.findRecordByToken (msgGetToken msg) with
      | none => simp [Watchdog.step, onHeartbeatRsp, hfind] at hstep
      | some r =>
          obtain ⟨t, log, heq, hrest⟩ := h.rsp hp hsids sender now hfind
          rw [heq] at hstep
          cases hstep
          exact ⟨log, rfl, .inr ⟨sender, msg, now, r, rfl, hfind, hrest⟩⟩

end Watchdog

/-- What holds of every run of the watchdog. -/
theorem WatchdogRun.inOrder {s₀ : Watchdog} (hsids : Watchdog.Distinct T)
    (h₀ : s₀.InOrder T) (hp₀ : s₀.Paired) (h : WatchdogRun T s₀ tr s) :
    s.InOrder T ∧ s.Paired ∧
      ∀ x ∈ tr, ∀ e ∈ x.log, Executed.Sound T e := by
  refine h.invariant (P := fun tr s => s.InOrder T ∧ s.Paired ∧
    ∀ x ∈ tr, ∀ e ∈ x.log, Executed.Sound T e) ⟨h₀, hp₀, by simp⟩ ?_
  rintro tr s events s' - ⟨hs, hp, hsound⟩ ⟨a, -, hstep⟩
  obtain ⟨log, rfl, hcases⟩ := hs.step_cases hp hsids hstep
  have hboth : s'.InOrder T ∧ s'.Paired ∧
      ∀ e ∈ log, Executed.Sound T e := by
    rcases hcases with ⟨now, sends, -, hchecked⟩ |
      ⟨sender, msg, now, r, -, -, hanswered, -, hlog⟩
    · exact ⟨hchecked.inOrder, hchecked.paired, hchecked.sound⟩
    · exact ⟨hanswered.inOrder, hanswered.paired, hlog⟩
  refine ⟨hboth.1, hboth.2.1, fun x hx => ?_⟩
  rcases List.mem_append.mp hx with hx | hx
  · exact hsound x hx
  · rw [List.mem_singleton.mp hx]
    exact hboth.2.2

end Powerpack
end Eaf

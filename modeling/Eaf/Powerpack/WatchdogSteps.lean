import Eaf.Powerpack.WatchdogMaps

/-!
# The steps of the watchdog

Every tick and every response whose token names an outstanding heartbeat is
handled to its end.  On the way each statement finds the maps in order, and no
record changes in a field by which a map it is in is ordered.
-/

namespace Eaf
namespace Powerpack

open Core LabelledRun

variable {T : List WatchItem} {s s' t : Watchdog} {m : MapName}
  {r r' : Nat} {c : Stmt} {cs ds : List Stmt} {xs : List Nat}
  {log : List Executed} {now : ClockTime} {sends : Nat → SendResult}
  {sent : SendResult} {msg : Msg}

/-! ## Sound statements -/

/-- A new entry has its place, and a record changes only while it is in no map
whose comparison function reads the field. -/
def Stmt.Sound (T : List WatchItem) (s : Watchdog) : Stmt → Prop
  | .insert m r => (s.insert T m r).isSome
  | .erase m r => r ∈ s.map m
  | .setRec r _ => r ∉ s.idleStack ∧ r ∉ s.busyStack
  | .setToken r _ => r ∉ s.busyTable
  | .setBegin r _ => r ∉ s.idleStack
  | .setEnd r _ => r ∉ s.busyStack
  | .setCerrc _ _ | .send _ _ _ | .error _ => True

/-- The statement was sound, and the maps were in order. -/
structure Executed.Sound (T : List WatchItem) (e : Executed) : Prop where
  ordered : ∀ m, SortedMap.Sorted (e.1.cmp T m) (e.1.map m)
  sound : e.2.Sound T e.1

namespace Watchdog

/-- The statements are executed, and all of them are sound. -/
def Does (T : List WatchItem) (s : Watchdog) (cs : List Stmt) (t : Watchdog) :
    Prop :=
  ∃ log, s.run T cs = some (t, log) ∧ ∀ e ∈ log, Executed.Sound T e

theorem Does.nil : Does T s [] s := ⟨[], rfl, by simp⟩

theorem Does.cons (hexec : s.exec T c = some s') (h : InOrder T s)
    (hc : c.Sound T s) (hrest : Does T s' cs t) : Does T s (c :: cs) t := by
  obtain ⟨log, hrun, hlog⟩ := hrest
  refine ⟨(s, c) :: log, by simp only [run, hexec, hrun, Option.map_some], ?_⟩
  intro e he
  rcases List.mem_cons.mp he with rfl | he
  · exact ⟨h.ordered, hc⟩
  · exact hlog e he

/-- The log names the statements. -/
theorem run_stmts (h : s.run T cs = some (t, log)) : log.map (·.2) = cs := by
  induction cs generalizing s log with
  | nil =>
      simp only [run, Option.some.injEq, Prod.mk.injEq] at h
      rw [← h.2]
      rfl
  | cons c rest ih =>
      simp only [run] at h
      split at h
      · cases h
      · next s' hexec =>
        simp only [Option.map_eq_some_iff, Prod.mk.injEq] at h
        obtain ⟨out, hrest, rfl, rfl⟩ := h
        rw [List.map_cons, ih hrest]

/-- Outstanding heartbeats are in both maps. -/
def Paired (s : Watchdog) : Prop := ∀ r, r ∈ s.busyStack ↔ r ∈ s.busyTable

/-- What the handlers leave alone, the error count apart. -/
structure Keeps (s t : Watchdog) : Prop where
  recAt : ∀ r, (t.record r).recAt = (s.record r).recAt
  token : ∀ r, (t.record r).token = (s.record r).token
  fn : t.fn = s.fn

theorem Keeps.refl (s : Watchdog) : s.Keeps s :=
  ⟨fun _ => rfl, fun _ => rfl, rfl⟩

theorem Keeps.trans {u : Watchdog} (h : s.Keeps t) (h' : t.Keeps u) :
    s.Keeps u :=
  ⟨fun r => (h'.recAt r).trans (h.recAt r),
    fun r => (h'.token r).trans (h.token r), h'.fn.trans h.fn⟩

theorem Keeps.setMap (s : Watchdog) (m : MapName) (xs : List Nat) :
    s.Keeps (s.setMap m xs) :=
  ⟨fun r => by rw [setMap_record], fun r => by rw [setMap_record],
    by cases m <;> rfl⟩

theorem ChangesOnly.keeps {f : WatchdogRecord → WatchdogRecord}
    (h : ChangesOnly s s' r f) (hrec : ∀ x, (f x).recAt = x.recAt)
    (htoken : ∀ x, (f x).token = x.token) : s.Keeps s' where
  recAt r' := by
    by_cases hr' : r' = r
    · rw [hr', h.self, hrec]
    · rw [h.other r' hr']
  token r' := by
    by_cases hr' : r' = r
    · rw [hr', h.self, htoken]
    · rw [h.other r' hr']
  fn := h.fn

theorem ChangesOnly.free {f : WatchdogRecord → WatchdogRecord}
    (h : ChangesOnly s s' r f) (hfree : s.Free r') : s'.Free r' := by
  intro m
  rw [h.map]
  exact hfree m

/-- The nodes of a free record are not linked. -/
theorem Free.linked (h : s.Free r) (m : MapName) : s.linked r m = false := by
  have hidle : r ∉ s.idleStack := h .idleStack
  have hstack : r ∉ s.busyStack := h .busyStack
  have htable : r ∉ s.busyTable := h .busyTable
  cases m <;> simp [Watchdog.linked, hidle, hstack, htable]

/-- A record changes. -/
theorem Does.setRecord {f : WatchdogRecord → WatchdogRecord} (h : InOrder T s)
    (hr : r < T.length) (hfree : s.Free r)
    (hexec : s.exec T c = s.setRecord r f) (hc : s.Free r → c.Sound T s)
    (hrec : ∀ x, (f x).recAt = x.recAt) (htoken : ∀ x, (f x).token = x.token) :
    ∃ s', ChangesOnly s s' r f ∧ InOrder T s' ∧ s.Keeps s' ∧ s'.Free r ∧
      ∀ {cs t}, Does T s' cs t → Does T s (c :: cs) t := by
  obtain ⟨s', hset, honly, h'⟩ := h.setRecord hr hfree f
  exact ⟨s', honly, h', honly.keeps hrec htoken, honly.free hfree,
    .cons (hexec.trans hset) h (hc hfree)⟩

/-! ## The idle stack -/

/-- The heartbeats that have been sent with success. -/
def sentIn (log : List Executed) : List (Nat × Msg) :=
  log.filterMap fun e =>
    match e.2 with
    | .send r req ret => if ret < 0 then none else some (r, req)
    | _ => none

/-- What one turn of the loop of `_watchdog_check_idle` does. -/
structure Turned (T : List WatchItem) (s : Watchdog) (r : Nat)
    (sent : SendResult) (t : Watchdog) : Prop where
  inOrder : InOrder T t
  paired : t.Paired
  keeps : s.Keeps t
  cerrc : ∀ r, (t.record r).cerrc = (s.record r).cerrc
  idle : t.idleStack = s.idleStack.erase r
  busy : t.busyStack.Perm
    ((if sent.ret < 0 then [] else [r]) ++ s.busyStack)

/-- A record of the idle stack belongs to no heartbeat. -/
theorem InOrder.free_of_erase (h : InOrder T s) (hp : s.Paired)
    (hr : r ∈ s.idleStack) :
    (s.setMap .idleStack (s.idleStack.erase r)).Free r := by
  have hstack := h.apart r hr
  intro m
  cases m with
  | idleStack =>
      rw [setMap_map, if_pos rfl]
      exact (h.nodup .idleStack).not_mem_erase
  | busyStack => exact hstack
  | busyTable => exact (hp r).not.mp hstack

theorem InOrder.idleTurn (h : InOrder T s) (hp : s.Paired)
    (hsids : Distinct T) (hr : r ∈ s.idleStack) (now : ClockTime)
    (sent : SendResult) :
    ∃ t, Does T s (s.idleTurn T now sent r) t ∧ Turned T s r sent t := by
  obtain ⟨hr', hrec, htoken⟩ := h.known .idleStack r hr
  have hlt := hr'.trans_le (intSize_le T.length)
  obtain ⟨herase, h₁⟩ := h.erase (m := .idleStack) hr
  have hfree := h.free_of_erase hp hr
  have hkeeps₁ := Keeps.setMap s .idleStack (s.idleStack.erase r)
  generalize hs₁ : s.setMap .idleStack (s.idleStack.erase r) = s₁
    at hfree hkeeps₁
  have herase' : s.exec T (.erase .idleStack r) = some s₁ := by
    rw [← hs₁]
    exact herase
  have hmap₁ : ∀ m, s₁.map m =
      if m = .idleStack then s.idleStack.erase r else s.map m := by
    intro m
    rw [← hs₁]
    exact setMap_map ..
  have hrecord₁ : ∀ r', s₁.record r' = s.record r' := by
    intro r'
    rw [← hs₁]
    exact setMap_record ..
  have h₁' : InOrder T s₁ := hs₁ ▸ h₁
  obtain ⟨s₂, honly₂, h₂, hkeeps₂, hfree₂, hdoes₂⟩ :=
    Does.setRecord (c := .setBegin r now) h₁' hlt hfree rfl
      (fun hfree => hfree .idleStack) (fun _ => rfl) fun _ => rfl
  obtain ⟨s₃, honly₃, h₃, hkeeps₃, hfree₃, hdoes₃⟩ :=
    Does.setRecord (c := .setEnd r (s.nextEnd T now r)) h₂ hlt hfree₂ rfl
      (fun hfree => hfree .busyStack) (fun _ => rfl) fun _ => rfl
  have hkeeps : s.Keeps s₃ := (hkeeps₁.trans hkeeps₂).trans hkeeps₃
  have hmap₃ : ∀ m, s₃.map m =
      if m = .idleStack then s.idleStack.erase r else s.map m := by
    intro m
    rw [honly₃.map, honly₂.map, hmap₁]
  have hcerrc : ∀ r', (s₃.record r').cerrc = (s.record r').cerrc := by
    intro r'
    rw [← hrecord₁]
    by_cases hr' : r' = r
    · rw [hr', honly₃.self, honly₂.self]
    · rw [honly₃.other r' hr', honly₂.other r' hr']
  have hpaired₃ : s₃.Paired := by
    intro r'
    show r' ∈ s₃.map .busyStack ↔ r' ∈ s₃.map .busyTable
    rw [hmap₃, hmap₃]
    exact hp r'
  have hsend : s₃.exec T (.send r (s.request r sent.addr) sent.ret) =
      some s₃ := rfl
  have hstart : ∀ {cs t}, Does T s₃ cs t → Does T s
      ([.erase .idleStack r, .setBegin r now, .setEnd r (s.nextEnd T now r),
        .send r (s.request r sent.addr) sent.ret] ++ cs) t := by
    intro cs t hrest
    exact .cons herase' h hr (hdoes₂ (hdoes₃ (.cons hsend h₃ trivial hrest)))
  unfold Watchdog.idleTurn
  by_cases hret : sent.ret < 0
  · simp only [if_pos hret]
    refine ⟨s₃, hstart .nil, h₃, hpaired₃, hkeeps, hcerrc, hmap₃ .idleStack, ?_⟩
    rw [if_pos hret]
    exact .of_eq (hmap₃ .busyStack)
  · simp only [if_neg hret]
    have hrec₃ := (hkeeps.recAt r).trans hrec
    have htoken₃ := (hkeeps.token r).trans htoken
    -- the record is put into both maps of the outstanding heartbeats
    obtain ⟨xs, hinsert, hperm, h₄⟩ := h₃.insert_distinct (m := .busyStack) hsids hr'
      hrec₃ htoken₃ (hfree₃.linked .busyStack)
    obtain ⟨ys, hinsert', hperm', h₅⟩ := h₄.insert_distinct (m := .busyTable) hsids hr'
      (by rw [setMap_record]; exact hrec₃)
      (by rw [setMap_record]; exact htoken₃)
      (hfree₃.linked .busyTable)
    refine ⟨_, hstart (.cons hinsert h₃ (by simp [Stmt.Sound, hinsert])
      (.cons hinsert' h₄ (by simp [Stmt.Sound, hinsert']) .nil)), h₅, ?_,
      (hkeeps.trans (.setMap ..)).trans (.setMap ..), ?_, ?_, ?_⟩
    · intro r'
      show r' ∈ xs ↔ r' ∈ ys
      rw [hperm.mem_iff, hperm'.mem_iff, List.mem_cons, List.mem_cons]
      exact or_congr_right (hpaired₃ r')
    · intro r'
      rw [setMap_record, setMap_record]
      exact hcerrc r'
    · exact hmap₃ .idleStack
    · rw [if_neg hret]
      show xs.Perm ([r] ++ s.busyStack)
      rw [hmap₃] at hperm
      exact hperm

/-! ## Responses -/

/-- What `_watchdog_on_heartbeat_rsp` does for a record. -/
structure Answered (T : List WatchItem) (s : Watchdog) (r : Nat)
    (now : ClockTime) (t : Watchdog) : Prop where
  inOrder : InOrder T t
  paired : t.Paired
  keeps : s.Keeps t
  self : (t.record r).cerrc = nextCerrc now (s.record r)
  other : ∀ r', r' ≠ r → (t.record r').cerrc = (s.record r').cerrc
  busy : t.busyStack.Perm (s.busyStack.erase r)

/-- Taken out of both maps, a record is free. -/
theorem InOrder.erase_both (h : InOrder T s) (hp : s.Paired)
    (hr : r ∈ s.busyTable) :
    ∃ s', s.exec T (.erase .busyTable r) =
        some (s.setMap .busyTable (s.busyTable.erase r)) ∧
      InOrder T (s.setMap .busyTable (s.busyTable.erase r)) ∧
      (s.setMap .busyTable (s.busyTable.erase r)).exec T
        (.erase .busyStack r) = some s' ∧
      InOrder T s' ∧ s'.Free r ∧ s.Keeps s' ∧
      (∀ r, s'.record r = s.record r) ∧ s'.idleStack = s.idleStack ∧
      s'.busyStack = s.busyStack.erase r ∧
      s'.busyTable = s.busyTable.erase r := by
  have hstack : r ∈ s.busyStack := (hp r).mpr hr
  obtain ⟨herase₁, h₁⟩ := h.erase (m := .busyTable) hr
  obtain ⟨herase₂, h₂⟩ := h₁.erase (m := .busyStack) (r := r) hstack
  refine ⟨_, herase₁, h₁, herase₂, h₂, ?_,
    (Keeps.setMap ..).trans (Keeps.setMap ..), fun r' => ?_, rfl, rfl, rfl⟩
  · intro m
    cases m with
    | idleStack => exact fun hidle => h.apart r hidle hstack
    | busyStack => exact (h.nodup .busyStack).not_mem_erase
    | busyTable => exact (h.nodup .busyTable).not_mem_erase
  · rw [setMap_record, setMap_record]

/-- An error may be reported in between. -/
theorem Does.error {sid : UInt32} {p : Prop} [Decidable p] (h : InOrder T s)
    (hrest : Does T s cs t) :
    Does T s ((if p then [.error sid] else []) ++ cs) t := by
  split
  · exact Does.cons (c := .error sid) rfl h trivial hrest
  · exact hrest

theorem InOrder.rspStmts (h : InOrder T s) (hp : s.Paired)
    (hsids : Distinct T) (hr : r ∈ s.busyTable) (now : ClockTime) :
    ∃ t, Does T s (s.rspStmts T now r) t ∧ Answered T s r now t := by
  obtain ⟨hr', hrec, htoken⟩ := h.known .busyTable r hr
  have hlt := hr'.trans_le (intSize_le T.length)
  obtain ⟨s₁, hexec₁, hmid, hexec₂, h₁, hfree₁, hkeeps₁, hrecord₁, hidle₁,
    hstack₁, htable₁⟩ := h.erase_both hp hr
  obtain ⟨s₂, honly₂, h₂, hkeeps₂, hfree₂, hdoes₂⟩ :=
    Does.setRecord (c := .setBegin r now) h₁ hlt hfree₁ rfl
      (fun hfree => hfree .idleStack) (fun _ => rfl) fun _ => rfl
  obtain ⟨s₃, honly₃, h₃, hkeeps₃, hfree₃, hdoes₃⟩ :=
    Does.setRecord (c := .setCerrc r (nextCerrc now (s.record r))) h₂ hlt
      hfree₂ rfl (fun _ => trivial) (fun _ => rfl) fun _ => rfl
  obtain ⟨s₄, honly₄, h₄, hkeeps₄, hfree₄, hdoes₄⟩ :=
    Does.setRecord (c := .setBegin r (timeAddclockMsec now
      (s.item T r).interval.toUInt64).1) h₃ hlt hfree₃ rfl
      (fun hfree => hfree .idleStack) (fun _ => rfl) fun _ => rfl
  have hkeeps : s.Keeps s₄ :=
    ((hkeeps₁.trans hkeeps₂).trans hkeeps₃).trans hkeeps₄
  have hmap : ∀ m, s₄.map m = s₁.map m := by
    intro m
    rw [honly₄.map, honly₃.map, honly₂.map]
  obtain ⟨xs, hinsert, hperm, h₅⟩ := h₄.insert_distinct (m := .idleStack) hsids hr'
    ((hkeeps.recAt r).trans hrec) ((hkeeps.token r).trans htoken)
    (hfree₄.linked .idleStack)
  have hstack : r ∈ s.map .busyStack := (hp r).mpr hr
  refine ⟨s₄.setMap .idleStack xs, ?_, h₅, ?_, hkeeps.trans (.setMap ..), ?_,
    ?_, ?_⟩
  · unfold Watchdog.rspStmts
    have hend : Does T s₃ [.setBegin r (timeAddclockMsec now
        (s.item T r).interval.toUInt64).1, .insert .idleStack r]
        (s₄.setMap .idleStack xs) :=
      hdoes₄ (.cons hinsert h₄ (by simp [Stmt.Sound, hinsert]) .nil)
    exact .cons hexec₁ h hr (.cons hexec₂ hmid hstack
      (hdoes₂ (hdoes₃ (Does.error h₃ hend))))
  · intro r'
    show r' ∈ s₄.map .busyStack ↔ r' ∈ s₄.map .busyTable
    rw [hmap, hmap]
    show r' ∈ s₁.busyStack ↔ r' ∈ s₁.busyTable
    have hinStack : r' ∈ s.busyStack.erase r ↔ r' ≠ r ∧ r' ∈ s.busyStack :=
      (h.nodup .busyStack).mem_erase_iff
    have hinTable : r' ∈ s.busyTable.erase r ↔ r' ≠ r ∧ r' ∈ s.busyTable :=
      (h.nodup .busyTable).mem_erase_iff
    rw [hstack₁, htable₁, hinStack, hinTable]
    exact and_congr_right fun _ => hp r'
  · rw [setMap_record, honly₄.self, honly₃.self]
  · intro r' hr'
    rw [setMap_record, honly₄.other r' hr', honly₃.other r' hr',
      honly₂.other r' hr', hrecord₁]
  · refine .of_eq ?_
    show s₄.map .busyStack = _
    rw [hmap]
    exact hstack₁

/-! ## The loops -/

theorem sentIn_append (log log' : List Executed) :
    sentIn (log ++ log') = sentIn log ++ sentIn log' :=
  List.filterMap_append

/-- What is sent can be read off the statements. -/
theorem sentIn_eq (log : List Executed) :
    sentIn log = (log.map (·.2)).filterMap fun c =>
      match c with
      | .send r req ret => if ret < 0 then none else some (r, req)
      | _ => none := by
  rw [List.filterMap_map]
  rfl

/-- The sids for which errors have been reported. -/
def errorsIn (log : List Executed) : List UInt32 :=
  log.filterMap fun e =>
    match e.2 with
    | .error sid => some sid
    | _ => none

theorem errorsIn_eq (log : List Executed) :
    errorsIn log = (log.map (·.2)).filterMap fun c =>
      match c with
      | .error sid => some sid
      | _ => none := by
  rw [List.filterMap_map]
  rfl

/-- What `_watchdog_check_idle` does. -/
structure Checked (T : List WatchItem) (s : Watchdog) (t : Watchdog)
    (log : List Executed) : Prop where
  inOrder : InOrder T t
  paired : t.Paired
  keeps : s.Keeps t
  cerrc : ∀ r, (t.record r).cerrc = (s.record r).cerrc
  busy : t.busyStack.Perm ((sentIn log).map (·.1) ++ s.busyStack)
  errors : errorsIn log = []
  sound : ∀ e ∈ log, Executed.Sound T e

theorem Checked.refl (h : InOrder T s) (hp : s.Paired) : Checked T s s [] :=
  ⟨h, hp, .refl s, fun _ => rfl, .refl _, rfl, by simp⟩

theorem InOrder.idleLoop (hsids : Distinct T) (now : ClockTime)
    (sends : Nat → SendResult) (turns : Nat) (s : Watchdog) (h : InOrder T s)
    (hp : s.Paired) (hturns : s.idleStack.length ≤ turns) :
    ∃ t log, s.idleLoop T now sends turns s.idleStack.head? = some (t, log) ∧
      Checked T s t log := by
  induction turns generalizing s with
  | zero =>
      have hnil : s.idleStack = [] := List.length_eq_zero_iff.mp (by omega)
      rw [hnil]
      exact ⟨s, [], rfl, .refl h hp⟩
  | succ turns ih =>
      cases hidle : s.idleStack with
      | nil => exact ⟨s, [], rfl, .refl h hp⟩
      | cons r rest =>
          have hr : r ∈ s.idleStack := by
            rw [hidle]
            exact List.mem_cons_self
          rw [List.head?_cons, Watchdog.idleLoop]
          split
          · exact ⟨s, [], rfl, .refl h hp⟩
          · obtain ⟨t, ⟨log, hrun, hsound⟩, hturn⟩ :=
              h.idleTurn hp hsids hr now (sends r)
            have hnext : SortedMap.next r s.idleStack = t.idleStack.head? := by
              rw [hturn.idle, hidle]
              simp [SortedMap.next]
            have hlength : t.idleStack.length ≤ turns := by
              rw [hturn.idle, List.length_erase_of_mem hr]
              omega
            obtain ⟨u, log', hloop, hchecked⟩ :=
              ih t hturn.inOrder hturn.paired hlength
            have hstmts := run_stmts hrun
            refine ⟨u, log ++ log', ?_, hchecked.inOrder, hchecked.paired,
              hturn.keeps.trans hchecked.keeps, fun r' =>
                (hchecked.cerrc r').trans (hturn.cerrc r'), ?_, ?_, ?_⟩
            · rw [hrun]
              simp only [hnext, hloop, Option.map_some]
            · have hsent : (sentIn log).map (·.1) =
                  if (sends r).ret < 0 then [] else [r] := by
                rw [sentIn_eq, hstmts, Watchdog.idleTurn]
                split <;> simp_all
              rw [sentIn_append, List.map_append, hsent, List.append_assoc]
              refine hchecked.busy.trans ((List.Perm.append_left _
                hturn.busy).trans ?_)
              rw [← List.append_assoc, ← List.append_assoc]
              exact List.perm_append_comm.append_right _
            · rw [errorsIn_eq, List.map_append, List.filterMap_append,
                ← errorsIn_eq log', hchecked.errors, hstmts,
                Watchdog.idleTurn]
              split <;> rfl
            · intro e he
              rcases List.mem_append.mp he with he | he
              · exact hsound e he
              · exact hchecked.sound e he

/-- `_watchdog_check_idle` comes to its end. -/
theorem InOrder.checkIdle (h : InOrder T s) (hp : s.Paired)
    (hsids : Distinct T) (now : ClockTime)
    (sends : Nat → SendResult) :
    ∃ t log, s.checkIdle T now sends = some (t, log) ∧ Checked T s t log :=
  idleLoop hsids now sends _ s h hp le_rfl

/-- `_watchdog_check_busy` finds no error: the end time is compared with a time
that is calculated from it, which is not before it. -/
theorem busyError_eq_false (T : List WatchItem) (s : Watchdog) (r : Nat) :
    s.busyError T r = false := by
  have hle := timeAddclockMsec_le (s.record r).endTime
    ((s.item T r).timeout * (s.item T r).jitter).toUInt64
  have hcode := timeDiffclock_pos.not.mpr hle.not_gt
  simpa [busyError] using hcode

theorem checkBusy_eq_nil (T : List WatchItem) (now : ClockTime)
    (s : Watchdog) : s.checkBusy T now = [] := by
  have hloop : ∀ turns it, s.busyLoop T now turns it = [] := by
    intro turns
    induction turns with
    | zero =>
        intro it
        cases it <;> rfl
    | succ turns ih =>
        intro it
        cases it with
        | none => rfl
        | some r =>
            rw [busyLoop, busyError_eq_false, ih]
            split <;> rfl
  exact hloop _ _

end Watchdog

end Powerpack
end Eaf

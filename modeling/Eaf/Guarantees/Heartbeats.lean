import Eaf.Guarantees.WatchdogExit

/-!
# Which record a response belongs to

The watchdog writes the index of the record into the token of its request and
looks for the token of the response.  But `eaf_msg_create_rsp` does not take
over the token, and the token of every response is zero.  So every response
goes to the first service of the watch list, whoever has sent it.
-/

namespace Eaf
namespace Powerpack

open Core LabelledRun

/-- The watchdog and the heartbeats that wait for their response. -/
structure Heartbeats where
  dog : Watchdog
  /-- the record and the request of a heartbeat -/
  flight : List (Nat × Msg)
  /-- an assertion has failed -/
  aborted : Bool
  deriving DecidableEq, Repr

/-- The heartbeat of record `r` has been answered, and the handler has found
record `found`. -/
inductive HeartbeatEvent
  | answered (r : Nat) (found : Option Nat)
  deriving DecidableEq, Repr

/-- The timer; or the response to the heartbeat at position `k`, made by
`eaf_msg_create_rsp` with a payload of some size, is handled. -/
inductive HeartbeatAct
  | tick (now : ClockTime) (sends : Nat → SendResult)
  | respond (k : Nat) (size : Nat) (now : ClockTime)

namespace Heartbeats

/-- No heartbeat has been sent. -/
def initial (s₀ : Watchdog) : Heartbeats := ⟨s₀, [], false⟩

/-- A response is handled. -/
def respond (T : List WatchItem) (w : Heartbeats) (k size : Nat)
    (now : ClockTime) : Option (Heartbeats × List HeartbeatEvent) :=
  match w.flight[k]? with
  | none => none
  | some (r, req) =>
      let msg := msgCreateRsp req size
      let found := w.dog.findRecordByToken (msgGetToken msg)
      match w.dog.step T (.rsp (w.dog.item T r).sid msg now) with
      | none => some ({ w with aborted := true }, [.answered r found])
      | some (dog, _) =>
          some (⟨dog, w.flight.eraseIdx k, false⟩, [.answered r found])

/-- One step. -/
def step (T : List WatchItem) (w : Heartbeats) (a : HeartbeatAct) :
    Option (Heartbeats × List HeartbeatEvent) :=
  if w.aborted then none
  else
    match a with
    | .tick now sends =>
        (w.dog.onTimer T now sends).map fun out =>
          (⟨out.1, w.flight ++ Watchdog.sentIn out.2, false⟩, [])
    | .respond k size now => w.respond T k size now

end Heartbeats

/-- Runs of the watchdog and its services. -/
abbrev HeartbeatRun (T : List WatchItem) (s₀ : Watchdog)
    (tr : List HeartbeatEvent) (w : Heartbeats) : Prop :=
  Run (Guarded (Heartbeats.step T) fun _ _ => True) (.initial s₀) tr w

variable {T : List WatchItem} {s₀ : Watchdog} {w w' : Heartbeats}
  {a : HeartbeatAct} {events tr : List HeartbeatEvent} {log : List Executed}

/-- The token of a response is zero. -/
theorem msgGetToken_createRsp (req : Msg) (size : Nat) :
    msgGetToken (msgCreateRsp req size) = 0 := by
  show ((0 : UInt64) >>> (32 : UInt64)).toUInt32.toInt32.toInt = 0
  decide

/-! ## The steps -/

/-- What a step does, as long as the maps are in order. -/
theorem Heartbeats.step_cases (hsids : Watchdog.Distinct T)
    (hdog : w.dog.InOrder T) (hp : w.dog.Paired)
    (h : w.step T a = some (w', events)) :
    (∃ log, Watchdog.Checked T w.dog w'.dog log ∧ events = [] ∧
      w'.flight = w.flight ++ Watchdog.sentIn log) ∨
    (∃ k r req found, events = [.answered r found] ∧
      w.flight[k]? = some (r, req) ∧ w.dog.findRecordByToken 0 = found ∧
      ((∃ x now, found = some x ∧ Watchdog.Answered T w.dog x now w'.dog ∧
        w'.flight = w.flight.eraseIdx k) ∨
      found = none ∧ w'.dog = w.dog)) := by
  unfold Heartbeats.step at h
  split at h
  · cases h
  · cases a with
    | tick now sends =>
        left
        obtain ⟨t, log, hstep, hchecked⟩ := hdog.tick hp hsids now sends
        obtain ⟨out, hout, heq⟩ := Option.map_eq_some_iff.mp hstep
        cases heq
        dsimp only at hout h
        rw [hout] at h
        cases h
        exact ⟨_, hchecked, rfl, rfl⟩
    | respond k size now =>
        right
        simp only [Heartbeats.respond] at h
        split at h
        · cases h
        · next r req hk =>
          rw [msgGetToken_createRsp] at h
          refine ⟨k, r, req, w.dog.findRecordByToken 0, ?_, hk, rfl, ?_⟩
          · split at h
            · cases h
              rfl
            · cases h
              rfl
          · cases hfind : w.dog.findRecordByToken 0 with
            | none =>
                right
                have hnone : w.dog.step T (.rsp (w.dog.item T r).sid
                    (msgCreateRsp req size) now) = none := by
                  simp [Watchdog.step, Watchdog.onHeartbeatRsp,
                    msgGetToken_createRsp, hfind]
                rw [hnone] at h
                cases h
                exact ⟨rfl, rfl⟩
            | some x =>
                left
                rw [← msgGetToken_createRsp req size] at hfind
                obtain ⟨t, log, hstep, hanswered, -⟩ :=
                  hdog.rsp hp hsids (w.dog.item T r).sid now hfind
                rw [hstep] at h
                cases h
                exact ⟨x, now, rfl, hanswered, rfl⟩

/-- The maps stay in order. -/
theorem HeartbeatRun.inOrder (hsids : Watchdog.Distinct T)
    (h₀ : s₀.Started T) (h : HeartbeatRun T s₀ tr w) :
    w.dog.InOrder T ∧ w.dog.Paired := by
  refine h.preserved (P := fun w => w.dog.InOrder T ∧ w.dog.Paired)
    ⟨h₀.inOrder, h₀.paired⟩ ?_
  rintro w events w' ⟨hdog, hp⟩ ⟨a, -, hstep⟩
  rcases Heartbeats.step_cases hsids hdog hp hstep with
    ⟨log, hchecked, -⟩ | ⟨k, r, req, found, -, -, -, hrest⟩
  · exact ⟨hchecked.inOrder, hchecked.paired⟩
  · rcases hrest with ⟨x, now, -, hanswered, -⟩ | ⟨-, hsame⟩
    · exact ⟨hanswered.inOrder, hanswered.paired⟩
    · rw [hsame]
      exact ⟨hdog, hp⟩

/-- The record with token zero is the first one. -/
theorem Watchdog.InOrder.find_zero {s : Watchdog} {r : Nat}
    (h : s.InOrder T) (hfind : s.findRecordByToken 0 = some r) : r = 0 := by
  obtain ⟨hmem, htoken⟩ := findRecordByToken_some hfind
  have hknown := (h.known .busyTable r hmem).2.2
  omega

/-! ## Runs in which the first service answers only -/

/-- The heartbeats in flight are the outstanding ones. -/
def Heartbeats.Tracked (w : Heartbeats) : Prop :=
  (w.flight.map (·.1)).Perm w.dog.busyStack

/-- As long as only the first service answers, each of its responses finds its
record. -/
theorem HeartbeatRun.tracked (hsids : Watchdog.Distinct T)
    (h₀ : s₀.Started T) (h : HeartbeatRun T s₀ tr w)
    (hfirst : ∀ r found, .answered r found ∈ tr → r = 0) :
    w.Tracked ∧ ∀ r found, .answered r found ∈ tr → found = some r := by
  refine Run.invariant (P := fun tr w =>
    (∀ r found, .answered r found ∈ tr → r = 0) → w.Tracked ∧
      ∀ r found, .answered r found ∈ tr → found = some r) h ?_ ?_ hfirst
  · refine fun _ => ⟨.of_eq ?_, by simp⟩
    exact h₀.busyStack.symm
  · rintro tr w events w' hrun ih ⟨a, -, hstep⟩ hfirst
    obtain ⟨htracked, hold⟩ := ih fun r found hmem =>
      hfirst r found (List.mem_append_left _ hmem)
    obtain ⟨hdog, hp⟩ := HeartbeatRun.inOrder hsids h₀ hrun
    rcases Heartbeats.step_cases hsids hdog hp hstep with
      ⟨log, hchecked, rfl, hflight⟩ | ⟨k, r, req, found, rfl, hk, hfind, hrest⟩
    · refine ⟨?_, by simpa using hold⟩
      rw [Heartbeats.Tracked, hflight, List.map_append]
      exact (htracked.append_right _).trans
        (List.perm_append_comm.trans hchecked.busy.symm)
    · obtain rfl := hfirst r found (by simp)
      obtain ⟨hlt, hget⟩ := List.getElem?_eq_some_iff.mp hk
      have hperm := (List.getElem_cons_eraseIdx_perm hlt).map (·.1)
      rw [hget, List.map_cons] at hperm
      -- the heartbeat is outstanding, so its record is found
      have hmem : 0 ∈ w.dog.busyStack :=
        htracked.subset (hperm.subset List.mem_cons_self)
      have hindex := hdog.find_index ((hp 0).mp hmem)
      obtain rfl : found = some 0 := hfind.symm.trans hindex
      rcases hrest with ⟨x, now, hx, hanswered, hflight⟩ | ⟨hnone, -⟩
      · obtain rfl := Option.some.inj hx
        have hboth := (hperm.trans htracked).erase 0
        rw [List.erase_cons_head] at hboth
        refine ⟨?_, fun r found hin => ?_⟩
        · rw [Heartbeats.Tracked, hflight]
          exact hboth.trans hanswered.busy.symm
        · rcases List.mem_append.mp hin with hin | hin
          · exact hold r found hin
          · obtain ⟨rfl, rfl⟩ : r = 0 ∧ found = some 0 := by simpa using hin
            rfl
      · cases hnone

/-! ## The correlation -/

/-- In every run of a watchdog for different services, each response updates
the record of the heartbeat that it answers, and none fails to find one,
exactly when all responses answer heartbeats of the first service. -/
theorem answers_matched_iff {fn : Fn} {arg : Nat} {memory : Bool}
    {registered : Int} (hsids : (T.map (·.sid)).Nodup)
    (hinit : Watchdog.initial.eafWatchdogInit T fn arg memory registered =
      some (s₀, Errno.success, log)) (h : HeartbeatRun T s₀ tr w) :
    (∀ r found, .answered r found ∈ tr → found = some r) ↔
      ∀ r found, .answered r found ∈ tr → r = 0 := by
  have hdistinct := Watchdog.Distinct.of_nodup hsids
  have h₀ := (Watchdog.eafWatchdogInit_distinct hinit).2
  refine ⟨fun hmatched r found he => ?_, fun hfirst =>
    (HeartbeatRun.tracked hdistinct h₀ h hfirst).2⟩
  obtain ⟨front, v, events, v', rest, hfront, ⟨a, -, hstep⟩, -, -, hmem⟩ :=
    h.step_of_mem he
  obtain ⟨hdog, hp⟩ := HeartbeatRun.inOrder hdistinct h₀ hfront
  rcases Heartbeats.step_cases hdistinct hdog hp hstep with
    ⟨log, -, rfl, -⟩ | ⟨k, r', req, found', rfl, -, hfind, -⟩
  · cases hmem
  · obtain ⟨rfl, rfl⟩ : r = r' ∧ found = found' := by simpa using hmem
    rw [hmatched r found he] at hfind
    exact hdog.find_zero hfind

/-- The first service answers. -/
theorem answers_matched_first : ∃ tr w,
    HeartbeatRun watchTwo watchTwoStart tr w ∧ .answered 0 (some 0) ∈ tr ∧
      ∀ r found, .answered r found ∈ tr → found = some r := by
  obtain ⟨log, hinit⟩ := watchTwoStart_init
  have hreplay : (replay (Heartbeats.step watchTwo) (fun _ _ => True)
      (.initial watchTwoStart) [.tick ⟨1, 0⟩ allSent,
        .respond 1 4 ⟨1, 50000000⟩]).any
      (fun o => decide (o.2 = [.answered 0 (some 0)])) = true := by
    decide +kernel
  obtain ⟨w, tr, hrun, hcheck⟩ := exists_run_of_replay hreplay
  obtain rfl : tr = [.answered 0 (some 0)] := of_decide_eq_true hcheck
  refine ⟨_, w, hrun, by simp,
    (answers_matched_iff (by decide) hinit hrun).mpr ?_⟩
  intro r found hmem
  simp only [List.mem_singleton, HeartbeatEvent.answered.injEq] at hmem
  exact hmem.1

/-- The second service answers first: its response goes to the record of the
first one, and when that one answers, no record is found. -/
theorem answer_of_second : ∃ tr w,
    HeartbeatRun watchTwo watchTwoStart tr w ∧
      tr = [.answered 1 (some 0), .answered 0 none] ∧ w.aborted = true := by
  have hreplay : (replay (Heartbeats.step watchTwo) (fun _ _ => True)
      (.initial watchTwoStart) [.tick ⟨1, 0⟩ allSent,
        .respond 0 4 ⟨1, 50000000⟩, .respond 0 4 ⟨1, 60000000⟩]).any
      (fun o => decide (o.2 = [.answered 1 (some 0), .answered 0 none] ∧
        o.1.aborted = true)) = true := by
    decide +kernel
  obtain ⟨w, tr, hrun, hcheck⟩ := exists_run_of_replay hreplay
  obtain ⟨htr, haborted⟩ := of_decide_eq_true hcheck
  exact ⟨tr, w, hrun, htr, haborted⟩

end Powerpack
end Eaf

import Mathlib.Data.List.Nodup
import Eaf.Foundation.LabelledRun
import Eaf.Powerpack.Monitor

/-!
# Message paths counted by many threads

`_monitor_update_message_path` looks for the record of a message path under
the read lock and counts in it.  When there is no record, the lock is given
back, and `_monitor_dataflow_insert_new_record` inserts one under the write
lock.  Threads of all services come here, and each of the two sections is one
step.
-/

namespace Eaf
namespace Powerpack

open KeyedTable LabelledRun

/-- The pair of a sender and a receiver. -/
abbrev Path := UInt32 × UInt32

/-- Where a thread is. -/
inductive PathPc
  /-- not in `_monitor_update_message_path` -/
  | idle
  /-- before the section under the read lock -/
  | lookup (p : Path)
  /-- before `_monitor_dataflow_insert_new_record` -/
  | insert (p : Path)
  deriving DecidableEq, Repr

/-- The message paths of the monitor and the threads that count in them. -/
structure PathThreads where
  /-- `dataflow.record` -/
  record : Table Path UInt64
  thread : List PathPc
  /-- records that were allocated and could not be inserted -/
  leaked : List Path

/-- What a thread does. -/
inductive PathAct
  /-- a send of the thread has succeeded, and the hook is called -/
  | send (t : Nat) (p : Path)
  | lookup (t : Nat)
  /-- `memory` is the result of `malloc` -/
  | insert (t : Nat) (memory : Bool)
  deriving DecidableEq, Repr

namespace PathThreads

/-- Some threads before their first send. -/
def initial (threads : Nat) : PathThreads :=
  ⟨fun _ => none, List.replicate threads .idle, []⟩

/-- A thread is somewhere else. -/
def goto (s : PathThreads) (t : Nat) (pc : PathPc) : PathThreads :=
  { s with thread := s.thread.set t pc }

/-- The section under the read lock. -/
def lookup (s : PathThreads) (t : Nat) (p : Path) : PathThreads :=
  match s.record p with
  | none => s.goto t (.insert p)
  | some count =>
      { s.goto t .idle with
        record := Function.update s.record p (some (count + 1)) }

/-- `_monitor_dataflow_insert_new_record`.  The assertion that the insertion
succeeds is not compiled into a release. -/
def insertNewRecord (s : PathThreads) (t : Nat) (p : Path) (memory : Bool) :
    PathThreads :=
  if memory then
    match s.record.insert p 1 with
    | none => { s.goto t .idle with leaked := p :: s.leaked }
    | some table => { s.goto t .idle with record := table }
  else s.goto t .idle

/-- One step. -/
def step (s : PathThreads) : PathAct → Option PathThreads
  | .send t p =>
      if s.thread[t]? = some .idle then some (s.goto t (.lookup p)) else none
  | .lookup t =>
      match s.thread[t]? with
      | some (.lookup p) => some (s.lookup t p)
      | _ => none
  | .insert t memory =>
      match s.thread[t]? with
      | some (.insert p) => some (s.insertNewRecord t p memory)
      | _ => none

end PathThreads

/-- One step of a run. -/
structure PathStep where
  before : PathThreads
  act : PathAct
  after : PathThreads

/-- The steps, each shown as a whole. -/
def PathTaken (s : PathThreads) (steps : List PathStep) (s' : PathThreads) :
    Prop :=
  ∃ a, s.step a = some s' ∧ steps = [⟨s, a, s'⟩]

/-- A run of some threads. -/
abbrev PathRun (threads : Nat) (tr : List PathStep) (s : PathThreads) : Prop :=
  Run PathTaken (PathThreads.initial threads) tr s

section Alone

variable {s : PathThreads} {t : Nat} {p : Path} {memory : Bool}

/-- A thread that is not interrupted does what the function does. -/
theorem PathThreads.alone {m : Monitor} (hrecord : s.record = m.dataflow) :
    (match s.record p with
      | none => (s.lookup t p).insertNewRecord t p memory
      | some _ => s.lookup t p).record =
      (m.updateMessagePath p.1 p.2 memory).dataflow := by
  cases hp : s.record p with
  | none =>
      have hm : m.dataflow (p.1, p.2) = none := by rw [← hrecord]; exact hp
      simp only [lookup, hp, insertNewRecord, Monitor.updateMessagePath, hm,
        Monitor.dataflowInsertNewRecord, goto]
      cases memory with
      | false => exact hrecord
      | true =>
          rw [if_pos rfl, if_pos rfl, Table.insert_of_none hp,
            Table.insert_of_none hm]
          rw [hrecord]
  | some count =>
      have hm : m.dataflow (p.1, p.2) = some count := by
        rw [← hrecord]
        exact hp
      simp only [lookup, hp, Monitor.updateMessagePath, hm]
      rw [hrecord]

end Alone

/-! ## What a step can do -/

/-- The thread is in the function for a path. -/
def PathPc.inside (p : Path) : PathPc → Bool
  | .idle => false
  | .lookup q | .insert q => q == p

/-- The thread has seen no record of the path. -/
def PathPc.inserting (p : Path) : PathPc → Bool
  | .idle | .lookup _ => false
  | .insert q => q == p

namespace PathThreads

/-- How many threads are in the function for a path. -/
def inside (s : PathThreads) (p : Path) : Nat := s.thread.countP (·.inside p)

/-- How many threads have seen no record of the path. -/
def inserting (s : PathThreads) (p : Path) : Nat :=
  s.thread.countP (·.inserting p)

variable {s s' : PathThreads} {a : PathAct} {t : Nat} {p : Path}
  {pc pc' : PathPc} {memory : Bool}

/-- A count of threads along a move of one of them. -/
theorem countP_goto {q : PathPc → Bool} (h : s.thread[t]? = some pc) :
    (s.goto t pc').thread.countP q + (if q pc then 1 else 0) =
      s.thread.countP q + (if q pc' then 1 else 0) := by
  obtain ⟨ht, hpc⟩ := List.getElem?_eq_some_iff.mp h
  have hle : (if q pc then 1 else 0) ≤ s.thread.countP q := by
    rw [← hpc]
    exact List.boole_getElem_le_countP ht
  show (s.thread.set t pc').countP q + _ = _
  rw [List.countP_set ht, hpc]
  omega

/-- Everything a step can be: a send, a count in a record, a record that is
not found, an allocation that fails, a record inserted, a record refused. -/
inductive Step (s : PathThreads) : PathAct → PathThreads → Prop
  | send {t : Nat} {p : Path} (h : s.thread[t]? = some .idle) :
      Step s (.send t p) (s.goto t (.lookup p))
  | count {t : Nat} {p : Path} {n : UInt64}
      (h : s.thread[t]? = some (.lookup p)) (hp : s.record p = some n) :
      Step s (.lookup t) { s.goto t .idle with
        record := Function.update s.record p (some (n + 1)) }
  | missing {t : Nat} {p : Path} (h : s.thread[t]? = some (.lookup p))
      (hp : s.record p = none) : Step s (.lookup t) (s.goto t (.insert p))
  | noMemory {t : Nat} {p : Path} (h : s.thread[t]? = some (.insert p)) :
      Step s (.insert t false) (s.goto t .idle)
  | inserted {t : Nat} {p : Path} (h : s.thread[t]? = some (.insert p))
      (hp : s.record p = none) : Step s (.insert t true)
        { s.goto t .idle with
          record := Function.update s.record p (some 1) }
  | refused {t : Nat} {p : Path} (h : s.thread[t]? = some (.insert p))
      (hp : (s.record p).isSome) : Step s (.insert t true)
        { s.goto t .idle with leaked := p :: s.leaked }

theorem step_cases (h : s.step a = some s') : Step s a s' := by
  cases a with
  | send t p =>
      simp only [step] at h
      split at h
      · next hidle =>
          obtain rfl := Option.some.inj h
          exact .send hidle
      · cases h
  | lookup t =>
      simp only [step] at h
      split at h
      · next p hpc =>
          obtain rfl := Option.some.inj h
          unfold lookup
          cases hp : s.record p with
          | none => exact .missing hpc hp
          | some n => exact .count hpc hp
      · cases h
  | insert t memory =>
      simp only [step] at h
      split at h
      · next p hpc =>
          obtain rfl := Option.some.inj h
          unfold insertNewRecord
          cases memory with
          | false => exact .noMemory hpc
          | true =>
              rw [if_pos rfl]
              cases hp : s.record p with
              | none =>
                  rw [Table.insert_of_none hp]
                  exact .inserted hpc hp
              | some n =>
                  rw [show s.record.insert p 1 = none from
                    Table.insert_eq_none.mpr (by rw [hp]; rfl)]
                  exact .refused hpc (by rw [hp]; rfl)
      · cases h

end PathThreads

end Powerpack
end Eaf

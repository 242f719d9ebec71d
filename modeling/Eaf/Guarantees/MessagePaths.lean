import Eaf.Powerpack.PathThreads

/-!
# What is lost of the message paths

Between the lookup that finds no record and the insertion, another thread may
find no record of the same path.  Then both insert, the second insertion fails,
and its message is not counted.  A message is also lost when there is no memory
for a record.  Nothing else is lost.
-/

namespace Eaf
namespace Powerpack

open KeyedTable LabelledRun PathThreads

variable {s s' : PathThreads} {a : PathAct} {p : Path} {e : PathStep}
  {tr : List PathStep} {k n threads : Nat}

/-! ## What is promised -/

/-- The step starts the count of a message of the path. -/
def PathStep.sends (p : Path) (e : PathStep) : Bool :=
  match e.act with
  | .send _ q => q == p
  | .lookup _ => false
  | .insert _ _ => false

/-- The step inserts a record where there is one. -/
def PathStep.refused (p : Path) (e : PathStep) : Bool :=
  match e.act with
  | .send _ _ => false
  | .lookup _ => false
  | .insert t memory =>
      memory && decide (e.before.thread[t]? = some (.insert p)) &&
        (e.before.record p).isSome

/-- The step ends a call without a record for want of memory. -/
def PathStep.noMemory (p : Path) (e : PathStep) : Bool :=
  match e.act with
  | .send _ _ => false
  | .lookup _ => false
  | .insert t memory =>
      !memory && decide (e.before.thread[t]? = some (.insert p))

/-- The step ends a call without counting its message. -/
def PathStep.loses (p : Path) (e : PathStep) : Bool :=
  e.refused p || e.noMemory p

/-- The count that is stored for a path. -/
def PathThreads.count (s : PathThreads) (p : Path) : Nat :=
  ((s.record p).map UInt64.toNat).getD 0

/-- All calls have returned. -/
def PathThreads.AllReturned (s : PathThreads) : Prop :=
  ∀ pc ∈ s.thread, pc = .idle

/-- No insertion has failed, no record is leaked, and once all calls have
returned every count is the number of the sends. -/
structure PathsCounted (tr : List PathStep) (s : PathThreads) : Prop where
  inserted : ∀ e ∈ tr, ∀ p, e.refused p = false
  leaked : s.leaked = []
  counted : s.AllReturned → ∀ p, s.count p = tr.countP (·.sends p)

/-- The condition on a step: when a thread finds no record of a path, no other
thread is about to insert one; and there is memory. -/
def PathStep.meets (e : PathStep) : Bool :=
  match e.act with
  | .send _ _ => true
  | .lookup t =>
      match e.before.thread[t]? with
      | some (.lookup p) =>
          (e.before.record p).isSome || e.before.inserting p == 0
      | some .idle => true
      | some (.insert _) => true
      | none => true
  | .insert _ memory => memory

/-- The condition on a run: all steps meet it, and the numbers of the sends
are values of the counters. -/
def MeetsCondition (tr : List PathStep) : Prop :=
  (∀ e ∈ tr, e.meets = true) ∧ ∀ p, tr.countP (·.sends p) < 2 ^ 64

/-! ## Nothing else is lost -/

/-- The record of a path has counted `k` messages. -/
def PathThreads.Stored (s : PathThreads) (p : Path) (k : Nat) : Prop :=
  s.record p = if k = 0 then none else some (UInt64.ofNat k)

theorem PathThreads.Stored.count_eq (h : s.Stored p k) :
    s.count p = k % 2 ^ 64 := by
  unfold Stored at h
  unfold count
  rw [h]
  split
  · next hk => simp [hk]
  · rfl

/-- A thread that moves and stays in the function for a path, or out of it. -/
theorem PathThreads.inside_goto (p : Path) {t : Nat} {pc : PathPc} (pc' : PathPc)
    (h : s.thread[t]? = some pc) :
    (s.goto t pc').inside p + (if pc.inside p then 1 else 0) =
      s.inside p + (if pc'.inside p then 1 else 0) :=
  countP_goto h

theorem PathThreads.inserting_goto (p : Path) {t : Nat} {pc : PathPc} (pc' : PathPc)
    (h : s.thread[t]? = some pc) :
    (s.goto t pc').inserting p + (if pc.inserting p then 1 else 0) =
      s.inserting p + (if pc'.inserting p then 1 else 0) :=
  countP_goto h

/-- A step that starts a call, counts a message, loses it or does nothing of
the kind. -/
theorem PathThreads.Step.account (h : Step s a s') (hk : s.Stored p k) :
    ∃ k', s'.Stored p k' ∧
      k' + (if PathStep.loses p ⟨s, a, s'⟩ then 1 else 0) + s'.inside p =
        k + s.inside p + (if PathStep.sends p ⟨s, a, s'⟩ then 1 else 0) := by
  cases h with
  | @send t q h =>
      have hmove := inside_goto p (.lookup q) h
      refine ⟨k, hk, ?_⟩
      simp [PathPc.inside, PathStep.loses, PathStep.refused,
        PathStep.noMemory, PathStep.sends] at hmove ⊢
      omega
  | @count t q n h hq =>
      have hmove := inside_goto p .idle h
      have hsame (r : Table Path UInt64) :
          PathThreads.inside { s.goto t .idle with record := r } p =
            (s.goto t .idle).inside p := rfl
      rw [hsame]
      simp [PathPc.inside, PathStep.loses, PathStep.refused,
        PathStep.noMemory, PathStep.sends] at hmove ⊢
      by_cases hqp : q = p
      · subst hqp
        refine ⟨k + 1, ?_, by simp at hmove; omega⟩
        have hk' : k ≠ 0 := by
          rintro rfl
          simp [Stored, hq] at hk
        have hn : n = UInt64.ofNat k := by
          simpa [Stored, hq, hk'] using hk
        simp [Stored, hn, UInt64.ofNat_add]
      · refine ⟨k, ?_, by simp [hqp] at hmove; omega⟩
        have hpq : p ≠ q := fun h => hqp h.symm
        simpa [Stored, Function.update_of_ne hpq] using hk
  | @missing t q h hq =>
      have hmove := inside_goto p (.insert q) h
      refine ⟨k, hk, ?_⟩
      simp [PathPc.inside, PathStep.loses, PathStep.refused,
        PathStep.noMemory, PathStep.sends] at hmove ⊢
      omega
  | @noMemory t q h =>
      have hmove := inside_goto p .idle h
      refine ⟨k, hk, ?_⟩
      simp [PathPc.inside, PathStep.loses, PathStep.refused,
        PathStep.noMemory, PathStep.sends, h] at hmove ⊢
      omega
  | @inserted t q h hq =>
      have hmove := inside_goto p .idle h
      have hsame (r : Table Path UInt64) :
          PathThreads.inside { s.goto t .idle with record := r } p =
            (s.goto t .idle).inside p := rfl
      rw [hsame]
      by_cases hqp : q = p
      · subst hqp
        have hk' : k = 0 := by
          by_contra hne
          simp [Stored, hq, hne] at hk
        refine ⟨1, by simp [Stored], ?_⟩
        simp [PathPc.inside, PathStep.loses, PathStep.refused,
          PathStep.noMemory, PathStep.sends, hq, hk'] at hmove ⊢
        omega
      · have hpq : p ≠ q := fun h => hqp h.symm
        refine ⟨k, by simpa [Stored, Function.update_of_ne hpq] using hk, ?_⟩
        simp [PathPc.inside, PathStep.loses, PathStep.refused,
          PathStep.noMemory, PathStep.sends, h, hqp] at hmove ⊢
        omega
  | @refused t q h hq =>
      have hmove := inside_goto p .idle h
      have hsame (l : List Path) :
          PathThreads.inside { s.goto t .idle with leaked := l } p =
            (s.goto t .idle).inside p := rfl
      rw [hsame]
      refine ⟨k, hk, ?_⟩
      by_cases hqp : q = p
      · subst hqp
        simp [PathPc.inside, PathStep.loses, PathStep.refused,
          PathStep.noMemory, PathStep.sends, h, hq] at hmove ⊢
        omega
      · simp [PathPc.inside, PathStep.loses, PathStep.refused,
          PathStep.noMemory, PathStep.sends, h, hqp] at hmove ⊢
        omega

/-- Every send is counted, is lost, or is still on its way. -/
theorem PathRun.account (h : PathRun threads tr s) (p : Path) :
    ∃ k, s.Stored p k ∧
      tr.countP (·.sends p) = k + tr.countP (·.loses p) + s.inside p := by
  refine h.invariant (P := fun tr s => ∃ k, s.Stored p k ∧
    tr.countP (·.sends p) = k + tr.countP (·.loses p) + s.inside p) ?_ ?_
  · refine ⟨0, rfl, ?_⟩
    simp [inside, initial, List.countP_replicate, PathPc.inside]
  · rintro tr s steps s' - ⟨k, hk, hsum⟩ ⟨a, hstep, rfl⟩
    obtain ⟨k', hk', hsum'⟩ := (step_cases hstep).account hk
    refine ⟨k', hk', ?_⟩
    rw [List.countP_append, List.countP_append, List.countP_singleton,
      List.countP_singleton]
    omega

/-- A record is leaked only by an insertion that is refused. -/
theorem PathRun.leaked_eq_nil (h : PathRun threads tr s)
    (hrefused : ∀ e ∈ tr, ∀ p, e.refused p = false) : s.leaked = [] := by
  refine h.invariant (P := fun tr s =>
    (∀ e ∈ tr, ∀ p, e.refused p = false) → s.leaked = [])
    (fun _ => rfl) ?_ hrefused
  rintro tr s steps s' - ih ⟨a, hstep, rfl⟩ hall
  have hleaked := ih fun e he => hall e (List.mem_append_left _ he)
  have hlast := hall ⟨s, a, s'⟩ (by simp)
  cases step_cases hstep with
  | send | count | missing | noMemory | inserted => exact hleaked
  | @refused t q ht hq =>
      have := hlast q
      simp [PathStep.refused, ht, hq] at this

theorem PathThreads.inserting_pos {t : Nat}
    (h : s.thread[t]? = some (.insert p)) : 0 < s.inserting p := by
  refine List.countP_pos_iff.mpr ⟨_, List.mem_of_getElem? h, ?_⟩
  simp [PathPc.inserting]

/-! ## The condition is enough -/

/-- At most one thread is about to insert a record of a path, and none where
there is one. -/
def PathThreads.Exclusive (s : PathThreads) : Prop :=
  ∀ p, s.inserting p ≤ 1 ∧ ((s.record p).isSome → s.inserting p = 0)

/-- A step that meets the condition loses no message. -/
theorem PathThreads.Step.exclusive (h : Step s a s') (hs : s.Exclusive)
    (hmeets : PathStep.meets ⟨s, a, s'⟩ = true) :
    s'.Exclusive ∧ ∀ p, PathStep.loses p ⟨s, a, s'⟩ = false := by
  cases h with
  | @send t q h =>
      refine ⟨fun p => ?_, fun p => rfl⟩
      have hmove := inserting_goto p (.lookup q) h
      simp [PathPc.inserting] at hmove
      rw [hmove]
      exact hs p
  | @count t q n h hq =>
      refine ⟨fun p => ?_, fun p => rfl⟩
      have hmove := inserting_goto p .idle h
      simp [PathPc.inserting] at hmove
      show (s.goto t .idle).inserting p ≤ 1 ∧ _
      refine ⟨by rw [hmove]; exact (hs p).1, fun hsome => ?_⟩
      show (s.goto t .idle).inserting p = 0
      rw [hmove]
      by_cases hpq : p = q
      · subst hpq
        exact (hs p).2 (by rw [hq]; rfl)
      · exact (hs p).2 (by simpa [Function.update_of_ne hpq] using hsome)
  | @missing t q h hq =>
      refine ⟨fun p => ?_, fun p => rfl⟩
      have hmove := inserting_goto p (.insert q) h
      by_cases hqp : q = p
      · subst hqp
        have hnone : s.inserting q = 0 := by
          simpa [PathStep.meets, h, hq] using hmeets
        simp [PathPc.inserting, hnone] at hmove
        rw [hmove]
        refine ⟨Nat.le_refl _, fun hsome => ?_⟩
        rw [show (s.goto t (.insert q)).record q = none from hq] at hsome
        cases hsome
      · simp [PathPc.inserting, hqp] at hmove
        rw [hmove]
        exact hs p
  | noMemory h => cases hmeets
  | @inserted t q h hq =>
      constructor
      · intro p
        have hmove := inserting_goto p .idle h
        show (s.goto t .idle).inserting p ≤ 1 ∧ _
        by_cases hqp : q = p
        · subst hqp
          have hle := (hs q).1
          simp [PathPc.inserting] at hmove
          refine ⟨by omega, fun _ => ?_⟩
          show (s.goto t .idle).inserting q = 0
          omega
        · have hpq : p ≠ q := fun h => hqp h.symm
          simp [PathPc.inserting, hqp] at hmove
          refine ⟨by rw [hmove]; exact (hs p).1, fun hsome => ?_⟩
          show (s.goto t .idle).inserting p = 0
          rw [hmove]
          exact (hs p).2 (by simpa [Function.update_of_ne hpq] using hsome)
      · intro p
        by_cases hqp : q = p
        · subst hqp
          simp [PathStep.loses, PathStep.refused, PathStep.noMemory, hq]
        · simp [PathStep.loses, PathStep.refused, PathStep.noMemory, h, hqp]
  | @refused t q h hq =>
      have hpos := inserting_pos h
      have hzero := (hs q).2 hq
      omega

/-! ## The condition is necessary -/

/-- A message of the path is lost, or bound to be lost: more threads are about
to insert a record than there can be records. -/
def PathThreads.Doomed (s : PathThreads) (p : Path) (lost : Nat) : Prop :=
  1 ≤ lost ∨ (s.record p = none ∧ 2 ≤ s.inserting p) ∨
    ((s.record p).isSome ∧ 1 ≤ s.inserting p)

theorem PathThreads.Step.doomed (h : Step s a s') (hs : s.Doomed p n) :
    s'.Doomed p (n + if PathStep.loses p ⟨s, a, s'⟩ then 1 else 0) := by
  obtain hlost | hwait := hs
  · exact .inl (by omega)
  cases h with
  | @send t q h =>
      have hmove := inserting_goto p (.lookup q) h
      simp [PathPc.inserting] at hmove
      unfold Doomed
      rw [hmove]
      exact .inr hwait
  | @count t q m h hq =>
      have hmove := inserting_goto p .idle h
      simp [PathPc.inserting] at hmove
      refine .inr ?_
      show (_ ∧ 2 ≤ (s.goto t .idle).inserting p) ∨
        (_ ∧ 1 ≤ (s.goto t .idle).inserting p)
      rw [hmove]
      by_cases hpq : p = q
      · subst hpq
        refine .inr ⟨by simp, ?_⟩
        obtain ⟨-, htwo⟩ | ⟨-, hone⟩ := hwait
        · omega
        · exact hone
      · simpa [Function.update_of_ne hpq] using hwait
  | @missing t q h hq =>
      have hmove := inserting_goto p (.insert q) h
      have hle : s.inserting p ≤ (s.goto t (.insert q)).inserting p := by
        simp [PathPc.inserting] at hmove
        omega
      obtain ⟨hnone, htwo⟩ | ⟨hsome, hone⟩ := hwait
      · exact .inr (.inl ⟨hnone, by omega⟩)
      · exact .inr (.inr ⟨hsome, by omega⟩)
  | @noMemory t q h =>
      by_cases hqp : q = p
      · subst hqp
        refine .inl ?_
        simp [PathStep.loses, PathStep.noMemory, h]
      · have hmove := inserting_goto p .idle h
        simp [PathPc.inserting, hqp] at hmove
        unfold Doomed
        rw [hmove]
        exact .inr hwait
  | @inserted t q h hq =>
      have hmove := inserting_goto p .idle h
      refine .inr ?_
      show (_ ∧ 2 ≤ (s.goto t .idle).inserting p) ∨
        (_ ∧ 1 ≤ (s.goto t .idle).inserting p)
      by_cases hqp : q = p
      · subst hqp
        simp [PathPc.inserting] at hmove
        refine .inr ⟨by simp, ?_⟩
        obtain ⟨-, htwo⟩ | ⟨hsome, -⟩ := hwait
        · omega
        · rw [hq] at hsome
          cases hsome
      · have hpq : p ≠ q := fun h => hqp h.symm
        simp [PathPc.inserting, hqp] at hmove
        rw [hmove]
        simpa [Function.update_of_ne hpq] using hwait
  | @refused t q h hq =>
      by_cases hqp : q = p
      · subst hqp
        refine .inl ?_
        simp [PathStep.loses, PathStep.refused, h, hq]
      · have hmove := inserting_goto p .idle h
        simp [PathPc.inserting, hqp] at hmove
        refine .inr ?_
        show (_ ∧ 2 ≤ (s.goto t .idle).inserting p) ∨
          (_ ∧ 1 ≤ (s.goto t .idle).inserting p)
        rw [hmove]
        exact hwait

/-- Along a run, what is bound to be lost stays so, or is lost. -/
theorem PathThreads.doomed_of_run {rest : List PathStep}
    (hrun : Run PathTaken s rest s') (hs : s.Doomed p n) :
    s'.Doomed p (n + rest.countP (·.loses p)) := by
  refine hrun.invariant
    (P := fun rest s' => s'.Doomed p (n + rest.countP (·.loses p))) hs ?_
  rintro rest u steps v - hu ⟨a, hstep, rfl⟩
  have hv := (step_cases hstep).doomed hu
  rwa [List.countP_append, List.countP_singleton, ← Nat.add_assoc]

/-- When all calls have returned, a doomed message is lost. -/
theorem PathThreads.Doomed.lost (h : s.Doomed p n) (hret : s.AllReturned) :
    1 ≤ n := by
  have hzero : s.inserting p = 0 := by
    refine List.countP_eq_zero.mpr fun pc hpc => ?_
    rw [hret pc hpc]
    simp [PathPc.inserting]
  obtain hlost | ⟨-, hwait⟩ | ⟨-, hwait⟩ := h
  · exact hlost
  · omega
  · omega

/-- A step that does not meet the condition loses a message, or a message is
bound to be lost after it. -/
theorem PathThreads.Step.doomed_of_not_meets (h : Step s a s')
    (hnot : ¬PathStep.meets ⟨s, a, s'⟩ = true) :
    ∃ p, s'.Doomed p (if PathStep.loses p ⟨s, a, s'⟩ then 1 else 0) := by
  cases h with
  | send h => exact absurd rfl hnot
  | @count t q m h hq =>
      exact absurd (by simp [PathStep.meets, h, hq]) hnot
  | @missing t q h hq =>
      refine ⟨q, .inr (.inl ⟨hq, ?_⟩)⟩
      have hmove := inserting_goto q (.insert q) h
      simp [PathPc.inserting] at hmove
      have hpos : s.inserting q ≠ 0 := by
        intro hzero
        exact hnot (by simp [PathStep.meets, h, hzero])
      omega
  | @noMemory t q h =>
      refine ⟨q, .inl ?_⟩
      simp [PathStep.loses, PathStep.noMemory, h]
  | inserted h => exact absurd rfl hnot
  | refused h => exact absurd rfl hnot

/-! ## The message paths -/

/-- In a run whose steps meet the condition nothing is lost. -/
theorem PathRun.loses_eq_false (h : PathRun threads tr s)
    (hmeets : ∀ e ∈ tr, e.meets = true) :
    s.Exclusive ∧ ∀ e ∈ tr, ∀ p, e.loses p = false := by
  refine h.invariant (P := fun tr s => (∀ e ∈ tr, e.meets = true) →
    s.Exclusive ∧ ∀ e ∈ tr, ∀ p, e.loses p = false) ?_ ?_ hmeets
  · intro _
    refine ⟨fun p => ⟨?_, fun hsome => by cases hsome⟩, by simp⟩
    simp [inserting, initial, List.countP_replicate, PathPc.inserting]
  · rintro tr s steps s' - ih ⟨a, hstep, rfl⟩ hall
    obtain ⟨hs, hfront⟩ := ih fun e he => hall e (List.mem_append_left _ he)
    obtain ⟨hs', hlast⟩ :=
      (step_cases hstep).exclusive hs (hall ⟨s, a, s'⟩ (by simp))
    refine ⟨hs', fun e he => ?_⟩
    rcases List.mem_append.mp he with he | he
    · exact hfront e he
    · obtain rfl := List.mem_singleton.mp he
      exact hlast

theorem PathThreads.AllReturned.inside_eq_zero (h : s.AllReturned) :
    s.inside p = 0 := by
  refine List.countP_eq_zero.mpr fun pc hpc => ?_
  rw [h pc hpc]
  simp [PathPc.inside]

theorem PathRun.pathsCounted (h : PathRun threads tr s)
    (hcond : MeetsCondition tr) : PathsCounted tr s := by
  have hloses := (h.loses_eq_false hcond.1).2
  have hrefused (e : PathStep) (he : e ∈ tr) (p : Path) :
      e.refused p = false := by
    have := hloses e he p
    simp only [PathStep.loses, Bool.or_eq_false_iff] at this
    exact this.1
  refine ⟨hrefused, h.leaked_eq_nil hrefused, fun hret p => ?_⟩
  obtain ⟨k, hk, hsum⟩ := h.account p
  have hlost : tr.countP (·.loses p) = 0 :=
    List.countP_eq_zero.mpr fun e he => by simp [hloses e he p]
  have hinside : s.inside p = 0 := hret.inside_eq_zero
  have hsends := hcond.2 p
  rw [hk.count_eq, Nat.mod_eq_of_lt (by omega)]
  omega

/-- When the counts are right at the end, no message has been lost. -/
theorem PathRun.lost_eq_zero (h : PathRun threads tr s)
    (hret : s.AllReturned) (hcounted : PathsCounted tr s) :
    tr.countP (·.loses p) = 0 ∧ tr.countP (·.sends p) < 2 ^ 64 := by
  obtain ⟨k, hk, hsum⟩ := h.account p
  have hcount := hcounted.counted hret p
  rw [hk.count_eq] at hcount
  have hle := Nat.mod_le k (2 ^ 64)
  have hlt := Nat.mod_lt k (show 0 < 2 ^ 64 by decide)
  constructor
  · omega
  · omega

/-- **Message paths.**  In a run whose steps meet the condition, no insertion
fails, no record is leaked, and the counts are right when all calls have
returned; and a run whose calls have all returned is right only then. -/
theorem message_paths_counted_iff (h : PathRun threads tr s) :
    (MeetsCondition tr → PathsCounted tr s) ∧
      (s.AllReturned → PathsCounted tr s → MeetsCondition tr) := by
  refine ⟨h.pathsCounted, fun hret hcounted => ⟨fun e he => ?_, fun p => ?_⟩⟩
  · by_contra hnot
    obtain ⟨front, m, steps, n, rest, hfront, ⟨a, hstep, rfl⟩, hrest, rfl,
      hmem⟩ := h.step_of_mem he
    obtain rfl := List.mem_singleton.mp hmem
    obtain ⟨p, hdoomed⟩ := (step_cases hstep).doomed_of_not_meets hnot
    have hend := (doomed_of_run hrest hdoomed).lost hret
    have hzero := (h.lost_eq_zero hret hcounted (p := p)).1
    rw [List.countP_append, List.countP_append, List.countP_singleton] at hzero
    omega
  · exact (h.lost_eq_zero hret hcounted).2

/-- A replay of what the threads do, with the steps. -/
def PathThreads.next (s : PathThreads) (a : PathAct) :
    Option (PathThreads × List PathStep) :=
  (s.step a).map fun s' => (s', [⟨s, a, s'⟩])

/-- A replay whose outcome passes a check yields a run that passes it. -/
theorem PathRun.exists_of_replay {acts : List PathAct}
    {check : PathThreads × List PathStep → Bool}
    (h : (replay next (fun _ _ => True) (initial threads) acts).any check =
      true) :
    ∃ s tr, PathRun threads tr s ∧ check (s, tr) = true := by
  obtain ⟨s, tr, hrun, hcheck⟩ := exists_run_of_replay h
  refine ⟨s, tr, hrun.mono ?_, hcheck⟩
  rintro s steps s' ⟨a, -, hnext⟩
  obtain ⟨u, hstep, heq⟩ := Option.map_eq_some_iff.mp hnext
  obtain ⟨rfl, rfl⟩ := Prod.mk.inj heq
  exact ⟨a, hstep, rfl⟩

/-- The second thread comes when the first one has inserted its record. -/
theorem message_paths_counted_after : ∃ tr s, PathRun 2 tr s ∧
    PathsCounted tr s ∧ s.count (1, 2) = 2 := by
  have hreplay : (replay next (fun _ _ => True) (initial 2)
      [.send 0 (1, 2), .send 1 (1, 2), .lookup 0, .insert 0 true,
        .lookup 1]).any (fun o => decide (o.2.all PathStep.meets ∧
          o.2.length = 5 ∧ o.1.count (1, 2) = 2)) = true := by
    decide +kernel
  obtain ⟨s, tr, hrun, hcheck⟩ := PathRun.exists_of_replay hreplay
  obtain ⟨hmeets, hlength, hcount⟩ := of_decide_eq_true hcheck
  refine ⟨tr, s, hrun, (message_paths_counted_iff hrun).1 ⟨?_, ?_⟩, hcount⟩
  · simpa using hmeets
  · intro p
    have hle : tr.countP (·.sends p) ≤ tr.length := List.countP_le_length
    have hfive : tr.length = 5 := hlength
    omega

/-- Both threads find no record: the second insertion fails, its record is
leaked, and one message of two is counted. -/
theorem first_messages_raced : ∃ tr s, PathRun 2 tr s ∧ s.AllReturned ∧
    s.leaked = [(1, 2)] ∧ s.count (1, 2) = 1 ∧
      tr.countP (·.sends (1, 2)) = 2 ∧ ¬PathsCounted tr s := by
  have hreplay : (replay next (fun _ _ => True) (initial 2)
      [.send 0 (1, 2), .send 1 (1, 2), .lookup 0, .lookup 1, .insert 0 true,
        .insert 1 true]).any (fun o => decide (
          o.1.thread = [.idle, .idle] ∧ o.1.leaked = [(1, 2)] ∧
          o.1.count (1, 2) = 1 ∧ o.2.countP (·.sends (1, 2)) = 2)) = true := by
    decide +kernel
  obtain ⟨s, tr, hrun, hcheck⟩ := PathRun.exists_of_replay hreplay
  obtain ⟨hidle, hleaked, hcount, hsends⟩ := of_decide_eq_true hcheck
  refine ⟨tr, s, hrun, ?_, hleaked, hcount, hsends, fun hright => ?_⟩
  · intro pc hpc
    rw [hidle] at hpc
    simpa using hpc
  · have hnil := hright.leaked
    rw [hleaked] at hnil
    cases hnil

end Powerpack
end Eaf

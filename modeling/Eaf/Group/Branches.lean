import Eaf.Core.Fiber
import Eaf.Group.MessageHandling

/-!
# The branch of a service

`runtime.local.branch` is where the handler of a service goes on when it is
called.  It is zero whenever the service has no current message, so that the
handler of a new message starts from the top, and between a yield and the call
that resumes it nobody changes it.
-/

namespace Eaf
namespace Core

open LabelledRun Coroutine

variable {σ ι : Type*}

variable {c : GroupTable} {e : Env} {G G' : Group} {o : Outcome}
  {gevents : List GroupEvent} {i : Nat} {r : MsgqRecord}

@[simp] theorem Group.finishServiceInit_cc0 (G : Group) (i : Nat) :
    (G.finishServiceInit i).cc0 = G.cc0 := by
  unfold Group.finishServiceInit
  split <;> rfl

@[simp] theorem Group.pushState_cc0 (G : Group) (i : Nat) :
    (G.pushState i).cc0 = G.cc0 := by
  unfold Group.pushState
  split <;> rfl

/-- The yield bit was cleared and no handler has returned since. -/
def Pc.cleared : Pc → Bool
  | .inInit _ _ | .handle _ _ | .dispatch _ _ | .popMsg _ _ | .hookBefore _ _
  | .inHandler _ _ => true
  | _ => false

/-- The handler of a new message will find the branch of its service at zero,
and the yield bit cleared. -/
structure Group.Unbranched (i : Nat) (G : Group) : Prop where
  idle : (G.table i).curMsg = none → (G.table i).state ≠ .exit0 →
    (G.table i).state ≠ .exit1 → (∀ site, G.worker ≠ .returned site) →
    (G.table i).branch = 0
  taken : ∀ ph, G.worker = .hookBefore ph i → (G.table i).branch = 0
  cleared : G.worker.cleared = true → G.cc0 = false

/-- The worker moves on without touching the service. -/
theorem Group.Unbranched.moves (hu : G.Unbranched i)
    (htable : G'.table i = G.table i)
    (hhere : ∀ site, G.worker ≠ .returned site)
    (hbefore : ∀ ph, G'.worker ≠ .hookBefore ph i)
    (hcleared : G'.worker.cleared = true → G'.cc0 = false) :
    G'.Unbranched i where
  idle hcur hexit0 hexit1 _ := by
    rw [htable] at hcur hexit0 hexit1 ⊢
    exact hu.idle hcur hexit0 hexit1 hhere
  taken ph hpc := absurd hpc (hbefore ph)
  cleared := hcleared

/-- The worker keeps it so. -/
theorem WorkerTrans.unbranched (inv : GroupInv c G) (hi : i < c.size)
    (h : WorkerTrans c e G o G' gevents) (hu : G.Unbranched i) :
    G'.Unbranched i := by
  have hholds := (inv.sound i hi).holds
  have hcleared := hu.cleared
  cases h
  case dispatchReenter fn h _ _ _ | beforeStart fn h _ _ _ _ =>
    refine hu.moves rfl (by simp [h]) (by cases fn <;> simp [handlerPc])
      fun _ => hcleared (by rw [h]; rfl)
  case initDone idx caller h hcall hyield =>
    have hclear := hcleared (by rw [h]; rfl)
    refine ⟨fun hcur hexit0 hexit1 _ => ?_, by cases caller <;> simp [afterInit],
      fun _ => by simpa using hclear⟩
    by_cases hk : i = idx
    · simp [hk]
    · simp [hk] at hcur hexit0 hexit1 ⊢
      exact hu.idle hcur hexit0 hexit1 (by simp [h])
  case popSome k r rest h _ | tdFreeCur k r h | popNone k h _
    | handlerReturn k h _ | handledYield k r h _ _ | reset k r h _
    | tdExit0 k h _ _ | tdPopSome k r rest h _ | tdSetExit1 k h
    | exitExit0 k h _ _ | exitExit1 k h _ =>
    have hidle := hu.idle
    rw [h] at hholds
    by_cases hk : i = k
    · subst hk
      constructor <;> simp_all [Pc.cleared, Pc.Holds]
    · constructor <;> simp_all [Pc.cleared, Ne.symm hk]
  all_goals
    refine hu.moves rfl ?_ ?_ ?_ <;> simp_all [Pc.cleared]

/-- What everybody but the worker does to a service leaves its branch alone, and
its current message too while the worker is there, and does not bring the
service back from its exit. -/
structure Group.SameFiber (i : Nat) (G G' : Group) : Prop where
  worker : G'.worker = G.worker
  cc0 : G'.cc0 = G.cc0
  branch : (G'.table i).branch = (G.table i).branch
  curMsg : (G'.table i).curMsg = (G.table i).curMsg ∨
    (G'.table i).curMsg = none ∧ ∃ site, G.worker = .returned site
  exit : (G.table i).state = .exit0 ∨ (G.table i).state = .exit1 →
    (G'.table i).state = .exit0 ∨ (G'.table i).state = .exit1

namespace Group.SameFiber

theorem of_eq (h : G' = G) : G.SameFiber i G' := by
  rw [h]
  exact ⟨rfl, rfl, rfl, .inl rfl, id⟩

/-- Nothing but the state of one service and its queue changes. -/
theorem update {j : Nat} {S : Service} (hworker : G'.worker = G.worker)
    (hcc : G'.cc0 = G.cc0) (htable : G'.table = Function.update G.table j S)
    (hbranch : S.branch = (G.table j).branch)
    (hcur : S.curMsg = (G.table j).curMsg ∨
      S.curMsg = none ∧ ∃ site, G.worker = .returned site)
    (hexit : (G.table j).state = .exit0 ∨ (G.table j).state = .exit1 →
      S.state = .exit0 ∨ S.state = .exit1) : G.SameFiber i G' := by
  by_cases hij : i = j
  · subst hij
    exact ⟨hworker, hcc, by simp [htable, hbranch], by simpa [htable] using hcur,
      by simpa [htable] using hexit⟩
  · exact ⟨hworker, hcc, by simp [htable, hij], .inl (by simp [htable, hij]),
      by simp [htable, hij]⟩

/-- The branch of a service without a message stays zero. -/
theorem unbranched (h : G.SameFiber i G') (hu : G.Unbranched i) :
    G'.Unbranched i where
  idle hcur hexit0 hexit1 hreturned := by
    rw [h.branch]
    rw [h.worker] at hreturned
    have halive := mt h.exit (by simp [hexit0, hexit1])
    refine hu.idle ?_ (by tauto) (by tauto) hreturned
    rcases h.curMsg with hsame | ⟨-, site, hsite⟩
    · rwa [← hsame]
    · exact absurd hsite (hreturned site)
  taken ph hpc := by
    rw [h.branch]
    exact hu.taken ph (h.worker ▸ hpc)
  cleared hpc := by
    rw [h.cc0]
    exact hu.cleared (h.worker ▸ hpc)

end Group.SameFiber

/-- A push changes the state and the queue of a service only. -/
theorem Group.pushMsg_sameFiber {j : Nat} (h : G.pushMsg j r = some G') :
    G.SameFiber i G' := by
  have hcc : G'.cc0 = G.cc0 := by
    unfold Group.pushMsg at h
    split at h
    · cases h
    · cases h
      simp
  obtain ⟨hexit0, htable, hworker, -⟩ := Group.pushMsg_some h
  refine .update hworker hcc htable rfl (.inl rfl) ?_
  rintro (hst | hst)
  · exact absurd hst hexit0
  · rw [hst]
    exact .inr rfl

theorem Group.resumeService_sameFiber {j : Nat}
    (h : G.resumeService j = some G') : G.SameFiber i G' := by
  obtain ⟨hst, rfl⟩ := Group.resumeService_some h
  refine .update rfl rfl rfl rfl (.inl rfl) ?_
  simp [hst]

/-- The loader finds every service in its first state. -/
theorem Group.loadFixState_sameFiber (hraw : G.Raw c) (hi : i < c.size) :
    G.SameFiber i (G.loadFixState c) where
  worker := Group.loadFixState_worker c G
  cc0 := Group.loadFixState_frame Group.cc0 (fun _ _ _ => rfl) c G
  branch := by simp [hi]
  curMsg := .inl (by simp [hi])
  exit := by simp [hraw i hi]

/-! ## A handler that is a coroutine -/

/-- The service has yielded, and its branch is the label of the yield behind
which the handler has this left to do. -/
def Yielded (p : Program σ Nat ι) (branch : Nat)
    (rest : Option (List (Program σ Nat ι))) : Prop :=
  branch ∈ p.labels ∧ rest = some (p.after branch)

/-- The worker is doing something with the current message of service `i`. -/
def Pc.onMessage (i : Nat) : Pc → Bool
  | .hookBefore _ j | .inHandler _ j | .handled _ j | .hookAfter _ j
  | .resetMsg _ j | .tdMsg j _ _ | .tdSend j _ _ _ | .tdFree j _ _ => j == i
  | _ => false

/-- How far the handler `p` of record `r` is, when `rest` is what it has left to
do: about to be called, just left, or waiting for its next call. -/
structure Group.FiberAt (p : Program σ Nat ι) (i : Nat) (r : MsgqRecord)
    (rest : Option (List (Program σ Nat ι))) (G : Group) : Prop where
  entered : (G.table i).curMsg = some r →
    ∀ ph, G.worker = .inHandler ph i →
      ((G.table i).branch = 0 ∧ rest = some [p]) ∨
        Yielded p (G.table i).branch rest
  left : (G.table i).curMsg = some r → ∀ ph, G.worker = .handled ph i →
    if G.cc0 then Yielded p (G.table i).branch rest else rest = none
  waiting : (G.table i).curMsg = some r → G.worker.onMessage i = false →
    Yielded p (G.table i).branch rest

variable {p : Program σ Nat ι} {rest : Option (List (Program σ Nat ι))}

theorem Group.SameFiber.fiberAt (h : G.SameFiber i G')
    (hat : G.FiberAt p i r rest) : G'.FiberAt p i r rest := by
  have hcur : (G'.table i).curMsg = some r → (G.table i).curMsg = some r := by
    intro hcur
    rcases h.curMsg with hsame | ⟨hnone, -⟩
    · rwa [← hsame]
    · rw [hnone] at hcur
      cases hcur
  constructor
  · rw [h.worker, h.branch]
    exact fun h' => hat.entered (hcur h')
  · rw [h.worker, h.branch, h.cc0]
    exact fun h' => hat.left (hcur h')
  · rw [h.worker, h.branch]
    exact fun h' => hat.waiting (hcur h')

/-- The worker moves on without touching the service, and neither calls a handler
nor comes from one. -/
theorem Group.FiberAt.moves (hat : G.FiberAt p i r rest)
    (hbranch : (G'.table i).branch = (G.table i).branch)
    (hsame : (G'.table i).curMsg = (G.table i).curMsg)
    (hcalls : ∀ ph, G'.worker ≠ .inHandler ph i)
    (hreturns : ∀ ph, G'.worker ≠ .handled ph i)
    (hon : G'.worker.onMessage i = false → G.worker.onMessage i = false) :
    G'.FiberAt p i r rest where
  entered _ ph hpc := absurd hpc (hcalls ph)
  left _ ph hpc := absurd hpc (hreturns ph)
  waiting hcur hpc := by
    rw [hbranch]
    exact hat.waiting (hsame ▸ hcur) (hon hpc)

/-- The service has no message, or another one. -/
theorem Group.FiberAt.of_ne (hcur : (G.table i).curMsg ≠ some r) :
    G.FiberAt p i r rest :=
  ⟨fun h => absurd h hcur, fun h => absurd h hcur, fun h => absurd h hcur⟩

/-- While the handler of the record does not return, a step of the worker does
to the branch what the coroutine expects: the handler of a new message finds it
at zero, and the handler of a message that was resumed finds the label it has
yielded at. -/
theorem WorkerTrans.fiberAt (inv : GroupInv c G) (hi : i < c.size)
    (h : WorkerTrans c e G o G' gevents) (hu : G.Unbranched i)
    (hreturn : ∀ ph, G.worker = .inHandler ph i →
      (G.table i).curMsg ≠ some r)
    (hfresh : ∀ ph, G.worker = .hookBefore ph i → (G.table i).curMsg = some r →
      rest = some [p])
    (hcalled : .start i r none ∉ gevents ∧ .reenter i r none ∉ gevents)
    (hat : G.FiberAt p i r rest) : G'.FiberAt p i r rest := by
  have hholds := (inv.sound i hi).holds
  cases h
  case dispatchReenter ph k r' fn h hst hcur hfn =>
    by_cases hk : k = i
    · subst hk
      refine ⟨fun hcur' _ _ => .inr (hat.waiting hcur' (by simp [h, Pc.onMessage])),
        fun hcur' _ hpc => ?_, fun _ hpc => ?_⟩
      · -- a null handler is not called
        obtain rfl : r' = r := Option.some.inj (hcur.symm.trans hcur')
        cases fn with
        | none => exact absurd (List.mem_singleton_self _) hcalled.2
        | some f => cases hpc
      · cases fn <;> simp [handlerPc, Pc.onMessage] at hpc
    · refine hat.moves rfl rfl ?_ ?_ ?_ <;> cases fn <;>
        simp_all [handlerPc, Pc.onMessage]
  case beforeStart ph k r' fn h hcur hcall hret hfn =>
    by_cases hk : k = i
    · subst hk
      refine ⟨fun hcur' _ _ => .inl ⟨hu.taken ph h, hfresh ph h hcur'⟩,
        fun hcur' _ hpc => ?_, fun _ hpc => ?_⟩
      · obtain rfl : r' = r := Option.some.inj (hcur.symm.trans hcur')
        cases fn with
        | none => exact absurd (List.mem_singleton_self _) hcalled.1
        | some f => cases hpc
      · cases fn <;> simp [handlerPc, Pc.onMessage] at hpc
    · refine hat.moves rfl rfl ?_ ?_ ?_ <;> cases fn <;>
        simp_all [handlerPc, Pc.onMessage]
  case initDone idx caller h hcall hyield =>
    rw [h] at hholds
    by_cases hk : i = idx
    · subst hk
      have hcur := ((inv.sound i hi).waiting (hholds rfl)).1
      exact .of_ne (by simp [hcur])
    · refine hat.moves (by simp [hk]) (by simp [hk]) ?_ ?_ ?_ <;>
        cases caller <;> simp [h, afterInit, Pc.onMessage]
  case handledYield ph k r' h hcur hcc =>
    by_cases hk : i = k
    · subst hk
      refine ⟨fun _ _ hpc => (by cases hpc), fun _ _ hpc => (by cases hpc),
        fun hcur' _ => ?_⟩
      have hleft := hat.left (by simpa using hcur') ph h
      simpa [hcc] using hleft
    · refine hat.moves ?_ ?_ ?_ ?_ ?_ <;>
        simp [h, hk, Ne.symm hk, Pc.onMessage]
  case popSome ph k r' rest' h hq =>
    by_cases hk : i = k
    · subst hk
      exact ⟨fun _ _ hpc => (by cases hpc), fun _ _ hpc => (by cases hpc),
        fun _ hpc => by simp [Pc.onMessage] at hpc⟩
    · refine hat.moves ?_ ?_ ?_ ?_ ?_ <;>
        simp [h, hk, Ne.symm hk, Pc.onMessage]
  case tdExit0 k h _ _ | tdSetExit1 k h | exitExit0 k h _ _ | exitExit1 k h _ =>
    refine hat.moves ?_ ?_ (by simp) (by simp) (by simp [h, Pc.onMessage]) <;>
      by_cases hk : i = k <;> simp [hk]
  case tdFreeCur k _ h | popNone k h _ | handlerReturn k h _ | reset k _ h _
    | tdPopSome k _ _ h _ | tdFreeQueued k _ h =>
    rw [h] at hholds
    by_cases hk : i = k
    · -- the service has no message any more, or not this one
      subst hk
      exact .of_ne (by simp_all [Pc.Holds])
    · refine hat.moves ?_ ?_ ?_ ?_ ?_ <;>
        simp [h, hk, Ne.symm hk, Pc.onMessage]
  all_goals
    refine hat.moves rfl rfl ?_ ?_ ?_ <;> simp_all [Pc.onMessage]

end Core
end Eaf

import Eaf.System.GroupView

/-!
# What a successful send has done

A send looks up the service its message goes to, makes a record of the
message, and reports success only after the record was accepted there.
-/

namespace Eaf
namespace Core

variable {L : Layout} {ok : Sys → Act → Prop} {s s' : Sys} {t : Tid} {a : Act}
  {b : SendArgs} {events tr : List Event}

/-- The send has found the service its arguments name, and its record says so
too. -/
def Call.Aimed (L : Layout) : Call → Prop
  | .pushTest b g i _ | .pushAlloc b g i _ =>
      findService L b.dst = some (g, i)
  | .pushLock b g i r => findService L b.dst = some (g, i) ∧
      r.src = b.src ∧ r.dst = b.dst ∧ r.msg = b.msg
  | _ => True

/-- A record of the message was accepted by the service the send names. -/
def Accepted (L : Layout) (tr : List Event) (b : SendArgs) : Prop :=
  ∃ g i r st, findService L b.dst = some (g, i) ∧
    .group g (.push i r st) ∈ tr ∧
    r.src = b.src ∧ r.dst = b.dst ∧ r.msg = b.msg

theorem Accepted.append (h : Accepted L tr b) (events : List Event) :
    Accepted L (tr ++ events) b := by
  obtain ⟨g, i, r, st, hfind, hpush, hr⟩ := h
  exact ⟨g, i, r, st, hfind, List.mem_append_left _ hpush, hr⟩

/-- The arguments of a send whose record was accepted. -/
def Call.delivered? : Call → Option SendArgs
  | .pushPost b _ => some b
  | .sendAfter b code => if code = Errno.success then some b else none
  | _ => none

/-- A send keeps its aim. -/
theorem CallTrans.aimed (h : CallTrans L s t events s')
    (haim : (s.call t).Aimed L) : (s'.call t).Aimed L := by
  cases h <;> simp_all [Call.Aimed]

/-- A record is delivered by the locked part of a push. -/
theorem CallTrans.delivered (h : CallTrans L s t events s')
    (haim : (s.call t).Aimed L) (hb : (s'.call t).delivered? = some b) :
    (s.call t).delivered? = some b ∨ Accepted L events b := by
  cases h
  case pushAccepted b' g i r G h hpush =>
    rw [h] at haim
    obtain ⟨hfind, hr⟩ := haim
    obtain rfl : b' = b := by simpa [Call.delivered?] using hb
    exact .inr ⟨g, i, r, ((s.group g).table i).state, hfind, by simp, hr⟩
  case pushPosted b' g h =>
    exact .inl (by simpa [h, Call.delivered?] using hb)
  case cleanQueued h _ _ | cleanCurrent h _ _ _ =>
    exact .inl hb
  all_goals
    simp [Call.delivered?, Errno.success, Errno.notfound, Errno.overflow,
      Errno.memory, Errno.state] at hb

/-- **Deliveries.**  A send that is about to report success has delivered its
message. -/
theorem Trace.delivered (h : Trace L ok tr s) :
    (∀ t, (s.call t).Aimed L) ∧
      ∀ t b, (s.call t).delivered? = some b → Accepted L tr b := by
  refine Trace.byTrans (P := fun tr s => (∀ t, (s.call t).Aimed L) ∧
    ∀ t b, (s.call t).delivered? = some b → Accepted L tr b) h
    ⟨fun _ => trivial, fun _ _ hb => by cases hb⟩ ?_
  rintro tr s a events s' - ⟨haim, hdelivered⟩ - hstep
  cases hstep with
  | @worker k o G gevents hk hw =>
      refine ⟨fun t => ?_, fun t b hb => Accepted.append ?_ _⟩
      · rcases Sys.emitAll_call (s.setGroup k G) (t := t) with
          hc | hc | ⟨b, hc⟩ <;> rw [hc]
        · exact haim t
        · trivial
        · trivial
      · rcases Sys.emitAll_call (s.setGroup k G) (t := t) with
          hc | hc | ⟨b, hc⟩ <;> rw [hc] at hb
        · exact hdelivered t b hb
        · cases hb
        · cases hb
  | @call t o events s' hlive hc =>
      refine ⟨fun t' => ?_, fun t' b hb => ?_⟩
      · by_cases ht : t' = t
        · subst ht
          exact hc.aimed (haim t')
        · rw [hc.call_of_ne ht]
          exact haim t'
      · by_cases ht : t' = t
        · subst ht
          rcases hc.delivered (haim t') hb with hold | ⟨g, i, r, st, hfind, hpush, hr⟩
          · exact (hdelivered t' b hold).append _
          · exact ⟨g, i, r, st, hfind, List.mem_append_right _ hpush, hr⟩
        · rw [hc.call_of_ne ht] at hb
          exact (hdelivered t' b hb).append _
  | @enter t q events s' he =>
      refine ⟨fun t' => ?_, fun t' b hb => Accepted.append ?_ _⟩
      · by_cases ht : t' = t
        · subst ht
          rw [he.call_self]
          cases q <;> trivial
        · rw [he.call_of_ne ht]
          exact haim t'
      · by_cases ht : t' = t
        · subst ht
          rw [he.call_self] at hb
          cases q <;> cases hb
        · rw [he.call_of_ne ht] at hb
          exact hdelivered t' b hb
  | user hu =>
      rw [hu.call_eq]
      exact ⟨haim, fun t b hb => (hdelivered t b hb).append _⟩

end Core
end Eaf

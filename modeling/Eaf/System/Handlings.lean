import Eaf.System.RecordOrigins
import Eaf.System.Sends

/-!
# Handlings in progress

A service is handling a record from its first entry into the handler to the
call of `on_message_handle_after`, over all yields in between.  It handles one
record at a time, and the record says where it is handled: its target id leads
the lookup to this service.
-/

namespace Eaf
namespace Core

open LabelledRun

variable {L : Layout} {ok : Sys → Act → Prop} {s s' : Sys} {g i : Nat}
  {t : Tid} {tr events : List Event} {gevents : List GroupEvent}
  {r : MsgqRecord} {G G' : Group} {c : GroupTable} {e : Env} {o : Outcome}

/-- Every record of a service is addressed to it. -/
theorem Trace.record_target (h : Trace L ok tr s)
    (hr : r ∈ ((s.group g).table i).records) :
    findService L r.dst = some (g, i) := by
  refine Trace.byTrans (P := fun _ s => ∀ g i,
    ∀ r ∈ ((s.group g).table i).records, findService L r.dst = some (g, i)) h
    (fun g i r hr => by simp [Sys.initial, Group.initial, Service.initial,
      Service.records] at hr) ?_ g i r hr
  intro tr s a events s' hrun ih _ hstep g i r hr
  rcases hstep.mem_records hr with hold | ⟨t, o, b, -, hcall, -⟩
  · exact ih g i r hold
  · have haim := (Trace.delivered hrun).1 t
    rw [hcall] at haim
    obtain ⟨hfind, -, hdst, -⟩ := haim
    rw [hdst]
    exact hfind

/-! ## The record that is being handled -/

/-- Service `i` has entered the handler for the record and is not through with
it. -/
structure Group.Handling (G : Group) (i : Nat) (r : MsgqRecord) : Prop where
  current : (G.table i).curMsg = some r
  begun : ∀ ph, G.worker ≠ .hookBefore ph i
  unfinished : ∀ ph, G.worker ≠ .resetMsg ph i

/-- Replacing a service by one whose current record is the same or gone. -/
theorem curMsg_update {T : Nat → Service} {S : Service} {j : Nat}
    (hr : (Function.update T j S i).curMsg = some r)
    (hS : S.curMsg = some r → (T j).curMsg = some r) :
    (T i).curMsg = some r := by
  by_cases hij : i = j
  · subst hij
    rw [Function.update_self] at hr
    exact hS hr
  · rwa [Function.update_of_ne hij] at hr

/-- A worker takes up records one way only, and then asks the hook. -/
theorem WorkerTrans.curMsg_eq (h : WorkerTrans c e G o G' gevents)
    (hcur : (G'.table i).curMsg = some r) :
    (G.table i).curMsg = some r ∨ ∃ ph, G'.worker = .hookBefore ph i := by
  cases h
  case popSome ph j r' rest _ _ =>
    by_cases hij : i = j
    · subst hij
      exact .inr ⟨ph, rfl⟩
    · simp only [Group.goto_table, Group.setService_table,
        Function.update_of_ne hij] at hcur
      exact .inl hcur
  case reset | tdFreeCur =>
    exact .inl (curMsg_update hcur fun hnone => by simp at hnone)
  case initDone =>
    simp only [Group.goto_table, Group.finishServiceInit_table,
      Group.setService_table, Function.update_idem] at hcur
    exact .inl (curMsg_update hcur fun hsame => by simpa using hsame)
  case popNone | handlerReturn | handledYield | tdExit0 | tdSetExit1
    | exitExit0 | exitExit1 | tdPopSome =>
    exact .inl (curMsg_update hcur fun hsame => hsame)
  all_goals exact .inl hcur

/-- A worker begins to handle a record when the hook lets it through. -/
theorem WorkerTrans.handling (h : WorkerTrans c e G o G' gevents)
    (hhandling : G'.Handling i r) :
    G.Handling i r ∨ ∃ ph, G.worker = .hookBefore ph i ∧
      (G.table i).curMsg = some r ∧ 0 ≤ o.ret := by
  have hcur : (G.table i).curMsg = some r := by
    rcases h.curMsg_eq hhandling.current with hsame | ⟨ph, hbefore⟩
    · exact hsame
    · exact absurd hbefore (hhandling.begun ph)
  by_cases hbefore : ∃ ph, G.worker = .hookBefore ph i
  · obtain ⟨ph, hpc⟩ := hbefore
    right
    refine ⟨ph, hpc, hcur, ?_⟩
    cases h
    case beforeDrop ph' j r' h _ _ _ =>
      obtain ⟨-, rfl⟩ : ph' = ph ∧ j = i := by simpa [hpc] using h.symm
      exact absurd rfl (hhandling.unfinished ph')
    case beforeStart hret _ => exact hret
    all_goals simp_all
  · left
    refine ⟨hcur, fun ph hpc => hbefore ⟨ph, hpc⟩, fun ph hpc => ?_⟩
    have hcleared := hhandling.current
    cases h
    case reset ph' j r' h _ =>
      obtain ⟨-, rfl⟩ : ph' = ph ∧ j = i := by simpa [hpc] using h.symm
      simp at hcleared
    all_goals simp_all

/-- A call changes no current record, except that cleanup destroys it. -/
theorem CallTrans.curMsg_eq (h : CallTrans L s t events s')
    (hcur : ((s'.group g).table i).curMsg = some r) :
    ((s.group g).table i).curMsg = some r := by
  -- most calls change one group, if they change a group at all
  have hgroup : ∀ (s₀ : Sys) {k : Nat} {H : Group}, s₀.group = s.group →
      (((s₀.setGroup k H).group g).table i).curMsg = some r →
      ((H.table i).curMsg = some r → ((s.group k).table i).curMsg = some r) →
      ((s.group g).table i).curMsg = some r := by
    intro s₀ k H hsame hnew hkeeps
    rw [Sys.setGroup_group, hsame] at hnew
    by_cases hgk : g = k
    · subst hgk
      rw [Function.update_self] at hnew
      exact hkeeps hnew
    · rwa [Function.update_of_ne hgk] at hnew
  cases h
  case pushAccepted b k j r' G hcall hpush =>
    refine hgroup _ rfl hcur fun hnew => ?_
    rw [(Group.pushMsg_some hpush).2.1] at hnew
    exact curMsg_update hnew fun hsame => hsame
  case resumeAccepted k j G hcall hresume =>
    obtain ⟨-, rfl⟩ := Group.resumeService_some hresume
    exact hgroup _ rfl hcur fun hnew => curMsg_update hnew fun hsame => hsame
  case loadFixed k _ _ =>
    refine hgroup _ rfl hcur fun hnew => ?_
    rw [Group.loadFixState_table] at hnew
    split at hnew <;> exact hnew
  case cleanQueued k j r' rest hcall _ hq =>
    refine hgroup s rfl (by simpa using hcur) fun hnew => ?_
    rw [Group.setService_table] at hnew
    exact curMsg_update hnew fun hsame => hsame
  case cleanCurrent k j r' hcall _ hq _ =>
    refine hgroup s rfl (by simpa using hcur) fun hnew => ?_
    rw [Group.setService_table] at hnew
    exact curMsg_update hnew fun hnone => by simp at hnone
  case pushPosted k _ | resumePosted k _ | exitPosted k _ _
    | loadPosted k _ _ =>
    exact hgroup _ rfl hcur fun hnew => hnew
  all_goals simpa using hcur

/-- Calls begin no handling. -/
theorem CallTrans.handling (h : CallTrans L s t events s')
    (hhandling : (s'.group g).Handling i r) : (s.group g).Handling i r where
  current := h.curMsg_eq hhandling.current
  begun ph := by
    rw [← h.worker_eq g]
    exact hhandling.begun ph
  unfinished ph := by
    rw [← h.worker_eq g]
    exact hhandling.unfinished ph

/-- What a step leaves alone of a group whose worker does not move. -/
theorem SysTrans.others {a : Act} (h : SysTrans L s a events s')
    (hother : ∀ o, a ≠ .worker g o) :
    (s'.group g).worker = (s.group g).worker ∧
      ∀ i r, ((s'.group g).table i).curMsg = some r →
        ((s.group g).table i).curMsg = some r := by
  cases h with
  | @worker k o G gevents hk hw =>
      have hgk : g ≠ k := by
        rintro rfl
        exact hother o rfl
      rw [Sys.emitAll_group, Sys.setGroup_group, Function.update_of_ne hgk]
      exact ⟨rfl, fun _ _ hr => hr⟩
  | call hlive hc => exact ⟨hc.worker_eq g, fun _ _ => hc.curMsg_eq⟩
  | enter he =>
      rw [he.group_eq]
      exact ⟨rfl, fun _ _ hr => hr⟩
  | user hu =>
      rw [hu.group_eq]
      exact ⟨rfl, fun _ _ hr => hr⟩

/-- A handling begins where the worker of the group lets a record through. -/
theorem SysTrans.handling {a : Act} (h : SysTrans L s a events s')
    (hhandling : (s'.group g).Handling i r) :
    (s.group g).Handling i r ∨ ∃ o ph, a = .worker g o ∧
      (s.group g).worker = .hookBefore ph i ∧
      ((s.group g).table i).curMsg = some r ∧ 0 ≤ o.ret := by
  cases h with
  | @worker k o G gevents hk hw =>
      rw [Sys.emitAll_group, Sys.setGroup_group] at hhandling
      by_cases hgk : g = k
      · subst hgk
        rw [Function.update_self] at hhandling
        rcases hw.handling hhandling with hold | ⟨ph, hstart⟩
        · exact .inl hold
        · exact .inr ⟨o, ph, rfl, hstart⟩
      · rw [Function.update_of_ne hgk] at hhandling
        exact .inl hhandling
  | call hlive hc => exact .inl (hc.handling hhandling)
  | enter he =>
      rw [he.group_eq] at hhandling
      exact .inl hhandling
  | user hu =>
      rw [hu.group_eq] at hhandling
      exact .inl hhandling

/-- The end of a handling goes on with the reset of the service. -/
theorem SysTrans.hookAfter {a : Act} {ph : Phase}
    (h : SysTrans L s a events s') (ha : a = .worker g o)
    (hpc : (s.group g).worker = .hookAfter ph i) :
    (s'.group g).worker = .resetMsg ph i := by
  cases h with
  | @worker k o' G gevents hk hw =>
      obtain ⟨rfl, rfl⟩ : k = g ∧ o' = o := by simpa using ha
      rw [Sys.emitAll_group, Sys.setGroup_group, Function.update_self]
      cases hw
      case afterDone ph' j h _ =>
        obtain ⟨rfl, rfl⟩ : ph' = ph ∧ j = i := by simpa [hpc] using h.symm
        rfl
      all_goals simp_all
  | call | enter | user => cases ha

end Core
end Eaf

import Eaf.System.Effects
import Eaf.System.GroupView

/-!
# What eaf_cleanup leaves behind

`eaf_cleanup` waits for the workers and empties one service after the other.
When no other call is in progress from the moment it starts to do so, no
service gets a record again, and all are empty when it frees the context.
-/

namespace Eaf
namespace Core

open LabelledRun

variable {L : Layout} {s s' : Sys} {t : Tid} {a : Act} {events tr : List Event}
  {c : GroupTable} {e : Env} {G G' : Group} {o : Outcome}
  {gevents : List GroupEvent} {i j : Nat}

/-- The call is an `eaf_cleanup` that has started to empty the services. -/
def Call.emptying : Call → Bool
  | .cleanMsgq _ _ | .cleanFree => true
  | .cleanJoin k => decide (0 < k)
  | _ => false

/-- Calls of `eaf_load` and `eaf_cleanup` do not overlap, and no other call is
in progress while `eaf_cleanup` empties the services. -/
def undisturbed (L : Layout) (s : Sys) (a : Act) : Prop :=
  serial L s a ∧ ∀ t ∈ L.threads, (s.call t).emptying = true →
    ∀ t' ∈ L.threads, t' ≠ t → (s.call t').free = true

instance (L : Layout) (s : Sys) (a : Act) : Decidable (undisturbed L s a) :=
  inferInstanceAs (Decidable (_ ∧ _))

/-- `eaf_cleanup` has emptied service `i` of group `g`. -/
def Call.emptied (g i : Nat) : Call → Prop
  | .cleanMsgq k j => g < k ∨ g = k ∧ i < j
  | .cleanJoin k => g < k
  | .cleanFree => True
  | _ => False

theorem Call.emptying_of_emptied {call : Call} {g : Nat}
    (h : call.emptied g i) : call.emptying = true := by
  cases call <;> simp_all [Call.emptied, Call.emptying]
  omega

/-- The service has no record. -/
def Group.Vacant (G : Group) (i : Nat) : Prop :=
  (G.table i).queue = [] ∧ (G.table i).curMsg = none

theorem Group.vacant_congr (hqueue : (G'.table i).queue = (G.table i).queue)
    (hcur : (G'.table i).curMsg = (G.table i).curMsg) (h : G.Vacant i) :
    G'.Vacant i :=
  ⟨hqueue.trans h.1, hcur.trans h.2⟩

/-- Replacing a service by one without records. -/
theorem vacant_update {T : Nat → Service} {S : Service}
    (hqueue : j = i → S.queue = []) (hcur : j = i → S.curMsg = none)
    (h : (T i).queue = [] ∧ (T i).curMsg = none) :
    (Function.update T j S i).queue = [] ∧
      (Function.update T j S i).curMsg = none := by
  by_cases hij : j = i
  · subst hij
    simp [hqueue rfl, hcur rfl]
  · simpa [Ne.symm hij] using h

/-- The worker gives a service no record. -/
theorem WorkerTrans.vacant (h : WorkerTrans c e G o G' gevents)
    (hvacant : G.Vacant i) : G'.Vacant i := by
  cases h
  case popSome hpc hq | tdPopSome hpc hq =>
    refine vacant_update (fun hj => ?_) (fun hj => ?_) hvacant <;>
      · subst hj
        simp [hvacant.1] at hq
  case reset | tdFreeCur =>
    refine vacant_update (fun hj => ?_) (fun _ => rfl) hvacant
    subst hj
    exact hvacant.1
  case initDone hpc _ _ =>
    refine Group.vacant_congr ?_ ?_ hvacant <;>
      · simp only [Group.goto_table, Group.finishServiceInit_table,
          Group.setService_table, Function.update_idem]
        rw [Function.update_apply]
        split <;> simp_all
  case popNone | handlerReturn | handledYield | tdExit0 | tdSetExit1
    | exitExit0 | exitExit1 =>
    refine vacant_update (fun hj => ?_) (fun hj => ?_) hvacant <;>
      · subst hj
        simp [hvacant.1, hvacant.2]
  all_goals exact hvacant

/-- A call gives a vacant service no record, unless it pushes one. -/
theorem CallTrans.vacant {g : Nat} (h : CallTrans L s t events s')
    (hpush : ∀ b j r, s.call t ≠ .pushLock b g j r)
    (hvacant : (s.group g).Vacant i) : (s'.group g).Vacant i := by
  cases h
  case pushAccepted b k j r G hcall _ =>
    have hgk : g ≠ k := by
      rintro rfl
      exact hpush b j r hcall
    simpa [hgk] using hvacant
  case cleanQueued k j r rest _ _ hq =>
    by_cases hgk : g = k
    · subst hgk
      simp only [Sys.decRef_group, Sys.setGroup_group, Function.update_self]
      refine vacant_update (fun hj => ?_) (fun hj => ?_) hvacant <;>
        · subst hj
          simp [hvacant.1] at hq
    · simpa [hgk] using hvacant
  case cleanCurrent k j r _ _ hq _ =>
    by_cases hgk : g = k
    · subst hgk
      simp only [Sys.decRef_group, Sys.setGroup_group, Function.update_self]
      exact vacant_update (fun _ => hq) (fun _ => rfl) hvacant
    · simpa [hgk] using hvacant
  case loadFixed k _ _ =>
    by_cases hgk : g = k
    · subst hgk
      simp only [Sys.setCall_group, Sys.setGroup_group, Function.update_self]
      refine Group.vacant_congr ?_ ?_ hvacant <;>
        rw [Group.loadFixState_table] <;> split <;> rfl
    · simpa [hgk] using hvacant
  case resumeAccepted k j G _ hresume =>
    obtain ⟨-, rfl⟩ := Group.resumeService_some hresume
    by_cases hgk : g = k
    · subst hgk
      simp only [Sys.setCall_group, Sys.setGroup_group, Function.update_self]
      refine vacant_update (fun hj => ?_) (fun hj => ?_) hvacant <;>
        · subst hj
          simp [hvacant.1, hvacant.2]
    · simpa [hgk] using hvacant
  case pushPosted k _ | resumePosted k _ | exitPosted k _ _
    | loadPosted k _ _ =>
    by_cases hgk : g = k
    · subst hgk
      simp only [Sys.setCall_group, Sys.setGroup_group, Function.update_self]
      exact Group.vacant_congr rfl rfl hvacant
    · simpa [hgk] using hvacant
  all_goals simpa using hvacant

/-- A service that a call of `eaf_cleanup` has just emptied has no record. -/
theorem CallTrans.emptied {g : Nat} (h : CallTrans L s t events s')
    (hg : g < L.size) (hi : i < (L.conf g).size)
    (hempty : (s'.call t).emptied g i) :
    (s.call t).emptied g i ∨ (s.group g).Vacant i := by
  cases h
  case cleanNext k j hcall _ hq hcur =>
    rw [Sys.setCall_call, Function.update_self] at hempty
    rw [hcall]
    rcases hempty with hlt | ⟨rfl, hlt⟩
    · exact .inl (.inl hlt)
    · rcases Nat.lt_succ_iff_lt_or_eq.mp hlt with hlt | rfl
      · exact .inl (.inr ⟨rfl, hlt⟩)
      · exact .inr ⟨hq, hcur⟩
  case cleanGroupDone k j hcall hj =>
    rw [Sys.setCall_call, Function.update_self] at hempty
    rw [hcall]
    rcases Nat.lt_succ_iff_lt_or_eq.mp hempty with hlt | rfl
    · exact .inl (.inl hlt)
    · exact .inl (.inr ⟨rfl, Nat.lt_of_lt_of_le hi hj⟩)
  case cleanAllJoined k hcall hk =>
    rw [hcall]
    exact .inl (Nat.lt_of_lt_of_le hg hk)
  case cleanJoined k site hcall _ _ =>
    rw [Sys.setCall_call, Function.update_self] at hempty
    rw [hcall]
    rcases hempty with hlt | ⟨-, hlt⟩
    · exact .inl hlt
    · exact absurd hlt (Nat.not_lt_zero i)
  case cleanQueued hcall _ _ | cleanCurrent hcall _ _ _ =>
    exact .inl hempty
  all_goals simp [Call.emptied] at hempty

/-- Services that have been emptied stay empty. -/
structure StayEmpty (L : Layout) (s : Sys) : Prop where
  emptied : ∀ t g i, g < L.size → i < (L.conf g).size →
    (s.call t).emptied g i → (s.group g).Vacant i
  freed : s.live = false → ∀ g i, g < L.size → i < (L.conf g).size →
    (s.group g).Vacant i

theorem StayEmpty.keep (h : StayEmpty L s) (hgroup : s'.group = s.group)
    (hlive : s'.live = s.live)
    (hempty : ∀ t g i, (s'.call t).emptied g i → (s.call t).emptied g i) :
    StayEmpty L s' where
  emptied t g i hg hi he := by
    rw [hgroup]
    exact h.emptied t g i hg hi (hempty t g i he)
  freed hdead := by
    rw [hgroup]
    exact h.freed (hlive ▸ hdead)

/-- Only `eaf_cleanup` frees the context. -/
theorem CallTrans.live_eq (h : CallTrans L s t events s') :
    s'.live = s.live ∨ s.call t = .cleanFree := by
  cases h <;> simp_all

theorem StayEmpty.call (h : StayEmpty L s) (hrun : Trace L (serial L) tr s)
    (hok : undisturbed L s a) (hlive : s.live = true ∨
      (s.call t).atGuard = true) (hc : CallTrans L s t events s') :
    StayEmpty L s' := by
  have hbusy := hc.not_free
  have ht : t ∈ L.threads := by
    by_contra ht
    simp [hrun.guards.calls.outside t ht, Call.free] at hbusy
  have hkeep : ∀ g i, (s.group g).Vacant i →
      (∀ b j r, s.call t ≠ .pushLock b g j r) → (s'.group g).Vacant i :=
    fun g i hvacant hpush => hc.vacant hpush hvacant
  have hpushing : ∀ b g j r, s.call t = .pushLock b g j r →
      ∀ t', (s'.call t').emptying = false := by
    intro b g j r hcall t'
    by_cases htt : t' = t
    · subst htt
      cases hc <;> simp_all [Call.emptying]
    · rw [hc.call_of_ne htt]
      by_contra hempty
      have ht' : t' ∈ L.threads := by
        by_contra ht'
        simp [hrun.guards.calls.outside t' ht', Call.emptying] at hempty
      have hfree := hok.2 t' ht' (by simpa using hempty) t ht (Ne.symm htt)
      simp [hbusy] at hfree
  have hstays : ∀ t' g i, (s'.call t').emptied g i → (s.group g).Vacant i →
      (s'.group g).Vacant i := by
    intro t' g i hempty hvacant
    refine hkeep g i hvacant fun b j r hcall => ?_
    have hnot := hpushing b g j r hcall t'
    simp [Call.emptying_of_emptied hempty] at hnot
  refine ⟨fun t' g i hg hi hempty => hstays t' g i hempty ?_,
    fun hdead g i hg hi => ?_⟩
  · by_cases htt : t' = t
    · subst htt
      rcases hc.emptied hg hi hempty with hold | hvacant
      · exact h.emptied t' g i hg hi hold
      · exact hvacant
    · rw [hc.call_of_ne htt] at hempty
      exact h.emptied t' g i hg hi hempty
  · rcases hc.live_eq with hsame | hfree
    · have hold : s.live = false := hsame ▸ hdead
      refine hkeep g i (h.freed hold g i hg hi) fun b j r hcall => ?_
      simp [hold, hcall, Call.atGuard] at hlive
    · refine hkeep g i (h.emptied t g i hg hi ?_) fun b j r hcall => ?_
      · rw [hfree]
        trivial
      · simp [hcall] at hfree

/-- **Cleanup.**  When no other call disturbs `eaf_cleanup`, no service has a
record once the context is freed. -/
theorem Trace.stayEmpty (h : Trace L (undisturbed L) tr s) :
    StayEmpty L s := by
  refine Trace.byTrans (P := fun _ s => StayEmpty L s) h
    ⟨fun t g i _ _ hempty => ?_, fun hdead => ?_⟩ ?_
  · cases hempty
  · cases hdead
  · intro tr s a events s' hrun ih hok hstep
    have hserial : Trace L (serial L) tr s := hrun.weaken fun _ _ h => h.1
    cases hstep with
    | @worker k o G gevents hk hw =>
        have hkeep : ∀ g i, (s.group g).Vacant i →
            (((s.setGroup k G).emitAll L k gevents).group g).Vacant i := by
          intro g i hvacant
          rw [Sys.emitAll_group, Sys.setGroup_group]
          by_cases hgk : g = k
          · subst hgk
            rw [Function.update_self]
            exact hw.vacant hvacant
          · rwa [Function.update_of_ne hgk]
        refine ⟨fun t g i hg hi hempty => hkeep g i ?_,
          fun hdead g i hg hi => hkeep g i (ih.freed ?_ g i hg hi)⟩
        · refine ih.emptied t g i hg hi ?_
          rcases Sys.emitAll_call (s.setGroup k G) (t := t) with
            hc | hc | ⟨b, hc⟩ <;> rw [hc] at hempty
          · exact hempty
          · cases hempty
          · cases hempty
        · simpa using hdead
    | call hlive hc => exact ih.call hserial hok hlive hc
    | @enter t q _ _ he =>
        refine ih.keep he.group_eq he.live_eq fun t' g i hempty => ?_
        by_cases ht : t' = t
        · subst ht
          rw [he.call_self] at hempty
          cases q <;> cases hempty
        · rwa [he.call_of_ne ht] at hempty
    | user hu =>
        exact ih.keep hu.group_eq hu.live_eq fun t g i hempty => by
          rwa [hu.call_eq] at hempty

/-- `eaf_cleanup` reports success when it has freed the context. -/
theorem CallTrans.freed {t' : Tid} (h : CallTrans L s t events s')
    (hret : .ret t' .cleanup Errno.success ∈ events) : s'.live = false := by
  cases h
  case sendRefused b _ _ | sendVeto b _ _ _ | sendDone b _ _ =>
    cases hkind : b.kind <;> simp [hkind, SendKind.api] at hret
  case exitRefused td _ _ | exitDone td _ _ _ =>
    cases td <;> simp [Sys.exitApi] at hret
  all_goals simp [Errno.success, Errno.state] at hret ⊢

/-- A context that was freed stays away. -/
theorem CallTrans.stays_freed (h : CallTrans L s t events s')
    (hdead : s.live = false) : s'.live = false := by
  cases h <;> simp_all

theorem Trace.freed {ok : Sys → Act → Prop} (h : Trace L ok tr s)
    (hret : .ret t .cleanup Errno.success ∈ tr) : s.live = false := by
  refine Trace.byTrans (P := fun tr s =>
    .ret t .cleanup Errno.success ∈ tr → s.live = false) h
    (fun hret => by cases hret) ?_ hret
  intro tr s a events s' _ ih _ hstep hret
  rcases List.mem_append.mp hret with hold | hnew
  · have hdead := ih hold
    cases hstep with
    | worker _ _ => simpa using hdead
    | call _ hc => exact hc.stays_freed hdead
    | enter he => rw [he.live_eq, hdead]
    | user hu => rw [hu.live_eq, hdead]
  · cases hstep with
    | worker _ _ => simp at hnew
    | call _ hc => exact hc.freed hnew
    | enter he => cases he <;> simp at hnew
    | user _ => cases hnew

end Core
end Eaf

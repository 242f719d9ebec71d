import Eaf.System.GroupView

/-!
# Every record is new

A record gets a fresh address when a send allocates it, and it is pushed at
most once, by the send that allocated it.  So no record is pushed twice, into
whatever queue.
-/

namespace Eaf
namespace Core

variable {L : Layout} {ok : Sys → Act → Prop} {s s' : Sys} {t : Tid} {a : Act}
  {events tr : List Event}

/-- The record that an event shows being pushed. -/
def pushedRecord : Event → Option MsgqRecord
  | .group _ (.push _ r _) => some r
  | _ => none

/-- The records pushed in a trace, in order. -/
def pushed (tr : List Event) : List MsgqRecord := tr.filterMap pushedRecord

@[simp] theorem pushed_append (tr tr' : List Event) :
    pushed (tr ++ tr') = pushed tr ++ pushed tr' := by
  simp [pushed]

/-- The record a send is about to push. -/
def Call.record? : Call → Option MsgqRecord
  | .pushLock _ _ _ r => some r
  | _ => none

/-- Pushed records and records about to be pushed are all different. -/
structure FreshRecords (tr : List Event) (s : Sys) : Prop where
  below : ∀ r ∈ pushed tr, r.rid < s.nextRec
  different : (pushed tr).Pairwise fun r r' => r.rid ≠ r'.rid
  pending : ∀ t r, (s.call t).record? = some r → r.rid < s.nextRec ∧
    ∀ r' ∈ pushed tr, r'.rid ≠ r.rid
  distinct : ∀ t t' r r', (s.call t).record? = some r →
    (s.call t').record? = some r' → t ≠ t' → r.rid ≠ r'.rid

/-- A worker pushes nothing itself. -/
theorem WorkerTrans.pushed_eq_nil {c : GroupTable} {e : Env} {G G' : Group}
    {o : Outcome} {gevents : List GroupEvent}
    (h : WorkerTrans c e G o G' gevents) (g : Nat) :
    pushed (gevents.map (.group g)) = [] := by
  cases h
  case readyNone => split <;> rfl
  all_goals rfl

/-- A step that pushes nothing and allocates no record. -/
theorem FreshRecords.of_quiet (h : FreshRecords tr s)
    (hevents : pushed events = []) (hnext : s'.nextRec = s.nextRec)
    (hcall : ∀ t r, (s'.call t).record? = some r →
      (s.call t).record? = some r) : FreshRecords (tr ++ events) s' where
  below := by simpa [hevents, hnext] using h.below
  different := by simpa [hevents] using h.different
  pending t r hr := by simpa [hevents, hnext] using h.pending t r (hcall t r hr)
  distinct t t' r r' hr hr' :=
    h.distinct t t' r r' (hcall t r hr) (hcall t' r' hr')

theorem FreshRecords.call (h : FreshRecords tr s)
    (hc : CallTrans L s t events s') : FreshRecords (tr ++ events) s' := by
  have hother : ∀ t', t' ≠ t → s'.call t' = s.call t' :=
    fun t' ht => hc.call_of_ne ht
  have hquiet : (∀ r, (s'.call t).record? = some r →
      (s.call t).record? = some r) →
      ∀ t' r, (s'.call t').record? = some r →
        (s.call t').record? = some r := fun hself t' r hr => by
    by_cases ht : t' = t
    · subst ht
      exact hself r hr
    · rwa [hother t' ht] at hr
  cases hc
  case pushRecord b g i fn hcall =>
    -- the new record has an address no other record has
    have hself : ∀ t' r, t' ≠ t →
        ((({ s with nextRec := s.nextRec + 1 }.addRef b.msg).setCall t
          (.pushLock b g i ⟨s.nextRec, fn, b.src, b.dst, b.msg⟩)).call
            t').record? = some r → (s.call t').record? = some r := by
      intro t' r ht hr
      rwa [hother t' ht] at hr
    refine ⟨fun r hr => ?_, ?_, fun t' r hr => ?_,
      fun t₁ t₂ r₁ r₂ h₁ h₂ hne => ?_⟩
    · have hlt := h.below r (by simpa [pushed] using hr)
      exact Nat.lt_succ_of_lt hlt
    · simpa [pushed] using h.different
    · by_cases ht : t' = t
      · subst ht
        obtain rfl : (⟨s.nextRec, fn, b.src, b.dst, b.msg⟩ : MsgqRecord) = r := by
          simpa [Call.record?] using hr
        refine ⟨Nat.lt_succ_self _, fun r' hr' => ?_⟩
        exact Nat.ne_of_lt (h.below r' (by simpa [pushed] using hr'))
      · obtain ⟨hlt, hne⟩ := h.pending t' r (hself t' r ht hr)
        exact ⟨Nat.lt_succ_of_lt hlt,
          fun r' hr' => hne r' (by simpa [pushed] using hr')⟩
    · by_cases ht₁ : t₁ = t
      · have ht₂ : t₂ ≠ t := fun ht₂ => hne (ht₁.trans ht₂.symm)
        subst ht₁
        obtain rfl : (⟨s.nextRec, fn, b.src, b.dst, b.msg⟩ : MsgqRecord) = r₁ := by
          simpa [Call.record?] using h₁
        exact (Nat.ne_of_lt (h.pending t₂ r₂ (hself t₂ r₂ ht₂ h₂)).1).symm
      · by_cases ht₂ : t₂ = t
        · subst ht₂
          obtain rfl : (⟨s.nextRec, fn, b.src, b.dst, b.msg⟩ : MsgqRecord) = r₂ := by
            simpa [Call.record?] using h₂
          exact Nat.ne_of_lt (h.pending t₁ r₁ (hself t₁ r₁ ht₁ h₁)).1
        · exact h.distinct t₁ t₂ r₁ r₂ (hself t₁ r₁ ht₁ h₁)
            (hself t₂ r₂ ht₂ h₂) hne
  case pushAccepted b g i r G hcall hpush =>
    have hpending : (s.call t).record? = some r := by rw [hcall]; rfl
    have hself : ∀ t' r', (((s.setGroup g G).setCall t (.pushPost b g)).call
        t').record? = some r' → t' ≠ t ∧ (s.call t').record? = some r' := by
      intro t' r' hr'
      by_cases ht : t' = t
      · simp [ht, Call.record?] at hr'
      · rw [hother t' ht] at hr'
        exact ⟨ht, hr'⟩
    have hpushed : pushed [Event.group g (.push i r
        ((s.group g).table i).state)] = [r] := rfl
    refine ⟨fun r' hr' => ?_, ?_, fun t' r' hr' => ?_,
      fun t₁ t₂ r₁ r₂ h₁ h₂ => h.distinct t₁ t₂ r₁ r₂ (hself t₁ r₁ h₁).2
        (hself t₂ r₂ h₂).2⟩
    · rw [pushed_append, hpushed, List.mem_append, List.mem_singleton] at hr'
      rcases hr' with hr' | rfl
      · exact h.below r' hr'
      · exact (h.pending t r' hpending).1
    · rw [pushed_append, hpushed, List.pairwise_append]
      refine ⟨h.different, List.pairwise_singleton _ _, fun r' hr' r'' hr'' => ?_⟩
      rw [List.mem_singleton] at hr''
      rw [hr'']
      exact (h.pending t r hpending).2 r' hr'
    · obtain ⟨ht, hold⟩ := hself t' r' hr'
      refine ⟨(h.pending t' r' hold).1, fun r'' hr'' => ?_⟩
      rw [pushed_append, hpushed, List.mem_append, List.mem_singleton] at hr''
      rcases hr'' with hr'' | rfl
      · exact (h.pending t' r' hold).2 r'' hr''
      · exact h.distinct t t' r'' r' hpending hold (Ne.symm ht)
  all_goals
    refine h.of_quiet rfl (by simp) (hquiet ?_)
    simp [Call.record?]

/-- Every record in a run is new when it is pushed. -/
theorem Trace.freshRecords (h : Trace L ok tr s) : FreshRecords tr s := by
  refine Trace.byTrans h ?_ ?_
  · exact ⟨by simp [pushed], by simp [pushed],
      by simp [Sys.initial, Call.record?], by simp [Sys.initial, Call.record?]⟩
  · intro tr s a events s' _ ih _ hstep
    cases hstep with
    | @worker g o G gevents hg hw =>
        refine ih.of_quiet (hw.pushed_eq_nil g) (by simp) fun t r hr => ?_
        rcases Sys.emitAll_call (s.setGroup g G) (t := t) with
          hc | hc | ⟨b, hc⟩ <;> rw [hc] at hr
        · exact hr
        · cases hr
        · cases hr
    | call hlive hc => exact ih.call hc
    | @enter t q events s' he =>
        refine ih.of_quiet (by cases he <;> rfl)
          (by cases he <;> simp) fun t' r hr => ?_
        by_cases ht : t' = t
        · subst ht
          rw [he.call_self] at hr
          cases q <;> cases hr
        · rwa [he.call_of_ne ht] at hr
    | user hu =>
        refine ih.of_quiet rfl (by cases hu <;> rfl) fun t r hr => ?_
        rwa [hu.call_eq] at hr

/-- No record is pushed twice. -/
theorem Trace.nodup_pushed (h : Trace L ok tr s) : (pushed tr).Nodup :=
  h.freshRecords.different.imp fun hne heq => hne (congrArg _ heq)

end Core
end Eaf

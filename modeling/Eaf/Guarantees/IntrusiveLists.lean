import Eaf.Guarantees.ListMembership
import Eaf.System.Emptying
import Eaf.System.Links
import Eaf.System.Records

/-!
# The intrusive lists

The lists of the groups in memory, over whole runs of the system.  What has to
be known about the nodes is that those of the services are apart from each
other and that a new record is allocated where nothing else is.  Calls of
`eaf_load` and `eaf_cleanup` do not overlap, and no send is in progress while
`eaf_cleanup` empties the services, which it does without the lock.
-/

namespace Eaf
namespace Core

open Utils LabelledRun

/-- The nodes of the services are different, and none is at the null
pointer. -/
def Nodes.Apart (N : Nodes) (L : Layout) : Prop :=
  (L.services.map fun p => N.service p.1 p.2).Nodup ∧
    0 ∉ L.services.map fun p => N.service p.1 p.2

instance (N : Nodes) (L : Layout) : Decidable (N.Apart L) :=
  inferInstanceAs (Decidable (_ ∧ _))

/-- The nodes that services hold: their own and those of their records. -/
def Sys.heldNodes (L : Layout) (N : Nodes) (s : Sys) : List Ptr :=
  (L.services.map fun p => N.service p.1 p.2) ++
    L.services.flatMap fun p =>
      ((s.group p.1).table p.2).records.map fun r => N.record r.rid

/-- The nodes of the records that are about to be pushed. -/
def Sys.pendingNodes (L : Layout) (N : Nodes) (s : Sys) : List Ptr :=
  L.threads.filterMap fun t =>
    (s.call t).record?.map fun r => N.record r.rid

/-- `EAF_MALLOC` returns memory that is not in use. -/
def freshNode (L : Layout) (N : Nodes) (s : Sys) : Act → Prop
  | .call t _ =>
      match s.call t with
      | .pushAlloc _ _ _ _ => N.record s.nextRec ≠ 0 ∧
          N.record s.nextRec ∉ s.heldNodes L N ++ s.pendingNodes L N
      | _ => True
  | _ => True

/-- No send is in progress while `eaf_cleanup` empties the services:
`_eaf_cleanup_msgq` pops without the lock, and the context is freed next. -/
def noSendWhileEmptying (L : Layout) (s : Sys) : Prop :=
  ∀ t ∈ L.threads, (s.call t).emptying = true →
    ∀ t' ∈ L.threads, (s.call t').send? = none

/-- The steps that are looked at: calls of `eaf_load` and `eaf_cleanup` do not
overlap, no send is in progress while `eaf_cleanup` empties the services, and
the allocator does its work. -/
def permitted (L : Layout) (N : Nodes) (x : Sys × Links) (a : Act) : Prop :=
  serial L x.1 a ∧ noSendWhileEmptying L x.1 ∧ freshNode L N x.1 a

/-- The call that allocates a record. -/
def Act.allocates (s : Sys) : Act → Bool
  | .call t _ =>
      match s.call t with
      | .pushAlloc _ _ _ _ => true
      | _ => false
  | _ => false

theorem freshNode_iff {L : Layout} {N : Nodes} {s : Sys} {a : Act} :
    freshNode L N s a ↔ (a.allocates s = false ∨ N.record s.nextRec ≠ 0 ∧
      N.record s.nextRec ∉ s.heldNodes L N ++ s.pendingNodes L N) := by
  cases a with
  | call t o => cases hcall : s.call t <;> simp [freshNode, Act.allocates, hcall]
  | _ => simp [freshNode, Act.allocates]

instance (L : Layout) (N : Nodes) (s : Sys) (a : Act) :
    Decidable (freshNode L N s a) :=
  decidable_of_iff _ freshNode_iff.symm

instance (L : Layout) (s : Sys) : Decidable (noSendWhileEmptying L s) :=
  inferInstanceAs (Decidable (∀ t ∈ L.threads, _ → ∀ t' ∈ L.threads, _))

instance (L : Layout) (N : Nodes) (x : Sys × Links) (a : Act) :
    Decidable (permitted L N x a) :=
  inferInstanceAs (Decidable (_ ∧ _ ∧ _))

variable {L : Layout} {N : Nodes} {s s' : Sys} {m m' : Links} {g i : Nat}
  {t : Tid} {a : Act} {events : List Event} {r : MsgqRecord} {p : Ptr}

/-! ## The nodes in use -/

theorem Layout.mem_services :
    (g, i) ∈ L.services ↔ i < (L.conf g).size := by
  simp only [Layout.services, List.mem_flatMap, List.mem_range, List.mem_map,
    Prod.mk.injEq]
  constructor
  · rintro ⟨k, -, j, hj, rfl, rfl⟩
    exact hj
  · intro hi
    exact ⟨g, Layout.lt_size_of_lt hi, i, hi, rfl, rfl⟩

theorem Sys.mem_heldNodes :
    p ∈ s.heldNodes L N ↔
      (∃ g i, i < (L.conf g).size ∧ N.service g i = p) ∨
        ∃ g i, i < (L.conf g).size ∧
          ∃ r ∈ ((s.group g).table i).records, N.record r.rid = p := by
  simp [Sys.heldNodes, Layout.mem_services]

/-- Records are held by services of the table, and those that are about to be
pushed have nodes of their own. -/
structure Separate (L : Layout) (N : Nodes) (s : Sys) : Prop where
  held : ∀ g i r, r ∈ ((s.group g).table i).records → i < (L.conf g).size
  pending : ∀ t r, (s.call t).record? = some r →
    N.record r.rid ≠ 0 ∧ N.record r.rid ∉ s.heldNodes L N
  distinct : ∀ t t' r r', (s.call t).record? = some r →
    (s.call t').record? = some r' → t ≠ t' → N.record r.rid ≠ N.record r'.rid

theorem Separate.initial (L : Layout) (N : Nodes) :
    Separate L N (Sys.initial L) where
  held g i r hr := by
    simp [Sys.initial, Group.initial, Service.initial, Service.records] at hr
  pending t r hr := by cases hr
  distinct t t' r r' hr := by cases hr

/-- A step that makes no record and gives none away. -/
theorem Separate.of_quiet (h : Separate L N s)
    (hrecords : ∀ g i r, r ∈ ((s'.group g).table i).records →
      r ∈ ((s.group g).table i).records)
    (hcall : ∀ t r, (s'.call t).record? = some r →
      (s.call t).record? = some r) : Separate L N s' where
  held g i r hr := h.held g i r (hrecords g i r hr)
  pending t r hr := by
    obtain ⟨hnull, hheld⟩ := h.pending t r (hcall t r hr)
    refine ⟨hnull, fun hmem => hheld ?_⟩
    rw [Sys.mem_heldNodes] at hmem ⊢
    refine hmem.imp_right ?_
    rintro ⟨g, i, hi, r', hr', heq⟩
    exact ⟨g, i, hi, r', hrecords g i r' hr', heq⟩
  distinct t t' r r' hr hr' :=
    h.distinct t t' r r' (hcall t r hr) (hcall t' r' hr')

/-- The step of a thread inside a call. -/
theorem Separate.call {o : Outcome} (h : Separate L N s) (guards : Guards L s)
    (hfresh : freshNode L N s (.call t o)) (hc : CallTrans L s t events s') :
    Separate L N s' := by
  have hother : ∀ t', t' ≠ t → s'.call t' = s.call t' :=
    fun t' ht => hc.call_of_ne ht
  have hquiet : (∀ g i r, r ∈ ((s'.group g).table i).records →
        r ∈ ((s.group g).table i).records) →
      (∀ r, (s'.call t).record? = some r → (s.call t).record? = some r) →
        Separate L N s' := by
    intro hrecords hself
    refine h.of_quiet hrecords fun t' r hr => ?_
    by_cases ht : t' = t
    · subst ht
      exact hself r hr
    · rwa [hother t' ht] at hr
  have hmem := fun g i r => hc.mem_records (g := g) (i := i) (r := r)
  cases hc
  case pushRecord b k j fn hcall =>
    obtain ⟨hnull, hunused⟩ : N.record s.nextRec ≠ 0 ∧
        N.record s.nextRec ∉ s.heldNodes L N ++ s.pendingNodes L N := by
      simpa [freshNode, hcall] using hfresh
    rw [List.mem_append, not_or] at hunused
    -- the calls of the other threads do not have the new node
    have hnew : ∀ t' r, (s.call t').record? = some r →
        N.record r.rid ≠ N.record s.nextRec := by
      intro t' r hr heq
      have ht : t' ∈ L.threads := by
        by_contra hout
        rw [guards.calls.outside t' hout] at hr
        cases hr
      refine hunused.2 (List.mem_filterMap.mpr ⟨t', ht, ?_⟩)
      rw [hr, Option.map_some, heq]
    have hself : ∀ t' r', ((({ s with nextRec := s.nextRec + 1 }.addRef
          b.msg).setCall t (.pushLock b k j
            ⟨s.nextRec, fn, b.src, b.dst, b.msg⟩)).call t').record? = some r' →
        (t' = t ∧ r'.rid = s.nextRec) ∨
          t' ≠ t ∧ (s.call t').record? = some r' := by
      intro t' r' hr'
      by_cases ht : t' = t
      · subst ht
        obtain rfl : (⟨s.nextRec, fn, b.src, b.dst, b.msg⟩ : MsgqRecord) = r' := by
          simpa [Call.record?] using hr'
        exact .inl ⟨rfl, rfl⟩
      · rw [hother t' ht] at hr'
        exact .inr ⟨ht, hr'⟩
    refine ⟨h.held, fun t' r' hr' => ?_, fun t₁ t₂ r₁ r₂ h₁ h₂ hne => ?_⟩
    · rcases hself t' r' hr' with ⟨-, hrid⟩ | ⟨-, hold⟩
      · rw [hrid]
        exact ⟨hnull, hunused.1⟩
      · exact h.pending t' r' hold
    · rcases hself t₁ r₁ h₁ with ⟨ht₁, hrid₁⟩ | ⟨ht₁, hold₁⟩ <;>
        rcases hself t₂ r₂ h₂ with ⟨ht₂, hrid₂⟩ | ⟨ht₂, hold₂⟩
      · exact absurd (ht₁.trans ht₂.symm) hne
      · rw [hrid₁]
        exact (hnew t₂ r₂ hold₂).symm
      · rw [hrid₂]
        exact hnew t₁ r₁ hold₁
      · exact h.distinct t₁ t₂ r₁ r₂ hold₁ hold₂ hne
  case pushAccepted b k j r G hcall hpush =>
    have hpending : (s.call t).record? = some r := by
      rw [hcall]
      rfl
    have hplaced := guards.calls.placed t
    rw [hcall] at hplaced
    -- the only record that a service gets is the one that was pushed
    have hgot : ∀ g i r', r' ∈ ((((s.setGroup k G).setCall t
          (.pushPost b k)).group g).table i).records →
        r' ∈ ((s.group g).table i).records ∨ (g = k ∧ i = j ∧ r' = r) := by
      intro g i r' hr'
      rcases hmem g i r' hr' with hold | ⟨b', hcall', -⟩
      · exact .inl hold
      · rw [hcall] at hcall'
        cases hcall'
        exact .inr ⟨rfl, rfl, rfl⟩
    have hself : ∀ t' r', (((s.setGroup k G).setCall t (.pushPost b k)).call
        t').record? = some r' → t' ≠ t ∧ (s.call t').record? = some r' := by
      intro t' r' hr'
      by_cases ht : t' = t
      · simp [ht, Call.record?] at hr'
      · rw [hother t' ht] at hr'
        exact ⟨ht, hr'⟩
    refine ⟨fun g i r' hr' => ?_, fun t' r' hr' => ?_,
      fun t₁ t₂ r₁ r₂ h₁ h₂ => h.distinct t₁ t₂ r₁ r₂ (hself t₁ r₁ h₁).2
        (hself t₂ r₂ h₂).2⟩
    · rcases hgot g i r' hr' with hold | ⟨rfl, rfl, -⟩
      · exact h.held g i r' hold
      · exact hplaced.2.1.1
    · obtain ⟨ht, hold⟩ := hself t' r' hr'
      obtain ⟨hnull, hheld⟩ := h.pending t' r' hold
      refine ⟨hnull, fun hin => ?_⟩
      rw [Sys.mem_heldNodes] at hin hheld
      rcases hin with hservice | ⟨g, i, hi, r'', hr'', heq⟩
      · exact hheld (.inl hservice)
      · rcases hgot g i r'' hr'' with hrecord | ⟨-, -, rfl⟩
        · exact hheld (.inr ⟨g, i, hi, r'', hrecord, heq⟩)
        · exact h.distinct t t' r'' r' hpending hold (Ne.symm ht) heq
  all_goals
    refine hquiet (fun g i r hr => ?_) ?_
    · rcases hmem g i r hr with hold | ⟨b, hcall, -⟩
      · exact hold
      · simp_all
    · simp [Call.record?]

/-- Every step of the system keeps the nodes apart. -/
theorem Separate.step (h : Separate L N s) (guards : Guards L s)
    (hfresh : freshNode L N s a) (hstep : SysTrans L s a events s') :
    Separate L N s' := by
  cases hstep with
  | @worker k o G gevents hk hw =>
      refine h.of_quiet (fun g i r hr => ?_) fun t r hr => ?_
      · rw [Sys.emitAll_group, Sys.setGroup_group] at hr
        by_cases hg : g = k
        · subst hg
          rw [Function.update_self] at hr
          exact hw.mem_records hr
        · rwa [Function.update_of_ne hg] at hr
      · rcases Sys.emitAll_call (s.setGroup k G) (t := t) with
          hc | hc | ⟨b, hc⟩ <;> rw [hc] at hr
        · exact hr
        · cases hr
        · cases hr
  | call hlive hc => exact h.call guards hfresh hc
  | @enter t q events s' he =>
      refine h.of_quiet (fun g i r hr => ?_) fun t' r hr => ?_
      · rwa [he.group_eq] at hr
      · by_cases ht : t' = t
        · subst ht
          rw [he.call_self] at hr
          cases q <;> cases hr
        · rwa [he.call_of_ne ht] at hr
  | user hu =>
      refine h.of_quiet (fun g i r hr => ?_) fun t r hr => ?_
      · rwa [hu.group_eq] at hr
      · rwa [hu.call_eq] at hr

/-! ## The calls of a step -/

variable {group : Nat → Group} {calls : List ListCall}

/-- A node that is neither of a service nor of a queued record is in no
list. -/
theorem Nodes.unlinked (hlists : ∀ k, Lists (L.conf k) (group k)) (hp : p ≠ 0)
    (hservice : ∀ g i, i < (L.conf g).size → N.service g i ≠ p)
    (hrecord : ∀ g i, ∀ r ∈ ((group g).table i).queue, N.record r.rid ≠ p) :
    N.Unlinked group p := by
  refine ⟨hp, ?_⟩
  rintro ⟨g, list⟩ hmem
  cases list with
  | busyList =>
      obtain ⟨i, hi, heq⟩ := List.mem_map.mp hmem
      exact hservice g i (((hlists g).mem_busy i).mp hi).1 heq
  | waitList =>
      obtain ⟨i, hi, heq⟩ := List.mem_map.mp hmem
      exact hservice g i (((hlists g).mem_wait i).mp hi).1 heq
  | queue i =>
      obtain ⟨r, hr, heq⟩ := List.mem_map.mp hmem
      exact hrecord g i r hr heq

/-- Calls of `_eaf_service_set_state_nolock` for services of the group. -/
theorem fitAll_setStates
    (h : ∀ call ∈ calls, ∃ i st, call = .setState i st ∧ i < (L.conf g).size) :
    ListCall.FitAll L N g group calls := by
  induction calls generalizing group with
  | nil => trivial
  | cons call rest ih =>
      obtain ⟨i, st, rfl, hi⟩ := h call List.mem_cons_self
      exact ⟨hi, ih fun call hcall => h call (List.mem_cons_of_mem _ hcall)⟩

/-- The calls of a worker. -/
theorem Group.fitAll (inv : GroupInv (L.conf g) (group g)) :
    ListCall.FitAll L N g group ((group g).listCalls (L.conf g)) := by
  have hfocus := inv.focus
  unfold Group.listCalls
  cases hpc : (group g).worker
  case inInit i caller =>
    have hi := hfocus i (by rw [hpc]; rfl)
    refine ⟨hi, ?_⟩
    split
    · exact ⟨hi, trivial⟩
    · trivial
  case popMsg ph i =>
    have hi := hfocus i (by rw [hpc]; rfl)
    refine ⟨trivial, ?_⟩
    split
    · exact ⟨hi, trivial⟩
    · trivial
  case handled ph i =>
    have hi := hfocus i (by rw [hpc]; rfl)
    dsimp only
    split
    · exact ⟨hi, trivial⟩
    · trivial
  case tdScan i =>
    dsimp only
    split
    next hscan => exact ⟨hscan.1, trivial⟩
    next => trivial
  case tdPop i => exact ⟨trivial, trivial⟩
  case tdExit1 i | exInExit i => exact ⟨hfocus i (by rw [hpc]; rfl), trivial⟩
  case exitScan k =>
    cases k with
    | zero => trivial
    | succ i =>
        dsimp only
        split
        next => trivial
        next hexit =>
          rw [not_or, not_not] at hexit
          exact ⟨hexit.2.1, trivial⟩
  all_goals trivial

/-- The calls of an API call. -/
theorem Sys.fitAll (h : Separate L N s) (guards : Guards L s)
    (hlists : ∀ k, Lists (L.conf k) (s.group k)) (t : Tid) :
    ListCall.FitAll L N (s.listCalls L (s.call t)).1 s.group
      (s.listCalls L (s.call t)).2 := by
  have hplaced := guards.calls.placed t
  unfold Sys.listCalls
  cases hcall : s.call t
  case pushLock b g i r =>
    rw [hcall] at hplaced
    have hi := hplaced.2.1.1
    obtain ⟨hnull, hheld⟩ := h.pending t r (by rw [hcall]; rfl)
    rw [Sys.mem_heldNodes, not_or] at hheld
    have hservice : ∀ k j, j < (L.conf k).size →
        N.service k j ≠ N.record r.rid :=
      fun k j hj heq => hheld.1 ⟨k, j, hj, heq⟩
    have hrecord : ∀ k j, ∀ r' ∈ ((s.group k).table j).queue,
        N.record r'.rid ≠ N.record r.rid := by
      intro k j r' hr' heq
      have hmem : r' ∈ ((s.group k).table j).records :=
        List.mem_append_right _ hr'
      exact hheld.2 ⟨k, j, h.held k j r' hmem, r', hmem, heq⟩
    have hpush : N.Unlinked s.group (N.record r.rid) :=
      Nodes.unlinked hlists hnull hservice hrecord
    -- a change of state puts no new node into a list
    have hlater : ∀ st, N.Unlinked (Function.update s.group g
        ((s.group g).setState i st)) (N.record r.rid) := by
      intro st
      refine Nodes.unlinked (fun k => ?_) hnull hservice fun k j r' hr' => ?_
      · by_cases hk : k = g
        · subst hk
          rw [Function.update_self]
          exact (hlists k).setState hi st
        · rw [Function.update_of_ne hk]
          exact hlists k
      · refine hrecord k j r' ?_
        by_cases hk : k = g
        · subst hk
          rw [Function.update_self] at hr'
          by_cases hj : j = i <;> simpa [hj] using hr'
        · rwa [Function.update_of_ne hk] at hr'
    dsimp only
    split
    · trivial
    · exact ⟨hi, hlater .init1, trivial⟩
    · exact ⟨hi, hlater .busy, trivial⟩
    · exact ⟨hpush, trivial⟩
  case resumeLock g i =>
    rw [hcall] at hplaced
    dsimp only
    split
    · exact ⟨hplaced.2.1, trivial⟩
    · trivial
  case loadFix k =>
    refine fitAll_setStates fun call hmem => ?_
    obtain ⟨i, hi, rfl⟩ := List.mem_map.mp hmem
    exact ⟨i, _, rfl, List.mem_range.mp hi⟩
  case cleanMsgq k i =>
    dsimp only
    split
    · exact ⟨trivial, trivial⟩
    · trivial
  all_goals trivial

/-- The lists in memory follow a step of the system. -/
theorem Links.Shows.step (hm : m.Shows N s.group) (h : Separate L N s)
    (guards : Guards L s) (inv : ∀ k, GroupInv (L.conf k) (s.group k))
    (hstep : Core.step L s a = some (s', events)) :
    ∃ m' out, linkedStep L N (s, m) a = some ((s', m'), out) ∧
      m'.Shows N s'.group ∧ AllowedRun m.heap out m'.heap := by
  have hfit : ListCall.FitAll L N (s.callsOf L a).1 s.group
      (s.callsOf L a).2 := by
    cases a with
    | worker g o => exact Group.fitAll (inv g)
    | call t o => exact Sys.fitAll h guards (fun k => (inv k).lists) t
    | enter t q => trivial
    | user op => trivial
  obtain ⟨m', out, hrun, hshows, hallowed⟩ :=
    hm.runAll (inv _).lists hfit
  refine ⟨m', out, by simp [linkedStep, hstep, hrun], hshows.congr fun k => ?_,
    hallowed⟩
  have hexplains := step_explains hstep k
  unfold Explains callsOn at hexplains
  by_cases hk : k = (s.callsOf L a).1
  · subst hk
    simpa using hexplains
  · simpa [hk] using hexplains

/-! ## The start -/

/-- The nodes that `_eaf_init_group` has pushed for these services. -/
def Nodes.pushed (N : Nodes) (services : List (Nat × Nat)) :
    Nat × GroupList → List Ptr
  | (g, .waitList) =>
      (services.filter fun p => p.1 = g).map fun p => N.service p.1 p.2
  | _ => []

theorem Nodes.pushed_cons (rest : List (Nat × Nat))
    (seq : Nat × GroupList → List Ptr) :
    (fun l => seq l ++ N.pushed ((g, i) :: rest) l) =
      fun l => Function.update seq (g, .waitList)
        (seq (g, .waitList) ++ [N.service g i]) l ++ N.pushed rest l := by
  funext ⟨k, list⟩
  by_cases hk : k = g
  · subst hk
    cases list <;> simp [Nodes.pushed]
  · have hk' : g ≠ k := Ne.symm hk
    cases list <;> simp [Nodes.pushed, hk, hk']

/-- The loops of `_eaf_init_group` link every service once. -/
theorem Links.initGroups_spec {services : List (Nat × Nat)}
    {seq : Nat × GroupList → List Ptr} (hr : m.heap.Refines seq)
    (hnodup : (services.map fun p => N.service p.1 p.2).Nodup)
    (hnew : ∀ p ∈ services, N.service p.1 p.2 ≠ 0 ∧
      ∀ l, N.service p.1 p.2 ∉ seq l)
    (hstate : m.state = fun _ _ => .init0) :
    ∃ m' out, Links.initGroups N m services = some (m', out) ∧
      m'.heap.Refines (fun l => seq l ++ N.pushed services l) ∧
      m'.state = (fun _ _ => .init0) ∧ AllowedRun m.heap out m'.heap := by
  induction services generalizing m seq with
  | nil =>
      refine ⟨m, [], rfl, ?_, hstate, .refl⟩
      have hsame : (fun l => seq l ++ N.pushed [] l) = seq := by
        funext ⟨k, list⟩
        cases list <;> simp [Nodes.pushed]
      rwa [hsame]
  | cons p rest ih =>
      obtain ⟨g, i⟩ := p
      obtain ⟨hnot, hnodup'⟩ := List.nodup_cons.mp hnodup
      obtain ⟨hnull, hfree⟩ := hnew (g, i) List.mem_cons_self
      have hstored : (m.store g i .init0).state = fun _ _ => .init0 := by
        funext k j
        by_cases hk : k = g <;> by_cases hj : j = i <;>
          simp [Links.store, hstate, hk, hj]
      obtain ⟨m₁, out, happly, hstate₁, hr₁, hrun⟩ :=
        Links.apply_spec (m := m.store g i .init0) (l := (g, .waitList)) hr
          (allowed_pushBack hnull hfree)
      have hlater : ∀ p ∈ rest, N.service p.1 p.2 ≠ 0 ∧
          ∀ l, N.service p.1 p.2 ∉ Function.update seq (g, .waitList)
            (seq (g, .waitList) ++ [N.service g i]) l := by
        intro p hp
        obtain ⟨hp0, hpl⟩ := hnew p (List.mem_cons_of_mem _ hp)
        refine ⟨hp0, fun l => ?_⟩
        by_cases hl : l = (g, .waitList)
        · subst hl
          rw [Function.update_self]
          intro hmem
          rcases List.mem_append.mp hmem with hold | hself
          · exact hpl _ hold
          · exact hnot (List.mem_map.mpr ⟨p, hp, List.mem_singleton.mp hself⟩)
        · rw [Function.update_of_ne hl]
          exact hpl l
      obtain ⟨m₂, later, hinit, hr₂, hstate₂, hrun'⟩ :=
        ih hr₁ hnodup' hlater (hstate₁.trans hstored)
      refine ⟨m₂, out ++ later, ?_, ?_, hstate₂, hrun.trans hrun'⟩
      · simp [Links.initGroups, Links.initService, happly, hinit]
      · rw [Nodes.pushed_cons]
        exact hr₂

/-- The services of one group, in order. -/
theorem Layout.filter_services (L : Layout) (g : Nat) :
    (L.services.filter fun p => p.1 = g) =
      (List.range (L.conf g).size).map fun i => (g, i) := by
  have hgroups : ∀ n, ((List.range n).flatMap fun k =>
      (List.range (L.conf k).size).map fun i => (k, i)).filter
        (fun p => p.1 = g) =
      if g < n then (List.range (L.conf g).size).map fun i => (g, i)
      else [] := by
    intro n
    induction n with
    | zero => simp
    | succ n ih =>
        rw [List.range_succ, List.flatMap_append, List.filter_append, ih]
        by_cases hn : n = g
        · subst hn
          simp [List.filter_map, Function.comp_def]
        · have hlt : g < n + 1 ↔ g < n := by omega
          simp [List.filter_map, Function.comp_def, hn, hlt]
  rw [Layout.services, hgroups]
  split
  · rfl
  · next hg =>
      have hsize : (L.conf g).size = 0 := by
        by_contra hpos
        exact hg (Layout.lt_size_of_lt (Nat.pos_of_ne_zero hpos))
      simp [hsize]

/-- After that the lists are those of the initial system. -/
theorem Nodes.pushed_services :
    N.pushed L.services = N.linked (Sys.initial L).group := by
  funext ⟨g, list⟩
  cases list with
  | waitList =>
      show (L.services.filter fun p => p.1 = g).map _ =
        (List.range (L.conf g).size).map _
      rw [L.filter_services, List.map_map]
      rfl
  | busyList => rfl
  | queue i => rfl

/-- The memory in which `_eaf_init_group` begins: all lists are empty. -/
def Links.empty (memory : Ptr → EafListNode) : Links where
  heap := ⟨memory, fun _ => eafListInit⟩
  state := fun _ _ => .init0

/-- The lists that `_eaf_init_group` builds are those of the initial
system. -/
theorem Links.initGroups_shows (hN : N.Apart L)
    (memory : Ptr → EafListNode) :
    ∃ m out, Links.initGroups N (.empty memory) L.services = some (m, out) ∧
      m.Shows N (Sys.initial L).group ∧
      AllowedRun (Links.empty memory).heap out m.heap := by
  have hempty : (Links.empty memory).heap.Refines fun _ => [] :=
    ⟨fun _ => ListMem.shows_init memory, fun _ _ _ => List.disjoint_nil_left _⟩
  have hnew : ∀ p ∈ L.services, N.service p.1 p.2 ≠ 0 ∧
      ∀ l : Nat × GroupList, N.service p.1 p.2 ∉ (fun _ => []) l :=
    fun p hp => ⟨fun heq => hN.2 (List.mem_map.mpr ⟨p, hp, heq⟩), fun _ => by simp⟩
  obtain ⟨m, out, hinit, hr, hstate, hrun⟩ :=
    Links.initGroups_spec hempty hN.1 hnew rfl
  refine ⟨m, out, hinit, ⟨?_, fun g i => ?_⟩, hrun⟩
  · rw [← Nodes.pushed_services]
    exact hr
  · rw [hstate]
    rfl

/-! ## Whole runs -/

/-- Runs of the system with its lists in memory. -/
def LinkedRun (L : Layout) (N : Nodes) (m : Links) :
    List ListEvent → Sys × Links → Prop :=
  Run (Guarded (linkedStep L N) (permitted L N)) (Sys.initial L, m)

/-- What holds all along such a run. -/
structure Intact (L : Layout) (N : Nodes) (x : Sys × Links) : Prop where
  shows : x.2.Shows N x.1.group
  separate : Separate L N x.1
  trace : ∃ tr, Trace L (serial L) tr x.1

/-- One step. -/
theorem Intact.step {x : Sys × Links} (h : Intact L N x)
    (ha : permitted L N x a) (hstep : Core.step L x.1 a = some (s', events)) :
    ∃ m' out, linkedStep L N x a = some ((s', m'), out) ∧
      Intact L N (s', m') ∧ AllowedRun x.2.heap out m'.heap := by
  obtain ⟨tr, htrace⟩ := h.trace
  obtain ⟨m', out, hlinked, hshows, hallowed⟩ :=
    h.shows.step h.separate htrace.guards
      (fun k => GroupInv.ofRun htrace.groupRun) hstep
  exact ⟨m', out, hlinked, ⟨hshows,
    h.separate.step htrace.guards ha.2.2 (step_trans hstep),
    _, htrace.snoc ⟨a, ha.1, hstep⟩⟩, hallowed⟩

/-- The run lemma. -/
theorem LinkedRun.intact {m₀ : Links} {out₀ out : List ListEvent}
    {memory : Ptr → EafListNode} {x : Sys × Links}
    (hshows : m₀.Shows N (Sys.initial L).group)
    (hinit : AllowedRun (Links.empty memory).heap out₀ m₀.heap)
    (h : LinkedRun L N m₀ out x) :
    Intact L N x ∧ ListRun memory (out₀ ++ out) x.2.heap := by
  refine Run.invariant (P := fun out x => Intact L N x ∧
    ListRun memory (out₀ ++ out) x.2.heap) h
    ⟨⟨hshows, Separate.initial L N, [], .refl⟩, ?_⟩ ?_
  · rw [List.append_nil]
    exact hinit
  rintro out x events ⟨s', m'⟩ - ⟨hintact, hrun⟩ ⟨a, ha, hnext⟩
  obtain ⟨s, m⟩ := x
  cases hstep : Core.step L s a with
  | none => simp [linkedStep, hstep] at hnext
  | some result =>
      obtain ⟨s'', shown⟩ := result
      obtain ⟨m'', out', hlinked, hintact', hallowed⟩ := hintact.step ha hstep
      obtain ⟨hsys, rfl⟩ := Prod.mk.inj (Option.some.inj (hlinked.symm.trans hnext))
      obtain ⟨rfl, rfl⟩ := Prod.mk.inj hsys
      refine ⟨hintact', ?_⟩
      rw [← List.append_assoc]
      exact hrun.trans hallowed

/-- The first node of a list. -/
theorem Links.Shows.begin (h : m.Shows N s.group) (l : Nat × GroupList) :
    (m.heap.view l).eafListBegin = (N.linked s.group l).headD 0 :=
  (h.refines.shows l).head

/-- **The intrusive lists.**  In every run of the permitted steps, from the loops
of `_eaf_init_group` on, each list function is called as it may be called: a node
that is pushed is in no list, and a node that is erased is in that list.  So no
call follows a null pointer, every step of the model goes through in memory, and
the lists in memory are those of the model: what the event loop finds at the
head of `busy_list` and what is popped from a queue are the nodes of the service
and of the record that the model takes. -/
theorem lists_in_memory (L : Layout) (N : Nodes) (hN : N.Apart L)
    (memory : Ptr → EafListNode) :
    ∃ m₀ out₀, Links.initGroups N (.empty memory) L.services =
        some (m₀, out₀) ∧
      ∀ out s m, LinkedRun L N m₀ out (s, m) →
        ListRun memory (out₀ ++ out) m.heap ∧
        m.heap.members = N.linked s.group ∧
        (∀ g, (m.heap.view (g, .busyList)).eafListBegin =
          (((s.group g).firstBusy).map (N.service g)).getD 0) ∧
        (∀ g i, (m.heap.view (g, .queue i)).eafListBegin =
            ((((s.group g).table i).queue.head?).map fun r =>
              N.record r.rid).getD 0 ∧
          (m.heap.view (g, .queue i)).eafListSize =
            ((s.group g).table i).queue.length) ∧
        ∀ a s' events, permitted L N (s, m) a →
          step L s a = some (s', events) →
            ∃ m' out', linkedStep L N (s, m) a = some ((s', m'), out') := by
  obtain ⟨m₀, out₀, hinit, hshows₀, hrun₀⟩ :=
    Links.initGroups_shows hN memory
  refine ⟨m₀, out₀, hinit, fun out s m hrun => ?_⟩
  obtain ⟨hintact, hlists⟩ := LinkedRun.intact hshows₀ hrun₀ hrun
  have hshows := hintact.shows
  refine ⟨hlists, hshows.refines.members, fun g => ?_, fun g i => ⟨?_, ?_⟩,
    fun a s' events ha hstep => ?_⟩
  · rw [hshows.begin]
    show ((s.group g).busyList.map (N.service g)).headD 0 = _
    cases hlist : (s.group g).busyList <;> simp [Group.firstBusy, hlist]
  · rw [hshows.begin]
    show (((s.group g).table i).queue.map fun r => N.record r.rid).headD 0 = _
    cases ((s.group g).table i).queue <;> rfl
  · rw [ListMem.eafListSize, (hshows.refines.shows (g, .queue i)).size]
    exact List.length_map _
  · obtain ⟨m', out', hlinked, -, -⟩ := hintact.step ha hstep
    exact ⟨m', out', hlinked⟩

/-- Nodes at small addresses. -/
def smallNodes : Nodes where
  service g i := UInt64.ofNat (256 * g + 16 * i + 16)
  record rid := UInt64.ofNat (4096 + 16 * rid)

/-- A request wakes the lazily loaded service of a pair: its node is at the head
of `busy_list`, and the node of the request in its queue. -/
theorem lists_in_memory_lazy :
    ∃ m₀ out₀, Links.initGroups smallNodes (.empty fun _ => ⟨0, 0⟩)
        lazyPair.services = some (m₀, out₀) ∧
      ∃ out s m, LinkedRun lazyPair smallNodes m₀ out (s, m) ∧
        ListRun (fun _ => ⟨0, 0⟩) (out₀ ++ out) m.heap ∧
        (m.heap.view (0, .busyList)).eafListBegin = 16 ∧
        (m.heap.view (0, .queue 0)).eafListBegin = 4096 := by
  have hapart : smallNodes.Apart lazyPair := by decide
  obtain ⟨m₀, out₀, hinit, hruns⟩ :=
    lists_in_memory lazyPair smallNodes hapart fun _ => ⟨0, 0⟩
  have hcheck : (Links.initGroups smallNodes (.empty fun _ => ⟨0, 0⟩)
      lazyPair.services).any (fun start =>
        (replay (linkedStep lazyPair smallNodes) (permitted lazyPair smallNodes)
          (Sys.initial lazyPair, start.1) lazyPairRequest).any
            fun o : (Sys × Links) × List ListEvent =>
              decide ((o.1.1.group 0).firstBusy = some 0 ∧
                (((o.1.1.group 0).table 0).queue.head?).map (·.rid) =
                  some 0)) = true := by
    decide +kernel
  rw [hinit] at hcheck
  obtain ⟨⟨s, m⟩, out, hrun, hend⟩ := exists_run_of_replay hcheck
  obtain ⟨hbusy, hqueue⟩ := of_decide_eq_true hend
  obtain ⟨hlists, -, hbegin, hfirst, -⟩ := hruns out s m hrun
  refine ⟨m₀, out₀, hinit, out, s, m, hrun, hlists, ?_, ?_⟩
  · rw [hbegin 0, hbusy]
    rfl
  · rw [(hfirst 0 0).1]
    cases hq : ((s.group 0).table 0).queue with
    | nil => simp [hq] at hqueue
    | cons r rest =>
        have hrid : r.rid = 0 := by simpa [hq] using hqueue
        show smallNodes.record r.rid = 4096
        rw [hrid]
        rfl

end Core
end Eaf

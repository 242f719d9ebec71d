import Eaf.Group.Holdings
import Eaf.System.OwnCalls

/-!
# Reference counting

The reference count of a message is the number of those who hold a reference
to it: user code, sends in progress, records and the workers during teardown.
A message exists as long as this number is positive.
-/

namespace Eaf
namespace Core

open LabelledRun

variable {L : Layout} {s s' : Sys} {g i : Nat} {t : Tid} {a : Act}
  {events tr : List Event} {m : MsgRef} {G : Group} {o : Outcome}
  {gevents : List GroupEvent} {b : SendArgs}

/-! ## Who holds references -/

/-- The reference that the caller has lent to a send. -/
def SendArgs.lent (b : SendArgs) (m : MsgRef) : Nat :=
  if b.loan then 0 else here m b.msg

/-- The references of a call: the one it was lent, and the one of a record
that is not in a queue. -/
def Call.refs (m : MsgRef) : Call → Nat
  | .pushLock b _ _ r => b.lent m + here m r.msg
  | .pushRevert b _ => b.lent m + here m b.msg
  | .sendTest b | .sendHook b | .sendFind b | .pushTest b _ _ _
  | .pushAlloc b _ _ _ | .pushPost b _ | .sendAfter b _ => b.lent m
  | _ => 0

/-- All references to a message. -/
def Sys.refs (L : Layout) (s : Sys) (m : MsgRef) : Nat :=
  s.owned m + Ledger.total L.threads (fun t => (s.call t).refs m) +
    Ledger.total (List.range L.size) fun g =>
      (s.group g).refs (L.conf g) m

/-- `refcnt`, or zero when the message does not exist. -/
def Sys.count (s : Sys) (m : MsgRef) : Nat :=
  match s.msg m with
  | some x => x.refcnt
  | none => 0

/-- The invariant of the message heap. -/
structure Balanced (L : Layout) (s : Sys) : Prop where
  count : ∀ m, s.count m = s.refs L m
  positive : ∀ m x, s.msg m = some x → 0 < x.refcnt
  fresh : ∀ m, s.nextMsg ≤ m → s.msg m = none

/-- A message exists as long as somebody holds a reference to it. -/
theorem Balanced.live_iff (h : Balanced L s) (m : MsgRef) :
    (s.msg m).isSome ↔ 0 < s.refs L m := by
  rw [← h.count m, Sys.count]
  cases hm : s.msg m with
  | none => simp
  | some x => simpa using h.positive m x hm

/-- A message that exists was allocated before. -/
theorem Balanced.lt_nextMsg (h : Balanced L s) (hlive : (s.msg m).isSome) :
    m < s.nextMsg := by
  by_contra hge
  rw [h.fresh m (Nat.le_of_not_lt hge)] at hlive
  cases hlive

theorem Layout.nodup_threads (L : Layout) : L.threads.Nodup := by
  refine List.Nodup.append ?_ ?_ ?_
  · exact List.nodup_range.map fun _ _ h => by cases h; rfl
  · exact List.nodup_range.map fun _ _ h => by cases h; rfl
  · intro t ht ht'
    obtain ⟨k, -, rfl⟩ := List.mem_map.mp ht
    simp at ht'

/-! ## The effects of the heap operations on a count -/

namespace Sys

theorem count_alloc (x : Msg) (hfresh : s.msg s.nextMsg = none)
    (hx : x.refcnt = 1) (m : MsgRef) :
    (s.alloc x).count m = s.count m + here m s.nextMsg := by
  by_cases hm : m = s.nextMsg
  · subst hm
    simp [count, hfresh, hx]
  · simp [count, here, hm, Ne.symm hm]

theorem count_addRef {m' : MsgRef} (hlive : (s.msg m').isSome) (m : MsgRef) :
    (s.addRef m').count m = s.count m + here m m' := by
  obtain ⟨x, hx⟩ := Option.isSome_iff_exists.mp hlive
  by_cases hm : m = m'
  · subst hm
    simp [count, hx]
  · simp [count, here, hm, Ne.symm hm]

theorem count_decRef {m' : MsgRef} (m : MsgRef) (hpos : 0 < s.count m') :
    (s.decRef m').count m + here m m' = s.count m := by
  by_cases hm : m = m'
  · subst hm
    cases hx : s.msg m with
    | none => simp [count, hx] at hpos
    | some x =>
        simp only [count, hx] at hpos
        by_cases hone : x.refcnt - 1 = 0
        · simp [count, hx, decremented, hone]
          omega
        · simp [count, hx, decremented, hone]
          omega
  · simp [count, here, hm, Ne.symm hm]

theorem count_stampSender (b : SendArgs) (m : MsgRef) :
    (s.stampSender b).count m = s.count m := by
  unfold stampSender
  split
  · by_cases hm : m = b.msg
    · subst hm
      cases hx : s.msg b.msg <;> simp [count, hx]
    · simp [count, hm]
  · rfl

/-- Only the heap matters. -/
theorem count_congr (h : s'.msg = s.msg) (m : MsgRef) :
    s'.count m = s.count m := by
  simp only [count, h]

end Sys

/-- A message that is decremented keeps a positive count, or is destroyed. -/
theorem Balanced.positive_decRef (h : Balanced L s) {m' : MsgRef}
    {x : Msg} (hx : (s.decRef m').msg m = some x) : 0 < x.refcnt := by
  by_cases hm : m = m'
  · subst hm
    simp only [Sys.decRef_msg, Function.update_self] at hx
    obtain ⟨y, -, hy⟩ := Option.bind_eq_some_iff.mp hx
    unfold Sys.decremented at hy
    split at hy
    · cases hy
    · obtain rfl := Option.some.inj hy
      exact Nat.pos_of_ne_zero ‹_›
  · simp only [Sys.decRef_msg, Function.update_of_ne hm] at hx
    exact h.positive m x hx

theorem Balanced.fresh_decRef (h : Balanced L s) {m' : MsgRef}
    (hm : s.nextMsg ≤ m) : (s.decRef m').msg m = none := by
  by_cases hmm : m = m'
  · subst hmm
    simp [h.fresh m hm]
  · simpa [hmm] using h.fresh m hm

/-! ## Changing one holder -/

/-- The references after one call has made a step, and possibly one group was
changed. -/
theorem Sys.refs_call {u : Sys} (ht : t ∈ L.threads)
    (hcall : ∀ t', t' ≠ t → u.call t' = s.call t')
    (hgroup : ∀ g < L.size,
      (u.group g).refs (L.conf g) m = (s.group g).refs (L.conf g) m) :
    u.refs L m + s.owned m + (s.call t).refs m =
      s.refs L m + u.owned m + (u.call t).refs m := by
  have hcalls := Ledger.total_change (f := fun t => (s.call t).refs m)
    (g := fun t => (u.call t).refs m) L.nodup_threads ht
    (fun t' ht' => by rw [hcall t' ht'])
  have hgroups : Ledger.total (List.range L.size)
      (fun g => (u.group g).refs (L.conf g) m) =
      Ledger.total (List.range L.size)
        fun g => (s.group g).refs (L.conf g) m :=
    Ledger.total_congr fun g hg => hgroup g (List.mem_range.mp hg)
  simp only [Sys.refs, hgroups]
  omega

/-- The references after one group was changed. -/
theorem Sys.refs_group {u : Sys} (hg : g < L.size) (howned : u.owned = s.owned)
    (hcall : ∀ t, (u.call t).refs m = (s.call t).refs m)
    (hgroup : ∀ k, k ≠ g → u.group k = s.group k) :
    u.refs L m + (s.group g).refs (L.conf g) m =
      s.refs L m + (u.group g).refs (L.conf g) m := by
  have hgroups := Ledger.total_change
    (f := fun k => (s.group k).refs (L.conf k) m)
    (g := fun k => (u.group k).refs (L.conf k) m)
    (List.nodup_range (n := L.size)) (List.mem_range.mpr hg)
    (fun k hk => by rw [hgroup k hk])
  have hcalls : Ledger.total L.threads (fun t => (u.call t).refs m) =
      Ledger.total L.threads fun t => (s.call t).refs m :=
    Ledger.total_congr fun t _ => hcall t
  simp only [Sys.refs, hcalls, howned]
  omega

/-! ## Loans -/

/-- A send without a reference of its own is made by a worker thread, with the
current message or with the answer of a teardown. -/
def Lent (s : Sys) (t : Tid) (b : SendArgs) : Prop :=
  ∃ g, t = .worker g ∧ ((s.group g).current? = some b.msg ∨
    ∃ i r cur, (s.group g).worker = .tdSend i r b.msg cur)

theorem Group.current?_congr {G' : Group} (hworker : G'.worker = G.worker)
    (hcur : ∀ i, (G'.table i).curMsg = (G.table i).curMsg) :
    G'.current? = G.current? := by
  unfold Group.current?
  rw [hworker]
  split <;> simp [hcur]

/-- Calls change no current message, except those of a group whose worker has
returned. -/
theorem CallTrans.curMsg (h : CallTrans L s t events s')
    (calls : CallFacts L s) (g : Nat) :
    (∀ i, ((s'.group g).table i).curMsg = ((s.group g).table i).curMsg) ∨
      ∃ site, (s.group g).worker = .returned site := by
  cases h
  case pushAccepted b k i r G h hpush =>
    left
    intro j
    by_cases hk : g = k
    · subst hk
      simp only [Sys.setCall_group, Sys.setGroup_group, Function.update_self,
        (Group.pushMsg_some hpush).2.1]
      by_cases hj : j = i
      · simp [hj]
      · simp [hj]
    · simp [hk]
  case resumeAccepted k i G h hresume =>
    left
    intro j
    obtain ⟨-, rfl⟩ := Group.resumeService_some hresume
    by_cases hk : g = k
    · subst hk
      by_cases hj : j = i
      · simp [hj]
      · simp [hj]
    · simp [hk]
  case loadFixed k h hk =>
    left
    intro j
    by_cases hgk : g = k
    · subst hgk
      simp only [Sys.setCall_group, Sys.setGroup_group, Function.update_self,
        Group.loadFixState_table]
      split <;> rfl
    · simp [hgk]
  case cleanQueued k i r rest h _ _ | cleanCurrent k i r h _ _ _ =>
    by_cases hk : g = k
    · subst hk
      exact .inr (calls.joined t g i h)
    · exact .inl fun j => by simp [hk]
  case pushPosted k _ | resumePosted k _ | exitPosted k _ _ | loadPosted k _ _ =>
    left
    intro j
    by_cases hk : g = k
    · simp [hk]
    · simp [hk]
  all_goals exact .inl fun j => by simp

theorem CallTrans.lent {t' : Tid} (h : CallTrans L s t events s')
    (calls : CallFacts L s) (hlent : Lent s t' b) : Lent s' t' b := by
  obtain ⟨g, rfl, hlent⟩ := hlent
  refine ⟨g, rfl, ?_⟩
  rcases h.curMsg calls g with hcur | ⟨site, hsite⟩
  · rwa [Group.current?_congr (h.worker_eq g) hcur, h.worker_eq]
  · simp [Group.current?, hsite] at hlent

/-- A send keeps its arguments from its first step on. -/
theorem CallTrans.send_back (h : CallTrans L s t events s')
    (hb : (s'.call t).send? = some b) : (s.call t).send? = some b := by
  cases h <;> simp_all [Call.send?]

theorem Trace.loans (h : Trace L (serial L) tr s)
    (hb : (s.call t).send? = some b) (hloan : b.loan = true) :
    Lent s t b := by
  suffices ∀ t b, (s.call t).send? = some b → b.loan = true → Lent s t b from
    this t b hb hloan
  clear hb hloan
  refine Trace.byTrans (P := fun _ s => ∀ t b, (s.call t).send? = some b →
    b.loan = true → Lent s t b) h (fun _ _ hb => by cases hb) ?_
  intro tr s a events s' hrun ih _ hstep t b hb hloan
  cases hstep with
  | @worker k o G gevents hk hw =>
      by_cases ht : t = .worker k
      · subst ht
        have hown := hrun.ownCall k
        rcases hw.own_call with ⟨i, r, cur, x, hpc, -, rfl, rfl⟩ |
          ⟨i, r, rsp, cur, code, hpc, -, rfl, rfl⟩ |
          ⟨hsilent, hpc, -, hcall⟩
        · refine ⟨k, rfl, .inr ⟨i, r, cur, ?_⟩⟩
          simp [Sys.emitAll, Sys.emit, Call.send?] at hb
          simp [← hb]
        · simp [Sys.emitAll, Sys.emit, Call.send?] at hb
        · -- a worker that makes a step has no call in progress
          exfalso
          rw [Sys.emitAll_call_of_silent _ hsilent, Sys.setGroup_call] at hb
          have hfree : (s.call (.worker k)).free = true := by
            cases hin : (s.group k).worker.inCallback with
            | true => simpa [Sys.env] using hcall hin
            | false => exact hown.free hin hpc
          cases hcall : s.call (.worker k) <;>
            simp_all [Call.free, Call.send?]
      · rw [Sys.emitAll_call_of_ne ht, Sys.setGroup_call] at hb
        obtain ⟨g, rfl, hlent⟩ := ih t b hb hloan
        have hgk : g ≠ k := by simpa using ht
        refine ⟨g, rfl, ?_⟩
        rwa [Sys.emitAll_group, Sys.setGroup_group, Function.update_of_ne hgk]
  | @call t' o events s' hlive hc =>
      refine hc.lent hrun.guards.calls (ih t b ?_ hloan)
      by_cases ht : t = t'
      · subst ht
        exact hc.send_back hb
      · rwa [hc.call_of_ne ht] at hb
  | @enter t' q events s' he =>
      by_cases ht : t = t'
      · subst ht
        rw [he.call_self] at hb
        cases q <;> simp [Request.start, Call.send?] at hb
        subst hb
        cases he with
        | other hmay hq => exact absurd rfl (hq _)
        | send hmay hsend =>
            cases t with
            | client k => simp [Sys.maySend, hloan] at hsend
            | worker k =>
                refine ⟨k, rfl, .inl ?_⟩
                simpa [Sys.maySend, hloan] using hsend
      · rw [he.call_of_ne ht] at hb
        obtain ⟨g, rfl, hlent⟩ := ih t b hb hloan
        exact ⟨g, rfl, by rwa [he.group_eq]⟩
  | user hu =>
      rw [hu.call_eq] at hb
      obtain ⟨g, rfl, hlent⟩ := ih t b hb hloan
      exact ⟨g, rfl, by rwa [hu.group_eq]⟩

/-! ## Messages in use exist -/

theorem Balanced.live (h : Balanced L s) (hpos : 0 < s.refs L m) :
    (s.msg m).isSome :=
  (h.live_iff m).mpr hpos

theorem Balanced.live_of_call (h : Balanced L s) (ht : t ∈ L.threads)
    (hpos : 0 < (s.call t).refs m) : (s.msg m).isSome := by
  have hle := Ledger.le_total (f := fun t => (s.call t).refs m) ht
  exact h.live (by simp only [Sys.refs]; omega)

theorem Balanced.live_of_group (h : Balanced L s) (hg : g < L.size)
    (hpos : 0 < (s.group g).refs (L.conf g) m) : (s.msg m).isSome := by
  have hle := Ledger.le_total (f := fun g => (s.group g).refs (L.conf g) m)
    (List.mem_range.mpr hg)
  exact h.live (by simp only [Sys.refs]; omega)

/-- A group holds a reference to the messages of its records. -/
theorem Group.refs_pos {c : GroupTable} {r : MsgqRecord} (hi : i < c.size)
    (hr : r ∈ (G.table i).records) : 0 < G.refs c r.msg := by
  have hservice : here r.msg r.msg ≤ (G.table i).refs r.msg :=
    Ledger.le_total (f := fun r' => here r.msg r'.msg) hr
  have hgroup := Ledger.le_total (f := fun i => (G.table i).refs r.msg)
    (List.mem_range.mpr hi)
  rw [here_self] at hservice
  simp only [Group.refs]
  omega

/-- The message that user code was handed is the one of a current record. -/
theorem Group.current?_some (hcur : G.current? = some m) :
    ∃ i r, G.worker.focus = some i ∧ (G.table i).curMsg = some r ∧
      r.msg = m := by
  unfold Group.current? at hcur
  split at hcur
  all_goals
    first
      | cases hcur
      | (obtain ⟨r, hr, hm⟩ := Option.map_eq_some_iff.mp hcur
         exact ⟨_, r, by simp [*, Pc.focus], hr, hm⟩)

theorem Balanced.live_of_current (h : Balanced L s) (hg : g < L.size)
    (inv : GroupInv (L.conf g) (s.group g))
    (hcur : (s.group g).current? = some m) : (s.msg m).isSome := by
  obtain ⟨i, r, hfocus, hr, rfl⟩ := Group.current?_some hcur
  refine h.live_of_group hg (Group.refs_pos (inv.focus i hfocus) ?_)
  simp [Service.records, hr]

/-- A send holds the reference it was lent. -/
theorem Call.lent_le_refs {call : Call} (hb : call.send? = some b) :
    b.lent m ≤ call.refs m := by
  cases call <;> simp_all [Call.send?, Call.refs]

/-- The message of a send in progress exists. -/
theorem Trace.live_of_send (h : Trace L (serial L) tr s) (hbal : Balanced L s)
    (hb : (s.call t).send? = some b) : (s.msg b.msg).isSome := by
  have ht : t ∈ L.threads := by
    by_contra ht
    simp [h.guards.calls.outside t ht, Call.send?] at hb
  cases hloan : b.loan with
  | false =>
      refine hbal.live_of_call ht (Nat.lt_of_lt_of_le ?_ (Call.lent_le_refs hb))
      simp [SendArgs.lent, hloan]
  | true =>
      obtain ⟨g, rfl, hlent⟩ := h.loans hb hloan
      have hg : g < L.size := by simpa [Layout.threads] using ht
      rcases hlent with hcur | ⟨i, r, cur, hpc⟩
      · exact hbal.live_of_current hg (GroupInv.ofRun h.groupRun) hcur
      · refine hbal.live_of_group hg ?_
        simp only [Group.refs, hpc, Pc.refs, here_self]
        omega

/-- The messages that user code can use exist. -/
theorem Trace.live_of_accessible (h : Trace L (serial L) tr s)
    (hbal : Balanced L s) {via : Sys.Via}
    (hvia : s.accessible L m via = true) : (s.msg m).isSome := by
  have hhooked : ∀ t, (s.call t).hooked? = some m → (s.msg m).isSome := by
    intro t ht
    have hsend : ∃ b, (s.call t).send? = some b ∧ b.msg = m := by
      cases hcall : s.call t <;> simp_all [Call.hooked?, Call.send?]
    obtain ⟨b, hb, rfl⟩ := hsend
    exact h.live_of_send hbal hb
  cases via with
  | owner =>
      have howned : 0 < s.owned m := by simpa [Sys.accessible] using hvia
      exact hbal.live (by simp only [Sys.refs]; omega)
  | current g =>
      obtain ⟨hg, hcur⟩ : g < L.size ∧ (s.group g).current? = some m := by
        simpa [Sys.accessible] using hvia
      exact hbal.live_of_current hg (GroupInv.ofRun h.groupRun) hcur
  | hook t =>
      refine hhooked t ?_
      cases t <;> simp_all [Sys.accessible]

/-! ## Every step keeps the balance -/

/-- When the counts change as the references do, the balance is kept. -/
theorem Balanced.of_change (h : Balanced L s)
    (hchange : ∀ m, s'.count m + s.refs L m = s.count m + s'.refs L m)
    (hpositive : ∀ m x, s'.msg m = some x → 0 < x.refcnt)
    (hfresh : ∀ m, s'.nextMsg ≤ m → s'.msg m = none) : Balanced L s' where
  count m := by
    have hold := h.count m
    have hnew := hchange m
    omega
  positive := hpositive
  fresh := hfresh

/-- A message is allocated for somebody who gets the first reference. -/
theorem Balanced.alloc (h : Balanced L s) {x : Msg} (hx : x.refcnt = 1)
    (hmsg : s'.msg = (s.alloc x).msg) (hnext : s'.nextMsg = s.nextMsg + 1)
    (hrefs : ∀ m, s'.refs L m = s.refs L m + here m s.nextMsg) :
    Balanced L s' := by
  have hfresh := h.fresh s.nextMsg (Nat.le_refl _)
  refine h.of_change (fun m => ?_) (fun m y hy => ?_) fun m hm => ?_
  · rw [Sys.count_congr (s := s.alloc x) hmsg, Sys.count_alloc x hfresh hx,
      hrefs]
    omega
  · rw [hmsg] at hy
    by_cases hm : m = s.nextMsg
    · subst hm
      simp only [Sys.alloc_msg, Function.update_self, Option.some.injEq] at hy
      rw [← hy, hx]
      exact Nat.one_pos
    · rw [Sys.alloc_msg, Function.update_of_ne hm] at hy
      exact h.positive m y hy
  · rw [hnext] at hm
    have hlt : s.nextMsg < m := Nat.lt_of_succ_le hm
    rw [hmsg, Sys.alloc_msg, Function.update_of_ne (Nat.ne_of_gt hlt)]
    exact h.fresh m (Nat.le_of_lt hlt)

/-- One more reference to a message that exists. -/
theorem Balanced.addRef (h : Balanced L s) {n : MsgRef}
    (hlive : (s.msg n).isSome) (hmsg : s'.msg = (s.addRef n).msg)
    (hnext : s'.nextMsg = s.nextMsg)
    (hrefs : ∀ m, s'.refs L m = s.refs L m + here m n) : Balanced L s' := by
  obtain ⟨x, hx⟩ := Option.isSome_iff_exists.mp hlive
  refine h.of_change (fun m => ?_) (fun m y hy => ?_) fun m hm => ?_
  · rw [Sys.count_congr (s := s.addRef n) hmsg, Sys.count_addRef hlive, hrefs]
    omega
  · rw [hmsg] at hy
    by_cases hm : m = n
    · subst hm
      simp only [Sys.addRef_msg, Function.update_self, hx, Option.map_some,
        Option.some.injEq] at hy
      rw [← hy]
      exact Nat.succ_pos _
    · rw [Sys.addRef_msg, Function.update_of_ne hm] at hy
      exact h.positive m y hy
  · rw [hnext] at hm
    have hold := h.fresh m hm
    have hne : m ≠ n := by
      rintro rfl
      rw [hold] at hx
      cases hx
    rw [hmsg, Sys.addRef_msg, Function.update_of_ne hne]
    exact hold

/-- One reference less; the last one takes the message with it. -/
theorem Balanced.decRef (h : Balanced L s) {n : MsgRef}
    (hmsg : s'.msg = (s.decRef n).msg) (hnext : s'.nextMsg = s.nextMsg)
    (hrefs : ∀ m, s'.refs L m + here m n = s.refs L m) : Balanced L s' := by
  have hself := hrefs n
  rw [here_self] at hself
  have hpos : 0 < s.count n := by
    rw [h.count]
    omega
  refine h.of_change (fun m => ?_) (fun m y hy => ?_) fun m hm => ?_
  · have hcount := Sys.count_decRef m hpos
    have hnew := hrefs m
    rw [Sys.count_congr (s := s.decRef n) hmsg]
    omega
  · rw [hmsg] at hy
    exact h.positive_decRef hy
  · rw [hnext] at hm
    rw [hmsg]
    exact h.fresh_decRef hm

/-- Neither the messages nor the references change. -/
theorem Balanced.keep (h : Balanced L s) (hmsg : s'.msg = s.msg)
    (hnext : s'.nextMsg = s.nextMsg)
    (hrefs : ∀ m, s'.refs L m = s.refs L m) : Balanced L s' := by
  refine h.of_change (fun m => ?_) (by rw [hmsg]; exact h.positive)
    (by rw [hmsg, hnext]; exact h.fresh)
  rw [Sys.count_congr hmsg, hrefs]

end Core
end Eaf

import Eaf.System.References

/-!
# The reference counts balance

Every step of the system changes the counts in the heap as it changes the
references that are held, so the counts are right in every reachable state.
-/

namespace Eaf
namespace Core

open LabelledRun

variable {L : Layout} {s s' : Sys} {g i k : Nat} {t : Tid} {a : Act}
  {events tr : List Event} {m : MsgRef} {c : GroupTable} {e : Env}
  {G G' : Group} {o : Outcome} {gevents : List GroupEvent} {b : SendArgs}

/-! ## Worker steps -/

/-- Events that do nothing to the message heap. -/
def GroupEvent.inert : GroupEvent → Bool
  | .release _ _ | .purge _ _ | .answer _ _ _ | .answered _ _ _ _ => false
  | _ => true

theorem Sys.emitAll_heap_of_inert (s : Sys)
    (h : ∀ ev ∈ gevents, ev.inert = true) :
    (s.emitAll L g gevents).msg = s.msg ∧
      (s.emitAll L g gevents).nextMsg = s.nextMsg := by
  unfold Sys.emitAll
  induction gevents generalizing s with
  | nil => exact ⟨rfl, rfl⟩
  | cons ev rest ih =>
      rw [List.foldl_cons]
      obtain ⟨hmsg, hnext⟩ := ih (Sys.emit L g s ev)
        fun ev' hev' => h ev' (by simp [hev'])
      have hev := h ev (by simp)
      rw [hmsg, hnext]
      cases ev <;> simp_all [GroupEvent.inert, Sys.emit]

/-- Inert events neither drop nor gain references. -/
theorem GroupEvent.total_of_inert (h : ∀ ev ∈ gevents, ev.inert = true) :
    Ledger.total gevents (GroupEvent.dropped m) = 0 ∧
      Ledger.total gevents (GroupEvent.gained m) = 0 := by
  simp only [Ledger.total_eq_zero]
  refine ⟨fun ev hev => ?_, fun ev hev => ?_⟩ <;>
    have hinert := h ev hev <;>
    cases ev <;> simp_all [inert, dropped, gained]

/-- A worker that makes no answer destroys one record at most. -/
theorem WorkerTrans.inert (h : WorkerTrans c e G o G' gevents)
    (hsilent : ∀ ev ∈ gevents, ev.silent = true) :
    (∃ i r, gevents = [.release i r]) ∨ ∀ ev ∈ gevents, ev.inert = true := by
  cases h
  case reset i r _ _ | tdFreeCur i r _ | tdFreeQueued i r _ =>
    exact .inl ⟨i, r, rfl⟩
  case tdAnswer | tdSent => simp [GroupEvent.silent] at hsilent
  case readyNone => split <;> simp [GroupEvent.inert]
  all_goals exact .inr (by simp [GroupEvent.inert])

@[simp] theorem Sys.answerTo_refcnt (m : MsgRef) :
    (s.answerTo m).refcnt = 1 := by
  unfold Sys.answerTo
  split <;> rfl

theorem Call.refs_of_free {call : Call} (h : call.free = true) :
    call.refs m = 0 := by
  cases call <;> simp_all [Call.free, Call.refs]

/-- The references after a worker step that leaves the call of its own thread
without a reference. -/
theorem Sys.refs_worker (hk : k < L.size)
    (hgroup : s'.group = Function.update s.group k G)
    (howned : s'.owned = s.owned)
    (hcall : ∀ t, t ≠ .worker k → s'.call t = s.call t)
    (hself : (s'.call (.worker k)).refs m = (s.call (.worker k)).refs m) :
    s'.refs L m + (s.group k).refs (L.conf k) m =
      s.refs L m + G.refs (L.conf k) m := by
  have hrefs := Sys.refs_group (m := m) hk howned
    (fun t => by
      by_cases ht : t = .worker k
      · rw [ht, hself]
      · rw [hcall t ht])
    (fun j hj => by rw [hgroup, Function.update_of_ne hj])
  rw [hgroup, Function.update_self] at hrefs
  exact hrefs

theorem Balanced.worker (h : Balanced L s) (hrun : Trace L (serial L) tr s)
    (hk : k < L.size)
    (hw : WorkerTrans (L.conf k) (s.env k) (s.group k) o G gevents) :
    Balanced L ((s.setGroup k G).emitAll L k gevents) := by
  have hown := hrun.ownCall k
  have inv : GroupInv (L.conf k) (s.group k) := GroupInv.ofRun hrun.groupRun
  have hbalance := fun m => hw.refs (m := m) inv
  have hrefs : ∀ m, ((((s.setGroup k G).emitAll L k gevents).call
        (.worker k)).refs m = (s.call (.worker k)).refs m) →
      ((s.setGroup k G).emitAll L k gevents).refs L m +
        (s.group k).refs (L.conf k) m =
      s.refs L m + G.refs (L.conf k) m := fun m hself =>
    Sys.refs_worker hk (by simp) (by simp)
      (fun t ht => Sys.emitAll_call_of_ne ht) hself
  rcases hw.own_call with ⟨i, r, cur, x, hpc, -, rfl, -⟩ |
    ⟨i, r, rsp, cur, code, hpc, hret, rfl, -⟩ | ⟨hsilent, -⟩
  · -- the answer is allocated, and the worker holds it
    refine h.alloc (x := s.answerTo r.msg) (by simp) rfl rfl fun m => ?_
    have hfree := hown.free (by simp [hpc, Pc.inCallback])
      (by simp [hpc, Pc.inAnswer])
    have hnew := hrefs m (by
      rw [Call.refs_of_free hfree]
      simp [Sys.emitAll, Sys.emit, Call.refs, SendArgs.lent])
    have hgained := hbalance m
    simp [GroupEvent.dropped, GroupEvent.gained, Sys.env] at hgained
    omega
  · -- the worker drops the answer
    refine h.decRef (n := rsp) rfl rfl fun m => ?_
    have hdone : (s.call (.worker k)).refs m = 0 := by
      cases hcall : s.call (.worker k) <;>
        simp_all [Sys.env, Call.refs]
    have hnew := hrefs m (by
      rw [hdone]
      simp [Sys.emitAll, Sys.emit, Call.refs])
    have hdropped := hbalance m
    simp [GroupEvent.dropped, GroupEvent.gained] at hdropped
    omega
  · have hself : ∀ m, (((s.setGroup k G).emitAll L k gevents).call
        (.worker k)).refs m = (s.call (.worker k)).refs m := fun m => by
      rw [Sys.emitAll_call_of_silent _ hsilent]
      rfl
    rcases hw.inert hsilent with ⟨i, r, rfl⟩ | hinert
    · refine h.decRef (n := r.msg) rfl rfl fun m => ?_
      have hnew := hrefs m (hself m)
      have hdropped := hbalance m
      simp [GroupEvent.dropped, GroupEvent.gained] at hdropped
      omega
    · obtain ⟨hmsg, hnext⟩ :=
        Sys.emitAll_heap_of_inert (L := L) (g := k) (s.setGroup k G) hinert
      refine h.keep hmsg hnext fun m => ?_
      have hnew := hrefs m (hself m)
      have hsame := hbalance m
      obtain ⟨hdropped, hgained⟩ := GroupEvent.total_of_inert (m := m) hinert
      rw [hdropped, hgained] at hsame
      omega

/-! ## Calls -/

@[simp] theorem Sys.takeBack_msg (b : SendArgs) :
    (s.takeBack b).msg = s.msg := by
  unfold takeBack
  split <;> rfl

@[simp] theorem Sys.takeBack_nextMsg (b : SendArgs) :
    (s.takeBack b).nextMsg = s.nextMsg := by
  unfold takeBack
  split <;> rfl

/-- The caller gets back what it had lent. -/
theorem Sys.takeBack_owned (b : SendArgs) (m : MsgRef) :
    (s.takeBack b).owned m = s.owned m + b.lent m := by
  unfold takeBack SendArgs.lent here
  split
  · rfl
  · by_cases hm : m = b.msg
    · subst hm
      simp
    · simp [hm, Ne.symm hm]

@[simp] theorem Sys.handOver_msg (b : SendArgs) :
    (s.handOver b).msg = s.msg := by
  unfold handOver
  split <;> rfl

@[simp] theorem Sys.handOver_nextMsg (b : SendArgs) :
    (s.handOver b).nextMsg = s.nextMsg := by
  unfold handOver
  split <;> rfl

/-- The caller lends a reference of its own, if it has one to lend. -/
theorem Sys.handOver_owned (hsend : s.maySend t b = true) (m : MsgRef) :
    (s.handOver b).owned m + b.lent m = s.owned m := by
  unfold maySend at hsend
  unfold handOver SendArgs.lent here
  cases hloan : b.loan with
  | true => simp
  | false =>
      have howned : 0 < s.owned b.msg := by simpa [hloan] using hsend
      by_cases hm : m = b.msg
      · subst hm
        simp only [Bool.false_eq_true, if_false, disown_owned,
          Function.update_self, if_true]
        omega
      · simp [hm, Ne.symm hm]

@[simp] theorem Sys.stampSender_nextMsg (b : SendArgs) :
    (s.stampSender b).nextMsg = s.nextMsg := by
  unfold stampSender
  split <;> rfl

theorem Sys.isSome_stampSender (b : SendArgs) (m : MsgRef) :
    ((s.stampSender b).msg m).isSome = (s.msg m).isSome := by
  unfold stampSender
  split
  · by_cases hm : m = b.msg
    · subst hm
      simp
    · simp [hm]
  · rfl

/-- Marking a request with its sender changes no count. -/
theorem Balanced.stamp (h : Balanced L s)
    (hmsg : s'.msg = (s.stampSender b).msg) (hnext : s'.nextMsg = s.nextMsg)
    (hrefs : ∀ m, s'.refs L m = s.refs L m) : Balanced L s' := by
  refine h.of_change (fun m => ?_) (fun m x hx => ?_) fun m hm => ?_
  · rw [Sys.count_congr hmsg, Sys.count_stampSender, hrefs]
  · have hcount : s'.count m = s.count m := by
      rw [Sys.count_congr hmsg, Sys.count_stampSender]
    have hlive : (s.msg m).isSome := by
      rw [← Sys.isSome_stampSender b m, ← hmsg, hx]
      rfl
    obtain ⟨y, hy⟩ := Option.isSome_iff_exists.mp hlive
    have hpos := h.positive m y hy
    simp only [Sys.count, hx, hy] at hcount
    omega
  · rw [hnext] at hm
    have hold := Sys.isSome_stampSender (s := s) b m
    rw [h.fresh m hm, ← hmsg] at hold
    simpa using hold

/-- Calls that neither push nor empty a queue change no record of a group. -/
theorem Group.refs_setGroup {G : Group}
    (hgroup : s'.group = Function.update s.group k G)
    (hworker : G.worker = (s.group k).worker)
    (hrecords : ∀ j, (G.table j).records = ((s.group k).table j).records)
    (g : Nat) :
    (s'.group g).refs (L.conf g) m = (s.group g).refs (L.conf g) m := by
  by_cases hg : g = k
  · subst hg
    rw [hgroup, Function.update_self]
    have hcongr := Group.refs_congr (c := L.conf g) (m := m) hrecords
    rw [hworker] at hcongr
    omega
  · rw [hgroup, Function.update_of_ne hg]

theorem loadFixState_records (c : GroupTable) (G : Group) (j : Nat) :
    ((G.loadFixState c).table j).records = (G.table j).records := by
  rw [Group.loadFixState_table]
  split <;> rfl

/-- A record is destroyed with the reference it held. -/
theorem Balanced.destroyRecord {S : Service} {r : MsgqRecord}
    (h : Balanced L s) (hk : k < L.size) (hi : i < (L.conf k).size)
    (hgroup : s'.group =
      Function.update s.group k ((s.group k).setService i S))
    (hmsg : s'.msg = (s.decRef r.msg).msg) (hnext : s'.nextMsg = s.nextMsg)
    (howned : s'.owned = s.owned) (hcall : s'.call = s.call)
    (hrecord : ∀ m, S.refs m + here m r.msg = ((s.group k).table i).refs m) :
    Balanced L s' := by
  refine h.decRef hmsg hnext fun m => ?_
  have hsystem := Sys.refs_group (m := m) hk howned
    (fun t => by rw [hcall])
    (fun j hj => by rw [hgroup, Function.update_of_ne hj])
  rw [hgroup, Function.update_self] at hsystem
  have hservice := Group.refs_update (m := m) (G := s.group k)
    (H := (s.group k).setService i S) hi rfl
  rw [Group.setService_worker] at hservice
  have hold := hrecord m
  omega

/-- A call moves references between the caller, the call, the queues and the
heap, and loses none. -/
theorem Balanced.call (h : Balanced L s) (hrun : Trace L (serial L) tr s)
    (hc : CallTrans L s t events s') : Balanced L s' := by
  have calls := hrun.guards.calls
  have hplaced := calls.placed t
  have ht : t ∈ L.threads := by
    by_contra ht
    have hfree := hc.not_free
    rw [calls.outside t ht] at hfree
    cases hfree
  have hrefs : (∀ g < L.size, ∀ m, (s'.group g).refs (L.conf g) m =
      (s.group g).refs (L.conf g) m) → ∀ m,
      s'.refs L m + s.owned m + (s.call t).refs m =
        s.refs L m + s'.owned m + (s'.call t).refs m :=
    fun hgroup m => Sys.refs_call ht (fun t' ht' => hc.call_of_ne ht')
      fun g hg => hgroup g hg m
  cases hc
  case sendRefused b h' _ | sendVeto b _ h' _ | sendDone b _ h' =>
    refine h.keep (by simp) (by simp) fun m => ?_
    have hnew := hrefs (by simp) m
    have howned := Sys.takeBack_owned (s := s) b m
    simp [h', Call.refs] at hnew
    omega
  case sendNotFound b h' | sendFound b _ _ _ h' _ =>
    refine h.stamp (b := b) (by simp) (by simp) fun m => ?_
    have hnew := hrefs (by simp) m
    simp [h', Call.refs] at hnew
    omega
  case pushRecord b k i fn h' =>
    refine h.addRef (n := b.msg) (hrun.live_of_send h (by rw [h']; rfl)) rfl
      rfl fun m => ?_
    have hnew := hrefs (by simp) m
    simp [h', Call.refs] at hnew
    omega
  case pushReverted b r h' =>
    refine h.decRef (n := b.msg) rfl rfl fun m => ?_
    have hnew := hrefs (by simp) m
    simp [h', Call.refs] at hnew
    omega
  case pushRefused b k i r h' _ =>
    rw [h'] at hplaced
    refine h.keep rfl rfl fun m => ?_
    have hnew := hrefs (by simp) m
    simp [h', Call.refs, hplaced.2.2] at hnew
    omega
  case pushAccepted b k i r G h' hpush =>
    -- first the queue gets the record, then the call lets go of it
    rw [h'] at hplaced
    obtain ⟨hk, hreg, hmsg⟩ := hplaced
    refine h.keep rfl rfl fun m => ?_
    have hqueue := Sys.refs_group (m := m) (s := s) (u := s.setGroup k G) hk
      rfl (fun _ => rfl) (fun j hj => by simp [hj])
    have hcall := Sys.refs_call (m := m) (s := s.setGroup k G)
      (u := (s.setGroup k G).setCall t (.pushPost b k)) ht
      (fun t' ht' => by simp [ht']) (fun _ _ => rfl)
    have hadded := Group.refs_push (m := m) hreg.1 hpush
    simp [h', Call.refs] at hqueue hcall
    omega
  case cleanQueued k i r rest h' hi hq =>
    rw [h'] at hplaced
    refine h.destroyRecord hplaced hi rfl rfl rfl rfl rfl fun m => ?_
    simp [Service.refs, Service.records, hq]
    omega
  case cleanCurrent k i r h' hi hq hcur =>
    rw [h'] at hplaced
    refine h.destroyRecord hplaced hi rfl rfl rfl rfl rfl fun m => ?_
    simp [Service.refs, Service.records, hq, hcur]
  case pushPosted k h' | resumePosted k h' | exitPosted k h' _
    | loadPosted k h' _ =>
    refine h.keep rfl rfl fun m => ?_
    have hnew := hrefs
      (fun g _ m => Group.refs_setGroup (k := k) (G := (s.group k).semPost) rfl
        rfl (fun _ => rfl) g) m
    simp [h', Call.refs] at hnew
    omega
  case loadFixed k h' _ =>
    refine h.keep rfl rfl fun m => ?_
    have hnew := hrefs (fun g _ m => Group.refs_setGroup (k := k)
      (G := (s.group k).loadFixState (L.conf k)) rfl (by simp)
      (loadFixState_records _ _) g) m
    simp [h', Call.refs] at hnew
    omega
  case resumeAccepted k i G h' hresume =>
    obtain ⟨-, rfl⟩ := Group.resumeService_some hresume
    refine h.keep rfl rfl fun m => ?_
    have hnew := hrefs (fun g _ m => Group.refs_setGroup (k := k)
      (G := (s.group k).setState i .busy) rfl rfl (records_update rfl) g) m
    simp [h', Call.refs] at hnew
    omega
  all_goals
    refine h.keep rfl rfl fun m => ?_
    have hnew := hrefs (by simp) m
    simp_all [Call.refs]

/-! ## Entering the API, and user code -/

/-- A send takes over the reference its caller lends. -/
theorem Balanced.enter {q : Request} (h : Balanced L s)
    (he : EnterTrans L s t q events s') : Balanced L s' := by
  have hrefs : ∀ m, s'.refs L m + s.owned m =
      s.refs L m + s'.owned m + q.start.refs m := fun m => by
    have hcall := Sys.refs_call (m := m) he.mem_threads
      (fun t' ht' => he.call_of_ne ht') fun g _ => by rw [he.group_eq]
    rw [Call.refs_of_free he.free, he.call_self] at hcall
    exact hcall
  cases he with
  | @send b hmay hsend =>
      refine h.keep (by simp) (by simp) fun m => ?_
      have hnew := hrefs m
      have hlent := Sys.handOver_owned hsend m
      simp [Request.start, Call.refs] at hnew
      omega
  | other hmay hq =>
      refine h.keep rfl rfl fun m => ?_
      have hnew := hrefs m
      have hstart : q.start.refs m = 0 := by
        cases q with
        | send b => exact absurd rfl (hq b)
        | _ => rfl
      simp [hstart] at hnew
      omega

/-- References of user code are those it was given. -/
theorem Sys.refs_owned (hcall : s'.call = s.call) (hgroup : s'.group = s.group)
    (m : MsgRef) : s'.refs L m + s.owned m = s.refs L m + s'.owned m := by
  simp only [Sys.refs, hcall, hgroup]
  omega

theorem Sys.own_owned' (s : Sys) (m m' : MsgRef) :
    (s.own m').owned m = s.owned m + here m m' := by
  by_cases hm : m = m'
  · subst hm
    simp
  · simp [here, hm, Ne.symm hm]

theorem Sys.disown_owned' {m' : MsgRef} (hm' : 0 < s.owned m') (m : MsgRef) :
    (s.disown m').owned m + here m m' = s.owned m := by
  by_cases hm : m = m'
  · subst hm
    simp
    omega
  · simp [here, hm, Ne.symm hm]

/-- A message keeps its count when it is changed in place. -/
theorem Balanced.edit (h : Balanced L s) (m : MsgRef) {f : Msg → Msg}
    (hf : ∀ x, (f x).refcnt = x.refcnt) : Balanced L (s.edit m f) := by
  have hcount : ∀ n, (s.edit m f).count n = s.count n := by
    intro n
    by_cases hn : n = m
    · subst hn
      cases hx : s.msg n <;> simp [Sys.count, hx, hf]
    · simp [Sys.count, hn]
  refine h.of_change (fun n => ?_) (fun n x hx => ?_) fun n hn => ?_
  · rw [hcount]
    rfl
  · by_cases hnm : n = m
    · subst hnm
      simp only [Sys.edit_msg, Function.update_self,
        Option.map_eq_some_iff] at hx
      obtain ⟨y, hy, rfl⟩ := hx
      rw [hf]
      exact h.positive n y hy
    · simp only [Sys.edit_msg, Function.update_of_ne hnm] at hx
      exact h.positive n x hx
  · have hfresh := h.fresh n hn
    by_cases hnm : n = m
    · subst hnm
      simp [hfresh]
    · simpa [hnm] using hfresh

/-- User code gets a reference for each one it makes, and gives one away for
each one it drops. -/
theorem Balanced.user (h : Balanced L s) (hrun : Trace L (serial L) tr s)
    (hu : UserTrans L s s') : Balanced L s' := by
  have hrefs := fun m => Sys.refs_owned (L := L) hu.call_eq hu.group_eq m
  cases hu with
  | createReq id size rspFn =>
      refine h.alloc (x := msgCreateReq s.nextMsg id size rspFn) rfl rfl rfl
        fun m => ?_
      have hnew := hrefs m
      rw [Sys.own_owned'] at hnew
      simp only [Sys.alloc_owned] at hnew
      omega
  | @createRsp m' via size req hvia hreq =>
      refine h.alloc (x := msgCreateRsp req size) rfl rfl rfl fun m => ?_
      have hnew := hrefs m
      rw [Sys.own_owned'] at hnew
      simp only [Sys.alloc_owned] at hnew
      omega
  | @addRef m' via hvia =>
      refine h.addRef (n := m') (hrun.live_of_accessible h hvia) rfl rfl
        fun m => ?_
      have hnew := hrefs m
      rw [Sys.own_owned'] at hnew
      simp only [Sys.addRef_owned] at hnew
      omega
  | @decRef m' hm' =>
      refine h.decRef (n := m') rfl rfl fun m => ?_
      have hnew := hrefs m
      have howned := Sys.disown_owned' (s := s.decRef m') hm' m
      simp only [Sys.decRef_owned] at howned
      omega
  | setReceipt | setToken | setRspFn => exact h.edit _ fun _ => rfl

/-! ## Runs -/

theorem Group.refs_initial (c c' : GroupTable) (m : MsgRef) :
    (Group.initial c).refs c' m = 0 := by
  have hservices : ∀ i ∈ List.range c'.size,
      ((Group.initial c).table i).refs m = 0 := fun _ _ => rfl
  simp only [Group.refs, Ledger.total_eq_zero.mpr hservices]
  rfl

theorem Balanced.initial (L : Layout) : Balanced L (Sys.initial L) where
  count m := by
    have hcalls : Ledger.total L.threads
        (fun t => ((Sys.initial L).call t).refs m) = 0 :=
      Ledger.total_eq_zero.mpr fun _ _ => rfl
    have hgroups : Ledger.total (List.range L.size)
        (fun g => ((Sys.initial L).group g).refs (L.conf g) m) = 0 :=
      Ledger.total_eq_zero.mpr fun _ _ => Group.refs_initial _ _ m
    simp only [Sys.refs, hcalls, hgroups]
    rfl
  positive m x hx := by cases hx
  fresh m _ := rfl

/-- The counts are right in every reachable state. -/
theorem Trace.balanced (h : Trace L (serial L) tr s) : Balanced L s := by
  refine Trace.byTrans (P := fun _ s => Balanced L s) h
    (Balanced.initial L) ?_
  intro tr s a events s' hrun ih _ hstep
  cases hstep with
  | worker hk hw => exact ih.worker hrun hk hw
  | call _ hc => exact ih.call hrun hc
  | enter he => exact ih.enter he
  | user hu => exact ih.user hrun hu

end Core
end Eaf

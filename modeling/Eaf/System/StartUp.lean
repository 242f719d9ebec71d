import Eaf.Foundation.Ledger
import Eaf.System.GroupView

/-!
# The start of the workers

A worker waits until the context has left `init`, initialises the services of
its group and posts `ready`; `eaf_load` waits for one post of each group.  The
posts that were made are those `eaf_load` has consumed and those the semaphore
still holds, so when `eaf_load` goes on, every worker has posted.
-/

namespace Eaf
namespace Core

open LabelledRun

variable {L : Layout} {s s' : Sys} {g i : Nat} {t : Tid} {tr : List Event}
  {c : GroupTable} {e : Env} {G G' : Group} {o : Outcome}
  {gevents gtr : List GroupEvent}

/-- The worker is in its start-up phase. -/
def Pc.starting : Pc → Bool
  | .enter | .startTest | .startPend | .startCheck | .initScan _ _
  | .inInit _ (.scan _) | .postReady _ => true
  | _ => false

/-- The worker is behind its post of `ready`. -/
def Pc.posted : Pc → Bool
  | .returned .storage | .returned .notBusy => false
  | pc => !pc.starting

/-- The worker returned from its start-up without a post. -/
def Pc.gaveUp (pc : Pc) : Prop :=
  pc = .returned .storage ∨ pc = .returned .notBusy

theorem Pc.posted_or (pc : Pc) :
    pc.starting = true ∨ pc.gaveUp ∨ pc.posted = true := by
  cases pc <;> simp [starting, gaveUp, posted]
  case returned site => cases site <;> simp

@[simp] theorem handlerPc_posted (ph : Phase) (fn : Option Fn) :
    (handlerPc ph i fn).posted = true := by
  cases fn <;> rfl

/-- The post of `ready` ends the start-up phase. -/
theorem WorkerTrans.posted (h : WorkerTrans c e G o G' gevents) :
    G'.worker.posted.toNat = G.worker.posted.toNat + gevents.count .ready := by
  cases h
  case initDone idx caller h _ _ =>
    cases caller <;> simp [h, Pc.posted, Pc.starting, afterInit]
  case readyNone n h _ =>
    split <;> simp [h, Pc.posted, Pc.starting]
  case dispatchReenter h _ _ _ | beforeStart h _ _ _ _ =>
    rw [Group.goto_worker, handlerPc_posted, h]
    rfl
  all_goals simp_all [Pc.posted, Pc.starting]

theorem GroupStep.posted (h : GroupStep c G gevents G') :
    G'.worker.posted.toNat = G.worker.posted.toNat + gevents.count .ready := by
  cases h with
  | work hfixed h => exact h.posted
  | fix hraw => simp
  | push hfixed hreg h => simp [(Group.pushMsg_some h).2.2.1]
  | resume hreg h =>
      obtain ⟨-, rfl⟩ := Group.resumeService_some h
      simp
  | post => simp
  | purgeQueued | purgeCurrent => simp

/-- A worker has posted `ready` once when it is behind its post, and not at
all before. -/
theorem GroupRun.count_ready (h : GroupRun c gtr G) :
    gtr.count .ready = G.worker.posted.toNat := by
  refine h.invariant (P := fun gtr G => gtr.count .ready =
    G.worker.posted.toNat) rfl ?_
  intro gtr G gevents G' _ ih hstep
  rw [List.count_append, ih, hstep.posted]

/-! ## What `eaf_load` has consumed -/

@[simp] theorem SendKind.load_ne_api (k : SendKind) : Api.load ≠ k.api := by
  cases k <;> simp [SendKind.api]

@[simp] theorem Sys.load_ne_exitApi (td : Bool) : Api.load ≠ Sys.exitApi td := by
  cases td <;> simp [Sys.exitApi]

/-- The number of workers behind their post. -/
def Sys.posts (L : Layout) (s : Sys) : Nat :=
  Ledger.total (List.range L.size) fun g => (s.group g).worker.posted.toNat

theorem Sys.posts_le (L : Layout) (s : Sys) : s.posts L ≤ L.size := by
  have hle : s.posts L ≤ (List.range L.size).length :=
    Ledger.total_le_length fun g _ => Bool.toNat_le _
  rwa [List.length_range] at hle

/-- The posts balance: `n` of them were consumed by `eaf_load`. -/
structure ReadyBalance (L : Layout) (tr : List Event) (s : Sys) (n : Nat) :
    Prop where
  balance : s.ready + n = s.posts L
  posting : ∀ t k, s.call t = .loadPost k → n = 0
  waiting : ∀ t k, s.call t = .loadPend k → n = k
  after : ∀ t code, s.call t = .loadAfter code → n = L.size
  loaded : ∀ t, .ret t .load Errno.success ∈ tr → n = L.size

/-- The call is in the part of `eaf_load` that deals with `ready`. -/
def Call.readying : Call → Bool
  | .loadPost _ | .loadPend _ | .loadAfter _ => true
  | _ => false

/-- Nothing happens to the posts. -/
theorem ReadyBalance.of_quiet {n : Nat} {events : List Event}
    (h : ReadyBalance L tr s n) (hbalance : s'.ready + n = s'.posts L)
    (hcall : ∀ t, (s'.call t).readying = true → s'.call t = s.call t)
    (hevents : ∀ t, .ret t .load Errno.success ∉ events) :
    ReadyBalance L (tr ++ events) s' n where
  balance := hbalance
  posting t k hc := h.posting t k (by rw [← hcall t (by rw [hc]; rfl), hc])
  waiting t k hc := h.waiting t k (by rw [← hcall t (by rw [hc]; rfl), hc])
  after t code hc := h.after t code (by rw [← hcall t (by rw [hc]; rfl), hc])
  loaded t ht := by
    rcases List.mem_append.mp ht with ht | ht
    · exact h.loaded t ht
    · exact absurd ht (hevents t)

/-- Only thread `t` is in that part of `eaf_load`. -/
theorem ReadyBalance.of_main {n : Nat} (hbalance : s.ready + n = s.posts L)
    (honly : ∀ t', (s.call t').readying = true → t' = t)
    (hposting : ∀ k, s.call t = .loadPost k → n = 0)
    (hwaiting : ∀ k, s.call t = .loadPend k → n = k)
    (hafter : ∀ code, s.call t = .loadAfter code → n = L.size)
    (hloaded : ∀ t, .ret t .load Errno.success ∈ tr → n = L.size) :
    ReadyBalance L tr s n where
  balance := hbalance
  posting t' k hc := by
    obtain rfl := honly t' (by rw [hc]; rfl)
    exact hposting k hc
  waiting t' k hc := by
    obtain rfl := honly t' (by rw [hc]; rfl)
    exact hwaiting k hc
  after t' code hc := by
    obtain rfl := honly t' (by rw [hc]; rfl)
    exact hafter code hc
  loaded := hloaded

/-- A worker step counts its post. -/
theorem ReadyBalance.worker {n k : Nat} (h : ReadyBalance L tr s n)
    (hk : k < L.size)
    (hw : WorkerTrans (L.conf k) (s.env k) (s.group k) o G gevents) :
    ReadyBalance L (tr ++ gevents.map (.group k))
      ((s.setGroup k G).emitAll L k gevents) n := by
  refine h.of_quiet ?_ (fun t ht => ?_) (by simp)
  · have hchange : s.posts L + G.worker.posted.toNat =
        ((s.setGroup k G).emitAll L k gevents).posts L +
          (s.group k).worker.posted.toNat := by
      have htotal := Ledger.total_change
        (f := fun g => (s.group g).worker.posted.toNat)
        (g := fun g => (((s.setGroup k G).emitAll L k gevents).group
          g).worker.posted.toNat)
        (List.nodup_range (n := L.size)) (List.mem_range.mpr hk)
        (fun b hb => by simp [hb])
      simp only [Sys.emitAll_group, Sys.setGroup_group,
        Function.update_self] at htotal
      simp only [Sys.posts, Sys.emitAll_group, Sys.setGroup_group]
      omega
    have hposted := hw.posted
    have hbalance := h.balance
    rw [Sys.emitAll_ready, Sys.setGroup_ready]
    omega
  · rcases Sys.emitAll_call (s.setGroup k G) (t := t) with
      hc | hc | ⟨b, hc⟩ <;> rw [hc] at ht ⊢
    · simp
    · cases ht
    · cases ht

theorem Sys.posts_congr
    (h : ∀ g, (s'.group g).worker = (s.group g).worker) :
    s'.posts L = s.posts L :=
  Ledger.total_congr fun g _ => by rw [h g]

/-- Before the loader's store nobody has posted. -/
theorem Starting.posts_eq_zero (h : Starting L s) : s.posts L = 0 := by
  refine Ledger.total_eq_zero.mpr fun g hg => ?_
  have hearly := h.early g (List.mem_range.mp hg)
  cases hpc : (s.group g).worker <;> simp_all [Pc.early, Pc.posted, Pc.starting]
  case returned site => cases site <;> simp_all

theorem ReadyBalance.call {n : Nat} {events : List Event}
    (h : ReadyBalance L tr s n) (order : LoadOrder L s) (calls : CallFacts L s)
    (hc : CallTrans L s t events s') :
    ∃ n', ReadyBalance L (tr ++ events) s' n' := by
  have hposts : s'.posts L = s.posts L := Sys.posts_congr hc.worker_eq
  have hother : ∀ t', t' ≠ t → s'.call t' = s.call t' :=
    fun t' ht => hc.call_of_ne ht
  have hbalance := h.balance
  -- while `t` is in `eaf_load`, no other thread is
  have honly : (s.call t).ofMain = true →
      ∀ t', (s'.call t').readying = true → t' = t := by
    intro hmain t' hready
    by_contra ht
    rw [hother t' ht] at hready
    refine ht (calls.serial t t' hmain ?_)
    cases hcall : s.call t' <;> simp_all [Call.readying, Call.ofMain]
  have hquiet : s'.ready = s.ready →
      ((s'.call t).readying = true → s'.call t = s.call t) →
      (∀ t, .ret t .load Errno.success ∉ events) →
      ∃ n', ReadyBalance L (tr ++ events) s' n' := fun hready hself hevents =>
    ⟨n, h.of_quiet (by rw [hready, hposts, hbalance]) (fun t' ht' => by
      by_cases ht : t' = t
      · subst ht
        exact hself ht'
      · exact hother t' ht) hevents⟩
  cases hc
  case loadWritten h' =>
    have hzero : s.posts L = 0 := by
      rcases order with hstart | hstarted
      · exact hstart.posts_eq_zero
      · have hdone := hstarted.done t
        rw [h'] at hdone
        cases hdone
    refine ⟨n, ReadyBalance.of_main (by rw [hposts]; exact hbalance)
      (honly (by rw [h']; rfl)) (fun _ _ => by omega) (by simp) (by simp)
      (by simpa using h.loaded)⟩
  case loadPosted k h' hk =>
    refine ⟨n, ReadyBalance.of_main (by rw [hposts]; exact hbalance)
      (honly (by rw [h']; rfl)) (fun _ _ => h.posting t k h') (by simp)
      (by simp) (by simpa using h.loaded)⟩
  case loadAllPosted k h' hk =>
    refine ⟨n, ReadyBalance.of_main (by rw [hposts]; exact hbalance)
      (honly (by rw [h']; rfl)) (by simp) ?_ (by simp)
      (by simpa using h.loaded)⟩
    simpa using h.posting t k h'
  case loadWoken k h' hk hready =>
    have hn := h.waiting t k h'
    refine ⟨n + 1, ReadyBalance.of_main ?_ (honly (by rw [h']; rfl)) (by simp)
      ?_ (by simp) fun t' ht' => ?_⟩
    · rw [hposts, ← hbalance]
      simp only [Sys.setCall_ready]
      omega
    · simpa using hn
    · have hfull := h.loaded t' (by simpa using ht')
      omega
  case loadAllReady k h' hk =>
    have hn := h.waiting t k h'
    have hle := s.posts_le L
    refine ⟨n, ReadyBalance.of_main (by rw [hposts]; exact hbalance)
      (honly (by rw [h']; rfl)) (by simp) (by simp) (fun _ _ => by omega)
      (by simpa using h.loaded)⟩
  case loadDone code h' =>
    refine ⟨n, ReadyBalance.of_main (by rw [hposts]; exact hbalance)
      (honly (by rw [h']; rfl)) (by simp) (by simp) (by simp)
      fun t' ht' => ?_⟩
    rcases List.mem_append.mp ht' with ht' | ht'
    · exact h.loaded t' ht'
    · exact h.after t code h'
  case loadRefused =>
    exact hquiet rfl (by simp [Call.readying])
      (by simp [Errno.success, Errno.state])
  all_goals exact hquiet (by simp) (by simp [Call.readying]) (by simp)

/-- Every run keeps the balance. -/
theorem Trace.readyBalance (h : Trace L (serial L) tr s) :
    ∃ n, ReadyBalance L tr s n := by
  refine Trace.byTrans (P := fun tr s => ∃ n, ReadyBalance L tr s n) h
    ⟨0, ?_, by simp [Sys.initial], by simp [Sys.initial],
      by simp [Sys.initial], by simp⟩ ?_
  · rw [Starting.posts_eq_zero]
    · rfl
    · rcases LoadOrder.initial L with hstart | hstarted
      · exact hstart
      · exact absurd rfl hstarted.ctx
  · rintro tr s a events s' hrun ⟨n, ih⟩ _ hstep
    cases hstep with
    | worker hk hw => exact ⟨n, ih.worker hk hw⟩
    | call hlive hc => exact ih.call hrun.order hrun.guards.calls hc
    | @enter t q events s' he =>
        refine ⟨n, ih.of_quiet ?_ (fun t' ht' => ?_) fun t' ht' => ?_⟩
        · have hposts : s'.posts L = s.posts L :=
            Sys.posts_congr fun g => by rw [he.group_eq]
          rw [hposts, he.ready_eq]
          exact ih.balance
        · by_cases ht : t' = t
          · subst ht
            rw [he.call_self] at ht'
            cases q <;> cases ht'
          · exact he.call_of_ne ht
        · cases he <;> simp at ht'
    | @user op s' hu =>
        refine ⟨n, ih.of_quiet ?_ (fun t _ => by rw [hu.call_eq]) (by simp)⟩
        have hposts : s'.posts L = s.posts L :=
          Sys.posts_congr fun g => by rw [hu.group_eq]
        rw [hposts, hu.ready_eq]
        exact ih.balance

/-- When `eaf_load` has succeeded, every worker is behind its post. -/
theorem Trace.posted_of_loaded (h : Trace L (serial L) tr s)
    (hloaded : .ret t .load Errno.success ∈ tr) (hg : g < L.size) :
    (s.group g).worker.posted = true := by
  obtain ⟨n, hn⟩ := h.readyBalance
  have hfull := hn.loaded t hloaded
  have hbalance := hn.balance
  have hle := s.posts_le L
  have hall : s.posts L = (List.range L.size).length := by
    rw [List.length_range]
    omega
  have hpos := Ledger.pos_of_total_eq_length
    (f := fun g => (s.group g).worker.posted.toNat)
    (fun _ _ => Bool.toNat_le _) hall (List.mem_range.mpr hg)
  cases hposted : (s.group g).worker.posted
  · simp [hposted] at hpos
  · rfl

end Core
end Eaf

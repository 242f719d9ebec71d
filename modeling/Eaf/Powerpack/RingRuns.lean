import Eaf.Foundation.LabelledRun
import Eaf.Powerpack.RingEviction

/-!
# Using a ring buffer

The callers reserve, consume and commit, and write the data of the tokens that
they hold, in any order.
-/

namespace Eaf
namespace Powerpack

open Linked Iteration LabelledRun

namespace RingBuffer

variable {rb : RingBuffer} {ps es : List RingEntry} {len : Nat} {flags : UInt32}

/-- The entries are read off the memory. -/
theorem Shows.entries_eq (h : rb.Shows ps es) : rb.entries = es := by
  have hpass : passFrom 0 (rb.get .pNewer) (rb.capacity + 1) rb.tail =
      some (es.map (·.node)) := by
    have hlength := h.length_le
    rw [h.perm.length_eq] at hlength
    rw [h.tail]
    refine h.time.passFrom_after ?_ (by rw [List.length_map]; omega)
    intro p hp
    obtain ⟨e, he, rfl⟩ := List.mem_map.mp hp
    exact h.node_ne_zero he
  have hentry : ∀ e ∈ es, rb.mem.entryAt e.node = e := by
    intro e he
    obtain ⟨hsize, hstate, hdata⟩ := h.holds e he
    rw [Words.entryAt, hsize, hstate, hdata, RingState.ofCode_code]
  rw [entries, hpass, Option.getD_some, List.map_map]
  exact (List.map_congr_left hentry).trans (List.map_id _)

/-- What a caller sees of a token. -/
def seen (rb : RingBuffer) (token : Nat) : Option (Option HeldToken) :=
  if token = 0 then some none
  else (rb.get .size (nodeOf token)).map fun len => some ⟨token, len⟩

/-- A call. -/
def call (minus : Minus) (rb : RingBuffer) :
    RingOp → Option (RingBuffer × RingResult)
  | .reserve len flags => do
      let r ← rb.eafRingbufferReserve minus len flags
      let h ← r.1.seen r.2
      some (r.1, .token h)
  | .consume => do
      let r ← rb.eafRingbufferConsume
      let h ← r.1.seen r.2
      some (r.1, .token h)
  | .commit h flags => do
      let r ← rb.eafRingbufferCommit h.token flags
      some (r.1, .code r.2)
  | .store h i value => some (rb.storeData h.token i value, .done)

theorem Shows.seen_token (h : rb.Shows ps es) {e : RingEntry} (he : e ∈ es) :
    rb.seen e.token = some (some e.held) := by
  have htoken : e.token ≠ 0 := by
    unfold RingEntry.token tokenOf
    simp [NodeField.offset]
  rw [seen, if_neg htoken, e.nodeOf_token, get_eq (h.node_ne_zero he),
    (h.holds e he).size]
  rfl

/-! ## Reserving -/

/-- `eaf_ringbuffer_reserve` takes a free place, or gives up, or tries to
overwrite. -/
theorem Shows.reserve_cases (h : rb.Shows ps es) (hfits : FitsSize len)
    (flags : UInt32) :
    (∃ r, (r = some (rb, 0) ∨ rb.Placed es len r) ∧
      ∀ minus : Minus, minus.Right →
        rb.eafRingbufferReserve minus len flags = r) ∨
    flags &&& flagOverwrite ≠ 0 ∧ rb.NoFreePlace (eafRingbufferNodeCost len) ∧
      ∀ minus : Minus, minus.Right →
        rb.eafRingbufferReserve minus len flags =
          rb.ringBufferReserveTryOverwrite minus len
            (eafRingbufferNodeCost len) := by
  rcases List.eq_nil_or_concat es with rfl | ⟨es₀, hd, rfl⟩
  · -- the buffer is empty
    have htail : rb.tail = 0 := h.tail
    obtain rfl := h.perm.eq_nil
    have heval : ∀ minus : Minus, rb.eafRingbufferReserve minus len flags =
        rb.ringBufferReserveEmpty len (eafRingbufferNodeCost len) := fun minus =>
      if_pos htail
    by_cases hroom : eafRingbufferNodeCost len ≤ rb.capacity
    · obtain ⟨rb', hreserve, hshows, hconfig⟩ :=
        @Shows.reserveEmpty rb (rb.freshEntry rb.cache len) h rfl rfl rfl hfits hroom
      exact .inl ⟨_, .inr ⟨_, rb', _, hreserve, rfl, rfl, hshows, hconfig⟩,
        fun minus _ => heval minus⟩
    · exact .inl ⟨_, .inl rfl, fun minus _ =>
        (heval minus).trans (if_pos (by omega))⟩
  · rw [List.concat_eq_append] at h ⊢
    have htail : rb.tail ≠ 0 := by
      obtain ⟨x, hx, hxNode⟩ := @headD_node (es₀ ++ [hd]) (by simp)
      rw [h.tail, hxNode]
      exact h.node_ne_zero hx
    have heval : ∀ minus : Minus, rb.eafRingbufferReserve minus len flags =
        rb.ringBufferReserveNoneEmpty minus len (eafRingbufferNodeCost len)
          flags := fun minus => if_neg htail
    rcases h.reserveNoneEmpty rfl hfits flags with
      ⟨r, hplaced, hr⟩ | ⟨hfull, hr⟩
    · exact .inl ⟨r, .inr hplaced, fun minus hminus =>
        (heval minus).trans (hr minus hminus)⟩
    by_cases hflags : flags &&& flagOverwrite = 0
    · exact .inl ⟨_, .inl rfl, fun minus hminus => (heval minus).trans
        ((hr minus hminus).trans (if_neg (not_not.mpr hflags)))⟩
    · exact .inr ⟨hflags, hfull, fun minus hminus => (heval minus).trans
        ((hr minus hminus).trans (if_pos hflags))⟩

/-- `eaf_ringbuffer_reserve`, unless it would overwrite the newest entry. -/
theorem Shows.reserve (h : rb.Shows ps es) (hfits : FitsSize len)
    (hnewest : ¬rb.OverwritesNewest len flags) :
    ∃ r, (r = some (rb, 0) ∨ rb.Placed es len r ∨
        flags &&& flagOverwrite ≠ 0 ∧ rb.Replaced es len r) ∧
      ∀ minus : Minus, minus.Right →
        rb.eafRingbufferReserve minus len flags = r := by
  rcases h.reserve_cases hfits flags with ⟨r, hr, heval⟩ | ⟨hflags, hfull, heval⟩
  · exact ⟨r, hr.imp_right .inl, heval⟩
  rcases h.tryOverwrite len with hnone | ⟨first, hes, hfirst, hroom, htry⟩ |
    ⟨xs, ys, readers, run, rest, first, last, hv, htry⟩
  · exact ⟨_, .inl rfl, fun minus hminus =>
      (heval minus hminus).trans (hnone minus hminus)⟩
  · exact ⟨_, .inr (.inr ⟨hflags, h.replaceLast hes hfirst hfits hroom⟩),
      fun minus hminus => (heval minus hminus).trans (htry minus hminus)⟩
  · have hrest : rest ≠ [] := by
      rintro rfl
      exact hnewest (hv.overwritesNewest h hflags hfull)
    exact ⟨_, .inr (.inr ⟨hflags, hv.replaced h hrest hfits⟩),
      fun minus hminus => (heval minus hminus).trans (htry minus hminus)⟩

/-- The node of a token is in the cache, and large enough. -/
def Holds (rb : RingBuffer) (len t : Nat) : Prop :=
  nodeHeader + len ≤ rb.capacity ∧
    (⟨nodeOf t, eafRingbufferNodeCost len⟩ : Region).Inside rb.cache
      (rb.cache + rb.capacity)

theorem holds_of_inside {n : Nat} (hfits : FitsSize len) (hlo : rb.cache ≤ n)
    (hhi : n + eafRingbufferNodeCost len ≤ rb.cache + rb.capacity) :
    rb.Holds len (tokenOf n) := by
  have hcost := (nodeCost_bounds hfits).1
  have hnode : nodeOf (tokenOf n) = n := Nat.add_sub_cancel ..
  refine ⟨by omega, ?_⟩
  rw [hnode]
  exact ⟨hlo, hhi⟩

/-- The entries of the next buffer are in the cache. -/
theorem Shows.holds_new {rb' : RingBuffer} {new : RingEntry}
    (h : rb'.Shows ps es) (hnew : new ∈ es) (hconfig : rb.SameConfig rb') :
    rb.Holds new.len new.token := by
  obtain ⟨hlo, hhi⟩ := h.inside hnew
  rw [hconfig.1] at hlo
  rw [hconfig.1, hconfig.2] at hhi
  exact holds_of_inside (h.fits new hnew) hlo hhi

/-- Whatever is reserved is in the cache, and no difference is negative. -/
theorem Shows.reserve_holds (h : rb.Shows ps es) (hfits : FitsSize len)
    (flags : UInt32) :
    ∃ rb' t, (∀ minus : Minus, minus.Right →
        rb.eafRingbufferReserve minus len flags = some (rb', t)) ∧
      (t ≠ 0 → rb.Holds len t) := by
  have hreplaced : ∀ {r}, rb.Replaced es len r →
      ∃ rb' t, r = some (rb', t) ∧ (t ≠ 0 → rb.Holds len t) := by
    rintro _ ⟨readers, run, rest, new, rb', ps', -, -, -, -, rfl, -, rfl, hshows,
      hconfig⟩
    exact ⟨rb', _, rfl, fun _ => hshows.holds_new (by simp) hconfig⟩
  rcases h.reserve_cases hfits flags with
    ⟨_, rfl | ⟨new, rb', ps', rfl, -, rfl, hshows, hconfig⟩, heval⟩ |
    ⟨hflags, hfull, heval⟩
  · exact ⟨rb, 0, heval, fun hne => absurd rfl hne⟩
  · exact ⟨rb', _, heval, fun _ => hshows.holds_new (by simp) hconfig⟩
  rcases h.tryOverwrite len with hnone | ⟨first, hes, hfirst, hroom, htry⟩ |
    ⟨xs, ys, readers, run, rest, first, last, hv, htry⟩
  · exact ⟨rb, 0, fun minus hminus =>
      (heval minus hminus).trans (hnone minus hminus), fun hne => absurd rfl hne⟩
  · obtain ⟨rb', t, hr, hholds⟩ :=
      hreplaced (h.replaceLast hes hfirst hfits hroom)
    exact ⟨rb', t, fun minus hminus =>
      ((heval minus hminus).trans (htry minus hminus)).trans hr, hholds⟩
  · -- even if the newest entry is lost
    obtain ⟨rb', hr⟩ := hv.token h hfits
    refine ⟨rb', _, fun minus hminus =>
      ((heval minus hminus).trans (htry minus hminus)).trans hr, fun _ => ?_⟩
    obtain ⟨front, hlast⟩ := hv.ends
    have hin := h.inside (by rw [hv.times, hlast]; simp : last ∈ es)
    exact holds_of_inside hfits hv.inCache (hv.room.trans hin.2)

/-- A new entry is none of the others. -/
theorem Shows.new_token {new : RingEntry} (h : rb.Shows ps (es ++ [new])) :
    new.token ≠ 0 ∧ ∀ x ∈ es, x.token ≠ new.token := by
  refine ⟨?_, fun x hx heq => ?_⟩
  · unfold RingEntry.token tokenOf
    simp [NodeField.offset]
  · have hnodup := h.nodup
    rw [List.map_append, List.nodup_append] at hnodup
    refine hnodup.2.2 _ (List.mem_map_of_mem hx) new.node (by simp) ?_
    exact Nat.add_right_cancel heq

/-- What a call must not do: ask for more than a `size_t` can hold, or overwrite
the newest entry while others stay. -/
def Sound (rb : RingBuffer) : RingOp → Prop
  | .reserve len flags => FitsSize len ∧ ¬rb.OverwritesNewest len flags
  | _ => True

/-- A call is a step of the queue. -/
theorem Shows.call (h : rb.Shows ps es) {op : RingOp} (hsound : rb.Sound op)
    (hheld : ∀ held flags, op = .commit held flags → held ∈ heldOf es)
    (hstore : ∀ held i value, op = .store held i value →
      held ∈ heldOf es ∧ i < held.room) :
    ∃ rb' r ps' es', (∀ minus : Minus, minus.Right →
        rb.call minus op = some (rb', r)) ∧
      rb'.Shows ps' es' ∧ rb.SameConfig rb' ∧ QueueStep es op r es' := by
  cases op with
  | reserve len flags =>
      obtain ⟨hfits, hnewest⟩ := hsound
      obtain ⟨_, hcases, heval⟩ := h.reserve hfits hnewest
      have hcall : ∀ {rb' t o}, (∀ minus : Minus, minus.Right →
          rb.eafRingbufferReserve minus len flags = some (rb', t)) →
          rb'.seen t = some o → ∀ minus : Minus, minus.Right →
          rb.call minus (.reserve len flags) = some (rb', .token o) := by
        intro rb' t o hr hseen minus hminus
        simp [RingBuffer.call, hr minus hminus, hseen]
      rcases hcases with rfl |
        ⟨new, rb', ps', rfl, hstate, rfl, hshows, hconfig⟩ |
        ⟨hflags, readers, run, rest, new, rb', ps', rfl, hreaders, hrun, hcommitted,
          rfl, hstate, rfl, hshows, hconfig⟩
      · exact ⟨rb, .token none, ps, es, hcall heval rfl, h, ⟨rfl, rfl⟩, .refused⟩
      · obtain ⟨hnull, hnew⟩ := hshows.new_token
        exact ⟨rb', .token (some new.held), ps', _,
          hcall heval (hshows.seen_token (by simp)), hshows, hconfig,
          .reserved hstate hnull hnew⟩
      · obtain ⟨hnull, hnew⟩ := hshows.new_token
        exact ⟨rb', .token (some new.held), ps', _,
          hcall heval (hshows.seen_token (by simp)), hshows, hconfig,
          .overwritten hflags hreaders hrun hcommitted hstate hnull hnew⟩
  | consume =>
      obtain ⟨rb', t, ps', es', heval, hshows, hconfig, hcases⟩ := h.consume
      have hcall : ∀ {o}, rb'.seen t = some o → ∀ minus : Minus, minus.Right →
          rb.call minus .consume = some (rb', .token o) := by
        intro o hseen minus _
        simp [RingBuffer.call, heval, hseen]
      rcases hcases with ⟨rfl, hstep, -⟩ | ⟨e, he, rfl, hstep⟩
      · exact ⟨rb', _, ps', es', hcall rfl, hshows, hconfig, hstep⟩
      · exact ⟨rb', _, ps', es', hcall (hshows.seen_token he), hshows, hconfig,
          hstep⟩
  | commit held flags =>
      obtain ⟨e, he, hstate, rfl⟩ := mem_heldOf.mp (hheld held flags rfl)
      obtain ⟨rb', c, ps', es', heval, hshows, hconfig, hstep⟩ :=
        h.commit he hstate flags
      refine ⟨rb', .code c, ps', es', fun minus _ => ?_, hshows, hconfig, hstep⟩
      simp [RingBuffer.call, heval]
  | store held i value =>
      obtain ⟨hmem, hroom⟩ := hstore held i value rfl
      obtain ⟨e, he, hstate, rfl⟩ := mem_heldOf.mp hmem
      have hwords : i < e.words.length := by
        rw [← (h.holds e he).data]
        simpa [Words.data, HeldToken.room, RingEntry.held] using hroom
      obtain ⟨before, after, rfl⟩ := List.append_of_mem he
      obtain ⟨ps', hshows⟩ := h.storeData hwords value
      exact ⟨_, .done, ps', _, fun minus _ => rfl, hshows, ⟨rfl, rfl⟩,
        .stored hstate hwords⟩

end RingBuffer

/-- The buffer, and the tokens that the callers hold. -/
structure RingUse where
  rb : RingBuffer
  held : List HeldToken

namespace RingUse

variable {u u' v : RingUse} {op : RingOp} {r : RingResult}
  {trace : List (RingOp × RingResult)}
  {P Q : RingUse → RingOp → Prop}

/-- The callers commit the tokens that they hold, and write to them. -/
def Allowed (u : RingUse) : RingOp → Prop
  | .commit h _ => h ∈ u.held
  | .store h i _ => h ∈ u.held ∧ i < h.room
  | _ => True

/-- A call on the buffer. -/
def step (minus : Minus) (u : RingUse) (op : RingOp) :
    Option (RingUse × RingResult) :=
  (u.rb.call minus op).map fun r => (⟨r.1, heldAfter u.held op r.2⟩, r.2)

/-- A ring buffer that has just been made, in some area of memory. -/
def Fresh (u : RingUse) : Prop :=
  u.held = [] ∧ ∃ mem buffer size, 0 < buffer ∧ buffer + size ≤ 2 ^ 64 ∧
    eafRingbufferInit mem buffer size = some u.rb

/-- A call, as an event. -/
def next (u : RingUse) (op : RingOp) :
    Option (RingUse × List (RingOp × RingResult)) :=
  (u.step minus64 op).map fun r => (r.1, [(op, r.2)])

/-- The runs of calls that are allowed and meet a condition. -/
abbrev Calls (P : RingUse → RingOp → Prop) :=
  Run (Guarded next fun u op => u.Allowed op ∧ P u op)

/-- The states that such runs reach. -/
def Reached (P : RingUse → RingOp → Prop) (u : RingUse) : Prop :=
  ∃ u₀ trace, Fresh u₀ ∧ Calls P u₀ trace u

theorem Reached.mono (h : Reached P u) (hPQ : ∀ u op, P u op → Q u op) :
    Reached Q u := by
  obtain ⟨u₀, trace, hfresh, hrun⟩ := h
  refine ⟨u₀, trace, hfresh, hrun.mono ?_⟩
  rintro s events t ⟨op, ⟨hallowed, hP⟩, hnext⟩
  exact ⟨op, ⟨hallowed, hPQ s op hP⟩, hnext⟩

/-- The call does not ask for too much, nor overwrite the newest entry. -/
def Sound (u : RingUse) (op : RingOp) : Prop := u.rb.Sound op

/-- The buffer is well formed, and the callers hold the entries that are written
and read. -/
structure Valid (u : RingUse) : Prop where
  inMemory : ∃ ps, u.rb.Shows ps u.rb.entries
  held : u.held.Perm (heldOf u.rb.entries)

/-- `eaf_ringbuffer_init` -/
theorem Fresh.shows_nil (h : Fresh u) : u.held = [] ∧ u.rb.Shows [] [] := by
  obtain ⟨hheld, mem, buffer, size, hbuffer, hsize, hinit⟩ := h
  unfold eafRingbufferInit at hinit
  dsimp only at hinit
  split at hinit
  · cases hinit
  · rename_i hroom
    rw [← Option.some.inj hinit]
    have hheap : eafRingbufferHeapCost = 64 := rfl
    unfold eafAlign plus64 at *
    simp only [wordSize, hheap] at *
    refine ⟨hheld, RingBuffer.shows_nil ?_ ?_⟩
    · show 0 < _ + 64
      omega
    · dsimp only
      omega

theorem Fresh.valid (h : Fresh u) : u.Valid := by
  obtain ⟨hheld, hshows⟩ := h.shows_nil
  have hentries := hshows.entries_eq
  refine ⟨⟨[], ?_⟩, ?_⟩
  · rw [hentries]
    exact hshows
  · rw [hheld, hentries]
    exact .refl _

/-- A sound call on a well formed buffer. -/
theorem Valid.step (h : u.Valid) (hallowed : u.Allowed op) (hsound : u.Sound op) :
    ∃ u' r, (∀ minus : Minus, minus.Right → u.step minus op = some (u', r)) ∧
      u'.Valid ∧ u.rb.SameConfig u'.rb ∧
      QueueStep u.rb.entries op r u'.rb.entries := by
  obtain ⟨ps, hshows⟩ := h.inMemory
  have hmem : ∀ held, held ∈ u.held → held ∈ heldOf u.rb.entries := fun held hm =>
    h.held.mem_iff.mp hm
  obtain ⟨rb', r, ps', es', hcall, hshows', hconfig, hqueue⟩ :=
    hshows.call hsound
      (by
        rintro held flags rfl
        exact hmem held hallowed)
      (by
        rintro held i value rfl
        exact ⟨hmem held hallowed.1, hallowed.2⟩)
  have hentries := hshows'.entries_eq
  subst hentries
  refine ⟨⟨rb', heldAfter u.held op r⟩, r, fun minus hminus => ?_, ⟨⟨ps', hshows'⟩,
    hqueue.held_perm h.held⟩, hconfig, hqueue⟩
  rw [RingUse.step, hcall minus hminus]
  rfl

/-- The calls are steps of the queue, one by one. -/
abbrev QueueRun := Run fun es events es' =>
  ∃ op r, events = [(op, r)] ∧ QueueStep es op r es'

/-- In a run of sound calls the buffer stays well formed, and the queue takes
the same steps. -/
theorem Fresh.run (h : u.Fresh) (hrun : Calls Sound u trace v) :
    v.Valid ∧ QueueRun [] trace v.rb.entries := by
  have hentries : u.rb.entries = [] := h.shows_nil.2.entries_eq
  refine hrun.invariant (P := fun trace v => v.Valid ∧
    QueueRun [] trace v.rb.entries) ⟨h.valid, ?_⟩ ?_
  · rw [hentries]
    exact .refl
  · rintro trace s events t - ⟨hvalid, hqueue⟩ ⟨op, ⟨hallowed, hsound⟩, hnext⟩
    obtain ⟨t', r, heval, hvalid', -, hstep⟩ := hvalid.step hallowed hsound
    rw [next, heval minus64 minus64_right] at hnext
    obtain ⟨rfl, rfl⟩ := Prod.mk.inj (Option.some.inj hnext)
    exact ⟨hvalid', hqueue.snoc ⟨op, r, rfl, hstep⟩⟩

theorem Reached.valid (h : Reached Sound u) : u.Valid := by
  obtain ⟨u₀, trace, hfresh, hrun⟩ := h
  exact (hfresh.run hrun).1

end RingUse

end Powerpack
end Eaf

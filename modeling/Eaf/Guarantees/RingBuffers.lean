import Eaf.Powerpack.RingRuns

/-!
# What the callers of a ring buffer may rely on

Without overwriting, a ring buffer is the queue that it is meant to be.  With
overwriting, it stays one as long as the newest entry is not overwritten while
other entries stay in the buffer.  When it is, `HEAD` and `TAIL` do not describe
the buffer any more: new entries are lost, and memory that somebody holds is
handed out again.
-/

namespace Eaf
namespace Powerpack

open Linked Iteration LabelledRun

namespace RingUse

/-- A call without the overwrite flag, for a length whose cost does not wrap. -/
def Plain (_ : RingUse) : RingOp → Prop
  | .reserve len flags => FitsSize len ∧ flags &&& flagOverwrite = 0
  | _ => True

/-- A call for a length whose cost does not wrap. -/
def Sized (_ : RingUse) : RingOp → Prop
  | .reserve len _ => FitsSize len
  | _ => True

/-- Any call. -/
def Any (_ : RingUse) (_ : RingOp) : Prop := True

instance (u : RingUse) (op : RingOp) : Decidable (u.Allowed op) :=
  match op with
  | .reserve .. => inferInstanceAs (Decidable True)
  | .consume => inferInstanceAs (Decidable True)
  | .commit h _ => inferInstanceAs (Decidable (h ∈ u.held))
  | .store h i _ => inferInstanceAs (Decidable (h ∈ u.held ∧ i < h.room))

instance (u : RingUse) (op : RingOp) : Decidable (u.Plain op) :=
  match op with
  | .reserve len flags =>
      inferInstanceAs (Decidable (FitsSize len ∧ flags &&& flagOverwrite = 0))
  | .consume => inferInstanceAs (Decidable True)
  | .commit .. => inferInstanceAs (Decidable True)
  | .store .. => inferInstanceAs (Decidable True)

instance (u : RingUse) (op : RingOp) : Decidable (u.Sized op) :=
  match op with
  | .reserve len _ => inferInstanceAs (Decidable (FitsSize len))
  | .consume => inferInstanceAs (Decidable True)
  | .commit .. => inferInstanceAs (Decidable True)
  | .store .. => inferInstanceAs (Decidable True)

variable {u v : RingUse} {op : RingOp} {trace : List (RingOp × RingResult)}

theorem Plain.sound (h : u.Plain op) : u.Sound op := by
  cases op with
  | reserve len flags => exact ⟨h.1, fun hnewest => hnewest.1 h.2⟩
  | consume => trivial
  | commit h flags => trivial
  | store h i value => trivial

/-- A small buffer, in the middle of some memory. -/
def small : RingUse :=
  ⟨RingBuffer.ringBufferReinit ⟨72, 160, 0, 0, 0, ⟨0, 0, 0⟩, fun _ => 0⟩, []⟩

theorem small_fresh : small.Fresh :=
  ⟨rfl, fun _ => 0, 8, 224, by decide, by decide, rfl⟩

/-! ## The queue -/

/-- **A ring buffer is a queue.**  In every run without overwriting, what the
buffer holds is what a queue holds after the same calls with the same results,
from the empty queue on: the entries in the order of their reservation, with
their states, lengths and data.  The callers hold the entries that are written
and those that are read.  Every further call of this kind follows no null
pointer, and is a step of the queue. -/
theorem ring_buffer_queue (h : u.Fresh) (hrun : Calls Plain u trace v) :
    QueueRun [] trace v.rb.entries ∧ v.held.Perm (heldOf v.rb.entries) ∧
      (v.rb.entries.map (·.token)).Nodup ∧
      ∀ op, v.Allowed op → v.Plain op → ∃ w r,
        v.step minus64 op = some (w, r) ∧
          QueueStep v.rb.entries op r w.rb.entries := by
  have hsound : Calls Sound u trace v := by
    refine hrun.mono ?_
    rintro s events t ⟨op, ⟨hallowed, hplain⟩, hnext⟩
    exact ⟨op, ⟨hallowed, hplain.sound⟩, hnext⟩
  obtain ⟨hvalid, hqueue⟩ := h.run hsound
  obtain ⟨ps, hshows⟩ := hvalid.inMemory
  refine ⟨hqueue, hvalid.held, ?_, ?_⟩
  · have hnodup := hshows.nodup
    have htokens : v.rb.entries.map (·.token) =
        (v.rb.entries.map (·.node)).map tokenOf := by
      rw [List.map_map]
      rfl
    rw [htokens]
    exact hnodup.map fun x y hxy => Nat.add_right_cancel hxy
  · intro op hallowed hplain
    obtain ⟨w, r, heval, -, -, hstep⟩ := hvalid.step hallowed hplain.sound
    exact ⟨w, r, heval minus64 minus64_right, hstep⟩

/-- Two entries, of which the first one is read. -/
def queueCalls : List RingOp :=
  [.reserve 16 0, .store ⟨112, 16⟩ 1 7, .reserve 8 0, .commit ⟨112, 16⟩ 0, .consume]

theorem ring_buffer_queue_two : ∃ trace v, Calls Plain small trace v ∧
    QueueRun [] trace v.rb.entries ∧
    v.rb.entries.map (·.state) = [.reading, .writing] ∧
    v.held.Perm (heldOf v.rb.entries) := by
  have hreplay : (replay next (fun u op => u.Allowed op ∧ u.Plain op) small
      queueCalls).any (fun r =>
        r.1.rb.entries.map (·.state) == [.reading, .writing]) = true := by
    decide +kernel
  obtain ⟨v, trace, hrun, hcheck⟩ := exists_run_of_replay hreplay
  obtain ⟨hqueue, hheld, -⟩ := ring_buffer_queue small_fresh hrun
  exact ⟨trace, v, hrun, hqueue, by simpa using hcheck, hheld⟩

/-! ## The memory of the callers -/

/-- The tokens of different callers do not overlap, and lie in the cache. -/
def HeldApart (u : RingUse) : Prop :=
  u.held.Pairwise (fun x y => x.region.Apart y.region) ∧
    ∀ x ∈ u.held, x.region.Inside u.rb.cache (u.rb.cache + u.rb.capacity)

instance (u : RingUse) : Decidable u.HeldApart :=
  have : DecidableRel fun x y : HeldToken => x.region.Apart y.region :=
    fun _ _ => inferInstanceAs (Decidable (_ ∨ _))
  inferInstanceAs (Decidable (_ ∧ _))

/-- **Held memory is not handed out.**  In every run in which no reserve
overwrites the newest entry while others stay, the tokens that the callers hold
lie apart from each other, inside the cache. -/
theorem held_tokens_apart (h : Reached Sound u) : u.HeldApart := by
  obtain ⟨⟨ps, hshows⟩, hheld⟩ := h.valid
  have hmem : ∀ x ∈ u.held, ∃ e ∈ u.rb.entries, x.region = e.region := by
    intro x hx
    obtain ⟨e, he, -, rfl⟩ := mem_heldOf.mp (hheld.mem_iff.mp hx)
    exact ⟨e, he, e.held_region⟩
  constructor
  · have hentries : u.rb.entries.Pairwise fun e e' =>
        e.held.region.Apart e'.held.region := by
      refine (List.pairwise_map.mp hshows.nodup).imp_of_mem ?_
      intro e e' he he' hne
      rw [e.held_region, e'.held_region]
      rcases hshows.apart he he' with rfl | hle | hle
      · exact absurd rfl hne
      · exact .inl hle
      · exact .inr hle
    have hheldOf : (heldOf u.rb.entries).Pairwise fun x y =>
        x.region.Apart y.region :=
      List.pairwise_map.mpr (hentries.sublist List.filter_sublist)
    exact hheld.symm.pairwise hheldOf fun hxy => hxy.symm
  · intro x hx
    obtain ⟨e, he, hregion⟩ := hmem x hx
    rw [hregion]
    exact hshows.inside he

/-- The third reserve overwrites everything, and the fourth one starts over at
the beginning of the cache. -/
def evictingCalls : List RingOp :=
  [.reserve 16 0, .commit ⟨112, 16⟩ 0, .reserve 16 0, .commit ⟨176, 16⟩ 0,
    .reserve 64 flagOverwrite, .reserve 1 0]

theorem held_tokens_overlap : ¬∀ u, Reached Sized u → u.HeldApart := by
  intro hall
  have hreplay : (replay next (fun u op => u.Allowed op ∧ u.Sized op) small
      evictingCalls).any (fun r => !decide r.1.HeldApart) = true := by
    decide +kernel
  obtain ⟨v, trace, hrun, hcheck⟩ := exists_run_of_replay hreplay
  have happart := hall v ⟨small, trace, small_fresh, hrun⟩
  simp [happart] at hcheck

/-- After two calls the two tokens are apart. -/
theorem held_tokens_apart_two : ∃ u, Reached Sound u ∧ u.HeldApart ∧
    u.held = [⟨176, 8⟩, ⟨112, 16⟩] := by
  have hreplay : (replay next (fun u op => u.Allowed op ∧ u.Plain op) small
      [.reserve 16 0, .reserve 8 0]).any (fun r =>
        r.1.held == [⟨176, 8⟩, ⟨112, 16⟩]) = true := by
    decide +kernel
  obtain ⟨v, trace, hrun, hcheck⟩ := exists_run_of_replay hreplay
  have hreached : Reached Plain v := ⟨small, trace, small_fresh, hrun⟩
  have hsound : Reached Sound v := hreached.mono fun _ _ hplain => hplain.sound
  exact ⟨v, hsound, held_tokens_apart hsound, by simpa using hcheck⟩

/-! ## Iterating -/

/-- The loop from `eaf_ringbuffer_begin` along `eaf_ringbuffer_next` passes the
tokens of the entries, and ends. -/
def Iterates (rb : RingBuffer) (es : List RingEntry) : Prop :=
  ∀ turns > es.length, passFrom 0 rb.eafRingbufferNext turns
    rb.eafRingbufferBegin = some (es.map (·.token))

/-- Along the chain of times, the iteration goes from token to token. -/
theorem passFrom_tokens {rb : RingBuffer} {es : List RingEntry}
    {prev turns : Nat} (h : Segment (rb.mem.field .pNewer) (rb.mem.field .pOlder)
      prev (es.map (·.node)) 0)
    (hnull : ∀ e ∈ es, e.node ≠ 0) (hturns : es.length < turns) :
    passFrom 0 rb.eafRingbufferNext turns ((es.map (·.token)).headD 0) =
      some (es.map (·.token)) := by
  induction es generalizing prev turns with
  | nil =>
      cases turns with
      | zero => omega
      | succ turns => rfl
  | cons e rest ih =>
      cases turns with
      | zero => omega
      | succ turns =>
          obtain ⟨-, hnewer, hrest⟩ := h
          have he := hnull e (by simp)
          have htoken : e.token ≠ 0 := by
            unfold RingEntry.token tokenOf
            simp [NodeField.offset]
          have hnext : rb.eafRingbufferNext e.token =
              some ((rest.map (·.token)).headD 0) := by
            rw [RingBuffer.eafRingbufferNext, e.nodeOf_token, RingBuffer.get_eq he,
              hnewer]
            cases rest with
            | nil => rfl
            | cons x rest => exact if_neg (hnull x (by simp))
          exact passFrom_cons htoken hnext (ih hrest
            (fun x hx => hnull x (List.mem_cons_of_mem _ hx))
            (by simpa using hturns))

/-- **When the iteration is right.**  In every run of sound calls, the iteration
passes the tokens of the queue from the oldest one to the newest one, if and only
if the queue is not empty. -/
theorem iteration_complete_iff (h : u.Fresh) (hrun : Calls Sound u trace v) :
    QueueRun [] trace v.rb.entries ∧
      (Iterates v.rb v.rb.entries ↔ v.rb.entries ≠ []) := by
  obtain ⟨⟨⟨ps, hshows⟩, -⟩, hqueue⟩ := h.run hrun
  refine ⟨hqueue, ?_⟩
  have htail := hshows.tail
  generalize v.rb.entries = es at *
  cases es with
  | nil =>
      -- the token of a null pointer is not null
      refine iff_of_false (fun hall => ?_) (by simp)
      have hpass := hall 1 (by simp)
      have htail' : v.rb.tail = 0 := htail
      rw [RingBuffer.eafRingbufferBegin, htail'] at hpass
      cases hpass
  | cons e rest =>
      refine iff_of_true (fun turns hturns => ?_) (by simp)
      have hbegin : v.rb.eafRingbufferBegin = e.token := by
        rw [RingBuffer.eafRingbufferBegin, htail]
        rfl
      rw [hbegin]
      exact passFrom_tokens hshows.time (fun x hx => hshows.node_ne_zero hx) hturns

/-- On a new buffer the iteration follows a null pointer. -/
theorem iteration_of_empty : ¬∀ u trace v, u.Fresh → Calls Any u trace v →
    ∃ es, QueueRun [] trace es ∧ Iterates v.rb es := by
  intro hall
  obtain ⟨es, hqueue, hpass⟩ := hall small [] small small_fresh .refl
  have hempty := hpass (es.length + 1) (by simp)
  cases hempty

/-- After two calls the iteration passes the two tokens. -/
theorem iteration_of_two : ∃ trace v, Calls Sound small trace v ∧
    QueueRun [] trace v.rb.entries ∧ v.rb.entries.map (·.token) = [112, 176] ∧
    Iterates v.rb v.rb.entries := by
  have hreplay : (replay next (fun u op => u.Allowed op ∧ u.Plain op) small
      [.reserve 16 0, .reserve 8 0]).any (fun r =>
        r.1.rb.entries.map (·.token) == [112, 176]) = true := by
    decide +kernel
  obtain ⟨v, trace, hrun, hcheck⟩ := exists_run_of_replay hreplay
  have hsound : Calls Sound small trace v := by
    refine hrun.mono ?_
    rintro s events t ⟨op, ⟨hallowed, hplain⟩, hnext⟩
    exact ⟨op, ⟨hallowed, hplain.sound⟩, hnext⟩
  obtain ⟨hqueue, hiff⟩ := iteration_complete_iff small_fresh hsound
  have htokens : v.rb.entries.map (·.token) = [112, 176] := by simpa using hcheck
  have hne : v.rb.entries ≠ [] := by
    intro hnil
    rw [hnil] at htokens
    cases htokens
  exact ⟨trace, v, hsound, hqueue, htokens, hiff.mpr hne⟩

/-! ## The sizes -/

/-- The reserve never computes a negative difference, and a token that it returns
has room for its header and its data in the cache. -/
def ReservesInside (rb : RingBuffer) (len : Nat) (flags : UInt32) : Prop :=
  ∃ rb' t, rb.eafRingbufferReserve minus64 len flags = some (rb', t) ∧
    rb.eafRingbufferReserve minusChecked len flags = some (rb', t) ∧
    (t ≠ 0 → rb.Holds len t)

/-- **What is reserved fits.**  After every run of sound calls, every reserve
whose node cost does not wrap computes no negative difference, and a token that
it returns lies in the cache with its header and its data. -/
theorem reserves_inside (h : Reached Sound u) {len : Nat} (hfits : FitsSize len)
    (flags : UInt32) : ReservesInside u.rb len flags := by
  obtain ⟨⟨ps, hshows⟩, -⟩ := h.valid
  obtain ⟨rb', t, heval, hholds⟩ := hshows.reserve_holds hfits flags
  exact ⟨rb', t, heval minus64 minus64_right,
    heval minusChecked minusChecked_right, hholds⟩

theorem reserves_inside_small : FitsSize 16 ∧ ReservesInside small.rb 16 0 :=
  ⟨by decide, reserves_inside ⟨small, [], small_fresh, .refl⟩ (by decide) 0⟩

/-- A reserve of almost all of the address space gets a token. -/
theorem reserve_of_too_much : ¬∀ u, Reached Any u → ∀ len < 2 ^ 64, ∀ flags,
    ReservesInside u.rb len flags := by
  intro hall
  obtain ⟨rb', t, hreserve, -, hholds⟩ :=
    hall small ⟨small, [], small_fresh, .refl⟩ (2 ^ 64 - 48) (by decide) 0
  have htoken : (small.rb.eafRingbufferReserve minus64 (2 ^ 64 - 48) 0).map
      (·.2) = some 112 := by
    decide +kernel
  rw [hreserve] at htoken
  obtain rfl : t = 112 := by simpa using htoken
  have hsize := (hholds (by decide)).1
  revert hsize
  decide

/-! ## Overwriting -/

/-- What a reserve is meant to do, with the overwrite flag or without: to fail
and change nothing, to add a new entry, or to do so for a run of committed
entries, from the oldest one that is not being read. -/
def ReservesRight (rb : RingBuffer) (len : Nat) (flags : UInt32) : Prop :=
  ∃ rb' t, rb.eafRingbufferReserve minus64 len flags = some (rb', t) ∧
    (t = 0 ∧ rb' = rb ∨ ∃ readers run rest new,
      rb.entries = readers ++ (run ++ rest) ∧ t = new.token ∧ t ≠ 0 ∧
      (run ≠ [] → flags &&& flagOverwrite ≠ 0 ∧
        ∀ x ∈ readers, x.state = .reading) ∧
      (∀ x ∈ run, x.state = .committed) ∧
      new.state = .writing ∧ new.len = len ∧
      rb'.entries = readers ++ rest ++ [new] ∧
      rb'.counter.committed =
        rb.counter.committed - UInt64.ofNat run.length ∧
      rb'.counter.writing = rb.counter.writing + 1 ∧
      rb'.counter.reading = rb.counter.reading)

/-- The oldest entry that is not being read is the next one to be consumed. -/
def ConsumesNext (rb : RingBuffer) : Prop :=
  ∀ before e after, rb.entries = before ++ e :: after →
    (∀ x ∈ before, x.state = .reading) → e.state = .committed →
    ∃ rb', rb.eafRingbufferConsume = some (rb', e.token)

theorem consumes_next {rb : RingBuffer} {ps : List RingEntry}
    (h : rb.Shows ps rb.entries) : ConsumesNext rb := by
  intro before e after hsplit hbefore he
  rw [hsplit] at h
  have hmem : e ∈ before ++ e :: after := by simp
  have he0 := h.node_ne_zero hmem
  have holdest := h.oldest_eq hbefore (by simp [he])
  have hstate := (h.holds e hmem).state
  rw [he] at hstate
  simp [RingBuffer.eafRingbufferConsume, holdest, he0, RingBuffer.get_eq he0,
    RingBuffer.set_eq he0, hstate, RingEntry.token]

/-- **What overwriting does.**  After every run of sound calls, a sound reserve
gives up a run of committed entries or nothing, and adds a new entry as the newest
one.  All others stay as they are, and every entry is consumed as soon as it is
committed and all older ones have been consumed. -/
theorem overwrites_right (h : Reached Sound u) {len : Nat} {flags : UInt32}
    (hsound : u.Sound (.reserve len flags)) :
    ReservesRight u.rb len flags ∧ ConsumesNext u.rb ∧
      ∀ w r, u.step minus64 (.reserve len flags) = some (w, r) →
        Reached Sound w := by
  obtain ⟨⟨ps, hshows⟩, -⟩ := h.valid
  refine ⟨?_, consumes_next hshows, fun w r hstep => ?_⟩
  · obtain ⟨_, hcases, heval⟩ := hshows.reserve hsound.1 hsound.2
    have hreserve := heval minus64 minus64_right
    rcases hcases with rfl | ⟨new, rb', ps', rfl, hstate, rfl, hshows', -⟩ |
      ⟨hflags, readers, run, rest, new, rb', ps', hes, hreaders, hrun, hcommitted,
        rfl, hstate, rfl, hshows', -⟩
    · exact ⟨u.rb, 0, hreserve, .inl ⟨rfl, rfl⟩⟩
    · have hcounter := hshows'.counter
      have hreplaced := @RingBuffer.counterOf_replaced u.rb.entries [] [] new
        (by simp) hstate
      simp only [List.append_nil] at hreplaced
      rw [hreplaced, ← hshows.counter] at hcounter
      refine ⟨rb', _, hreserve, .inr ⟨u.rb.entries, [], [], new, by simp, rfl,
        hshows'.new_token.1, fun hne => absurd rfl hne, by simp, hstate, rfl, ?_, ?_,
        ?_, ?_⟩⟩
      · rw [hshows'.entries_eq, List.append_nil]
      · rw [hcounter]
      · rw [hcounter]
      · rw [hcounter]
    · have hcounter := hshows'.counter
      rw [RingBuffer.counterOf_replaced hcommitted hstate, ← hes,
        ← hshows.counter] at hcounter
      refine ⟨rb', _, hreserve, .inr ⟨readers, run, rest, new, hes, rfl,
        hshows'.new_token.1, fun _ => ⟨hflags, hreaders⟩, hcommitted, hstate, rfl,
        hshows'.entries_eq, ?_, ?_, ?_⟩⟩
      · rw [hcounter]
      · rw [hcounter]
      · rw [hcounter]
  · obtain ⟨u₀, trace, hfresh, hrun⟩ := h
    refine ⟨u₀, trace ++ [(.reserve len flags, r)], hfresh,
      hrun.snoc ⟨.reserve len flags, ⟨trivial, hsound⟩, ?_⟩⟩
    rw [next, hstep]
    rfl

/-- Both entries are given up, and the new one is not in the list. -/
theorem overwrites_wrong : ¬∀ u, Reached Sized u → ∀ len flags, FitsSize len →
    ReservesRight u.rb len flags := by
  intro hall
  have hreplay : (replay next (fun u op => u.Allowed op ∧ u.Sized op) small
      [.reserve 16 0, .commit ⟨112, 16⟩ 0, .reserve 16 0,
        .commit ⟨176, 16⟩ 0]).any (fun r =>
          (r.1.rb.eafRingbufferReserve minus64 64 flagOverwrite).any fun s =>
            s.2 != 0 && s.1.entries.isEmpty) = true := by
    decide +kernel
  obtain ⟨v, trace, hrun, hcheck⟩ := exists_run_of_replay hreplay
  obtain ⟨rb', t, hreserve, hcases⟩ :=
    hall v ⟨small, trace, small_fresh, hrun⟩ 64 flagOverwrite (by decide)
  rw [hreserve] at hcheck
  rcases hcases with ⟨rfl, -⟩ |
    ⟨readers, run, rest, new, -, -, -, -, -, -, -, hentries, -⟩
  · simp at hcheck
  · simp [hentries] at hcheck

/-- One of two entries is given up for a new one. -/
theorem overwrites_one : ∃ u, Reached Sound u ∧
    u.rb.entries.map (·.state) = [.committed, .writing] ∧
    u.Sound (.reserve 16 flagOverwrite) ∧ ReservesRight u.rb 16 flagOverwrite := by
  have hreplay : (replay next (fun u op => u.Allowed op ∧ u.Plain op) small
      [.reserve 16 0, .commit ⟨112, 16⟩ 0, .reserve 16 0]).any (fun r =>
        r.1.rb.entries.map (·.state) == [.committed, .writing] &&
          r.1.rb.startPoint == some 72 &&
          r.1.rb.scanLoop minus64 72 64 (r.1.rb.capacity + 1)
            r.1.rb.oldestReserve 1 == some (64, 72, 1) &&
          r.1.rb.head == 136) = true := by
    decide +kernel
  obtain ⟨v, trace, hrun, hcheck⟩ := exists_run_of_replay hreplay
  have hreached : Reached Plain v := ⟨small, trace, small_fresh, hrun⟩
  have hsound : Reached Sound v := hreached.mono fun _ _ hplain => hplain.sound
  simp only [Bool.and_eq_true, beq_iff_eq] at hcheck
  obtain ⟨⟨⟨hstates, hstart⟩, hscan⟩, hhead⟩ := hcheck
  have hlast : v.Sound (.reserve 16 flagOverwrite) := by
    refine ⟨by decide, ?_⟩
    rintro ⟨-, -, -, start, sumSize, lostNodes, hstart', hscan', -⟩
    obtain rfl : start = 72 := by
      rw [hstart] at hstart'
      exact (Option.some.inj hstart').symm
    have hcost : eafRingbufferNodeCost 16 = 64 := by decide
    rw [hcost, hscan, hhead] at hscan'
    simp at hscan'
  exact ⟨v, hsound, hstates, hlast, (overwrites_right hsound hlast).1⟩

end RingUse

end Powerpack
end Eaf

import Eaf.Powerpack.RingReserve
import Eaf.Powerpack.RingTokens

/-!
# Overwriting the oldest data

A run of committed entries makes room for a new one.  The run is contiguous in
memory and in time, and it starts at `oldest_reserve`.  The code rewires the two
chains while it overwrites the headers of the run, so the order in which it
reads and writes matters.
-/

namespace Eaf
namespace Powerpack

open Linked

namespace RingBuffer

/-! ## Rewiring the chains -/

section Perform

variable {rb : RingBuffer} {m : Words} {n s l b f o w hd q p v len lost : Nat}
  {i j : NodeField} {e : RingEntry}

/-- A field that lies behind what is written. -/
theorem field_put_below (hle : p ≤ q) (hlt : i.offset < j.offset) :
    (m.put i p v).field j q = m.field j q := by
  unfold Words.field Words.put
  exact Function.update_of_ne (by omega) ..

/-- The memory after the nodes between `b` and `f`, and between `o` and `w` in
time, have been replaced by `n`, which becomes the newest one. -/
def overwritten (m : Words) (n b f o w hd len : Nat) : Words :=
  ((((((((((m.put .pForward n f).put .pBackward f n).put .pBackward n b).put
    .pForward b n).putIf .pNewer o w).putIf .pOlder w o).put .pNewer n 0).put
    .pOlder n hd).put .pNewer hd n).put .size n len).put .state n
    RingState.writing.code

/-- The code does so. -/
theorem performOverwrite_eq (hs0 : s ≠ 0) (hl0 : l ≠ 0) (hn0 : n ≠ 0)
    (hb0 : b ≠ 0) (hf0 : f ≠ 0) (hhd0 : hd ≠ 0)
    (hns : n ≤ s) (hnl : n ≤ l)
    (hforward : rb.mem.field .pForward l = f)
    (hbackward : rb.mem.field .pBackward s = b)
    (holder : rb.mem.field .pOlder s = o) (hnewer : rb.mem.field .pNewer l = w)
    (hhead : rb.head = hd)
    (hfs : Clear f s) (hfs' : f ≠ s) (hbs : Clear b s) (hbs' : b ≠ s)
    (hfl : Clear f l) (hfl' : f ≠ l) (hbl : Clear b l) (hbl' : b ≠ l)
    (hos : o ≠ 0 → Clear o s) (hos' : o ≠ s) (hol : o ≠ 0 → Clear o l)
    (hol' : o ≠ l) (hbn : Clear b n) (hbn' : b ≠ n) :
    rb.ringBufferPerformOverwrite n s l lost len = some
      ({ rb with
        head := n
        tail := if rb.tail = rb.oldestReserve then w else rb.tail
        oldestReserve := w
        counter := { rb.counter with
          committed := rb.counter.committed - UInt64.ofNat lost
          writing := rb.counter.writing + 1 }
        mem := overwritten rb.mem n b f o w hd len }, tokenOf n) := by
  subst hforward hbackward holder hnewer hhead
  have hnn := Clear.refl n
  have hbelow : ∀ {m : Words} {i j : NodeField} {v : Nat},
      i.offset < j.offset → (m.put i n v).field j s = m.field j s :=
    fun hlt => field_put_below hns hlt
  have hbelow' : ∀ {m : Words} {i j : NodeField} {v : Nat},
      i.offset < j.offset → (m.put i n v).field j l = m.field j l :=
    fun hlt => field_put_below hnl hlt
  have hdec : NodeField.offset .pForward < NodeField.offset .pBackward := by decide
  have hdec₁ : NodeField.offset .pForward < NodeField.offset .pOlder := by decide
  have hdec₂ : NodeField.offset .pBackward < NodeField.offset .pOlder := by decide
  have hdec₃ : NodeField.offset .pForward < NodeField.offset .pNewer := by decide
  have hdec₄ : NodeField.offset .pBackward < NodeField.offset .pNewer := by decide
  by_cases ho : rb.mem.field .pOlder s = 0
  · by_cases htail : rb.tail = rb.oldestReserve <;>
      by_cases hw : rb.mem.field .pNewer l = 0 <;>
      simp [ringBufferPerformOverwrite, overwritten, Words.putIf,
        ringBufferUpdateTimeForNewNode, incWriting, get_eq, set_eq, htail, ho, hw,
        hs0, hl0, hn0, hb0, hf0, hhd0, field_put hnn, field_put hfs,
        field_put hfl, field_put hbs, field_put hbl, hfs', hbs', hfl', hbl',
        hbelow hdec, hbelow hdec₁, hbelow hdec₂, hbelow' hdec₃, hbelow' hdec₄]
  · -- the older node is written to before the newer one is looked up again
    have hos := hos ho
    have hol := hol ho
    by_cases htail : rb.tail = rb.oldestReserve <;>
      by_cases hw : rb.mem.field .pNewer l = 0 <;>
      simp [ringBufferPerformOverwrite, overwritten, Words.putIf,
        ringBufferUpdateTimeForNewNode, incWriting, get_eq, set_eq, htail, ho, hw,
        hs0, hl0, hn0, hb0, hf0, hhd0, field_put hnn, field_put hfs,
        field_put hfl, field_put hbs, field_put hbl, field_put hos,
        field_put hol, hfs', hbs', hfl', hbl', hos', hol', hbelow hdec,
        hbelow hdec₁, hbelow hdec₂, hbelow' hdec₃, hbelow' hdec₄]

/-- When nothing but the run is in the buffer, the new node is linked to
itself. -/
theorem performOverwrite_all (hs0 : s ≠ 0) (hl0 : l ≠ 0) (hn0 : n ≠ 0)
    (hhd0 : rb.head ≠ 0) (hns : n ≤ s) (hnl : n ≤ l) (hsl : Clear s l) (hsl' : s ≠ l)
    (hforward : rb.mem.field .pForward l = s)
    (holder : rb.mem.field .pOlder s = 0) (hnewer : rb.mem.field .pNewer l = 0) :
    ∃ rb', rb.ringBufferPerformOverwrite n s l lost len =
      some (rb', tokenOf n) := by
  have hnn := Clear.refl n
  have hss := Clear.refl s
  have hdec₁ : NodeField.offset .pForward < NodeField.offset .pOlder := by decide
  have hdec₂ : NodeField.offset .pBackward < NodeField.offset .pOlder := by decide
  have hdec₃ : NodeField.offset .pForward < NodeField.offset .pNewer := by decide
  have hdec₄ : NodeField.offset .pBackward < NodeField.offset .pNewer := by decide
  by_cases htail : rb.tail = rb.oldestReserve <;>
    simp [ringBufferPerformOverwrite, ringBufferUpdateTimeForNewNode, incWriting,
      get_eq, set_eq, htail, hs0, hl0, hn0, hhd0, hforward, holder, hnewer,
      field_put hnn, field_put hss, field_put hsl, hsl',
      field_put_below hns hdec₁, field_put_below hns hdec₂,
      field_put_below hnl hdec₃, field_put_below hnl hdec₄]

/-- The fields of the nodes that stay. -/
theorem field_overwritten (hq : q ≠ 0) (hqn : q ≠ n) (hn : Clear n q)
    (hb : Clear b q) (hf : Clear f q)
    (ho : o ≠ 0 → Clear o q) (hw : Clear w q) (hhd : Clear hd q) :
    (overwritten m n b f o w hd len).field .pForward q =
        (if q = b then n else m.field .pForward q) ∧
      (overwritten m n b f o w hd len).field .pBackward q =
        (if q = f then n else m.field .pBackward q) ∧
      (overwritten m n b f o w hd len).field .pNewer q =
        (if q = hd then n else if q = o then w else m.field .pNewer q) ∧
      (overwritten m n b f o w hd len).field .pOlder q =
        (if q = w then o else m.field .pOlder q) ∧
      (overwritten m n b f o w hd len).field .state q = m.field .state q ∧
      (overwritten m n b f o w hd len).field .size q = m.field .size q := by
  simp [overwritten, field_put hn, field_put hb, field_put hf,
    field_putIf hq fun _ => hw, field_put hhd, field_putIf hq ho, hqn.symm, eq_comm]

/-- The fields of the new node. -/
theorem field_overwritten_new (hn0 : n ≠ 0) (hb : Clear b n) (hf : Clear f n)
    (ho : o ≠ 0 → Clear o n) (hw : Clear w n) (hhd : Clear hd n) (hbn : b ≠ n)
    (hfn : f ≠ n) (hhdn : hd ≠ n) :
    (overwritten m n b f o w hd len).field .pForward n = f ∧
      (overwritten m n b f o w hd len).field .pBackward n = b ∧
      (overwritten m n b f o w hd len).field .pNewer n = 0 ∧
      (overwritten m n b f o w hd len).field .pOlder n = hd ∧
      (overwritten m n b f o w hd len).field .state n = RingState.writing.code ∧
      (overwritten m n b f o w hd len).field .size n = len := by
  simp [overwritten, field_put (Clear.refl n), field_put hb, field_put hf,
    field_putIf hn0 fun _ => hw, field_put hhd, field_putIf hn0 ho, hbn, hfn, hhdn]

theorem sameData_overwritten (hn : e.Avoids n) (hb : e.Avoids b)
    (hf : e.Avoids f) (ho : o ≠ 0 → e.Avoids o) (hw : e.Avoids w)
    (hhd : e.Avoids hd) : m.SameData (overwritten m n b f o w hd len) e := by
  have hput : ∀ {m : Words} {f : NodeField} {p v : Nat}, e.Avoids p →
      m.SameData (m.put f p v) e := fun hp => sameData_put hp
  unfold overwritten
  exact ((((((((((hput hn).trans (hput hf)).trans (hput hn)).trans
    (hput hb)).trans (sameData_putIf ho)).trans (sameData_putIf fun _ => hw)).trans
    (hput hn)).trans
    (hput hn)).trans (hput hhd)).trans (hput hn)).trans (hput hn)

end Perform

/-! ## Replacing the run -/

section Replace

variable {rb : RingBuffer}
  {ps es xs ys readers run front tail rest : List RingEntry}
  {first last x y : RingEntry} {len : Nat}

/-- The neighbours of a run in the circle. -/
theorem Shows.run_places (h : rb.Shows ps es) (hps : ps = xs ++ (run ++ ys))
    (hfirst : run = first :: tail) (hlast : run = front ++ [last])
    (hne : ys ++ xs ≠ []) :
    rb.mem.field .pForward last.node = ((ys ++ xs).map (·.node)).headD 0 ∧
      rb.mem.field .pBackward first.node =
        ((ys ++ xs).map (·.node)).getLastD 0 := by
  have hne' : (ys ++ xs).map (·.node) ≠ [] := by simpa using hne
  have hps' : ps = (xs ++ front) ++ last :: ys := by
    rw [hps, hlast]
    simp
  have hps'' : ps = xs ++ first :: (tail ++ ys) := by
    rw [hps, hfirst]
    simp
  constructor
  · rw [h.forward_eq hps']
    have hsplit : ys ++ (xs ++ front) ++ [last] =
        (ys ++ xs) ++ (front ++ [last]) := by simp
    rw [hsplit, List.map_append, headD_append]
    exact headD_eq hne' _ _
  · rw [h.backward_eq hps'']
    have hsplit : first :: (tail ++ ys) ++ xs =
        (first :: tail) ++ (ys ++ xs) := by simp
    rw [hsplit, List.map_append, getLastD_append]
    exact getLastD_eq hne' _ _

/-- The neighbours of a run in time. -/
theorem Shows.run_times (h : rb.Shows ps es)
    (hes : es = readers ++ (run ++ rest)) (hfirst : run = first :: tail)
    (hlast : run = front ++ [last]) :
    rb.mem.field .pOlder first.node = (readers.map (·.node)).getLastD 0 ∧
      rb.mem.field .pNewer last.node = (rest.map (·.node)).headD 0 := by
  have hes' : es = readers ++ first :: (tail ++ rest) := by
    rw [hes, hfirst]
    simp
  have hes'' : es = (readers ++ front) ++ last :: rest := by
    rw [hes, hlast]
    simp
  exact ⟨(h.time_eq hes').1, (h.time_eq hes'').2⟩

/-- Every node of a run lies behind the nodes before the run. -/
theorem Shows.endOf_le (h : rb.Shows ps es) (hps : ps = xs ++ (run ++ ys))
    (hx : x ∈ run) : Region.endOf rb.cache (xs.map (·.region)) ≤ x.node := by
  obtain ⟨before, after, rfl⟩ := List.append_of_mem hx
  have hplaced := h.placed
  have hsplit : xs ++ (before ++ x :: after ++ ys) =
      (xs ++ before) ++ x :: (after ++ ys) := by simp
  rw [hps, hsplit, List.map_append, List.map_cons] at hplaced
  obtain ⟨hfront, -⟩ := Region.ascending_split.mp hplaced
  rw [List.map_append] at hfront
  obtain ⟨mid, hxs, hbefore⟩ := Region.ascending_append.mp hfront
  exact hxs.endOf.2.trans hbefore.le

/-- The entries of a run are not among the others. -/
theorem Shows.run_others (h : rb.Shows ps es)
    (hes : es = readers ++ (run ++ rest)) (hx : x ∈ run)
    (hy : y ∈ readers ++ rest) : x ∈ es ∧ y ∈ es ∧ y.node ≠ x.node := by
  obtain ⟨before, after, rfl⟩ := List.append_of_mem hx
  have hes' : es = (readers ++ before) ++ x :: (after ++ rest) := by
    rw [hes]
    simp
  have hy' : y ∈ (readers ++ before) ++ (after ++ rest) := by
    simp only [List.mem_append] at hy ⊢
    tauto
  obtain ⟨hyes, hne⟩ := h.others hes' hy'
  exact ⟨by rw [hes']; simp, hyes, hne⟩

/-- A new entry has its place where the run was. -/
theorem Shows.run_replaced (h : rb.Shows ps es) (hps : ps = xs ++ (run ++ ys))
    (hlast : run = front ++ [last])
    (hroom : Region.endOf rb.cache (xs.map (·.region)) +
      eafRingbufferNodeCost len ≤ last.region.finish) {new : RingEntry}
    (hnode : new.node = Region.endOf rb.cache (xs.map (·.region)))
    (hlen : new.len = len) :
    Region.Ascending rb.cache (rb.cache + rb.capacity)
      ((xs ++ new :: ys).map (·.region)) := by
  have hplaced := h.placed
  have hsplit : xs ++ (run ++ ys) = (xs ++ front) ++ last :: ys := by
    rw [hlast]
    simp
  rw [hps, hsplit, List.map_append, List.map_cons] at hplaced
  obtain ⟨hbefore, hafter⟩ := Region.ascending_split.mp hplaced
  rw [List.map_append] at hbefore
  obtain ⟨mid, hxs, -⟩ := Region.ascending_append.mp hbefore
  rw [List.map_append, List.map_cons]
  refine Region.ascending_split.mpr ⟨?_, hafter.mono ?_ le_rfl⟩
  · rw [RingEntry.region_start, hnode]
    exact hxs.endOf.1
  · rw [RingEntry.region_finish, hnode, hlen]
    exact hroom

/-- The entries that stay are those that lie around the run. -/
theorem Shows.run_perm (h : rb.Shows ps es) (hps : ps = xs ++ (run ++ ys))
    (hes : es = readers ++ (run ++ rest)) : (xs ++ ys).Perm (readers ++ rest) := by
  have hwhole := h.perm
  rw [hps, hes] at hwhole
  have hleft : (xs ++ (run ++ ys)).Perm (run ++ (xs ++ ys)) := by
    rw [← List.append_assoc, ← List.append_assoc]
    exact List.perm_append_comm.append_right ys
  have hright : (readers ++ (run ++ rest)).Perm (run ++ (readers ++ rest)) := by
    rw [← List.append_assoc, ← List.append_assoc]
    exact List.perm_append_comm.append_right rest
  exact (List.perm_append_left_iff run).mp
    (hleft.symm.trans (hwhole.trans hright))

/-- The entries that stay keep clear of the run. -/
theorem Shows.run_apart (h : rb.Shows ps es)
    (hes : es = readers ++ (run ++ rest)) (hx : x ∈ run)
    (hy : y ∈ readers ++ rest) : Clear y.node x.node ∧ y.node ≠ x.node := by
  obtain ⟨hxes, hyes, hne⟩ := h.run_others hes hx hy
  exact ⟨(h.avoids hxes hyes).clear (h.fits x hxes), hne⟩

/-- The node before a run in time is the one of a reader, if there is one. -/
theorem older_cases {o : Nat} (ho : (readers.map (·.node)).getLastD 0 = o) :
    readers = [] ∧ o = 0 ∨ ∃ x ∈ readers, o = x.node := by
  by_cases hr : readers = []
  · subst hr
    exact .inl ⟨rfl, ho.symm⟩
  · obtain ⟨x, hx, hxNode⟩ := getLastD_node hr
    exact .inr ⟨x, hx, ho.symm.trans hxNode⟩

theorem Shows.older_apart (h : rb.Shows ps es)
    (hes : es = readers ++ (run ++ rest)) {o : Nat}
    (ho : (readers.map (·.node)).getLastD 0 = o) (hy : y ∈ run) :
    (o ≠ 0 → Clear o y.node) ∧ o ≠ y.node := by
  rcases older_cases ho with ⟨-, rfl⟩ | ⟨x, hx, rfl⟩
  · have hyes : y ∈ es := by
      rw [hes]
      simp [hy]
    exact ⟨fun h0 => absurd rfl h0, (h.node_ne_zero hyes).symm⟩
  · obtain ⟨hclear, hne⟩ := h.run_apart hes hy (List.mem_append_left rest hx)
    exact ⟨fun _ => hclear, hne⟩

/-- The new entry takes the place of the run, and becomes the newest one. -/
theorem Shows.performOverwrite (h : rb.Shows ps es)
    (hps : ps = xs ++ (run ++ ys)) (hes : es = readers ++ (run ++ rest))
    (hfirst : run = first :: tail) (hlast : run = front ++ [last])
    (hreaders : ∀ x ∈ readers, x.state = .reading)
    (hcommitted : ∀ x ∈ run, x.state = .committed) (hrest : rest ≠ [])
    (hfits : FitsSize len)
    (hroom : Region.endOf rb.cache (xs.map (·.region)) +
      eafRingbufferNodeCost len ≤ last.region.finish) :
    ∃ new rb', new.state = .writing ∧ new.len = len ∧
      rb.ringBufferPerformOverwrite
        (Region.endOf rb.cache (xs.map (·.region))) first.node last.node
        run.length len = some (rb', new.token) ∧
      rb'.Shows (xs ++ new :: ys) (readers ++ rest ++ [new]) ∧
      rb.SameConfig rb' := by
  have hperm := h.run_perm hps hes
  have hcircle : (ys ++ xs).Perm (readers ++ rest) :=
    List.perm_append_comm.trans hperm
  have hne : ys ++ xs ≠ [] := by
    intro hnil
    rw [hnil] at hcircle
    exact hrest (List.append_eq_nil_iff.mp (List.nil_perm.mp hcircle)).2
  have hfirstMem : first ∈ run := by
    rw [hfirst]
    simp
  have hlastMem : last ∈ run := by
    rw [hlast]
    simp
  obtain ⟨hforward, hbackward⟩ := h.run_places hps hfirst hlast hne
  obtain ⟨holder, hnewer⟩ := h.run_times hes hfirst hlast
  obtain ⟨f, hf, hfNode⟩ := headD_node hne
  obtain ⟨b, hb, hbNode⟩ := getLastD_node hne
  obtain ⟨w, hw, hwNode⟩ := headD_node hrest
  obtain ⟨hd, hhd, hhdNode⟩ := getLastD_node hrest
  have hf' := hcircle.mem_iff.mp hf
  have hb' := hcircle.mem_iff.mp hb
  have hw' : w ∈ readers ++ rest := List.mem_append_right _ hw
  have hhd' : hd ∈ readers ++ rest := List.mem_append_right _ hhd
  have hhead : rb.head = hd.node := by
    have hne' : rest.map (·.node) ≠ [] := by simpa using hrest
    rw [h.head, hes, List.map_append, List.map_append, getLastD_append,
      getLastD_append, ← hhdNode]
    exact getLastD_eq hne' _ _
  have hes' : es = readers ++ first :: (tail ++ rest) := by
    rw [hes, hfirst]
    simp
  have hfirstNot : first.state ≠ .reading := by
    rw [hcommitted first hfirstMem]
    exact RingState.noConfusion
  have hrestNot : ∀ x ∈ rest, x.state ≠ .reading := by
    have holdest := h.oldest
    rw [hes'] at holdest
    obtain ⟨readers', skipped, -, -, hnot, -⟩ := holdest.of_not_reading hfirstNot
    exact fun x hx => hnot x (by simp [hx])
  have holdest : rb.oldestReserve = first.node := by
    rw [hes'] at h
    exact h.oldest_eq hreaders hfirstNot
  have htail : rb.tail = (readers.map (·.node)).headD first.node := by
    rw [h.tail, hes', List.map_append, headD_append]
    rfl
  have hstart := h.endOf_le hps hfirstMem
  have hstart' := h.endOf_le hps hlastMem
  have hplaced := h.placed
  have hcache : rb.cache ≤ Region.endOf rb.cache (xs.map (·.region)) := by
    rw [hps, List.map_append] at hplaced
    obtain ⟨mid, hxs, -⟩ := Region.ascending_append.mp hplaced
    exact hxs.endOf.1.le
  have hplaced' := fun new hnode hlen =>
    @Shows.run_replaced rb ps es xs ys run front last len h hps hlast hroom new
      hnode hlen
  generalize Region.endOf rb.cache (xs.map (·.region)) = n at *
  generalize ho : (readers.map (·.node)).getLastD 0 = o at *
  obtain ⟨new, hnode, hlen, hstate, hwords⟩ : ∃ new : RingEntry,
      new.node = n ∧ new.len = len ∧ new.state = .writing ∧ new.words =
        (overwritten rb.mem n b.node f.node o w.node hd.node len).data n len :=
    ⟨⟨n, len, .writing, _⟩, rfl, rfl, rfl, rfl⟩
  have hplaced'' := hplaced' new hnode hlen
  have hstay : ∀ x ∈ readers ++ rest, x ∈ es := by
    intro x hx
    rw [hes]
    simp only [List.mem_append] at hx ⊢
    tauto
  have hfits' : ∀ x ∈ xs ++ new :: ys, FitsSize x.len := by
    intro x hx
    rcases List.mem_cons.mp (List.perm_middle.mem_iff.mp hx) with rfl | hx
    · rw [hlen]
      exact hfits
    · exact h.fits x (hstay x (hperm.mem_iff.mp hx))
  have hfree : ∀ x ∈ readers ++ rest,
      x.node ≠ n ∧ x.Avoids n ∧ new.Avoids x.node := by
    intro x hx
    have hx' := avoids_of_new hplaced'' List.perm_middle hfits'
      (hperm.mem_iff.mpr hx)
    rwa [hnode] at hx'
  have hapart : ∀ x ∈ readers ++ rest, ∀ y ∈ run,
      Clear x.node y.node ∧ x.node ≠ y.node := fun x hx y hy =>
    h.run_apart hes hy hx
  have havoids : ∀ x ∈ readers ++ rest, ∀ y ∈ readers ++ rest,
      x.Avoids y.node := fun x hx y hy => h.avoids (hstay x hx) (hstay y hy)
  have hnz : ∀ x ∈ readers ++ rest, x.node ≠ 0 := fun x hx =>
    h.node_ne_zero (hstay x hx)
  have hn0 : n ≠ 0 := by
    have hpos := h.cache
    omega
  -- an older entry, if there is one, is being read
  have holderCases := older_cases ho
  have holderAvoids : o ≠ 0 → ∀ x ∈ readers ++ rest, x.Avoids o := by
    intro h0 x hx
    rcases holderCases with ⟨-, h0'⟩ | ⟨y, hy, rfl⟩
    · exact absurd h0' h0
    · exact havoids x hx y (List.mem_append_left _ hy)
  have holderApart : ∀ y ∈ run, (o ≠ 0 → Clear o y.node) ∧ o ≠ y.node :=
    fun y hy => h.older_apart hes ho hy
  rw [hfNode] at hforward
  rw [hbNode] at hbackward
  rw [hwNode] at hnewer
  have heval := @performOverwrite_eq rb n first.node last.node b.node f.node o
    w.node hd.node len run.length
    (h.node_ne_zero (h.run_others hes hfirstMem hb').1)
    (h.node_ne_zero (h.run_others hes hlastMem hb').1) hn0 (hnz b hb') (hnz f hf')
    (hnz hd hhd') hstart hstart' hforward hbackward holder hnewer hhead
    (hapart f hf' first hfirstMem).1 (hapart f hf' first hfirstMem).2
    (hapart b hb' first hfirstMem).1 (hapart b hb' first hfirstMem).2
    (hapart f hf' last hlastMem).1 (hapart f hf' last hlastMem).2
    (hapart b hb' last hlastMem).1 (hapart b hb' last hlastMem).2
    (holderApart first hfirstMem).1 (holderApart first hfirstMem).2
    (holderApart last hlastMem).1 (holderApart last hlastMem).2
    ((hfree b hb').2.1.clear (h.fits b (hstay b hb'))).symm (hfree b hb').1
  have htoken : tokenOf n = new.token := by rw [RingEntry.token, hnode]
  rw [htoken] at heval
  refine ⟨new, _, hstate, hlen, heval, ?_, rfl, rfl⟩
  have hclear : ∀ x ∈ readers ++ rest, ∀ {p}, x.Avoids p → Clear p x.node :=
    fun x hx {p} hp => hp.clear (h.fits x (hstay x hx))
  have hfield : ∀ x ∈ readers ++ rest, _ := fun x hx =>
    @field_overwritten rb.mem n b.node f.node o w.node hd.node x.node len (hnz x hx)
      (hfree x hx).1 (hclear x hx (hfree x hx).2.1)
      (hclear x hx (havoids x hx b hb')) (hclear x hx (havoids x hx f hf'))
      (fun h0 => hclear x hx (holderAvoids h0 x hx))
      (hclear x hx (havoids x hx w hw')) (hclear x hx (havoids x hx hd hhd'))
  have hnewClear : ∀ {p}, new.Avoids p → Clear p n := by
    intro p hp
    rw [← hnode]
    exact hp.clear (hlen ▸ hfits)
  have holderFree : o ≠ 0 → new.Avoids o := by
    intro h0
    rcases holderCases with ⟨-, h0'⟩ | ⟨x, hx, rfl⟩
    · exact absurd h0' h0
    · exact (hfree x (List.mem_append_left _ hx)).2.2
  obtain ⟨hnewForward, hnewBackward, hnewNewer, hnewOlder, hnewState,
      hnewSize⟩ := @field_overwritten_new rb.mem n b.node f.node o w.node hd.node len
    hn0 (hnewClear (hfree b hb').2.2) (hnewClear (hfree f hf').2.2)
    (fun h0 => hnewClear (holderFree h0)) (hnewClear (hfree w hw').2.2)
    (hnewClear (hfree hd hhd').2.2) (hfree b hb').1 (hfree f hf').1
    (hfree hd hhd').1
  have hnodup : ((readers ++ rest).map (·.node)).Nodup := by
    refine h.nodup.sublist ?_
    rw [hes]
    exact ((List.sublist_append_right ..).append_left readers).map _
  have hdistinct : ∀ x ∈ readers, ∀ y ∈ rest, x.node ≠ y.node := by
    rw [List.map_append, List.nodup_append] at hnodup
    intro x hx y hy
    exact hnodup.2.2 _ (List.mem_map_of_mem hx) _ (List.mem_map_of_mem hy)
  have hlastNode : ((readers ++ rest).map (·.node)).getLastD 0 = hd.node := by
    have hne' : rest.map (·.node) ≠ [] := by simpa using hrest
    rw [List.map_append, getLastD_append, ← hhdNode]
    exact getLastD_eq hne' _ _
  constructor
  · exact List.perm_middle.trans ((hperm.cons new).trans
      (List.perm_append_singleton new _).symm)
  · exact hplaced''
  · -- the circle is cut around the run, and closed with the new node
    have hring := h.ring
    have hsplit : xs ++ (run ++ ys) = (xs ++ run) ++ ys := by simp
    rw [hps, hsplit, List.map_append] at hring
    have hrotated := ring_rotate.mp hring
    rw [← List.map_append, ← List.append_assoc, List.map_append] at hrotated
    have hpushed : Ring 0
        ((overwritten rb.mem n b.node f.node o w.node hd.node len).field .pForward)
        ((overwritten rb.mem n b.node f.node o w.node hd.node len).field .pBackward)
        ((ys ++ xs).map (·.node) ++ [n]) := by
      refine (segment_append.mp hrotated).1.ring_push (by simpa using hne)
        ((hcircle.map _).nodup_iff.mpr hnodup) ?_ ?_ ?_ ?_
      · rw [hbNode]
        exact hnewBackward
      · rw [hfNode]
        exact hnewForward
      · intro p hp
        obtain ⟨x, hx, rfl⟩ := List.mem_map.mp hp
        rw [hbNode]
        exact (hfield x (hcircle.mem_iff.mp hx)).1
      · intro p hp
        obtain ⟨x, hx, rfl⟩ := List.mem_map.mp hp
        rw [hfNode]
        exact (hfield x (hcircle.mem_iff.mp hx)).2.1
    rw [List.map_append, List.append_assoc] at hpushed
    have hclosed := ring_rotate.mp hpushed
    rw [List.map_append, List.map_cons, hnode]
    simpa using hclosed
  · -- the run is taken out of the time, and the new node is added at its end
    have htime := h.time
    have hnodup' := h.nodup
    rw [hes, List.map_append, List.map_append] at htime hnodup'
    have hjoined : Segment
        (fun p => if p = o then w.node else rb.mem.field .pNewer p)
        (fun p => if p = w.node then o else rb.mem.field .pOlder p) 0
        (readers.map (·.node) ++ rest.map (·.node)) 0 := by
      refine htime.unlink hnodup' ?_ ?_
      · intro p hp
        obtain ⟨x, hx, rfl⟩ := List.mem_map.mp hp
        rw [ho, hwNode]
        exact ⟨if_neg (hdistinct x hx w hw), rfl⟩
      · intro p hp
        obtain ⟨x, hx, rfl⟩ := List.mem_map.mp hp
        rw [ho, hwNode]
        refine ⟨if_neg ?_, rfl⟩
        rcases holderCases with ⟨-, rfl⟩ | ⟨y, hy, rfl⟩
        · exact hnz x (List.mem_append_right _ hx)
        · exact (hdistinct y hy x hx).symm
    rw [← List.map_append, ← List.append_nil ((readers ++ rest).map _)] at hjoined
    have hnewNode : [new].map (·.node) = [n] := by
      rw [List.map_singleton, hnode]
    rw [List.map_append, hnewNode]
    refine hjoined.splice (by rw [List.append_nil]; exact hnodup) ?_ ?_ ?_ ?_
    · rw [hlastNode]
      exact hnewOlder
    · exact hnewNewer
    · intro p hp
      obtain ⟨x, hx, rfl⟩ := List.mem_map.mp hp
      rw [hlastNode]
      exact ⟨(hfield x hx).2.2.2.1, (hfield x hx).2.2.1⟩
    · intro p hp
      cases hp
  · intro x hx
    rcases List.mem_append.mp hx with hx | hx
    · refine (h.holds x (hstay x hx)).congr ?_ (hfield x hx).2.2.2.2.2
        (hfield x hx).2.2.2.2.1
      exact sameData_overwritten (hfree x hx).2.1 (havoids x hx b hb')
        (havoids x hx f hf') (fun h0 => holderAvoids h0 x hx)
        (havoids x hx w hw') (havoids x hx hd hhd')
    · obtain rfl := List.mem_singleton.mp hx
      refine ⟨?_, ?_, ?_⟩
      · rw [hnode, hlen]
        exact hnewSize
      · rw [hnode, hstate]
        exact hnewState
      · rw [hnode, hlen]
        exact hwords.symm
  · intro x hx
    rcases List.mem_append.mp hx with hx | hx
    · exact h.fits x (hstay x hx)
    · obtain rfl := List.mem_singleton.mp hx
      exact hlen ▸ hfits
  · rw [List.map_append, getLastD_append]
    exact hnode.symm
  · -- `TAIL` was overwritten if nothing older than the run was left
    show (if rb.tail = rb.oldestReserve then w.node else rb.tail) = _
    rw [htail, holdest]
    cases readers with
    | nil =>
        refine (if_pos rfl).trans ?_
        rw [List.nil_append, List.map_append, headD_append, ← hwNode]
        exact headD_eq (by simpa using hrest) _ _
    | cons x readers =>
        refine if_neg ?_
        exact (hapart x (by simp) first hfirstMem).2
  · have hrest' : ∀ x ∈ rest, x.state ≠ .reading := hrestNot
    refine ⟨readers, rest ++ [new], by simp, hreaders, ?_, ?_⟩
    · intro x hx
      rcases List.mem_append.mp hx with hx | hx
      · exact hrest' x hx
      · rw [List.mem_singleton.mp hx, hstate]
        exact RingState.noConfusion
    · show w.node = _
      rw [List.map_append, headD_append, ← hwNode]
      exact headD_eq (by simpa using hrest) _ _
  · show (⟨_, _, _⟩ : RingCounter) = _
    rw [counterOf_replaced hcommitted hstate, ← hes, ← h.counter]
  · exact h.cache
  · exact h.inMemory

end Replace

end RingBuffer

end Powerpack
end Eaf

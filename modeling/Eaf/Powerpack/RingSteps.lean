import Eaf.Powerpack.RingEntries

/-!
# What the functions of the ring buffer do to its entries
-/

namespace Eaf
namespace Powerpack

open Linked

namespace RingBuffer

/-! ## Linking a node -/

section Insert

variable {rb : RingBuffer} {m : Words} {n h b q len : Nat}

/-- The memory after a node has been linked in between `h` and `b`, and behind
`h` in time. -/
def linked (m : Words) (n h b len : Nat) : Words :=
  ((((((((m.put .state n RingState.writing.code).put .size n len).put
    .pForward n b).put .pBackward n h).put .pBackward b n).put
    .pForward h n).put .pNewer n 0).put .pOlder n h).put .pNewer h n

/-- The buffer with the new node. -/
def withToken (rb : RingBuffer) (n h b len : Nat) : RingBuffer :=
  { rb.incWriting with
    head := n
    oldestReserve := if rb.oldestReserve = 0 then n else rb.oldestReserve
    mem := linked rb.mem n h b len }

/-- Only a buffer without an `oldest_reserve` gets one. -/
theorem updateOldestReserve_eq (rb : RingBuffer) (n : Nat) :
    rb.ringBufferReserveUpdateOldestReserve n = { rb with
      oldestReserve := if rb.oldestReserve = 0 then n else rb.oldestReserve } := by
  unfold ringBufferReserveUpdateOldestReserve
  split <;> rfl

theorem makeToken_eq (hn : n ≠ 0) (hhead : rb.head = h)
    (hfirst : rb.mem.field .pForward h = b) (hh : h ≠ 0) (hb : b ≠ 0)
    (hnh : h ≠ n) (hclear : Clear n h) (hnb : b ≠ n) (hclear' : Clear n b) :
    rb.makeToken n len = some (rb.withToken n h b len, tokenOf n) := by
  have hnn := Clear.refl n
  subst hhead hfirst
  simp [makeToken, withToken, linked, incWriting, ringBufferInsertNewNode,
    ringBufferUpdateTimeForNewNode, set_eq, get_eq, hn, hh, hb,
    field_put hclear, field_put hnn, field_put hclear'.symm, hnh.symm, hnb,
    updateOldestReserve_eq]

/-- The fields of the other nodes. -/
theorem field_linked (hqn : q ≠ n) (hn : Clear n q) (hh : Clear h q)
    (hb : Clear b q) :
    (linked m n h b len).field .pForward q =
        (if q = h then n else m.field .pForward q) ∧
      (linked m n h b len).field .pBackward q =
        (if q = b then n else m.field .pBackward q) ∧
      (linked m n h b len).field .pNewer q =
        (if q = h then n else m.field .pNewer q) ∧
      (linked m n h b len).field .pOlder q = m.field .pOlder q ∧
      (linked m n h b len).field .state q = m.field .state q ∧
      (linked m n h b len).field .size q = m.field .size q := by
  simp [linked, field_put hn, field_put hh, field_put hb, hqn.symm, eq_comm]

/-- The fields of the new node. -/
theorem field_linked_new (hnh : h ≠ n) (hnb : b ≠ n) (hh : Clear h n)
    (hb : Clear b n) :
    (linked m n h b len).field .pForward n = b ∧
      (linked m n h b len).field .pBackward n = h ∧
      (linked m n h b len).field .pNewer n = 0 ∧
      (linked m n h b len).field .pOlder n = h ∧
      (linked m n h b len).field .state n = RingState.writing.code ∧
      (linked m n h b len).field .size n = len := by
  simp [linked, field_put hh, field_put hb, field_put (Clear.refl n), hnh, hnb]

theorem sameData_linked {e : RingEntry} (hn : e.Avoids n) (hh : e.Avoids h)
    (hb : e.Avoids b) : m.SameData (linked m n h b len) e := by
  have hput : ∀ {m : Words} {f : NodeField} {p v : Nat}, e.Avoids p →
      m.SameData (m.put f p v) e := fun hp => sameData_put hp
  unfold linked
  exact ((((((((hput hn).trans (hput hn)).trans (hput hn)).trans (hput hn)).trans
    (hput hb)).trans (hput hh)).trans (hput hn)).trans (hput hn)).trans (hput hh)

end Insert

/-! ## The neighbours of an entry -/

section Neighbours

variable {rb : RingBuffer} {ps es xs ys : List RingEntry} {e : RingEntry}

/-- The configuration stays. -/
def SameConfig (rb rb' : RingBuffer) : Prop :=
  rb'.cache = rb.cache ∧ rb'.capacity = rb.capacity

/-- The circle, ending with some entry. -/
theorem Shows.ring_from (h : rb.Shows ps es) (hps : ps = xs ++ e :: ys) :
    Ring 0 (rb.mem.field .pForward) (rb.mem.field .pBackward)
      ((ys ++ xs ++ [e]).map (·.node)) := by
  have hring := h.ring
  rw [hps, List.append_cons, List.map_append] at hring
  have hrotated := ring_rotate.mp hring
  rwa [← List.map_append, ← List.append_assoc] at hrotated

/-- The next entry in the circle. -/
theorem Shows.forward_eq (h : rb.Shows ps es) (hps : ps = xs ++ e :: ys) :
    rb.mem.field .pForward e.node =
      ((ys ++ xs ++ [e]).map (·.node)).headD 0 := by
  have hring := h.ring_from hps
  rw [List.map_append] at hring ⊢
  obtain ⟨-, -, hafter, -⟩ := segment_append.mp hring
  exact hafter

/-- The entry before in the circle. -/
theorem Shows.backward_eq (h : rb.Shows ps es) (hps : ps = xs ++ e :: ys) :
    rb.mem.field .pBackward e.node =
      ((e :: ys ++ xs).map (·.node)).getLastD 0 := by
  have hring := h.ring
  rw [hps, List.map_append] at hring
  have hrotated := ring_rotate.mp hring
  rw [← List.map_append] at hrotated
  exact hrotated.1

end Neighbours

/-! ## Reserving a free place -/

section Reserve

variable {rb : RingBuffer} {ps ps' es es₀ xs ys : List RingEntry}
  {hd new : RingEntry}

/-- The handler points to the newest entry. -/
theorem Shows.head_eq (h : rb.Shows ps es) (hes : es = es₀ ++ [hd]) :
    rb.head = hd.node := by
  rw [h.head, hes, List.map_append, getLastD_append]
  rfl

/-- A node at a free place behind the newest one, in the circle of positions and
in time. -/
theorem Shows.makeToken (h : rb.Shows ps es) (hes : es = es₀ ++ [hd])
    (hps : ps = xs ++ hd :: ys) (hstate : new.state = .writing)
    (hwords : new.words = rb.mem.data new.node new.len)
    (hfits : FitsSize new.len) (hperm : ps'.Perm (new :: ps))
    (hplaced : Region.Ascending rb.cache (rb.cache + rb.capacity)
      (ps'.map (·.region)))
    (hround : ∀ after before,
      Ring 0 after before (((ys ++ xs ++ [hd]) ++ [new]).map (·.node)) →
        Ring 0 after before (ps'.map (·.node))) :
    ∃ rb', rb.makeToken new.node new.len = some (rb', new.token) ∧
      rb'.Shows ps' (es ++ [new]) ∧ rb.SameConfig rb' := by
  have hmem : hd ∈ es := by
    rw [hes]
    simp
  have hhead := h.head_eq hes
  -- the circle, seen from the place of the new node
  have hzs := h.ring_from hps
  have hfirst := h.forward_eq hps
  have hzsMem : ∀ e, e ∈ ys ++ xs ++ [hd] → e ∈ es := by
    intro e he
    rw [← h.mem_iff, hps]
    simp only [List.mem_append, List.mem_cons, List.not_mem_nil, or_false] at he ⊢
    tauto
  obtain ⟨next, hnext, hnextNode⟩ : ∃ next ∈ es,
      rb.mem.field .pForward hd.node = next.node := by
    cases hz : ys ++ xs ++ [hd] with
    | nil => simp at hz
    | cons next rest =>
        refine ⟨next, hzsMem next (by rw [hz]; simp), ?_⟩
        rw [hfirst, hz]
        rfl
  -- the new node keeps clear of all entries
  have hfits' : ∀ e ∈ ps', FitsSize e.len := by
    intro e he
    rcases List.mem_cons.mp (hperm.mem_iff.mp he) with rfl | he
    · exact hfits
    · exact h.fits' he
  have hfree : ∀ e ∈ es,
      e.node ≠ new.node ∧ e.Avoids new.node ∧ new.Avoids e.node := fun e he =>
    avoids_of_new hplaced hperm hfits' (h.mem_iff.mpr he)
  have hclear : ∀ e ∈ es, Clear new.node e.node := fun e he =>
    (hfree e he).2.1.clear (h.fits e he)
  have hn0 : new.node ≠ 0 := by
    have hin := hplaced.inside (List.mem_map_of_mem
      (hperm.mem_iff.mpr (List.mem_cons_self ..)))
    have hlo : rb.cache ≤ new.node := hin.1
    have hcache := h.cache
    omega
  refine ⟨rb.withToken new.node hd.node next.node new.len,
    makeToken_eq hn0 hhead hnextNode (h.node_ne_zero hmem)
      (h.node_ne_zero hnext) (hfree hd hmem).1 (hclear hd hmem)
      (hfree next hnext).1 (hclear next hnext), ?_, rfl, rfl⟩
  have hfield : ∀ e ∈ es, _ := fun e he => @field_linked rb.mem new.node hd.node next.node e.node
    new.len (hfree e he).1 (hclear e he)
    ((h.avoids he hmem).clear (h.fits e he))
    ((h.avoids he hnext).clear (h.fits e he))
  have hnew := @field_linked_new rb.mem new.node hd.node next.node new.len
    (hfree hd hmem).1 (hfree next hnext).1 (hclear hd hmem).symm (hclear next hnext).symm
  have hround' : (ys ++ xs ++ [hd]).Perm ps := by
    have hsplit : xs ++ hd :: ys = (xs ++ [hd]) ++ ys := by simp
    rw [hps, hsplit, List.append_assoc]
    exact List.perm_append_comm
  have hnodup : ((ys ++ xs ++ [hd]).map (·.node)).Nodup :=
    ((hround'.trans h.perm).map _).nodup_iff.mpr h.nodup
  have hlast : ((ys ++ xs ++ [hd]).map (·.node)).getLastD 0 = hd.node := by
    rw [List.map_append, getLastD_append]
    rfl
  constructor
  · exact hperm.trans ((h.perm.cons new).trans
      (List.perm_append_singleton new es).symm)
  · exact hplaced
  · refine hround _ _ ?_
    rw [List.map_append]
    refine Segment.ring_push hzs (by simp) hnodup ?_ ?_ ?_ ?_
    · rw [hlast]
      exact hnew.2.1
    · rw [← hfirst, hnextNode]
      exact hnew.1
    · intro p hp
      obtain ⟨e, he, rfl⟩ := List.mem_map.mp hp
      rw [hlast]
      exact (hfield e (hzsMem e he)).1
    · intro p hp
      obtain ⟨e, he, rfl⟩ := List.mem_map.mp hp
      rw [← hfirst, hnextNode]
      exact (hfield e (hzsMem e he)).2.1
  · rw [List.map_append]
    have htime : Segment (rb.mem.field .pNewer) (rb.mem.field .pOlder) 0
        (es.map (·.node) ++ []) 0 := by
      rw [List.append_nil]
      exact h.time
    refine htime.splice ?_ ?_ ?_ ?_ ?_
    · rw [List.append_nil]
      exact h.nodup
    · rw [← h.head, hhead]
      exact hnew.2.2.2.1
    · exact hnew.2.2.1
    · intro p hp
      obtain ⟨e, he, rfl⟩ := List.mem_map.mp hp
      rw [← h.head, hhead]
      exact ⟨(hfield e he).2.2.2.1, (hfield e he).2.2.1⟩
    · intro p hp
      cases hp
  · intro e he
    rcases List.mem_append.mp he with he | he
    · refine (h.holds e he).congr ?_ (hfield e he).2.2.2.2.2
        (hfield e he).2.2.2.2.1
      exact sameData_linked (hfree e he).2.1 (h.avoids he hmem)
        (h.avoids he hnext)
    · obtain rfl := List.mem_singleton.mp he
      refine ⟨hnew.2.2.2.2.2, ?_, ?_⟩
      · rw [hstate]
        exact hnew.2.2.2.2.1
      · rw [hwords]
        exact (sameData_linked e.avoids_self (hfree hd hmem).2.2
          (hfree next hnext).2.2).data_eq
  · intro e he
    rcases List.mem_append.mp he with he | he
    · exact h.fits e he
    · obtain rfl := List.mem_singleton.mp he
      exact hfits
  · rw [List.map_append, getLastD_append]
    rfl
  · rw [List.map_append, headD_append]
    refine h.tail.trans (headD_eq ?_ _ _)
    rw [hes]
    simp
  · obtain ⟨readers, rest, hsplit, hreading, hrest, holdest⟩ := h.oldest
    refine ⟨readers, rest ++ [new], ?_, hreading, ?_, ?_⟩
    · rw [hsplit, List.append_assoc]
    · intro e he
      rcases List.mem_append.mp he with he | he
      · exact hrest e he
      · obtain rfl := List.mem_singleton.mp he
        rw [hstate]
        exact RingState.noConfusion
    · show (if rb.oldestReserve = 0 then _ else _) = _
      rw [holdest]
      cases rest with
      | nil => rfl
      | cons e rest =>
          have he : e.node ≠ 0 := h.node_ne_zero (by rw [hsplit]; simp)
          exact if_neg he
  · show (⟨_, _, _⟩ : RingCounter) = _
    simp only [counterOf, countOf_concat, hstate, h.counter]
    simp
  · exact h.cache
  · exact h.inMemory

/-- A buffer without entries. -/
theorem shows_nil (hcache : 0 < rb.cache)
    (hmemory : rb.cache + rb.capacity ≤ 2 ^ 64) :
    rb.ringBufferReinit.Shows [] [] where
  perm := .nil
  placed := Nat.le_add_right ..
  ring := trivial
  time := trivial
  holds := by simp
  fits := by simp
  head := rfl
  tail := rfl
  oldest := ⟨[], [], rfl, by simp, by simp, rfl⟩
  counter := rfl
  cache := hcache
  inMemory := hmemory

/-- The memory with a single node. -/
def single (m : Words) (c len : Nat) : Words :=
  (((((m.put .state c RingState.writing.code).put .size c len).put
    .pForward c c).put .pBackward c c).put .pNewer c 0).put .pOlder c 0

/-- The first node, at the start of the cache. -/
theorem Shows.reserveEmpty (h : rb.Shows [] []) (hstate : new.state = .writing)
    (hnode : new.node = rb.cache)
    (hwords : new.words = rb.mem.data new.node new.len)
    (hfits : FitsSize new.len)
    (hroom : eafRingbufferNodeCost new.len ≤ rb.capacity) :
    ∃ rb', rb.ringBufferReserveEmpty new.len (eafRingbufferNodeCost new.len) =
        some (rb', new.token) ∧
      rb'.Shows [new] [new] ∧ rb.SameConfig rb' := by
  have hcache : rb.cache ≠ 0 := h.cache.ne'
  have hclear := Clear.refl rb.cache
  have heval :
      rb.ringBufferReserveEmpty new.len (eafRingbufferNodeCost new.len) = some
        ({ rb.incWriting with
          head := rb.cache
          tail := rb.cache
          oldestReserve := rb.cache
          mem := single rb.mem rb.cache new.len }, new.token) := by
    rw [ringBufferReserveEmpty, if_neg (by omega)]
    simp [set_eq, hcache, incWriting, single, RingEntry.token, hnode]
  obtain ⟨hforward, hbackward, hnewer, holder, hst, hsize⟩ :
      (single rb.mem rb.cache new.len).field .pForward new.node = new.node ∧
      (single rb.mem rb.cache new.len).field .pBackward new.node = new.node ∧
      (single rb.mem rb.cache new.len).field .pNewer new.node = 0 ∧
      (single rb.mem rb.cache new.len).field .pOlder new.node = 0 ∧
      (single rb.mem rb.cache new.len).field .state new.node =
        RingState.writing.code ∧
      (single rb.mem rb.cache new.len).field .size new.node = new.len := by
    rw [hnode]
    simp [single, field_put hclear]
  have havoids : new.Avoids rb.cache := hnode ▸ new.avoids_self
  have hdata : rb.mem.SameData (single rb.mem rb.cache new.len) new := by
    have hput : ∀ {m : Words} {f : NodeField} {v : Nat},
        m.SameData (m.put f rb.cache v) new := sameData_put havoids
    exact ((((hput.trans hput).trans hput).trans hput).trans hput).trans hput
  refine ⟨_, heval, ?_, rfl, rfl⟩
  constructor
  · exact .refl _
  · have hfinish : new.region.finish ≤ rb.cache + rb.capacity := by
      rw [RingEntry.region_finish, hnode]
      omega
    exact ⟨hnode.ge, hfinish⟩
  · exact ⟨hbackward, hforward, trivial⟩
  · exact ⟨holder, hnewer, trivial⟩
  · intro e he
    obtain rfl := List.mem_singleton.mp he
    refine ⟨hsize, ?_, ?_⟩
    · rw [hstate]
      exact hst
    · rw [hwords]
      exact hdata.data_eq
  · intro e he
    obtain rfl := List.mem_singleton.mp he
    exact hfits
  · exact hnode.symm
  · exact hnode.symm
  · refine ⟨[], [new], rfl, by simp, ?_, hnode.symm⟩
    intro e he
    obtain rfl := List.mem_singleton.mp he
    rw [hstate]
    exact RingState.noConfusion
  · show (⟨_, _, _⟩ : RingCounter) = _
    rw [h.counter]
    simp [counterOf, countOf, hstate]
  · exact h.cache
  · exact h.inMemory

end Reserve

/-! ## Taking a node out -/

section Delete

variable {rb : RingBuffer} {m : Words} {ps es before after xs ys : List RingEntry}
  {e : RingEntry} {b f o w q : Nat}

/-- The memory after the node between `b` and `f`, and between `o` and `w` in
time, has been taken out. -/
def taken (m : Words) (b f o w : Nat) : Words :=
  (((m.put .pForward b f).put .pBackward f b).putIf .pNewer o w).putIf
    .pOlder w o

/-- The fields of the other nodes. -/
theorem field_taken (hq : q ≠ 0) (hb : Clear b q) (hf : Clear f q)
    (ho : o ≠ 0 → Clear o q) (hw : w ≠ 0 → Clear w q) :
    (taken m b f o w).field .pForward q =
        (if q = b then f else m.field .pForward q) ∧
      (taken m b f o w).field .pBackward q =
        (if q = f then b else m.field .pBackward q) ∧
      (taken m b f o w).field .pNewer q =
        (if q = o then w else m.field .pNewer q) ∧
      (taken m b f o w).field .pOlder q =
        (if q = w then o else m.field .pOlder q) ∧
      (taken m b f o w).field .state q = m.field .state q ∧
      (taken m b f o w).field .size q = m.field .size q := by
  simp [taken, field_put hb, field_put hf, field_putIf hq ho, field_putIf hq hw,
    eq_comm]

theorem sameData_taken (hb : e.Avoids b) (hf : e.Avoids f)
    (ho : o ≠ 0 → e.Avoids o) (hw : w ≠ 0 → e.Avoids w) :
    m.SameData (taken m b f o w) e :=
  (((sameData_put hb).trans (sameData_put hf)).trans (sameData_putIf ho)).trans
    (sameData_putIf hw)

/-- The code takes the node out. -/
theorem updateChain_eq (he : q ≠ 0) (hbackward : rb.mem.field .pBackward q = b)
    (hforward : rb.mem.field .pForward q = f)
    (holder : rb.mem.field .pOlder q = o) (hnewer : rb.mem.field .pNewer q = w)
    (hb : Clear b q) (hf : Clear f q) (ho : o ≠ 0 → Clear o q)
    (hbq : b ≠ q) (hfq : f ≠ q) (hoq : o ≠ q) (hwq : w ≠ q) (hb0 : b ≠ 0)
    (hf0 : f ≠ 0) :
    rb.ringBufferDeleteNodeUpdateChain q =
      some { rb with mem := taken rb.mem b f o w } := by
  subst hbackward hforward holder hnewer
  by_cases ho0 : rb.mem.field .pOlder q = 0 <;>
    by_cases hw0 : rb.mem.field .pNewer q = 0
  all_goals
    simp [ringBufferDeleteNodeUpdateChain, taken, Words.putIf, get_eq, set_eq,
      he, hb0, hf0, field_put hb, field_put hf, hbq, hfq, ho0, hw0]
  -- the older node is written to before the newer one is read
  all_goals
    simp [field_put (ho ho0), field_put hb, field_put hf, hbq, hfq, hoq, hw0,
      set_eq]

theorem deleteNode_eq (he : q ≠ 0) (hbackward : rb.mem.field .pBackward q = b)
    (hforward : rb.mem.field .pForward q = f)
    (holder : rb.mem.field .pOlder q = o) (hnewer : rb.mem.field .pNewer q = w)
    (hb : Clear b q) (hf : Clear f q) (ho : o ≠ 0 → Clear o q)
    (hw : w ≠ 0 → Clear w q) (hbq : b ≠ q) (hfq : f ≠ q) (hoq : o ≠ q)
    (hwq : w ≠ q) (hb0 : b ≠ 0) (hf0 : f ≠ 0) :
    rb.ringBufferDeleteNode q = some { rb with
      oldestReserve := if rb.oldestReserve = q then w else rb.oldestReserve
      tail := if o = 0 then w else rb.tail
      head := if o ≠ 0 ∧ w = 0 then o else rb.head
      mem := taken rb.mem b f o w } := by
  obtain ⟨-, -, hnewer', holder', -, -⟩ :=
    field_taken (m := rb.mem) he hb hf ho hw
  rw [if_neg hoq.symm, hnewer] at hnewer'
  rw [if_neg hwq.symm, holder] at holder'
  unfold ringBufferDeleteNode
  rw [get_eq he, updateChain_eq he hbackward hforward holder hnewer hb hf ho hbq
    hfq hoq hwq hb0 hf0, hforward]
  simp only [Option.bind_eq_bind, Option.bind_some, hfq, if_false, get_eq he,
    hnewer']
  generalize taken rb.mem b f o w = m' at holder' ⊢
  by_cases hold : rb.oldestReserve = q <;> by_cases ho0 : o = 0 <;>
    by_cases hw0 : w = 0 <;>
    simp [holder', hold, ho0, hw0]

/-- A node that the ends of a list of entries may stand for. -/
theorem headD_node {zs : List RingEntry} (hne : zs ≠ []) :
    ∃ x ∈ zs, (zs.map (·.node)).headD 0 = x.node := by
  cases zs with
  | nil => exact absurd rfl hne
  | cons x rest => exact ⟨x, List.mem_cons_self, rfl⟩

theorem getLastD_node {zs : List RingEntry} (hne : zs ≠ []) :
    ∃ x ∈ zs, (zs.map (·.node)).getLastD 0 = x.node := by
  obtain ⟨rest, x, rfl⟩ := (List.eq_nil_or_concat zs).resolve_left hne
  rw [List.concat_eq_append]
  exact ⟨x, by simp, by rw [List.map_append, getLastD_append]; rfl⟩

/-- The neighbours of an entry in time. -/
theorem Shows.time_eq (h : rb.Shows ps es) (hes : es = before ++ e :: after) :
    rb.mem.field .pOlder e.node = (before.map (·.node)).getLastD 0 ∧
      rb.mem.field .pNewer e.node = (after.map (·.node)).headD 0 := by
  have htime := h.time
  rw [hes, List.map_append] at htime
  obtain ⟨-, holder, hnewer, -⟩ := segment_append.mp htime
  exact ⟨holder, hnewer⟩

/-- The other entries have other nodes. -/
theorem Shows.others (h : rb.Shows ps es) (hes : es = before ++ e :: after)
    {x : RingEntry} (hx : x ∈ before ++ after) :
    x ∈ es ∧ x.node ≠ e.node := by
  have hnodup := h.nodup
  rw [hes, List.map_append, List.map_cons, List.nodup_middle, List.nodup_cons,
    ← List.map_append] at hnodup
  refine ⟨?_, fun heq => hnodup.1 (heq ▸ List.mem_map_of_mem hx)⟩
  rw [hes, List.perm_middle.mem_iff]
  exact List.mem_cons_of_mem _ hx

/-- Taking an entry out. -/
theorem Shows.deleteNode (h : rb.Shows ps es) (hes : es = before ++ e :: after) :
    ∃ rb' ps', ({ rb with counter := counterOf (before ++ after) } :
        RingBuffer).ringBufferDeleteNode e.node = some rb' ∧
      rb'.Shows ps' (before ++ after) ∧ rb.SameConfig rb' := by
  have hmem : e ∈ es := by
    rw [hes]
    simp
  have he0 := h.node_ne_zero hmem
  obtain ⟨xs, ys, hps⟩ := List.append_of_mem (h.mem_iff.mpr hmem)
  have hperm : (xs ++ ys).Perm (before ++ after) := by
    have hwhole := h.perm
    rw [hps, hes] at hwhole
    exact (List.perm_middle.symm.trans (hwhole.trans List.perm_middle)).cons_inv
  have hforward := h.forward_eq hps
  have hbackward := h.backward_eq hps
  obtain ⟨holder, hnewer⟩ := h.time_eq hes
  by_cases hzs : ys ++ xs = []
  · -- the only entry
    obtain ⟨rfl, rfl⟩ := List.append_eq_nil_iff.mp hzs
    have hnil : before ++ after = [] := List.perm_nil.mp hperm.symm
    refine ⟨rb.ringBufferReinit, [], ?_, ?_, rfl, rfl⟩
    · rw [ringBufferDeleteNode, get_eq he0, Option.bind_eq_bind, Option.bind_some,
        if_pos (show rb.mem.field .pForward e.node = e.node from hforward)]
      rfl
    · rw [hnil]
      exact shows_nil h.cache h.inMemory
  · -- the neighbours are other entries
    have hothers : ∀ x ∈ ys ++ xs, x ∈ es ∧ x.node ≠ e.node := fun x hx =>
      h.others hes (hperm.mem_iff.mp (List.perm_append_comm.mem_iff.mp hx))
    obtain ⟨f, hf, hfNode⟩ := headD_node hzs
    obtain ⟨b, hb, hbNode⟩ := getLastD_node hzs
    have hne : (ys ++ xs).map (·.node) ≠ [] := by simpa using hzs
    have hforward' : rb.mem.field .pForward e.node = f.node := by
      rw [hforward, ← hfNode, @List.map_append _ _ _ _ [e], headD_append]
      exact headD_eq hne _ _
    have hbackward' : rb.mem.field .pBackward e.node = b.node := by
      rw [hbackward, ← hbNode, List.cons_append, List.map_cons,
        List.getLastD_cons]
      exact getLastD_eq hne _ _
    have hbefore : ∀ x ∈ before, x ∈ es ∧ x.node ≠ e.node := fun x hx =>
      h.others hes (List.mem_append_left _ hx)
    have hafter : ∀ x ∈ after, x ∈ es ∧ x.node ≠ e.node := fun x hx =>
      h.others hes (List.mem_append_right _ hx)
    have hdistinct : ∀ x ∈ before, ∀ y ∈ after, x.node ≠ y.node := by
      have hnodup := h.nodup
      rw [hes, List.map_append, List.nodup_append] at hnodup
      intro x hx y hy
      exact hnodup.2.2 _ (List.mem_map_of_mem hx) _
        (List.mem_map_of_mem (List.mem_cons_of_mem _ hy))
    generalize ho : (before.map (·.node)).getLastD 0 = o at *
    generalize hw : (after.map (·.node)).headD 0 = w at *
    -- a neighbour in time is an entry, or there is none
    have holderCases : before = [] ∧ o = 0 ∨ ∃ x ∈ before, o = x.node := by
      by_cases hb : before = []
      · subst hb
        exact .inl ⟨rfl, ho.symm⟩
      · obtain ⟨x, hx, hxNode⟩ := getLastD_node hb
        exact .inr ⟨x, hx, ho.symm.trans hxNode⟩
    have hnewerCases : after = [] ∧ w = 0 ∨ ∃ x ∈ after, w = x.node := by
      by_cases ha : after = []
      · subst ha
        exact .inl ⟨rfl, hw.symm⟩
      · obtain ⟨x, hx, hxNode⟩ := headD_node ha
        exact .inr ⟨x, hx, hw.symm.trans hxNode⟩
    have holderAvoids : o ≠ 0 → ∀ x ∈ es, x.Avoids o := by
      intro h0 x hx
      rcases holderCases with ⟨-, h0'⟩ | ⟨y, hy, rfl⟩
      · exact absurd h0' h0
      · exact h.avoids hx (hbefore y hy).1
    have hnewerAvoids : w ≠ 0 → ∀ x ∈ es, x.Avoids w := by
      intro h0 x hx
      rcases hnewerCases with ⟨-, h0'⟩ | ⟨y, hy, rfl⟩
      · exact absurd h0' h0
      · exact h.avoids hx (hafter y hy).1
    have hclear : ∀ {p x}, x ∈ es → x.Avoids p → Clear p x.node :=
      fun hx hp => hp.clear (h.fits _ hx)
    have hfield : ∀ x ∈ es, _ := fun x hx =>
      @field_taken rb.mem b.node f.node o w x.node (h.node_ne_zero hx)
        (hclear hx (h.avoids hx (hothers b hb).1))
        (hclear hx (h.avoids hx (hothers f hf).1))
        (fun h0 => hclear hx (holderAvoids h0 x hx))
        (fun h0 => hclear hx (hnewerAvoids h0 x hx))
    refine ⟨_, xs ++ ys, deleteNode_eq he0 hbackward' hforward' holder hnewer
      (hclear hmem (h.avoids hmem (hothers b hb).1))
      (hclear hmem (h.avoids hmem (hothers f hf).1))
      (fun h0 => hclear hmem (holderAvoids h0 e hmem))
      (fun h0 => hclear hmem (hnewerAvoids h0 e hmem))
      (hothers b hb).2 (hothers f hf).2 ?_ ?_
      (h.node_ne_zero (hothers b hb).1) (h.node_ne_zero (hothers f hf).1), ?_,
      rfl, rfl⟩
    · rcases holderCases with ⟨-, rfl⟩ | ⟨x, hx, rfl⟩
      · exact he0.symm
      · exact (hbefore x hx).2
    · rcases hnewerCases with ⟨-, rfl⟩ | ⟨x, hx, rfl⟩
      · exact he0.symm
      · exact (hafter x hx).2
    constructor
    · exact hperm
    · refine h.placed.sublist ?_
      rw [hps, List.map_append, List.map_append]
      exact (List.sublist_cons_self ..).append_left _
    · rw [List.map_append]
      refine ring_rotate.mpr ?_
      rw [← List.map_append]
      have hring := h.ring_from hps
      rw [List.map_append] at hring
      refine (segment_append.mp hring).1.ring_close hne ?_ ?_ ?_
      · have hround : (ys ++ xs).Perm (before ++ after) :=
          List.perm_append_comm.trans hperm
        refine (hround.map _).nodup_iff.mpr (h.nodup.sublist ?_)
        rw [hes, List.map_append, List.map_append]
        exact (List.sublist_cons_self ..).append_left _
      · intro p hp
        obtain ⟨x, hx, rfl⟩ := List.mem_map.mp hp
        rw [hbNode, hfNode]
        exact (hfield x (hothers x hx).1).1
      · intro p hp
        obtain ⟨x, hx, rfl⟩ := List.mem_map.mp hp
        rw [hbNode, hfNode]
        exact (hfield x (hothers x hx).1).2.1
    · have htime := h.time
      have hnodup := h.nodup
      rw [hes, List.append_cons, List.append_assoc, List.map_append,
        List.map_append] at htime hnodup
      rw [List.map_append]
      refine htime.unlink hnodup ?_ ?_
      · intro p hp
        obtain ⟨x, hx, rfl⟩ := List.mem_map.mp hp
        obtain ⟨-, -, hnewer', holder', -, -⟩ := hfield x (hbefore x hx).1
        have hxw : x.node ≠ w := by
          rcases hnewerCases with ⟨-, rfl⟩ | ⟨y, hy, rfl⟩
          · exact h.node_ne_zero (hbefore x hx).1
          · exact hdistinct x hx y hy
        rw [if_neg hxw] at holder'
        rw [ho, hw]
        exact ⟨holder', hnewer'⟩
      · intro p hp
        obtain ⟨x, hx, rfl⟩ := List.mem_map.mp hp
        obtain ⟨-, -, hnewer', holder', -, -⟩ := hfield x (hafter x hx).1
        have hxo : x.node ≠ o := by
          rcases holderCases with ⟨-, rfl⟩ | ⟨y, hy, rfl⟩
          · exact h.node_ne_zero (hafter x hx).1
          · exact (hdistinct y hy x hx).symm
        rw [if_neg hxo] at hnewer'
        rw [ho, hw]
        exact ⟨hnewer', holder'⟩
    · intro x hx
      have hx' := (h.others hes hx).1
      refine (h.holds x hx').congr ?_ (hfield x hx').2.2.2.2.2
        (hfield x hx').2.2.2.2.1
      exact sameData_taken (h.avoids hx' (hothers b hb).1)
        (h.avoids hx' (hothers f hf).1) (fun h0 => holderAvoids h0 x hx')
        fun h0 => hnewerAvoids h0 x hx'
    · exact fun x hx => h.fits x (h.others hes hx).1
    · -- only the newest entry was the head
      show (if o ≠ 0 ∧ w = 0 then o else rb.head) = _
      rw [h.head, hes, List.map_append, List.map_append, getLastD_append,
        getLastD_append, ho, List.map_cons, List.getLastD_cons]
      rcases hnewerCases with ⟨rfl, rfl⟩ | ⟨y, hy, rfl⟩
      · have ho0 : o ≠ 0 := by
          rcases holderCases with ⟨hnil, -⟩ | ⟨x, hx, rfl⟩
          · subst hnil
            obtain ⟨rfl, rfl⟩ :=
              List.append_eq_nil_iff.mp (List.perm_nil.mp hperm)
            exact absurd rfl hzs
          · exact h.node_ne_zero (hbefore x hx).1
        exact if_pos ⟨ho0, rfl⟩
      · have hy0 := h.node_ne_zero (hafter y hy).1
        rw [if_neg fun hc => hy0 hc.2]
        have hne : after.map (·.node) ≠ [] := by
          rintro hnil
          exact absurd hy (by rw [List.map_eq_nil_iff.mp hnil]; simp)
        exact getLastD_eq hne _ _
    · show (if o = 0 then w else rb.tail) = _
      rw [h.tail, hes, List.map_append, List.map_append, headD_append,
        headD_append, hw]
      rcases holderCases with ⟨rfl, rfl⟩ | ⟨x, hx, rfl⟩
      · rfl
      · have hx0 := h.node_ne_zero (hbefore x hx).1
        rw [if_neg hx0]
        have hne : before.map (·.node) ≠ [] := by
          rintro hnil
          exact absurd hx (by rw [List.map_eq_nil_iff.mp hnil]; simp)
        exact headD_eq hne _ _
    · show ReadersFirst _ (if rb.oldestReserve = e.node then w else _)
      have holdest := h.oldest
      rw [hes] at holdest
      rw [← hw]
      exact holdest.remove (fun x hx => (h.others hes hx).2) he0
    · rfl
    · exact h.cache
    · exact h.inMemory

end Delete

end RingBuffer

end Powerpack
end Eaf

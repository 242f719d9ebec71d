import Eaf.Foundation.LinkedSegments
import Eaf.Foundation.Regions
import Eaf.Powerpack.RingBuffer

/-!
# The entries of a ring buffer

What a ring buffer is for is a list of entries in the order in which they were
reserved.  The list is read off the memory along the chain of times.  `Shows`
says how the memory represents it: where the entries lie, how the two chains
run through them, and what the handler knows of them.
-/

namespace Eaf
namespace Powerpack

open Linked Iteration

/-- The state with a value. -/
def RingState.ofCode : Nat → RingState
  | 0 => .writing
  | 1 => .committed
  | _ => .reading

@[simp] theorem RingState.ofCode_code (s : RingState) : ofCode s.code = s := by
  cases s <;> rfl

theorem RingState.code_inj {s t : RingState} : s.code = t.code ↔ s = t := by
  cases s <;> cases t <;> simp [code]

/-- An entry: its node, the length of its data, its state and the words of its
data. -/
structure RingEntry where
  node : Nat
  len : Nat
  state : RingState
  words : List Nat
  deriving DecidableEq, Repr

namespace RingEntry

/-- The memory that the entry takes up. -/
def region (e : RingEntry) : Region := ⟨e.node, eafRingbufferNodeCost e.len⟩

/-- The pointer that the callers get. -/
def token (e : RingEntry) : Nat := tokenOf e.node

@[simp] theorem region_start (e : RingEntry) : e.region.start = e.node := rfl

@[simp] theorem region_finish (e : RingEntry) :
    e.region.finish = e.node + eafRingbufferNodeCost e.len := rfl

end RingEntry

/-- The length of the data can be rounded up in a `size_t`. -/
def FitsSize (len : Nat) : Prop := nodeHeader + len + (wordSize - 1) < 2 ^ 64

instance (len : Nat) : Decidable (FitsSize len) :=
  inferInstanceAs (Decidable (_ < _))

/-- The cost of a node that fits: its header and its data, rounded up. -/
theorem nodeCost_bounds {len : Nat} (h : FitsSize len) :
    nodeHeader + len ≤ eafRingbufferNodeCost len ∧
      eafRingbufferNodeCost len < nodeHeader + len + wordSize ∧
      8 ∣ eafRingbufferNodeCost len := by
  unfold FitsSize at h
  unfold eafRingbufferNodeCost eafAlign plus64
  simp only [nodeHeader, wordSize] at h ⊢
  omega

theorem header_le_nodeCost {len : Nat} (h : FitsSize len) :
    48 ≤ eafRingbufferNodeCost len :=
  (Nat.le_add_right ..).trans (nodeCost_bounds h).1

/-- The words of the data of a node. -/
def Words.data (m : Words) (node len : Nat) : List Nat :=
  (List.range ((eafRingbufferNodeCost len - nodeHeader) / wordSize)).map
    fun i => m (node + nodeHeader + wordSize * i)

/-- The entry of a node. -/
def Words.entryAt (m : Words) (node : Nat) : RingEntry where
  node := node
  len := m.field .size node
  state := .ofCode (m.field .state node)
  words := m.data node (m.field .size node)

/-- The node of the entry holds what the entry says. -/
structure Words.Holds (m : Words) (e : RingEntry) : Prop where
  size : m.field .size e.node = e.len
  state : m.field .state e.node = e.state.code
  data : m.data e.node e.len = e.words

namespace RingBuffer

/-- The entries along the chain of times, from the oldest one. -/
def entries (rb : RingBuffer) : List RingEntry :=
  ((passFrom 0 (rb.get .pNewer) (rb.capacity + 1) rb.tail).getD []).map
    rb.mem.entryAt

/-- The number of entries in a state, as a `size_t`. -/
def countOf (es : List RingEntry) (s : RingState) : UInt64 :=
  UInt64.ofNat (es.countP (·.state == s))

/-- The counters for some entries. -/
def counterOf (es : List RingEntry) : RingCounter :=
  ⟨countOf es .committed, countOf es .writing, countOf es .reading⟩

/-- The entries that are being read are the oldest ones, and `oldest` is the
node of the first one of the others. -/
def ReadersFirst (es : List RingEntry) (oldest : Nat) : Prop :=
  ∃ readers rest, es = readers ++ rest ∧
    (∀ e ∈ readers, e.state = .reading) ∧ (∀ e ∈ rest, e.state ≠ .reading) ∧
    oldest = (rest.map (·.node)).headD 0

/-- The buffer consists of the entries `es` in the order of time, which lie in
memory in the order `ps`. -/
structure Shows (rb : RingBuffer) (ps es : List RingEntry) : Prop where
  perm : ps.Perm es
  placed : Region.Ascending rb.cache (rb.cache + rb.capacity)
    (ps.map (·.region))
  ring : Ring 0 (rb.mem.field .pForward) (rb.mem.field .pBackward)
    (ps.map (·.node))
  time : Segment (rb.mem.field .pNewer) (rb.mem.field .pOlder) 0
    (es.map (·.node)) 0
  holds : ∀ e ∈ es, rb.mem.Holds e
  fits : ∀ e ∈ es, FitsSize e.len
  head : rb.head = (es.map (·.node)).getLastD 0
  tail : rb.tail = (es.map (·.node)).headD 0
  oldest : ReadersFirst es rb.oldestReserve
  counter : rb.counter = counterOf es
  cache : 0 < rb.cache
  inMemory : rb.cache + rb.capacity ≤ 2 ^ 64

end RingBuffer

/-! ## Reading what has been written -/

section Words

variable {m m' m'' : Words} {rb : RingBuffer} {f g : NodeField}
  {p q v a : Nat}

/-- Two headers are the same, or do not overlap. -/
def Clear (p q : Nat) : Prop := p = q ∨ p + 48 ≤ q ∨ q + 48 ≤ p

theorem Clear.refl (p : Nat) : Clear p p := .inl rfl

theorem Clear.symm (h : Clear p q) : Clear q p := by
  unfold Clear at *
  omega

theorem NodeField.offset_lt (f : NodeField) : f.offset + 8 ≤ 48 := by
  cases f <;> decide

theorem NodeField.offset_inj : f.offset = g.offset ↔ f = g := by
  cases f <;> cases g <;> decide

/-- A field after a write to a header. -/
theorem field_put (h : Clear p q) :
    (m.put f p v).field g q = if p = q ∧ f = g then v else m.field g q := by
  have hf := NodeField.offset_lt f
  have hg := NodeField.offset_lt g
  unfold Words.field Words.put
  rw [Function.update_apply]
  refine if_congr ?_ rfl rfl
  rw [← NodeField.offset_inj]
  unfold Clear at h
  omega

/-- The memory after a field has been written, unless there is no node. -/
def Words.putIf (m : Words) (f : NodeField) (p v : Nat) : Words :=
  if p ≠ 0 then m.put f p v else m

theorem field_putIf (hq : q ≠ 0) (h : p ≠ 0 → Clear p q) :
    (m.putIf f p v).field g q = if p = q ∧ f = g then v else m.field g q := by
  unfold Words.putIf
  by_cases hp : p = 0
  · have hne : ¬(p = q ∧ f = g) := fun heq => hq (heq.1 ▸ hp)
    rw [if_neg (not_not.mpr hp), if_neg hne]
  · rw [if_pos hp, field_put (h hp)]

/-- A word that belongs to no header is not written to. -/
theorem put_apply (h : a < p ∨ p + 48 ≤ a) : m.put f p v a = m a := by
  have hf := NodeField.offset_lt f
  unfold Words.put
  exact Function.update_of_ne (by omega) ..

theorem RingBuffer.get_eq (hp : p ≠ 0) :
    rb.get f p = some (rb.mem.field f p) := if_neg hp

theorem RingBuffer.set_eq (hp : p ≠ 0) :
    rb.set f p v = some { rb with mem := rb.mem.put f p v } := if_neg hp

end Words

/-! ## Where the entries are -/

/-- A header at `p` is the one of the entry, or outside of its memory. -/
def RingEntry.Avoids (e : RingEntry) (p : Nat) : Prop :=
  p = e.node ∨ p + 48 ≤ e.node ∨ e.region.finish ≤ p

/-- The data of an entry are the same. -/
def Words.SameData (m m' : Words) (e : RingEntry) : Prop :=
  ∀ a, e.node + 48 ≤ a → a < e.region.finish → m' a = m a

section Places

variable {m m' m'' : Words} {rb : RingBuffer} {ps es : List RingEntry}
  {e e' : RingEntry} {f : NodeField} {p v : Nat}

theorem RingEntry.Avoids.clear (h : e.Avoids p) (hfits : FitsSize e.len) :
    Clear p e.node := by
  have hcost := header_le_nodeCost hfits
  unfold Avoids at h
  rw [RingEntry.region_finish] at h
  unfold Clear
  omega

theorem RingEntry.avoids_self (e : RingEntry) : e.Avoids e.node := .inl rfl

theorem Words.SameData.refl (m : Words) (e : RingEntry) : m.SameData m e :=
  fun _ _ _ => rfl

theorem Words.SameData.trans (h : m.SameData m' e) (h' : m'.SameData m'' e) :
    m.SameData m'' e :=
  fun a hlo hhi => (h' a hlo hhi).trans (h a hlo hhi)

/-- Writing to a header changes no data. -/
theorem sameData_put (h : e.Avoids p) : m.SameData (m.put f p v) e := by
  intro a hlo hhi
  refine put_apply ?_
  unfold RingEntry.Avoids at h
  omega

theorem sameData_putIf (h : p ≠ 0 → e.Avoids p) :
    m.SameData (m.putIf f p v) e := by
  unfold Words.putIf
  by_cases hp : p = 0
  · rw [if_neg (not_not.mpr hp)]
    exact .refl m e
  · rw [if_pos hp]
    exact sameData_put (h hp)

theorem Words.SameData.data_eq (h : m.SameData m' e) :
    m'.data e.node e.len = m.data e.node e.len := by
  unfold Words.data
  refine List.map_congr_left fun i hi => h _ ?_ ?_
  · simp only [nodeHeader, wordSize]
    omega
  · have hlt := List.mem_range.mp hi
    rw [RingEntry.region_finish]
    simp only [nodeHeader, wordSize] at hlt ⊢
    omega

theorem Words.Holds.congr (h : m.Holds e) (hdata : m.SameData m' e)
    (hsize : m'.field .size e.node = m.field .size e.node)
    (hstate : m'.field .state e.node = m.field .state e.node) :
    m'.Holds e where
  size := hsize.trans h.size
  state := hstate.trans h.state
  data := hdata.data_eq.trans h.data

namespace RingBuffer

/-- Entries that lie one after the other are apart. -/
theorem apart_of_ascending {lo hi : Nat}
    (h : Region.Ascending lo hi (ps.map (·.region))) (he : e ∈ ps)
    (he' : e' ∈ ps) :
    e = e' ∨ e.region.finish ≤ e'.node ∨ e'.region.finish ≤ e.node := by
  have hpairwise : ps.Pairwise fun x y => x.region.Apart y.region := by
    refine (List.pairwise_map.mp h.pairwise).imp fun hle => ?_
    exact .inl hle
  by_cases heq : e = e'
  · exact .inl heq
  · have hsymm : Std.Symm fun x y : RingEntry => x.region.Apart y.region :=
      ⟨fun _ _ hxy => hxy.symm⟩
    exact .inr (hpairwise.forall he he' heq)

/-- Entries that lie one after the other have different nodes. -/
theorem nodup_of_ascending {lo hi : Nat}
    (h : Region.Ascending lo hi (ps.map (·.region)))
    (hfits : ∀ e ∈ ps, FitsSize e.len) : (ps.map (·.node)).Nodup := by
  refine List.pairwise_map.mpr ?_
  refine (List.pairwise_map.mp h.pairwise).imp_of_mem fun hx hy hle => ?_
  have hcost := header_le_nodeCost (hfits _ hx)
  rw [RingEntry.region_finish, RingEntry.region_start] at hle
  omega

/-- A new entry among the others keeps clear of them. -/
theorem avoids_of_new {lo hi : Nat} {new : RingEntry}
    {ps' : List RingEntry}
    (h : Region.Ascending lo hi (ps'.map (·.region)))
    (hperm : ps'.Perm (new :: ps)) (hfits : ∀ e ∈ ps', FitsSize e.len)
    (he : e ∈ ps) :
    e.node ≠ new.node ∧ e.Avoids new.node ∧ new.Avoids e.node := by
  have hnodup := (hperm.map (·.node)).nodup_iff.mp (nodup_of_ascending h hfits)
  rw [List.map_cons, List.nodup_cons] at hnodup
  have hne : e.node ≠ new.node := fun heq =>
    hnodup.1 (heq ▸ List.mem_map_of_mem he)
  have hnew' : new ∈ ps' := hperm.mem_iff.mpr List.mem_cons_self
  have he' : e ∈ ps' := hperm.mem_iff.mpr (List.mem_cons_of_mem _ he)
  have hcost := header_le_nodeCost (hfits e he')
  have hcost' := header_le_nodeCost (hfits new hnew')
  refine ⟨hne, ?_⟩
  unfold RingEntry.Avoids
  rcases apart_of_ascending h he' hnew' with heq | hle | hle
  · exact absurd (congrArg RingEntry.node heq) hne
  all_goals
    rw [RingEntry.region_finish] at hle ⊢
    rw [RingEntry.region_finish]
    omega

namespace Shows

variable (h : rb.Shows ps es)
include h

theorem mem_iff : e ∈ ps ↔ e ∈ es := h.perm.mem_iff

theorem inside (he : e ∈ es) :
    e.region.Inside rb.cache (rb.cache + rb.capacity) :=
  h.placed.inside (List.mem_map_of_mem (h.mem_iff.mpr he))

theorem node_ne_zero (he : e ∈ es) : e.node ≠ 0 := by
  have hlo : rb.cache ≤ e.node := (h.inside he).1
  have hcache := h.cache
  omega

/-- Two entries are the same, or apart. -/
theorem apart (he : e ∈ es) (he' : e' ∈ es) :
    e = e' ∨ e.region.finish ≤ e'.node ∨ e'.region.finish ≤ e.node :=
  apart_of_ascending h.placed (h.mem_iff.mpr he) (h.mem_iff.mpr he')

/-- The header of an entry is outside of all others. -/
theorem avoids (he : e ∈ es) (he' : e' ∈ es) : e.Avoids e'.node := by
  have hcost := header_le_nodeCost (h.fits e' he')
  rcases h.apart he he' with rfl | hle | hle
  · exact e.avoids_self
  · exact .inr (.inr hle)
  · rw [RingEntry.region_finish] at hle
    unfold RingEntry.Avoids
    omega

theorem node_inj (he : e ∈ es) (he' : e' ∈ es) (hnode : e.node = e'.node) :
    e = e' := by
  have hcost := header_le_nodeCost (h.fits e he)
  have hcost' := header_le_nodeCost (h.fits e' he')
  rcases h.apart he he' with heq | hle | hle
  · exact heq
  all_goals
    rw [RingEntry.region_finish] at hle
    omega

theorem fits' (he : e ∈ ps) : FitsSize e.len := h.fits e (h.mem_iff.mp he)

theorem nodup : (es.map (·.node)).Nodup :=
  (h.perm.map _).nodup_iff.mp (nodup_of_ascending h.placed fun _ => h.fits')

/-- There are fewer entries than addresses. -/
theorem length_le : ps.length ≤ rb.capacity := by
  have hlength := h.placed.length_le (by
    intro r hr
    obtain ⟨e, he, rfl⟩ := List.mem_map.mp hr
    have hcost := header_le_nodeCost (h.fits' he)
    show 0 < eafRingbufferNodeCost e.len
    omega)
  rw [List.length_map] at hlength
  omega

end Shows

/-! ## The oldest entry that is not being read -/

section Oldest

variable {before after : List RingEntry} {oldest : Nat}

/-- Before an entry that is being read there are only such entries. -/
theorem ReadersFirst.of_reading (h : ReadersFirst (before ++ e :: after) oldest)
    (he : e.state = .reading) :
    (∀ x ∈ before, x.state = .reading) ∧ ReadersFirst after oldest := by
  obtain ⟨readers, rest, hsplit, hreading, hrest, holdest⟩ := h
  rcases List.append_eq_append_iff.mp hsplit.symm with
    ⟨skipped, -, hrest'⟩ | ⟨skipped, hreaders, hafter⟩
  · exact absurd he (hrest e (by rw [hrest']; simp))
  · cases skipped with
    | nil => exact absurd he (hrest e (by rw [← List.nil_append rest, ← hafter]; simp))
    | cons x skipped =>
        obtain ⟨rfl, rfl⟩ := List.cons.inj hafter
        refine ⟨?_, skipped, rest, rfl, ?_, hrest, holdest⟩
        · exact fun x hx => hreading x (by rw [hreaders]; simp [hx])
        · exact fun x hx => hreading x (by rw [hreaders]; simp [hx])

/-- After an entry that is not being read there is none that is. -/
theorem ReadersFirst.of_not_reading
    (h : ReadersFirst (before ++ e :: after) oldest) (he : e.state ≠ .reading) :
    ∃ readers skipped, before = readers ++ skipped ∧
      (∀ x ∈ readers, x.state = .reading) ∧
      (∀ x ∈ skipped ++ e :: after, x.state ≠ .reading) ∧
      oldest = ((skipped ++ e :: after).map (·.node)).headD 0 := by
  obtain ⟨readers, rest, hsplit, hreading, hrest, holdest⟩ := h
  rcases List.append_eq_append_iff.mp hsplit.symm with
    ⟨skipped, hbefore, rfl⟩ | ⟨skipped, hreaders, hafter⟩
  · exact ⟨readers, skipped, hbefore, hreading, hrest, holdest⟩
  · cases skipped with
    | nil =>
        rw [List.append_nil] at hreaders
        rw [List.nil_append] at hafter
        subst hreaders hafter
        exact ⟨readers, [], (List.append_nil _).symm, hreading, hrest, holdest⟩
    | cons x skipped =>
        obtain ⟨rfl, -⟩ := List.cons.inj hafter
        exact absurd (hreading e (by rw [hreaders]; simp)) he

/-- Leaving an entry out. -/
theorem ReadersFirst.remove (h : ReadersFirst (before ++ e :: after) oldest)
    (hother : ∀ x ∈ before ++ after, x.node ≠ e.node) (he : e.node ≠ 0) :
    ReadersFirst (before ++ after)
      (if oldest = e.node then (after.map (·.node)).headD 0 else oldest) := by
  by_cases hstate : e.state = .reading
  · obtain ⟨hbefore, readers, rest, rfl, hreading, hrest, rfl⟩ :=
      h.of_reading hstate
    refine ⟨before ++ readers, rest, (List.append_assoc ..).symm, ?_, hrest, ?_⟩
    · intro x hx
      exact (List.mem_append.mp hx).elim (hbefore x) (hreading x)
    · refine if_neg ?_
      cases rest with
      | nil => exact he.symm
      | cons x rest => exact hother x (by simp)
  · obtain ⟨readers, skipped, rfl, hreading, hrest, rfl⟩ :=
      h.of_not_reading hstate
    refine ⟨readers, skipped ++ after, List.append_assoc .., hreading, ?_, ?_⟩
    · intro x hx
      refine hrest x ?_
      rcases List.mem_append.mp hx with hx | hx
      · exact List.mem_append_left _ hx
      · exact List.mem_append_right _ (List.mem_cons_of_mem _ hx)
    · cases skipped with
      | nil => exact if_pos rfl
      | cons x skipped =>
          have hx : x.node ≠ e.node := hother x (by simp)
          exact if_neg hx

/-- An entry that is not being read changes. -/
theorem ReadersFirst.replace {e' : RingEntry}
    (h : ReadersFirst (before ++ e :: after) oldest) (he : e.state ≠ .reading)
    (he' : e'.state ≠ .reading) (hnode : e'.node = e.node) :
    ReadersFirst (before ++ e' :: after) oldest := by
  obtain ⟨readers, skipped, rfl, hreading, hrest, holdest⟩ := h.of_not_reading he
  refine ⟨readers, skipped ++ e' :: after, List.append_assoc .., hreading, ?_, ?_⟩
  · intro x hx
    rcases List.mem_cons.mp (List.perm_middle.mem_iff.mp hx) with rfl | hx
    · exact he'
    · exact hrest x (List.perm_middle.mem_iff.mpr (List.mem_cons_of_mem _ hx))
  · rw [holdest]
    simp [hnode]

/-- The oldest entry that is not being read. -/
theorem readersFirst_middle (hbefore : ∀ x ∈ before, x.state = .reading)
    (hafter : ReadersFirst after oldest)
    (hnext : ∀ x ∈ after.head?, x.state ≠ .reading) (he : e.state ≠ .reading) :
    ReadersFirst (before ++ e :: after) e.node := by
  obtain ⟨readers, rest, rfl, hreading, hrest, -⟩ := hafter
  have hnone : readers = [] := by
    cases readers with
    | nil => rfl
    | cons x readers => exact absurd (hreading x (by simp)) (hnext x (by simp))
  subst hnone
  refine ⟨before, e :: rest, rfl, hbefore, ?_, rfl⟩
  intro x hx
  rcases List.mem_cons.mp hx with rfl | hx
  · exact he
  · exact hrest x hx

end Oldest

/-! ## Counting -/

theorem countOf_middle {before after : List RingEntry} {s : RingState} :
    countOf (before ++ e :: after) s =
      countOf (before ++ after) s + if e.state = s then 1 else 0 := by
  unfold countOf
  rw [List.perm_middle.countP_eq, List.countP_cons, UInt64.ofNat_add]
  by_cases hs : e.state = s <;> simp [hs]

theorem countOf_append {xs ys : List RingEntry} {s : RingState} :
    countOf (xs ++ ys) s = countOf xs s + countOf ys s := by
  unfold countOf
  rw [List.countP_append, UInt64.ofNat_add]

/-- Counting entries that are all in the same state. -/
theorem countOf_all {xs : List RingEntry} {s t : RingState}
    (h : ∀ e ∈ xs, e.state = s) :
    countOf xs t = if s = t then UInt64.ofNat xs.length else 0 := by
  unfold countOf
  by_cases hst : s = t
  · rw [if_pos hst, List.countP_eq_length.mpr]
    intro e he
    simp [h e he, hst]
  · rw [if_neg hst, List.countP_eq_zero.mpr]
    · rfl
    · intro e he
      simp [h e he, hst]

theorem countOf_concat {s : RingState} :
    countOf (es ++ [e]) s = countOf es s + if e.state = s then 1 else 0 := by
  rw [countOf_middle, List.append_nil]

/-- The counters, when a new entry takes the place of a run. -/
theorem counterOf_replaced {readers run rest : List RingEntry} {new : RingEntry}
    (hrun : ∀ e ∈ run, e.state = .committed) (hnew : new.state = .writing) :
    counterOf (readers ++ rest ++ [new]) =
      { counterOf (readers ++ (run ++ rest)) with
        committed := (counterOf (readers ++ (run ++ rest))).committed -
          UInt64.ofNat run.length
        writing := (counterOf (readers ++ (run ++ rest))).writing + 1 } := by
  have hwriting : ∀ e ∈ [new], e.state = .writing := by simp [hnew]
  simp [counterOf, countOf_append, countOf_all hrun, countOf_all hwriting]
  grind

end RingBuffer

end Places

end Powerpack
end Eaf

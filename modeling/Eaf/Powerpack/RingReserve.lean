import Eaf.Powerpack.RingQueue
import Eaf.Powerpack.RingSteps

/-!
# Reserving a free place

The new node goes behind the newest one, at the end of the cache, or at its
start.  The differences that are compared are never negative, so that the code
computes what it means to.
-/

namespace Eaf
namespace Powerpack

open Linked

/-- A difference that is not negative is computed correctly. -/
def Minus.Right (minus : Minus) : Prop :=
  ∀ x y, y ≤ x → x - y < 2 ^ 64 → minus x y = some (x - y)

theorem minus64_right : Minus.Right minus64 := by
  intro x y hle hlt
  unfold minus64
  refine congrArg some ?_
  omega

theorem minusChecked_right : Minus.Right minusChecked := fun _ _ hle _ =>
  if_pos hle

namespace RingBuffer

/-- There is no free place for a node. -/
def NoFreePlace (rb : RingBuffer) (nodeSize : Nat) : Prop :=
  let next := rb.head + eafRingbufferNodeCost (rb.mem.field .size rb.head)
  let forward := rb.mem.field .pForward rb.head
  if rb.head < forward then forward - next < nodeSize
  else rb.cache + rb.capacity - next < nodeSize ∧ forward - rb.cache < nodeSize

variable {rb : RingBuffer} {ps es es₀ xs ys : List RingEntry}
  {hd : RingEntry} {len : Nat}

/-- The next node in memory. -/
theorem Shows.forward_right {y : RingEntry} (h : rb.Shows ps es)
    (hps : ps = xs ++ hd :: y :: ys) :
    rb.mem.field .pForward hd.node = y.node ∧ hd.node < y.node ∧
      hd.region.finish ≤ y.node := by
  have hplaced := h.placed
  rw [hps, List.map_append, List.map_cons] at hplaced
  obtain ⟨-, hle, -⟩ := Region.ascending_split.mp hplaced
  have hcost := header_le_nodeCost (h.fits' (by rw [hps]; simp : hd ∈ ps))
  have hle' : hd.node + eafRingbufferNodeCost hd.len ≤ y.node := hle
  exact ⟨h.forward_eq hps, by omega, hle⟩

/-- Behind the last node in memory there is the first one. -/
theorem Shows.forward_first (h : rb.Shows ps es) (hps : ps = xs ++ [hd]) :
    ∃ first ∈ ps, rb.mem.field .pForward hd.node = first.node ∧
      first.node ≤ hd.node ∧
      Region.Ascending first.node (rb.cache + rb.capacity)
        (ps.map (·.region)) := by
  have hforward := h.forward_eq hps
  have hplaced := h.placed
  cases xs with
  | nil =>
      subst hps
      exact ⟨hd, by simp, hforward, le_rfl, le_rfl, hplaced.2⟩
  | cons x xs =>
      subst hps
      obtain ⟨hfront, -⟩ := Region.ascending_split.mp (by
        rw [List.map_append] at hplaced
        exact hplaced)
      have hx := hfront.inside (r := x.region) (by simp)
      have hhi : x.node + eafRingbufferNodeCost x.len ≤ hd.node := hx.2
      exact ⟨x, by simp, hforward, by omega, le_rfl, hplaced.2⟩

/-- The entry that a reserve of a free place adds. -/
def freshEntry (rb : RingBuffer) (node len : Nat) : RingEntry where
  node := node
  len := len
  state := .writing
  words := rb.mem.data node len

/-- The reserve got a new entry. -/
def Placed (rb : RingBuffer) (es : List RingEntry) (len : Nat)
    (r : Option (RingBuffer × Nat)) : Prop :=
  ∃ new rb' ps', r = some (rb', new.token) ∧ new.state = .writing ∧
    new.len = len ∧ rb'.Shows ps' (es ++ [new]) ∧ rb.SameConfig rb'

/-- Behind the newest node. -/
theorem Shows.placeBehind (h : rb.Shows ps es) (hes : es = es₀ ++ [hd])
    (hps : ps = xs ++ hd :: ys) (hfits : FitsSize len)
    (hroom : Region.Ascending (hd.region.finish + eafRingbufferNodeCost len)
      (rb.cache + rb.capacity) (ys.map (·.region))) :
    rb.Placed es len (rb.makeToken hd.region.finish len) := by
  have hplaced := h.placed
  rw [hps, List.map_append, List.map_cons] at hplaced
  obtain ⟨hfront, -⟩ := Region.ascending_split.mp hplaced
  obtain ⟨rb', heval, hshows, hconfig⟩ := @Shows.makeToken rb ps
    (xs ++ [hd] ++ rb.freshEntry hd.region.finish len :: ys) es es₀ xs ys hd
    (rb.freshEntry hd.region.finish len) h hes hps rfl rfl hfits
    (by
      rw [hps, List.append_cons xs hd ys]
      exact List.perm_middle)
    (by
      rw [List.map_append, List.map_cons]
      refine Region.ascending_split.mpr ⟨?_, hroom⟩
      rw [List.map_append]
      exact Region.ascending_split.mpr ⟨hfront, le_rfl⟩)
    (by
      intro after before hring
      have hsplit : (ys ++ xs ++ [hd]) ++ [rb.freshEntry hd.region.finish len] =
          ys ++ (xs ++ [hd] ++ [rb.freshEntry hd.region.finish len]) := by
        simp
      rw [hsplit, List.map_append] at hring
      have hrotated := ring_rotate.mp hring
      rw [← List.map_append] at hrotated
      simpa using hrotated)
  exact ⟨_, rb', _, heval, rfl, rfl, hshows, hconfig⟩

/-- At the start of the cache. -/
theorem Shows.placeAtStart (h : rb.Shows ps es) (hes : es = es₀ ++ [hd])
    (hps : ps = xs ++ [hd]) (hfits : FitsSize len)
    (hroom : Region.Ascending (rb.cache + eafRingbufferNodeCost len)
      (rb.cache + rb.capacity) (ps.map (·.region))) :
    rb.Placed es len (rb.makeToken rb.cache len) := by
  obtain ⟨rb', heval, hshows, hconfig⟩ := @Shows.makeToken rb ps
    (rb.freshEntry rb.cache len :: ps) es es₀ xs [] hd
    (rb.freshEntry rb.cache len) h hes hps rfl rfl hfits (.refl _) ⟨le_rfl, hroom⟩
    (by
      intro after before hring
      rw [List.map_append] at hring
      have hrotated := ring_rotate.mp hring
      rw [← List.map_append] at hrotated
      rw [hps]
      exact hrotated)
  exact ⟨_, rb', _, heval, rfl, rfl, hshows, hconfig⟩

/-- `_ring_buffer_reserve_none_empty` takes a free place, if there is one. -/
theorem Shows.reserveNoneEmpty (h : rb.Shows ps es) (hes : es = es₀ ++ [hd])
    (hfits : FitsSize len) (flags : UInt32) :
    (∃ r, rb.Placed es len r ∧ ∀ minus : Minus, minus.Right →
      rb.ringBufferReserveNoneEmpty minus len (eafRingbufferNodeCost len)
        flags = r) ∨
      rb.NoFreePlace (eafRingbufferNodeCost len) ∧
        ∀ minus : Minus, minus.Right →
          rb.ringBufferReserveNoneEmpty minus len (eafRingbufferNodeCost len)
              flags =
            rb.overwriteIf minus len (eafRingbufferNodeCost len) flags := by
  have hmem : hd ∈ es := by
    rw [hes]
    simp
  have hd0 := h.node_ne_zero hmem
  have hhead := h.head_eq hes
  have hsize := (h.holds hd hmem).size
  obtain ⟨xs, ys, hps⟩ := List.append_of_mem (h.mem_iff.mpr hmem)
  have hplaced := h.placed
  have htop := h.inMemory
  have hcache := h.cache
  rw [hps, List.map_append, List.map_cons] at hplaced
  obtain ⟨-, hback⟩ := Region.ascending_split.mp hplaced
  have hfinish : hd.region.finish =
      rb.head + eafRingbufferNodeCost (rb.mem.field .size rb.head) := by
    rw [hhead, hsize]
    rfl
  have hin := h.inside hmem
  unfold Region.Inside at hin
  rw [RingEntry.region_start] at hin
  generalize hcost : eafRingbufferNodeCost len = nodeSize at *
  cases ys with
  | cons y ys =>
      -- there is a node to the right of `HEAD`
      obtain ⟨hforward, hlt, hle⟩ := h.forward_right hps
      have hrest := hback.2
      have hy := h.inside (h.mem_iff.mp (by rw [hps]; simp : y ∈ ps))
      unfold Region.Inside at hy
      rw [RingEntry.region_start] at hy
      have hy' : y.node ≤ y.region.finish := Nat.le_add_right ..
      have heval : ∀ minus : Minus, minus.Right →
          rb.ringBufferReserveNoneEmpty minus len nodeSize flags =
            if nodeSize ≤ y.node - hd.region.finish then
              rb.makeToken hd.region.finish len
            else rb.overwriteIf minus len nodeSize flags := by
        intro minus hminus
        unfold ringBufferReserveNoneEmpty
        rw [hhead, get_eq hd0, get_eq hd0, ← hhead]
        simp only [Option.bind_eq_bind, Option.bind_some, ← hfinish]
        rw [hhead, hforward, if_pos hlt, hminus _ _ hle (by omega),
          Option.bind_some]
      by_cases hroom : nodeSize ≤ y.node - hd.region.finish
      · refine .inl ⟨_, ?_, fun minus hminus =>
          (heval minus hminus).trans (if_pos hroom)⟩
        refine h.placeBehind hes hps hfits ⟨?_, hrest⟩
        rw [RingEntry.region_start]
        omega
      · refine .inr ⟨?_, fun minus hminus =>
          (heval minus hminus).trans (if_neg hroom)⟩
        unfold NoFreePlace
        simp only [← hfinish]
        rw [hhead, hforward, if_pos hlt]
        omega
  | nil =>
      -- `HEAD` is the last node in the cache
      obtain ⟨first, hfirst, hforward, hle, hlater⟩ := h.forward_first hps
      have hin' := h.inside (h.mem_iff.mp hfirst)
      unfold Region.Inside at hin'
      rw [RingEntry.region_start] at hin'
      have heval : ∀ minus : Minus, minus.Right →
          rb.ringBufferReserveNoneEmpty minus len nodeSize flags =
            if nodeSize ≤ rb.capacity - (hd.region.finish - rb.cache) then
              rb.makeToken hd.region.finish len
            else if nodeSize ≤ first.node - rb.cache then
              rb.makeToken rb.cache len
            else rb.overwriteIf minus len nodeSize flags := by
        intro minus hminus
        unfold ringBufferReserveNoneEmpty
        rw [hhead, get_eq hd0, get_eq hd0, ← hhead]
        simp only [Option.bind_eq_bind, Option.bind_some, ← hfinish]
        rw [hhead, hforward, if_neg (by omega),
          hminus _ _ (by omega : rb.cache ≤ hd.region.finish) (by omega),
          Option.bind_some, hminus _ _ (by omega) (by omega), Option.bind_some,
          hminus _ _ hin'.1 (by omega), Option.bind_some]
      by_cases hroom : nodeSize ≤ rb.capacity - (hd.region.finish - rb.cache)
      · refine .inl ⟨_, ?_, fun minus hminus =>
          (heval minus hminus).trans (if_pos hroom)⟩
        refine h.placeBehind hes hps hfits ?_
        show _ ≤ _
        omega
      by_cases hroom' : nodeSize ≤ first.node - rb.cache
      · refine .inl ⟨_, ?_, fun minus hminus =>
          (heval minus hminus).trans ((if_neg hroom).trans (if_pos hroom'))⟩
        exact h.placeAtStart hes hps hfits (hlater.mono (by omega) le_rfl)
      · refine .inr ⟨?_, fun minus hminus =>
          (heval minus hminus).trans ((if_neg hroom).trans (if_neg hroom'))⟩
        unfold NoFreePlace
        simp only [← hfinish]
        rw [hhead, hforward, if_neg (by omega)]
        omega

end RingBuffer

end Powerpack
end Eaf

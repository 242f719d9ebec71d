import Eaf.Powerpack.RingOverwrite

/-!
# Which data is overwritten

The scan goes from `oldest_reserve` along the committed entries that follow each
other both in memory and in time, until their memory is large enough.  If the
newest entry is among them while others stay in the buffer, then `HEAD` is not
moved to an entry that is left.
-/

namespace Eaf
namespace Powerpack

open Linked

namespace RingBuffer

/-! ## The nodes that are overwritten -/

section Scan

variable {rb : RingBuffer} {minus : Minus} {ps es xs ys readers run rest : List RingEntry}
  {e last : RingEntry} {start nodeSize turns : Nat}

/-- The new node starts where the node before `oldest_reserve` ends. -/
theorem Shows.startPoint_eq (h : rb.Shows ps es) (hps : ps = xs ++ e :: ys)
    (holdest : rb.oldestReserve = e.node) :
    rb.startPoint = some (Region.endOf rb.cache (xs.map (·.region))) := by
  have hmem : ∀ x ∈ xs ++ e :: ys, x ∈ es := fun x hx =>
    h.mem_iff.mp (by rw [hps]; exact hx)
  have he0 := h.node_ne_zero (hmem e (by simp))
  have hbackward := h.backward_eq hps
  have hplaced := h.placed
  rw [hps, List.map_append, List.map_cons] at hplaced
  obtain ⟨hfront, hback⟩ := Region.ascending_split.mp hplaced
  unfold startPoint
  rw [holdest, get_eq he0]
  simp only [Option.bind_eq_bind, Option.bind_some]
  rcases List.eq_nil_or_concat xs with rfl | ⟨front, x, rfl⟩
  · -- no node lies before the oldest one
    have hle : e.node ≤ rb.mem.field .pBackward e.node := by
      obtain ⟨b, hb, hbNode⟩ := getLastD_node (List.cons_ne_nil e ys)
      rw [hbackward, List.append_nil, hbNode]
      rcases List.mem_cons.mp hb with rfl | hb
      · exact le_rfl
      · have hb' := hback.inside (List.mem_map_of_mem hb)
        have hlo : e.region.finish ≤ b.node := hb'.1
        rw [RingEntry.region_finish] at hlo
        omega
    rw [if_neg (by omega)]
    rfl
  · rw [List.concat_eq_append] at *
    have hx := hmem x (by simp)
    have hbackward' : rb.mem.field .pBackward e.node = x.node := by
      rw [hbackward, ← List.append_assoc, List.map_append, getLastD_append]
      rfl
    have hlt : x.node < e.node := by
      have hx' := hfront.inside (r := x.region) (by simp)
      have hcost := header_le_nodeCost (h.fits x hx)
      have hhi : x.region.finish ≤ e.node := hx'.2
      rw [RingEntry.region_finish] at hhi
      omega
    have hx0 := h.node_ne_zero hx
    rw [hbackward', if_pos hlt, get_eq hx0, (h.holds x hx).size]
    simp [Region.endOf]

/-- One turn of the loop. -/
theorem Shows.scanLoop_step (hminus : minus.Right) (h : rb.Shows ps es)
    (hmem : last ∈ es) (hstart : rb.cache ≤ start) (hbelow : start ≤ last.node)
    {forward lost : Nat} (hforward : rb.mem.field .pForward last.node = forward)
    (hf0 : forward ≠ 0) :
    rb.scanLoop minus start nodeSize (turns + 1) last.node lost =
      if last.region.finish - start < nodeSize ∧
          rb.mem.field .state forward = RingState.committed.code ∧
          forward = rb.mem.field .pNewer last.node ∧ last.node < forward then
        rb.scanLoop minus start nodeSize turns forward (lost + 1)
      else some (last.region.finish - start, last.node, lost) := by
  have hl0 := h.node_ne_zero hmem
  have hin := h.inside hmem
  have htop := h.inMemory
  have hcache := h.cache
  unfold Region.Inside at hin
  rw [RingEntry.region_start, RingEntry.region_finish] at hin
  have hsum : minus (last.node + eafRingbufferNodeCost last.len) start =
      some (last.region.finish - start) :=
    hminus _ _ (by omega) (by omega)
  rw [scanLoop, get_eq hl0, (h.holds last hmem).size]
  simp only [Option.bind_eq_bind, Option.bind_some, hsum, get_eq hl0, hforward,
    get_eq hf0]
  by_cases hmore : last.region.finish - start < nodeSize
  swap
  · rw [if_neg hmore, if_neg fun hc => hmore hc.1]
  by_cases hstate : rb.mem.field .state forward = RingState.committed.code
  swap
  · rw [if_pos hmore, if_neg hstate, if_neg fun hc => hstate hc.2.1]
  rw [if_pos hmore, if_pos hstate]
  exact if_congr ⟨fun hc => ⟨hmore, hstate, hc⟩, fun hc => hc.2.2⟩ rfl rfl

/-- The loop finds a run of committed entries that is contiguous in memory and
in time. -/
theorem Shows.scanLoop_eq (h : rb.Shows ps es)
    (hstart : rb.cache ≤ start) (hps : ps = xs ++ (run ++ last :: ys))
    (hes : es = readers ++ (run ++ last :: rest))
    (hcommitted : ∀ x ∈ run ++ [last], x.state = .committed)
    (hbelow : start ≤ last.node) (hturns : ys.length < turns) :
    ∃ run' last' ys' rest', ps = xs ++ (run' ++ last' :: ys') ∧
      es = readers ++ (run' ++ last' :: rest') ∧
      (∀ x ∈ run' ++ [last'], x.state = .committed) ∧ start ≤ last'.node ∧
      ∀ minus : Minus, minus.Right →
        rb.scanLoop minus start nodeSize turns last.node (run.length + 1) =
          some (last'.region.finish - start, last'.node, run'.length + 1) := by
  induction turns generalizing run last ys rest with
  | zero => omega
  | succ turns ih =>
      have hmem : last ∈ es := by
        rw [hes]
        simp
      have hps' : ps = (xs ++ run) ++ last :: ys := by
        rw [hps, List.append_assoc]
      have hes' : es = (readers ++ run) ++ last :: rest := by
        rw [hes, List.append_assoc]
      have hnewer := (h.time_eq hes').2
      cases ys with
      | nil =>
          -- the cache ends here
          obtain ⟨first, hfirst, hforward, hle, -⟩ := h.forward_first hps'
          have hfirst0 := h.node_ne_zero (h.mem_iff.mp hfirst)
          refine ⟨run, last, [], rest, hps, hes, hcommitted, hbelow,
            fun minus hminus => ?_⟩
          rw [h.scanLoop_step hminus hmem hstart hbelow hforward hfirst0]
          exact if_neg fun hc => by omega
      | cons y ys =>
          obtain ⟨hforward, hlt, -⟩ := h.forward_right hps'
          have hy : y ∈ es := h.mem_iff.mp (by rw [hps']; simp)
          have hy0 := h.node_ne_zero hy
          have hstep : ∀ minus : Minus, minus.Right → _ := fun minus hminus =>
            @scanLoop_step _ _ _ _ last start nodeSize turns hminus h hmem hstart
              hbelow y.node (run.length + 1) hforward hy0
          rw [hnewer, (h.holds y hy).state] at hstep
          by_cases hgo : last.region.finish - start < nodeSize ∧
              y.state.code = RingState.committed.code ∧
              y.node = (rest.map (·.node)).headD 0 ∧ last.node < y.node
          swap
          · exact ⟨run, last, y :: ys, rest, hps, hes, hcommitted, hbelow,
              fun minus hminus => (hstep minus hminus).trans (if_neg hgo)⟩
          obtain ⟨-, hcode, hnext, -⟩ := id hgo
          cases rest with
          | nil => exact absurd hnext hy0
          | cons r rest =>
              -- the next one in memory is the next one in time
              have hr : r ∈ es := by
                rw [hes]
                simp
              obtain rfl := h.node_inj hy hr hnext
              have hps₁ : ps = xs ++ ((run ++ [last]) ++ y :: ys) := by
                rw [hps]
                simp
              have hes₁ : es = readers ++ ((run ++ [last]) ++ y :: rest) := by
                rw [hes]
                simp
              obtain ⟨run', last', ys', rest', hps'', hes'', hcommitted', hbelow',
                heval⟩ := ih hps₁ hes₁
                (by
                  intro x hx
                  rcases List.mem_append.mp hx with hx | hx
                  · exact hcommitted x hx
                  · rw [List.mem_singleton.mp hx]
                    exact RingState.code_inj.mp hcode)
                (by omega) (by simpa using hturns)
              refine ⟨run', last', ys', rest', hps'', hes'', hcommitted', hbelow',
                fun minus hminus => ?_⟩
              rw [hstep minus hminus, if_pos hgo, ← heval minus hminus,
                List.length_append]
              rfl

end Scan

/-! ## Overwriting, if it is allowed -/

/-- The reserve finds no free place, and would overwrite the newest entry while
others stay in the buffer. -/
def OverwritesNewest (rb : RingBuffer) (len : Nat) (flags : UInt32) : Prop :=
  flags &&& flagOverwrite ≠ 0 ∧ rb.NoFreePlace (eafRingbufferNodeCost len) ∧
    rb.mem.field .pForward rb.oldestReserve ≠ rb.oldestReserve ∧
    ∃ start sumSize lostNodes, rb.startPoint = some start ∧
      rb.scanLoop minus64 start (eafRingbufferNodeCost len) (rb.capacity + 1)
        rb.oldestReserve 1 = some (sumSize, rb.head, lostNodes) ∧
      eafRingbufferNodeCost len ≤ sumSize

section Try

variable {rb : RingBuffer} {ps es xs ys readers run rest : List RingEntry}
  {first last : RingEntry} {len : Nat}

/-- The run from `first` to `last` is what a reserve overwrites. -/
structure Victims (rb : RingBuffer) (ps es : List RingEntry) (len : Nat)
    (xs ys readers run rest : List RingEntry) (first last : RingEntry) : Prop where
  places : ps = xs ++ (run ++ ys)
  times : es = readers ++ (run ++ rest)
  starts : ∃ tail, run = first :: tail
  ends : ∃ front, run = front ++ [last]
  readers : ∀ x ∈ readers, x.state = .reading
  committed : ∀ x ∈ run, x.state = .committed
  oldest : rb.oldestReserve = first.node
  several : rb.mem.field .pForward first.node ≠ first.node
  start : rb.startPoint = some (Region.endOf rb.cache (xs.map (·.region)))
  inCache : rb.cache ≤ Region.endOf rb.cache (xs.map (·.region))
  scan : rb.scanLoop minus64 (Region.endOf rb.cache (xs.map (·.region)))
    (eafRingbufferNodeCost len) (rb.capacity + 1) first.node 1 =
      some (last.region.finish - Region.endOf rb.cache (xs.map (·.region)),
        last.node, run.length)
  room : Region.endOf rb.cache (xs.map (·.region)) + eafRingbufferNodeCost len ≤
    last.region.finish

/-- `_ring_buffer_reserve_try_overwrite` gives up, or starts over with an empty
buffer, or overwrites a run. -/
theorem Shows.tryOverwrite (h : rb.Shows ps es) (len : Nat) :
    (∀ minus : Minus, minus.Right →
      rb.ringBufferReserveTryOverwrite minus len (eafRingbufferNodeCost len) =
        some (rb, 0)) ∨
    (∃ first, es = [first] ∧ first.state = .committed ∧
      eafRingbufferNodeCost len ≤ rb.capacity ∧
      ∀ minus : Minus, minus.Right →
        rb.ringBufferReserveTryOverwrite minus len (eafRingbufferNodeCost len) =
          rb.ringBufferReinit.ringBufferReserveEmpty len
            (eafRingbufferNodeCost len)) ∨
    ∃ xs ys readers run rest first last,
      rb.Victims ps es len xs ys readers run rest first last ∧
      ∀ minus : Minus, minus.Right →
        rb.ringBufferReserveTryOverwrite minus len (eafRingbufferNodeCost len) =
          rb.ringBufferPerformOverwrite
            (Region.endOf rb.cache (xs.map (·.region))) first.node last.node
            run.length len := by
  obtain ⟨readers, others, hes, hreaders, hothers, holdest⟩ := h.oldest
  cases others with
  | nil => exact .inl fun minus _ => if_pos holdest
  | cons first others =>
      have hmem : first ∈ es := by
        rw [hes]
        simp
      have holdest' : rb.oldestReserve = first.node := holdest
      have hf0 := h.node_ne_zero hmem
      have hstate := (h.holds first hmem).state
      have heval : ∀ minus : Minus,
          rb.ringBufferReserveTryOverwrite minus len (eafRingbufferNodeCost len) =
            if first.state ≠ .committed then some (rb, 0)
            else if rb.mem.field .pForward first.node = first.node then
              if rb.capacity < eafRingbufferNodeCost len then some (rb, 0)
              else rb.ringBufferReinit.ringBufferReserveEmpty len
                (eafRingbufferNodeCost len)
            else rb.startPoint.bind fun start =>
              (rb.scanLoop minus start (eafRingbufferNodeCost len)
                (rb.capacity + 1) first.node 1).bind fun r =>
                  if r.1 < eafRingbufferNodeCost len then some (rb, 0)
                  else rb.ringBufferPerformOverwrite start first.node r.2.1 r.2.2
                    len := by
        intro minus
        unfold ringBufferReserveTryOverwrite
        rw [holdest', if_neg hf0, get_eq hf0, hstate]
        simp only [Option.bind_eq_bind, Option.bind_some, get_eq hf0]
        exact if_congr (not_congr RingState.code_inj) rfl rfl
      by_cases hcommitted : first.state = .committed
      swap
      · exact .inl fun minus _ => (heval minus).trans (if_pos hcommitted)
      have heval₁ := fun minus => (heval minus).trans (if_neg (not_not.mpr hcommitted))
      obtain ⟨xs, ys, hps⟩ := List.append_of_mem (h.mem_iff.mpr hmem)
      by_cases hsingle : rb.mem.field .pForward first.node = first.node
      · -- there is no other node
        have heval₂ := fun minus => (heval₁ minus).trans (if_pos hsingle)
        have hnone : ys ++ xs = [] := by
          by_contra hne
          obtain ⟨f, hf, hfNode⟩ := headD_node hne
          have hforward := h.forward_eq hps
          rw [hsingle, List.map_append, headD_append] at hforward
          have hfirst : first.node = f.node := by
            rw [hforward, ← hfNode]
            exact headD_eq (by simpa using hne) _ _
          have hnodup := nodup_of_ascending h.placed fun _ => h.fits'
          rw [hps, List.map_append, List.map_cons, List.nodup_middle,
            List.nodup_cons, ← List.map_append] at hnodup
          refine hnodup.1 (List.mem_map.mpr ⟨f, ?_, hfirst.symm⟩)
          exact List.perm_append_comm.mem_iff.mp hf
        have hes' : es = [first] := by
          obtain ⟨rfl, rfl⟩ := List.append_eq_nil_iff.mp hnone
          have hperm := h.perm
          rw [hps] at hperm
          exact (List.singleton_perm.mp hperm).symm
        by_cases hroom : rb.capacity < eafRingbufferNodeCost len
        · exact .inl fun minus _ => (heval₂ minus).trans (if_pos hroom)
        · exact .inr (.inl ⟨first, hes', hcommitted, not_lt.mp hroom,
            fun minus _ => (heval₂ minus).trans (if_neg hroom)⟩)
      · have heval₂ := fun minus => (heval₁ minus).trans (if_neg hsingle)
        have hstart := h.startPoint_eq hps holdest'
        have hlength := h.length_le
        rw [hps, List.length_append, List.length_cons] at hlength
        have hps' : ps = xs ++ ([first] ++ ys) := hps
        have hbelow := h.endOf_le hps' (List.mem_singleton_self first)
        have hcache : rb.cache ≤ Region.endOf rb.cache (xs.map (·.region)) := by
          have hplaced := h.placed
          rw [hps, List.map_append] at hplaced
          obtain ⟨mid, hxs, -⟩ := Region.ascending_append.mp hplaced
          exact hxs.endOf.1.le
        obtain ⟨run, last, ys', rest, hps'', hes', hrun, hlast, hscan⟩ :=
          @Shows.scanLoop_eq rb ps es xs ys readers [] others first _
            (eafRingbufferNodeCost len) (rb.capacity + 1) h hcache hps hes
            (by simpa using hcommitted) hbelow (by omega)
        simp only [List.length_nil, Nat.zero_add] at hscan
        have heval₃ : ∀ minus : Minus, minus.Right →
            rb.ringBufferReserveTryOverwrite minus len
                (eafRingbufferNodeCost len) =
              if last.region.finish -
                  Region.endOf rb.cache (xs.map (·.region)) <
                  eafRingbufferNodeCost len then some (rb, 0)
              else rb.ringBufferPerformOverwrite
                (Region.endOf rb.cache (xs.map (·.region))) first.node last.node
                (run.length + 1) len := by
          intro minus hminus
          rw [heval₂ minus, hstart, Option.bind_some, hscan minus hminus,
            Option.bind_some]
        by_cases hroom : last.region.finish -
            Region.endOf rb.cache (xs.map (·.region)) < eafRingbufferNodeCost len
        · exact .inl fun minus hminus => (heval₃ minus hminus).trans (if_pos hroom)
        have hfinish : last.node ≤ last.region.finish := Nat.le_add_right ..
        have hlength' : (run ++ [last]).length = run.length + 1 := by simp
        refine .inr (.inr ⟨xs, ys', readers, run ++ [last], rest, first, last,
          ⟨by simp [hps''], by simp [hes'], ?_, ⟨run, rfl⟩, hreaders, hrun, holdest',
            hsingle, hstart, hcache, ?_, by omega⟩, ?_⟩)
        · rw [hes] at hes'
          have hsame := List.append_cancel_left hes'
          cases run with
          | nil =>
              obtain ⟨rfl, -⟩ := List.cons.inj hsame
              exact ⟨[], rfl⟩
          | cons x run =>
              obtain ⟨rfl, -⟩ := List.cons.inj hsame
              exact ⟨run ++ [last], rfl⟩
        · rw [hlength']
          exact hscan minus64 minus64_right
        · rw [hlength']
          exact fun minus hminus => (heval₃ minus hminus).trans (if_neg hroom)

/-- The reserve got a new entry for a run of committed ones. -/
def Replaced (rb : RingBuffer) (es : List RingEntry) (len : Nat)
    (r : Option (RingBuffer × Nat)) : Prop :=
  ∃ readers run rest new rb' ps', es = readers ++ (run ++ rest) ∧
    (∀ x ∈ readers, x.state = .reading) ∧ run ≠ [] ∧
    (∀ x ∈ run, x.state = .committed) ∧ r = some (rb', new.token) ∧
    new.state = .writing ∧ new.len = len ∧
    rb'.Shows ps' (readers ++ rest ++ [new]) ∧ rb.SameConfig rb'

/-- The last entry gives way to a new one. -/
theorem Shows.replaceLast (h : rb.Shows ps es) (hes : es = [first])
    (hfirst : first.state = .committed) (hfits : FitsSize len)
    (hroom : eafRingbufferNodeCost len ≤ rb.capacity) :
    rb.Replaced es len (rb.ringBufferReinit.ringBufferReserveEmpty len
      (eafRingbufferNodeCost len)) := by
  obtain ⟨rb', hreserve, hshows, hconfig⟩ :=
    @Shows.reserveEmpty rb.ringBufferReinit (rb.freshEntry rb.cache len)
      (shows_nil h.cache h.inMemory) rfl rfl rfl hfits hroom
  exact ⟨[], [first], [], rb.freshEntry rb.cache len, rb', _, hes, by simp, by simp,
    by simpa using hfirst, hreserve, rfl, rfl, hshows, hconfig⟩

/-- A run gives way to a new entry, unless the newest entry is in it. -/
theorem Victims.replaced (hv : rb.Victims ps es len xs ys readers run rest first last)
    (h : rb.Shows ps es) (hrest : rest ≠ []) (hfits : FitsSize len) :
    rb.Replaced es len (rb.ringBufferPerformOverwrite
      (Region.endOf rb.cache (xs.map (·.region))) first.node last.node run.length
      len) := by
  obtain ⟨tail, htail⟩ := hv.starts
  obtain ⟨front, hfront⟩ := hv.ends
  obtain ⟨new, rb', hnew, hlen, hperform, hshows, hconfig⟩ :=
    h.performOverwrite hv.places hv.times htail hfront hv.readers hv.committed hrest
      hfits hv.room
  exact ⟨readers, run, rest, new, rb', _, hv.times, hv.readers, by simp [htail],
    hv.committed, hperform, hnew, hlen, hshows, hconfig⟩

/-- If the newest entry is in the run, `OverwritesNewest` says so. -/
theorem Victims.overwritesNewest
    (hv : rb.Victims ps es len xs ys readers run [] first last) (h : rb.Shows ps es)
    {flags : UInt32} (hflags : flags &&& flagOverwrite ≠ 0)
    (hfull : rb.NoFreePlace (eafRingbufferNodeCost len)) :
    rb.OverwritesNewest len flags := by
  obtain ⟨front, hfront⟩ := hv.ends
  have hes : es = (readers ++ front) ++ [last] := by
    rw [hv.times, hfront]
    simp
  have hscan := hv.scan
  have hroom := hv.room
  refine ⟨hflags, hfull, ?_, _,
    last.region.finish - Region.endOf rb.cache (xs.map (·.region)), run.length,
    hv.start, ?_, ?_⟩
  · rw [hv.oldest]
    exact hv.several
  · rw [hv.oldest, h.head_eq hes]
    exact hscan
  · omega

/-- In any case the new node gets its place. -/
theorem Victims.token (hv : rb.Victims ps es len xs ys readers run rest first last)
    (h : rb.Shows ps es) (hfits : FitsSize len) :
    ∃ rb', rb.ringBufferPerformOverwrite
        (Region.endOf rb.cache (xs.map (·.region))) first.node last.node run.length
        len =
      some (rb', tokenOf (Region.endOf rb.cache (xs.map (·.region)))) := by
  obtain ⟨tail, hfirst⟩ := hv.starts
  obtain ⟨front, hlast⟩ := hv.ends
  have hfirstMem : first ∈ run := by
    rw [hfirst]
    simp
  have hlastMem : last ∈ run := by
    rw [hlast]
    simp
  have hrunMem : ∀ x ∈ run, x ∈ es := by
    intro x hx
    rw [hv.times]
    simp [hx]
  have hs0 := h.node_ne_zero (hrunMem first hfirstMem)
  have hl0 := h.node_ne_zero (hrunMem last hlastMem)
  have hpos := h.cache
  have hn0 := hv.inCache
  have hns := h.endOf_le hv.places hfirstMem
  have hnl := h.endOf_le hv.places hlastMem
  have hhd0 : rb.head ≠ 0 := by
    have hne : es ≠ [] := List.ne_nil_of_mem (hrunMem first hfirstMem)
    obtain ⟨x, hx, hxNode⟩ := getLastD_node hne
    rw [h.head, hxNode]
    exact h.node_ne_zero hx
  obtain ⟨holder, hnewer⟩ := h.run_times hv.times hfirst hlast
  have hperm := h.run_perm hv.places hv.times
  by_cases hne : ys ++ xs = []
  · -- the run is the whole buffer
    obtain ⟨rfl, rfl⟩ := List.append_eq_nil_iff.mp hne
    obtain ⟨rfl, rfl⟩ := List.append_eq_nil_iff.mp (List.nil_perm.mp hperm)
    have hps : ps = front ++ [last] := by
      rw [hv.places, hlast]
      simp
    have hforward : rb.mem.field .pForward last.node = first.node := by
      rw [h.forward_eq hps, List.nil_append, ← hlast, hfirst]
      rfl
    have hne' : first.node ≠ last.node := by
      intro heq
      have hseveral := hv.several
      rw [heq, hforward] at hseveral
      exact hseveral heq
    exact performOverwrite_all hs0 hl0 (by omega) hhd0 hns hnl
      ((h.avoids (hrunMem last hlastMem) (hrunMem first hfirstMem)).clear
        (h.fits last (hrunMem last hlastMem))) hne' hforward holder hnewer
  · obtain ⟨hforward, hbackward⟩ := h.run_places hv.places hfirst hlast hne
    obtain ⟨f, hf, hfNode⟩ := headD_node hne
    obtain ⟨b, hb, hbNode⟩ := getLastD_node hne
    rw [hfNode] at hforward
    rw [hbNode] at hbackward
    have hcircle : (ys ++ xs).Perm (readers ++ rest) :=
      List.perm_append_comm.trans hperm
    have hf' := hcircle.mem_iff.mp hf
    have hb' := hcircle.mem_iff.mp hb
    have hstay : ∀ x ∈ readers ++ rest, x ∈ es := by
      intro x hx
      rw [hv.times]
      simp only [List.mem_append] at hx ⊢
      tauto
    have hfree : ∀ x ∈ readers ++ rest,
        x.node ≠ Region.endOf rb.cache (xs.map (·.region)) ∧
          x.Avoids (Region.endOf rb.cache (xs.map (·.region))) := by
      intro x hx
      have hplaced := @Shows.run_replaced rb ps es xs ys run front last len h
        hv.places hlast hv.room
        (rb.freshEntry (Region.endOf rb.cache (xs.map (·.region))) len) rfl rfl
      obtain ⟨hne', havoids, -⟩ := avoids_of_new hplaced List.perm_middle (by
        intro y hy
        rcases List.mem_cons.mp (List.perm_middle.mem_iff.mp hy) with rfl | hy
        · exact hfits
        · exact h.fits y (hstay y (hperm.mem_iff.mp hy))) (hperm.mem_iff.mpr hx)
      exact ⟨hne', havoids⟩
    have hapart := fun x hx y hy =>
      @Shows.run_apart rb ps es readers run rest y x h hv.times hy hx
    exact ⟨_, performOverwrite_eq hs0 hl0 (by omega)
      (h.node_ne_zero (hstay b hb')) (h.node_ne_zero (hstay f hf')) hhd0 hns hnl
      hforward hbackward holder hnewer rfl
      (hapart f hf' first hfirstMem).1 (hapart f hf' first hfirstMem).2
      (hapart b hb' first hfirstMem).1 (hapart b hb' first hfirstMem).2
      (hapart f hf' last hlastMem).1 (hapart f hf' last hlastMem).2
      (hapart b hb' last hlastMem).1 (hapart b hb' last hlastMem).2
      (h.older_apart hv.times rfl hfirstMem).1 (h.older_apart hv.times rfl hfirstMem).2
      (h.older_apart hv.times rfl hlastMem).1 (h.older_apart hv.times rfl hlastMem).2
      ((hfree b hb').2.clear (h.fits b (hstay b hb'))).symm (hfree b hb').1⟩

end Try

end RingBuffer

end Powerpack
end Eaf

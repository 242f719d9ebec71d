import Eaf.Powerpack.RingQueue
import Eaf.Powerpack.RingSteps

/-!
# Consuming and committing

An entry stays where it is while its state or its data change.  Which entry
`oldest_reserve` points to depends on the states alone.
-/

namespace Eaf
namespace Powerpack

open Linked

namespace RingBuffer

variable {rb : RingBuffer} {m' : Words} {ps es before after : List RingEntry}
  {e e' : RingEntry} {s : RingState} {oldest : Nat} {flags : UInt32}

/-! ## Changing an entry -/

/-- An entry changes, and no pointer does. -/
theorem Shows.replace (h : rb.Shows ps (before ++ e :: after))
    (hnode : e'.node = e.node) (hlen : e'.len = e.len)
    (hfield : ∀ x ∈ before ++ e :: after, ∀ f : NodeField, f ≠ .state →
      m'.field f x.node = rb.mem.field f x.node)
    (hothers : ∀ x ∈ before ++ after, m'.Holds x) (hnew : m'.Holds e')
    (holdest : ReadersFirst (before ++ e' :: after) oldest) :
    ∃ ps', ({ rb with
      counter := counterOf (before ++ e' :: after)
      oldestReserve := oldest
      mem := m' } : RingBuffer).Shows ps' (before ++ e' :: after) := by
  have hmem : e ∈ before ++ e :: after := by simp
  obtain ⟨xs, ys, hps⟩ := List.append_of_mem (h.mem_iff.mpr hmem)
  have hrest : (xs ++ ys).Perm (before ++ after) := by
    have hwhole := h.perm
    rw [hps] at hwhole
    exact (List.perm_middle.symm.trans (hwhole.trans List.perm_middle)).cons_inv
  have hnodes : ∀ xs ys : List RingEntry, (xs ++ e' :: ys).map (·.node) =
      (xs ++ e :: ys).map (·.node) := by
    intro xs ys
    simp [hnode]
  have hregions : (xs ++ e' :: ys).map (·.region) =
      (xs ++ e :: ys).map (·.region) := by
    simp [RingEntry.region, hnode, hlen]
  have hsame : ∀ p ∈ (before ++ e :: after).map (·.node), ∀ f : NodeField,
      f ≠ .state → m'.field f p = rb.mem.field f p := by
    intro p hp
    obtain ⟨x, hx, rfl⟩ := List.mem_map.mp hp
    exact hfield x hx
  have hplaces : ∀ p ∈ (xs ++ e :: ys).map (·.node),
      p ∈ (before ++ e :: after).map (·.node) := by
    intro p hp
    rw [← hps] at hp
    exact (h.perm.map _).mem_iff.mp hp
  refine ⟨xs ++ e' :: ys, ?_⟩
  constructor
  · exact List.perm_middle.trans ((hrest.cons e').trans List.perm_middle.symm)
  · rw [hregions, ← hps]
    exact h.placed
  · have hring := h.ring
    rw [hps] at hring
    rw [hnodes]
    refine Segment.congr hring fun p hp => ?_
    have hp' := hplaces p hp
    exact ⟨hsame p hp' .pForward (by decide), hsame p hp' .pBackward (by decide)⟩
  · rw [hnodes]
    refine h.time.congr fun p hp => ?_
    exact ⟨hsame p hp .pNewer (by decide), hsame p hp .pOlder (by decide)⟩
  · intro x hx
    rcases List.mem_cons.mp (List.perm_middle.mem_iff.mp hx) with rfl | hx
    · exact hnew
    · exact hothers x hx
  · intro x hx
    rcases List.mem_cons.mp (List.perm_middle.mem_iff.mp hx) with rfl | hx
    · rw [hlen]
      exact h.fits e hmem
    · exact h.fits x (h.others rfl hx).1
  · rw [hnodes]
    exact h.head
  · rw [hnodes]
    exact h.tail
  · exact holdest
  · rfl
  · exact h.cache
  · exact h.inMemory

/-- The state of an entry is written. -/
theorem Shows.setState (h : rb.Shows ps (before ++ e :: after)) (s : RingState)
    (holdest : ReadersFirst (before ++ e.inState s :: after) oldest) :
    ∃ ps', ({ rb with
      counter := counterOf (before ++ e.inState s :: after)
      oldestReserve := oldest
      mem := rb.mem.put .state e.node s.code } : RingBuffer).Shows ps'
        (before ++ e.inState s :: after) := by
  have hmem : e ∈ before ++ e :: after := by simp
  have hclear : ∀ x ∈ before ++ e :: after, Clear e.node x.node := fun x hx =>
    (h.avoids hx hmem).clear (h.fits x hx)
  refine h.replace rfl rfl ?_ ?_ ?_ holdest
  · intro x hx f hf
    rw [field_put (hclear x hx), if_neg fun hc => hf hc.2.symm]
  · intro x hx
    obtain ⟨hx', hne⟩ := h.others rfl hx
    refine (h.holds x hx').congr (sameData_put (h.avoids hx' hmem)) ?_ ?_
    · rw [field_put (hclear x hx'), if_neg fun hc => NodeField.noConfusion hc.2]
    · rw [field_put (hclear x hx'), if_neg fun hc => hne hc.1.symm]
  · have hold := h.holds e hmem
    refine ⟨?_, ?_, ?_⟩
    · show (rb.mem.put .state e.node s.code).field .size e.node = e.len
      rw [field_put (Clear.refl e.node), if_neg fun hc => NodeField.noConfusion hc.2]
      exact hold.size
    · show (rb.mem.put .state e.node s.code).field .state e.node = s.code
      rw [field_put (Clear.refl e.node), if_pos ⟨rfl, rfl⟩]
    · exact (sameData_put e.avoids_self).data_eq.trans hold.data

/-! ## Consuming -/

theorem Shows.oldest_eq (h : rb.Shows ps (before ++ e :: after))
    (hbefore : ∀ x ∈ before, x.state = .reading) (he : e.state ≠ .reading) :
    rb.oldestReserve = e.node := by
  obtain ⟨readers, skipped, rfl, -, hrest, holdest⟩ :=
    h.oldest.of_not_reading he
  have hnone : skipped = [] := by
    cases skipped with
    | nil => rfl
    | cons x skipped =>
        exact absurd (hbefore x (by simp)) (hrest x (by simp))
  rw [holdest, hnone]
  rfl

/-- `eaf_ringbuffer_consume` -/
theorem Shows.consume (h : rb.Shows ps es) :
    ∃ rb' t ps' es', rb.eafRingbufferConsume = some (rb', t) ∧
      rb'.Shows ps' es' ∧ rb.SameConfig rb' ∧
      (t = 0 ∧ QueueStep es .consume (.token none) es' ∧ rb' = rb ∨
        ∃ e ∈ es', t = e.token ∧
          QueueStep es .consume (.token (some e.held)) es') := by
  obtain ⟨readers, rest, rfl, hreading, hrest, holdest⟩ := h.oldest
  have hnothing : (∀ e ∈ rest.head?, e.state ≠ .committed) →
      QueueStep (readers ++ rest) .consume (.token none) (readers ++ rest) := by
    intro hnone
    refine .nothing fun before e after hsplit hbefore hstate => ?_
    rcases List.append_eq_append_iff.mp hsplit with
      ⟨skipped, rfl, rfl⟩ | ⟨skipped, rfl, hafter⟩
    · cases skipped with
      | nil => exact hnone e (by simp) hstate
      | cons x skipped =>
          exact hrest x (by simp) (hbefore x (by simp))
    · cases skipped with
      | nil =>
          rw [List.nil_append] at hafter
          subst hafter
          exact hnone e (by simp) hstate
      | cons x skipped =>
          obtain ⟨rfl, -⟩ := List.cons.inj hafter
          have hread := hreading e (by simp)
          rw [hstate] at hread
          cases hread
  cases rest with
  | nil =>
      refine ⟨rb, 0, ps, _, if_pos holdest, h, ⟨rfl, rfl⟩, .inl ⟨rfl, ?_, rfl⟩⟩
      exact hnothing (by simp)
  | cons e after =>
      have hmem : e ∈ readers ++ e :: after := by simp
      have he0 := h.node_ne_zero hmem
      have holdest' : rb.oldestReserve = e.node := holdest
      have hstate := (h.holds e hmem).state
      by_cases he : e.state = .committed
      · have hreaders : ReadersFirst (readers ++ e.inState .reading :: after)
            ((after.map (·.node)).headD 0) := by
          refine ⟨readers ++ [e.inState .reading], after, by simp, ?_,
            fun x hx => hrest x (List.mem_cons_of_mem _ hx), rfl⟩
          intro x hx
          rcases List.mem_append.mp hx with hx | hx
          · exact hreading x hx
          · rw [List.mem_singleton.mp hx]
            rfl
        obtain ⟨ps', hshows⟩ := h.setState .reading hreaders
        refine ⟨_, e.token, ps', _, ?_, hshows, ⟨rfl, rfl⟩,
          .inr ⟨e.inState .reading, by simp, rfl, .consumed hreading he⟩⟩
        rw [he] at hstate
        have hcounter := h.counter
        have hnewer := (h.time_eq rfl).2
        simp [eafRingbufferConsume, holdest', he0, get_eq he0, set_eq he0, hstate,
          hcounter, hnewer, counterOf, countOf_middle, he, RingEntry.token]
      · refine ⟨rb, 0, ps, _, ?_, h, ⟨rfl, rfl⟩, .inl ⟨rfl, hnothing ?_, rfl⟩⟩
        · have hcode : RingState.code e.state ≠ RingState.committed.code := fun hc =>
            he (RingState.code_inj.mp hc)
          simp [eafRingbufferConsume, holdest', get_eq he0, he0, hstate, hcode]
        · intro x hx
          obtain rfl : e = x := by simpa using hx
          exact he

/-! ## Committing -/

/-- `_ring_buffer_commit_for_write` -/
theorem Shows.commitForWrite (h : rb.Shows ps (before ++ e :: after))
    (he : e.state = .writing) (flags : UInt32) :
    ∃ rb' ps' es', rb.ringBufferCommitForWrite e.node flags = some (rb', 0) ∧
      rb'.Shows ps' es' ∧ rb.SameConfig rb' ∧
      QueueStep (before ++ e :: after) (.commit e.held flags) (.code 0) es' := by
  have he0 := h.node_ne_zero (by simp : e ∈ before ++ e :: after)
  have hcounter := h.counter
  by_cases hflags : flags &&& flagDiscard = 0
  · have hnot : e.state ≠ .reading := by simp [he]
    have holdest := h.oldest.replace hnot
      (by simp : (e.inState .committed).state ≠ .reading) rfl
    obtain ⟨ps', hshows⟩ := h.setState .committed holdest
    refine ⟨_, ps', _, ?_, hshows, ⟨rfl, rfl⟩, .confirmed he hflags⟩
    simp [ringBufferCommitForWrite, hflags, set_eq he0, hcounter, counterOf,
      countOf_middle, he]
  · obtain ⟨rb', ps', hdelete, hshows, hconfig⟩ := h.deleteNode rfl
    refine ⟨rb', ps', _, ?_, hshows, hconfig, .dropped he hflags⟩
    rw [ringBufferCommitForWrite, if_pos hflags]
    have hminus : ({ rb.counter with writing := rb.counter.writing - 1 } :
        RingCounter) = counterOf (before ++ after) := by
      simp [hcounter, counterOf, countOf_middle, he]
    simp [hminus, hdelete]

/-- `_ring_buffer_commit_for_consume_confirm` -/
theorem Shows.commitForConsumeConfirm (h : rb.Shows ps (before ++ e :: after))
    (he : e.state = .reading) :
    ∃ rb' ps', rb.ringBufferCommitForConsumeConfirm e.node = some (rb', 0) ∧
      rb'.Shows ps' (before ++ after) ∧ rb.SameConfig rb' := by
  have hcounter := h.counter
  obtain ⟨rb', ps', hdelete, hshows, hconfig⟩ := h.deleteNode rfl
  refine ⟨rb', ps', ?_, hshows, hconfig⟩
  have hminus : ({ rb.counter with reading := rb.counter.reading - 1 } :
      RingCounter) = counterOf (before ++ after) := by
    simp [hcounter, counterOf, countOf_middle, he]
  simp [ringBufferCommitForConsumeConfirm, hminus, hdelete]

/-- `_ring_buffer_commit_for_consume_discard`, when no newer entry is being
read. -/
theorem Shows.commitForConsumeReturn (h : rb.Shows ps (before ++ e :: after))
    (he : e.state = .reading) (hnext : ∀ x ∈ after.head?, x.state ≠ .reading)
    (flags : UInt32) :
    ∃ rb' ps', rb.ringBufferCommitForConsumeDiscard e.node flags =
        some (rb', 0) ∧
      rb'.Shows ps' (before ++ e.inState .committed :: after) ∧
      rb.SameConfig rb' := by
  have hmem : e ∈ before ++ e :: after := by simp
  have he0 := h.node_ne_zero hmem
  have hcounter := h.counter
  have hnewer := (h.time_eq rfl).2
  obtain ⟨hbefore, hrest⟩ := h.oldest.of_reading he
  obtain ⟨ps', hshows⟩ := h.setState .committed
    (readersFirst_middle (e := e.inState .committed) hbefore hrest hnext (by simp))
  refine ⟨_, ps', ?_, hshows, rfl, rfl⟩
  have hself := Clear.refl e.node
  cases after with
  | nil =>
      have hnewer' : rb.mem.field .pNewer e.node = 0 := hnewer
      simp [ringBufferCommitForConsumeDiscard, get_eq he0, set_eq he0, hnewer',
        field_put hself, hcounter, counterOf, countOf_middle, he]
  | cons x after =>
      have hx : x.state ≠ .reading := hnext x (by simp)
      have hsplit : before ++ e :: x :: after = (before ++ [e]) ++ x :: after := by
        simp
      have hmem' : x ∈ before ++ e :: x :: after := by simp
      have hx0 := h.node_ne_zero hmem'
      have hclear : Clear e.node x.node :=
        (h.avoids hmem' hmem).clear (h.fits x hmem')
      have hnewer' : rb.mem.field .pNewer e.node = x.node := hnewer
      have hstate : rb.mem.field .state x.node ≠ RingState.reading.code := by
        rw [(h.holds x hmem').state]
        exact fun hc => hx (RingState.code_inj.mp hc)
      have holder : rb.mem.field .pOlder x.node = e.node := by
        rw [(h.time_eq hsplit).1, List.map_append, getLastD_append]
        rfl
      have holdest : rb.oldestReserve = x.node := by
        rw [hsplit] at h
        refine h.oldest_eq ?_ hx
        intro y hy
        rcases List.mem_append.mp hy with hy | hy
        · exact hbefore y hy
        · obtain rfl := List.mem_singleton.mp hy
          exact he
      simp [ringBufferCommitForConsumeDiscard, get_eq he0, get_eq hx0, set_eq he0,
        hnewer', hx0, hstate, holdest, holder, field_put hself, field_put hclear,
        hcounter, counterOf, countOf_middle, he]

/-- `eaf_ringbuffer_commit` on a held token. -/
theorem Shows.commit (h : rb.Shows ps es) (hmem : e ∈ es)
    (he : e.state ≠ .committed) (flags : UInt32) :
    ∃ rb' c ps' es', rb.eafRingbufferCommit e.token flags = some (rb', c) ∧
      rb'.Shows ps' es' ∧ rb.SameConfig rb' ∧
      QueueStep es (.commit e.held flags) (.code c) es' := by
  have he0 := h.node_ne_zero hmem
  have hstate := (h.holds e hmem).state
  obtain ⟨before, after, rfl⟩ := List.append_of_mem hmem
  have heval : rb.eafRingbufferCommit e.token flags =
      if e.state = .writing then rb.ringBufferCommitForWrite e.node flags
      else rb.ringBufferCommitForConsume e.node flags := by
    rw [eafRingbufferCommit, e.nodeOf_token, get_eq he0, hstate]
    exact if_congr RingState.code_inj rfl rfl
  by_cases hwriting : e.state = .writing
  · obtain ⟨rb', ps', es', hcommit, hshows, hconfig, hstep⟩ :=
      h.commitForWrite hwriting flags
    rw [if_pos hwriting] at heval
    exact ⟨rb', 0, ps', es', heval.trans hcommit, hshows, hconfig, hstep⟩
  have hreading : e.state = .reading := by
    cases hs : e.state with
    | writing => exact absurd hs hwriting
    | committed => exact absurd hs he
    | reading => rfl
  obtain ⟨rb₁, ps₁, hconfirm, hshows₁, hconfig₁⟩ :=
    h.commitForConsumeConfirm hreading
  rw [if_neg hwriting, ringBufferCommitForConsume] at heval
  by_cases hdiscard : flags &&& flagDiscard = 0
  · rw [if_neg (not_not.mpr hdiscard)] at heval
    exact ⟨rb₁, 0, ps₁, _, heval.trans hconfirm, hshows₁, hconfig₁,
      .finished hreading hdiscard⟩
  rw [if_pos hdiscard] at heval
  by_cases hnext : ∀ x ∈ after.head?, x.state ≠ .reading
  · obtain ⟨rb', ps', hreturn, hshows, hconfig⟩ :=
      h.commitForConsumeReturn hreading hnext flags
    exact ⟨rb', 0, ps', _, heval.trans hreturn, hshows, hconfig,
      .returned hreading hdiscard (h.oldest.of_reading hreading).1 hnext⟩
  · -- the next newer entry is being read
    cases after with
    | nil => exact absurd (by simp) hnext
    | cons x after =>
        have hx : x.state = .reading := by simpa using hnext
        have hmem' : x ∈ before ++ e :: x :: after := by simp
        have hx0 := h.node_ne_zero hmem'
        have hnewer : rb.mem.field .pNewer e.node = x.node := (h.time_eq rfl).2
        have hstate' : rb.mem.field .state x.node = RingState.reading.code := by
          rw [(h.holds x hmem').state, hx]
        have hdecide : rb.ringBufferCommitForConsumeDiscard e.node flags =
            if flags &&& flagAbandon ≠ 0 then
              rb.ringBufferCommitForConsumeConfirm e.node
            else some (rb, -1) := by
          simp [ringBufferCommitForConsumeDiscard, get_eq he0, get_eq hx0, hnewer,
            hx0, hstate']
        by_cases habandon : flags &&& flagAbandon = 0
        · rw [if_neg (not_not.mpr habandon)] at hdecide
          exact ⟨rb, -1, ps, _, heval.trans hdecide, h, ⟨rfl, rfl⟩,
            .kept hreading hdiscard habandon hx⟩
        · rw [if_pos habandon] at hdecide
          exact ⟨rb₁, 0, ps₁, _, heval.trans (hdecide.trans hconfirm), hshows₁,
            hconfig₁, .abandoned hreading hdiscard habandon hx⟩

/-! ## Writing data -/

/-- Where a word of the data of an entry is. -/
theorem data_address {i : Nat} : e.token + wordSize + wordSize * i =
    e.node + 48 + 8 * i := by
  unfold RingEntry.token tokenOf
  simp only [NodeField.offset, wordSize]

/-- A caller writes a word of the data of its token. -/
theorem Shows.storeData (h : rb.Shows ps (before ++ e :: after)) {i : Nat}
    (hroom : i < e.words.length) (value : Nat) :
    ∃ ps', (rb.storeData e.token i value).Shows ps'
      (before ++ e.withWord i value :: after) := by
  have hmem : e ∈ before ++ e :: after := by simp
  have hdata := (h.holds e hmem).data
  have hcost := header_le_nodeCost (h.fits e hmem)
  have hlength : e.words.length = (eafRingbufferNodeCost e.len - 48) / 8 := by
    rw [← hdata]
    simp [Words.data, nodeHeader, wordSize]
  have hlast : e.node + 48 + 8 * i + 8 ≤ e.region.finish := by
    rw [RingEntry.region_finish]
    omega
  -- the word belongs to no header, and to no data of the others
  have hsame : ∀ x ∈ before ++ e :: after, ∀ f : NodeField,
      (rb.storeData e.token i value).mem.field f x.node =
        rb.mem.field f x.node := by
    intro x hx f
    have hf := f.offset_lt
    have hcost' := header_le_nodeCost (h.fits x hx)
    refine Function.update_of_ne ?_ ..
    rw [data_address]
    rcases h.apart hmem hx with rfl | hle | hle
    · omega
    · omega
    · rw [RingEntry.region_finish] at hle
      omega
  have hother : ∀ x ∈ before ++ after,
      rb.mem.SameData (rb.storeData e.token i value).mem x := by
    intro x hx a hlo hhi
    obtain ⟨hx', hne⟩ := h.others rfl hx
    refine Function.update_of_ne ?_ ..
    rw [data_address]
    rcases h.apart hmem hx' with rfl | hle | hle
    · exact absurd rfl hne
    · omega
    · omega
  have holdest : ReadersFirst (before ++ e.withWord i value :: after)
      rb.oldestReserve := by
    by_cases hreading : e.state = .reading
    · obtain ⟨hbefore, readers, rest, rfl, hreaders, hrest, holdest⟩ :=
        h.oldest.of_reading hreading
      refine ⟨before ++ e.withWord i value :: readers, rest, by simp, ?_, hrest,
        holdest⟩
      intro x hx
      rcases List.mem_cons.mp (List.perm_middle.mem_iff.mp hx) with rfl | hx
      · exact hreading
      · exact (List.mem_append.mp hx).elim (hbefore x) (hreaders x)
    · exact h.oldest.replace hreading hreading rfl
  have hnew : (rb.storeData e.token i value).mem.Holds (e.withWord i value) := by
    refine ⟨(hsame e hmem .size).trans (h.holds e hmem).size,
      (hsame e hmem .state).trans (h.holds e hmem).state, ?_⟩
    show (rb.storeData e.token i value).mem.data e.node e.len = e.words.set i value
    rw [← hdata]
    refine List.ext_getElem (by simp [Words.data]) fun j hj hj' => ?_
    rw [List.getElem_set]
    simp only [Words.data, List.getElem_map, List.getElem_range]
    show Function.update rb.mem (e.token + wordSize + wordSize * i) value _ = _
    rw [data_address, Function.update_apply]
    refine if_congr ?_ rfl rfl
    simp only [nodeHeader, wordSize]
    omega
  obtain ⟨ps', hshows⟩ := @Shows.replace rb _ ps before after e
    (e.withWord i value) _ h rfl rfl
    (fun x hx f _ => hsame x hx f)
    (fun x hx => ((h.holds x (h.others rfl hx).1).congr (hother x hx)
      (hsame x (h.others rfl hx).1 .size) (hsame x (h.others rfl hx).1 .state)))
    hnew holdest
  refine ⟨ps', ?_⟩
  have hcounter : counterOf (before ++ e.withWord i value :: after) =
      rb.counter := by
    rw [h.counter]
    simp only [counterOf, countOf_middle]
    rfl
  rwa [hcounter] at hshows

end RingBuffer

end Powerpack
end Eaf

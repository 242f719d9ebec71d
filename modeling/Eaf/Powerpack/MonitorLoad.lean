import Eaf.Core.GroupIterators
import Eaf.Powerpack.Monitor

/-!
# The monitor's walk over the services

`_monitor_on_load_before` walks over the groups and their services with the
iterators of the core, and counts the groups itself.  Where the iterators stay
inside the tables this is the loading of the layout row by row.
-/

namespace Eaf
namespace Powerpack

open Core KeyedTable Iteration

/-- The locals and the records of `_monitor_on_load_before`. -/
structure LoadState where
  /-- `idx` -/
  idx : Nat
  monitor : Monitor

namespace Monitor

/-- The body of the inner loop.  The id is read through the position, which is
undefined behaviour where there is no service. -/
def loadServiceAt (L : Layout) (fate : Nat → Nat → RecordFate) (g : Nat)
    (s : LoadState) (i : Nat) : Option LoadState :=
  if i < (L.conf g).size then
    some { s with
      monitor := loadService s.idx s.monitor ((L.conf g).row i, fate g i) }
  else none

/-- The body of the outer loop with `idx++`.  A count that has reached the
number of groups ends the loop. -/
def loadGroupAt (L : Layout) (fate : Nat → Nat → RecordFate) (fuel : Nat)
    (s : LoadState) (g : Nat) : Option LoadState :=
  if s.idx < L.size then
    (forEach (eafServiceNext (L.conf g)) (loadServiceAt L fate g) fuel
      eafServiceBegin s).map fun s => { s with idx := s.idx + 1 }
  else some s

/-- `_monitor_on_load_before`, with the iterators. -/
def walkLoadBefore (L : Layout) (fate : Nat → Nat → RecordFate) (fuel : Nat)
    (m : Monitor) : Option Monitor :=
  (forEach (eafGroupNext L) (loadGroupAt L fate fuel) fuel eafGroupBegin
    ⟨0, m⟩).map LoadState.monitor

end Monitor

section Walk

variable {L : Layout} {fate : Nat → Nat → Monitor.RecordFate} {m : Monitor}
  {g n fuel : Nat} {c : GroupTable} {s : LoadState} {sid : UInt32}
  {r : ServiceRecord}

theorem zipIdx_service : c.service.zipIdx =
    (List.range c.size).map fun i => (c.row i, i) := by
  refine List.ext_getElem (by simp [GroupTable.size]) fun i hi _ => ?_
  have hlt : i < c.service.length := by simpa using hi
  simp [GroupTable.row, List.getElem?_eq_getElem hlt]

theorem zipIdx_group : L.group.zipIdx =
    (List.range L.size).map fun g => (L.conf g, g) := by
  refine List.ext_getElem (by simp [Layout.size]) fun g hg _ => ?_
  have hlt : g < L.group.length := by simpa using hg
  simp [Layout.conf, List.getElem?_eq_getElem hlt]

/-- The inner loop loads the rows of its group. -/
theorem Monitor.loadGroupAt_eq (hpos : 0 < (L.conf g).size)
    (hle : (L.conf g).size ≤ sizeMax) (hfuel : (L.conf g).size < fuel)
    (hg : g < L.size) :
    loadGroupAt L fate fuel ⟨g, m⟩ g =
      some ⟨g + 1, loadGroup fate m (L.conf g, g)⟩ := by
  have hfold : (List.range (L.conf g).size).foldl
      (fun (s : LoadState) i => { s with
        monitor := loadService s.idx s.monitor ((L.conf g).row i, fate g i) })
      ⟨g, m⟩ = ⟨g, loadGroup fate m (L.conf g, g)⟩ := by
    rw [loadGroup, zipIdx_service, List.map_map, List.foldl_map]
    generalize List.range (L.conf g).size = is
    induction is generalizing m with
    | nil => rfl
    | cons i rest ih =>
        rw [List.foldl_cons, List.foldl_cons]
        exact ih
  rw [loadGroupAt, if_pos hg,
    (walk_services hpos hle).forEach_eq (by simpa using hfuel),
    foldlM_some (f := fun (s : LoadState) i => { s with
      monitor := loadService s.idx s.monitor ((L.conf g).row i, fate g i) }),
    hfold]
  · rfl
  · intro i hi s
    exact if_pos (List.mem_range.mp hi)

/-- The outer loop, up to some group. -/
theorem Monitor.foldlM_loadGroupAt (hsized : L.Sized) (hfull : L.NoEmptyGroup)
    (hfuel : ∀ g < L.size, (L.conf g).size < fuel) (hn : n ≤ L.size) :
    (List.range n).foldlM (loadGroupAt L fate fuel) ⟨0, m⟩ =
      some ⟨n, (List.range n).foldl
        (fun m g => loadGroup fate m (L.conf g, g)) m⟩ := by
  induction n with
  | zero => rfl
  | succ n ih =>
      have hlt : n < L.size := by omega
      rw [List.range_succ, List.foldlM_append, ih (by omega),
        List.foldl_append]
      show (loadGroupAt L fate fuel ⟨n, _⟩ n).bind _ = _
      rw [loadGroupAt_eq (hfull n hlt) (hsized.2 n) (hfuel n hlt) hlt]
      rfl

/-- Without empty groups, the walk loads the layout. -/
theorem Monitor.walkLoadBefore_eq (hsized : L.Sized) (hpos : 0 < L.size)
    (hfull : L.NoEmptyGroup)
    (hfuel : L.size < fuel ∧ ∀ g < L.size, (L.conf g).size < fuel) :
    walkLoadBefore L fate fuel m = some (m.onLoadBefore L fate) := by
  rw [walkLoadBefore,
    (walk_groups hpos hsized.1).forEach_eq (by simpa using hfuel.1),
    foldlM_loadGroupAt hsized hfull hfuel.2 (Nat.le_refl _), onLoadBefore,
    zipIdx_group, List.foldl_map]
  rfl

/-! ## The group of a record -/

/-- The first group that has a service with the id. -/
def FirstGroup (L : Layout) (sid : UInt32) (g : Nat) : Prop :=
  L.HasId g sid ∧ ∀ k < g, ¬L.HasId k sid

theorem hasId_iff_row : L.HasId g sid ↔
    ∃ i < (L.conf g).size, ((L.conf g).row i).srvId = sid := by
  unfold Layout.HasId GroupTable.find
  rw [List.findIdx?_isSome, List.any_eq_true]
  constructor
  · rintro ⟨row, hrow, hid⟩
    obtain ⟨i, hi, rfl⟩ := List.getElem_of_mem hrow
    refine ⟨i, hi, ?_⟩
    rw [GroupTable.row, List.getD_eq_getElem _ _ hi]
    exact eq_of_beq hid
  · rintro ⟨i, hi, hid⟩
    refine ⟨(L.conf g).row i, ?_, by simp [hid]⟩
    rw [GroupTable.row, List.getD_eq_getElem _ _ hi]
    exact List.getElem_mem hi

/-- Loading a service keeps the record of an id, or makes the first one. -/
theorem Monitor.loadService_service {gid : Nat}
    {row : ServiceTable × Monitor.RecordFate} :
    (loadService gid m row).service sid = m.service sid ∨
      (m.service sid = none ∧ ∃ r, (loadService gid m row).service sid = some r ∧
        r.gid = UInt32.ofNat gid) := by
  unfold loadService
  split
  · cases hrow : m.service row.1.srvId with
    | some old =>
        rw [show m.service.insert row.1.srvId _ = none from
          Table.insert_eq_none.mpr (by rw [hrow]; rfl)]
        exact .inl rfl
    | none =>
        rw [Table.insert_of_none hrow]
        by_cases hsid : sid = row.1.srvId
        · subst hsid
          exact .inr ⟨hrow, _, Function.update_self .., rfl⟩
        · exact .inl (Function.update_of_ne hsid ..)
  · exact .inl rfl

theorem Monitor.foldl_loadService_service {gid : Nat}
    {rows : List (ServiceTable × Monitor.RecordFate)} :
    (rows.foldl (loadService gid) m).service sid = m.service sid ∨
      (m.service sid = none ∧
        ∃ r, (rows.foldl (loadService gid) m).service sid = some r ∧
          r.gid = UInt32.ofNat gid) := by
  induction rows generalizing m with
  | nil => exact .inl rfl
  | cons row rest ih =>
      rw [List.foldl_cons]
      obtain hrest | ⟨hnone, r, hr, hgid⟩ :=
        @ih (loadService gid m row)
      · rw [hrest]
        exact loadService_service
      · rw [hr]
        obtain hsame | ⟨-, r', hr', -⟩ :=
          @loadService_service m sid gid row
        · exact .inr ⟨hsame ▸ hnone, r, rfl, hgid⟩
        · rw [hr'] at hnone
          cases hnone

/-- The records after some groups: one for every id seen so far, with the first
group that has it. -/
structure LoadedUpTo (L : Layout) (n : Nat) (m : Monitor) : Prop where
  isSome : ∀ sid, (m.service sid).isSome ↔ ∃ k < n, L.HasId k sid
  gid : ∀ sid r, m.service sid = some r →
    ∃ g < n, FirstGroup L sid g ∧ r.gid = UInt32.ofNat g

theorem LoadedUpTo.loadGroup (h : LoadedUpTo L n m)
    (hmutex : ∀ g i, (fate g i).mutex = true) :
    LoadedUpTo L (n + 1) (Monitor.loadGroup fate m (L.conf n, n)) := by
  have hsome (sid : UInt32) :
      ((Monitor.loadGroup fate m (L.conf n, n)).service sid).isSome ↔
        (m.service sid).isSome ∨ L.HasId n sid := by
    rw [Monitor.loadGroup, Monitor.foldl_loadService_isSome, hasId_iff_row]
    simp [zipIdx_service, hmutex]
  constructor
  · intro sid
    rw [hsome, h.isSome]
    constructor
    · rintro (⟨k, hk, hid⟩ | hid)
      · exact ⟨k, by omega, hid⟩
      · exact ⟨n, by omega, hid⟩
    · rintro ⟨k, hk, hid⟩
      rcases Nat.lt_succ_iff_lt_or_eq.mp hk with hlt | rfl
      · exact .inl ⟨k, hlt, hid⟩
      · exact .inr hid
  · intro sid r hr
    obtain hsame | ⟨hnone, r', hr', hgid⟩ :
        (Monitor.loadGroup fate m (L.conf n, n)).service sid = m.service sid ∨
          _ := Monitor.foldl_loadService_service
    · rw [hsame] at hr
      obtain ⟨g, hg, hfirst, hgid⟩ := h.gid sid r hr
      exact ⟨g, by omega, hfirst, hgid⟩
    · obtain rfl : r' = r := Option.some.inj (hr'.symm.trans hr)
      have hbefore (k : Nat) (hk : k < n) : ¬L.HasId k sid := by
        intro hid
        have := (h.isSome sid).mpr ⟨k, hk, hid⟩
        rw [hnone] at this
        cases this
      have hhere : L.HasId n sid := by
        have := (hsome sid).mp (by rw [hr]; rfl)
        rw [hnone] at this
        simpa using this
      exact ⟨n, by omega, ⟨hhere, hbefore⟩, hgid⟩

/-- Where no mutex fails, the records are those of the ids of the layout, each
with the first group that has the id. -/
theorem Monitor.onLoadBefore_loaded (hmutex : ∀ g i, (fate g i).mutex = true) :
    LoadedUpTo L L.size (Monitor.initial.onLoadBefore L fate) := by
  rw [onLoadBefore, zipIdx_group, List.foldl_map]
  generalize L.size = n
  induction n with
  | zero =>
      exact ⟨fun sid => by simp [initial], fun sid r hr => by cases hr⟩
  | succ n ih =>
      rw [List.range_succ, List.foldl_append]
      exact ih.loadGroup hmutex

end Walk

end Powerpack
end Eaf

import Eaf.Powerpack.MonitorLoad

/-!
# Iterators and the tables

The iterators cannot tell an empty group: its first service is handed out, and
the comparison with `size - 1` does not stop them.  Where every group has a
service they pass each service once and in order, and the monitor has one
record for every id, with the group that the record names as long as a group
index fits into its field.
-/

namespace Eaf
namespace Powerpack

open Core

/-- The nested loops end, and they have passed every service of the tables
once, in order, and nothing else. -/
def IteratesRight (L : Layout) : Prop :=
  ∃ fuel seen, visitServices L fuel = some seen ∧ seen = L.positions ∧
    seen.Nodup ∧ ∀ p, p ∈ seen ↔ p.1 < L.size ∧ p.2 < (L.conf p.1).size

/-- The monitor has walked over the tables, and its records are those of the
ids in them, each with the index of the group that has the id first. -/
def LoadsRight (L : Layout) : Prop :=
  ∀ fate : Nat → Nat → Monitor.RecordFate,
    (∀ g i, (fate g i).mutex = true) →
    ∃ fuel m, Monitor.walkLoadBefore L fate fuel Monitor.initial = some m ∧
      (∀ sid, (m.service sid).isSome ↔ ∃ g, L.HasId g sid) ∧
      ∀ sid r, m.service sid = some r →
        r.sid = sid ∧ FirstGroup L sid r.gid.toNat

section Iterators

variable {L : Layout} {g : Nat} {sid : UInt32}

theorem iteratesRight (hsized : L.Sized) (hpos : 0 < L.size)
    (hfull : L.NoEmptyGroup) : IteratesRight L := by
  obtain ⟨fuel, hfuel⟩ := L.exists_fuel
  exact ⟨fuel, L.positions, visitServices_eq hsized hpos hfull hfuel, rfl,
    Layout.nodup_positions, fun p => Layout.mem_positions⟩

/-- The first element of an empty group is no service. -/
theorem IteratesRight.noEmptyGroup (h : IteratesRight L) (hsized : L.Sized) :
    L.NoEmptyGroup := by
  obtain ⟨fuel, seen, hvisit, -, -, hmem⟩ := h
  intro g hg
  have hfirst := mem_visitServices hsized hg hvisit
  exact ((hmem (g, 0)).mp hfirst).2

/-- Only the groups of the table have ids. -/
theorem hasId_lt_size (h : L.HasId g sid) : g < L.size := by
  obtain ⟨i, hi, -⟩ := hasId_iff_row.mp h
  exact Layout.lt_size_of_lt hi

theorem FirstGroup.unique {h : Nat} (hg : FirstGroup L sid g)
    (hh : FirstGroup L sid h) : g = h := by
  rcases Nat.lt_trichotomy g h with hlt | heq | hlt
  · exact absurd hg.1 (hh.2 g hlt)
  · exact heq
  · exact absurd hh.1 (hg.2 h hlt)

/-- A group index that is not too large survives the conversion. -/
theorem toNat_ofNat_gid (h : g < 2 ^ 32) : (UInt32.ofNat g).toNat = g := by
  simpa using h

theorem loadsRight_iff (hsized : L.Sized) (hpos : 0 < L.size)
    (hfull : L.NoEmptyGroup) :
    LoadsRight L ↔ ∀ sid g, FirstGroup L sid g → g < 2 ^ 32 := by
  obtain ⟨fuel, hfuel⟩ := L.exists_fuel
  constructor
  · intro hload sid g hfirst
    obtain ⟨fuel', m, hwalk, hsome, hright⟩ :=
      hload (fun _ _ => ⟨true, 0⟩) fun _ _ => rfl
    obtain ⟨r, hr⟩ := Option.isSome_iff_exists.mp
      ((hsome sid).mpr ⟨g, hfirst.1⟩)
    have heq := hfirst.unique (hright sid r hr).2
    rw [heq]
    exact r.gid.toNat_lt
  · intro hsmall fate hmutex
    have hwalk : Monitor.walkLoadBefore L fate fuel Monitor.initial =
        some (Monitor.initial.onLoadBefore L fate) :=
      Monitor.walkLoadBefore_eq hsized hpos hfull hfuel
    have hloaded := Monitor.onLoadBefore_loaded (L := L) hmutex
    refine ⟨fuel, _, hwalk, fun sid => ?_, fun sid r hr => ?_⟩
    · rw [hloaded.isSome]
      constructor
      · rintro ⟨k, -, hid⟩
        exact ⟨k, hid⟩
      · rintro ⟨k, hid⟩
        exact ⟨k, hasId_lt_size hid, hid⟩
    · obtain ⟨g, hg, hfirst, hgid⟩ := hloaded.gid sid r hr
      have hfresh := Monitor.fresh_onLoadBefore L fate sid r hr
      rw [hgid, toNat_ofNat_gid (hsmall sid g hfirst)]
      exact ⟨hfresh.1, hfirst⟩

/-- **Iterators.**  For a context with a group, the nested loops pass exactly
the services of the tables, and the monitor has made exactly one record for
every id with its group, exactly if no group is empty and the group of every
id fits into a record. -/
theorem iterators_right_iff (hsized : L.Sized) (hpos : 0 < L.size) :
    IteratesRight L ∧ LoadsRight L ↔
      L.NoEmptyGroup ∧ ∀ sid g, FirstGroup L sid g → g < 2 ^ 32 := by
  constructor
  · rintro ⟨hiterate, hload⟩
    have hfull := hiterate.noEmptyGroup hsized
    exact ⟨hfull, (loadsRight_iff hsized hpos hfull).mp hload⟩
  · rintro ⟨hfull, hsmall⟩
    exact ⟨iteratesRight hsized hpos hfull,
      (loadsRight_iff hsized hpos hfull).mpr hsmall⟩

end Iterators

/-- Two groups, which share an id. -/
def sharingGroups : Layout :=
  ⟨[⟨[⟨1, 4, 0, none⟩, ⟨2, 4, 0, none⟩]⟩, ⟨[⟨2, 4, 0, none⟩]⟩], 1⟩

theorem sized_of_length {L : Layout} (hsize : L.size ≤ sizeMax)
    (hall : ∀ c ∈ L.group, c.size ≤ sizeMax) : L.Sized := by
  refine ⟨hsize, fun g => ?_⟩
  unfold Layout.conf
  rw [List.getD_eq_getElem?_getD]
  cases hc : L.group[g]? with
  | none => exact Nat.zero_le _
  | some c => exact hall c (List.mem_of_getElem? hc)

theorem sharingGroups_iterated :
    IteratesRight sharingGroups ∧ LoadsRight sharingGroups := by
  have hsized : sharingGroups.Sized :=
    sized_of_length (by decide) (by decide)
  have hfull : ∀ g < 2, 0 < (sharingGroups.conf g).size := by decide
  refine (iterators_right_iff hsized (by decide)).mpr ⟨hfull, ?_⟩
  intro sid g hfirst
  have hg : g < 2 := hasId_lt_size hfirst.1
  omega

/-- A single group without services. -/
def emptyGroup : Layout := ⟨[⟨[]⟩], 1⟩

/-- The iterators hand out a service of the empty group. -/
theorem emptyGroup_not_iterated :
    emptyGroup.Sized ∧ 0 < emptyGroup.size ∧ ¬IteratesRight emptyGroup := by
  have hsized : emptyGroup.Sized := sized_of_length (by decide) (by decide)
  refine ⟨hsized, by decide, fun h => ?_⟩
  exact absurd (h.noEmptyGroup hsized 0 (by decide)) (by decide)

end Powerpack
end Eaf

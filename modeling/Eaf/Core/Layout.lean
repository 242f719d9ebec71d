import Mathlib.Data.List.GetD
import Eaf.Core.Message

/-!
# The configured layout

The configure tables handed to `eaf_init`, with the entry point that
`eaf_register` attached to each row before `eaf_load`, and the lookup
`_eaf_service_find_service` over them.  None of this changes after start-up,
so it is a parameter of the running system.
-/

namespace Eaf
namespace Core

/-- `eaf_message_table_t` -/
structure MessageTable where
  msgId : UInt32
  fn : Fn
  deriving DecidableEq, Repr

/-- `eaf_entrypoint_t`.  The two callbacks are arbitrary user code and are
represented by the steps of the worker that runs them. -/
structure Entrypoint where
  msgTable : List MessageTable
  deriving DecidableEq, Repr

/-- `eaf_service_table_t` plus the `entry` of the service built from it. -/
structure ServiceTable where
  srvId : UInt32
  /-- `msgq_size` -/
  msgqSize : UInt32
  attributes : UInt32
  /-- `none` while nothing was registered -/
  entry : Option Entrypoint
  deriving DecidableEq, Repr

/-- `eaf_service_attribute_alive` -/
def attributeAlive : UInt32 := 0x01

/-- `eaf_service_attribute_lazyload` -/
def attributeLazyload : UInt32 := 0x02

/-- `mask.alive` -/
def ServiceTable.alive (t : ServiceTable) : Bool :=
  t.attributes &&& attributeAlive != 0

/-- `mask.lazyload` -/
def ServiceTable.lazyload (t : ServiceTable) : Bool :=
  t.attributes &&& attributeLazyload != 0

/-- A row that does not exist. -/
def ServiceTable.none : ServiceTable := ⟨0, 0, 0, Option.none⟩

/-- `eaf_group_table_t` -/
structure GroupTable where
  service : List ServiceTable
  deriving DecidableEq, Repr

/-- The number of services of a group. -/
def GroupTable.size (c : GroupTable) : Nat := c.service.length

/-- A row of the table. -/
def GroupTable.row (c : GroupTable) (i : Nat) : ServiceTable :=
  c.service.getD i .none

/-- The row exists and an entry point is attached to it. -/
def GroupTable.Registered (c : GroupTable) (i : Nat) : Prop :=
  i < c.size ∧ (c.row i).entry.isSome

instance (c : GroupTable) (i : Nat) : Decidable (c.Registered i) :=
  inferInstanceAs (Decidable (_ ∧ _))

/-- The group table and the number of threads of the process that are not
group workers.  Thread `0` is the one that runs `eaf_load` and
`eaf_cleanup`. -/
structure Layout where
  group : List GroupTable
  clients : Nat
  deriving DecidableEq, Repr

/-- The number of groups. -/
def Layout.size (L : Layout) : Nat := L.group.length

/-- A group of the table. -/
def Layout.conf (L : Layout) (g : Nat) : GroupTable :=
  L.group.getD g ⟨[]⟩

/-- Only the groups of the table have services. -/
theorem Layout.lt_size_of_lt {L : Layout} {g i : Nat}
    (h : i < (L.conf g).size) : g < L.size := by
  by_contra hg
  have hconf : L.conf g = ⟨[]⟩ :=
    List.getD_eq_default _ _ (Nat.le_of_not_lt hg)
  rw [hconf] at h
  exact absurd h (by simp [GroupTable.size])

theorem Layout.lt_size_of_registered {L : Layout} {g i : Nat}
    (h : (L.conf g).Registered i) : g < L.size :=
  Layout.lt_size_of_lt h.1

/-! ## Lookup -/

/-- The nested loops of `_eaf_service_find_service`, from group `g` on: the
first row with the id decides, and an unregistered row is not found. -/
def findServiceFrom (id : UInt32) : List GroupTable → Nat → Option (Nat × Nat)
  | [], _ => none
  | c :: rest, g =>
      match c.service.findIdx? fun t => t.srvId == id with
      | some i => if c.Registered i then some (g, i) else none
      | none => findServiceFrom id rest (g + 1)

/-- `_eaf_service_find_service`. -/
def findService (L : Layout) (id : UInt32) : Option (Nat × Nat) :=
  findServiceFrom id L.group 0

/-- The search of `_eaf_send_req` for the handler of a message id: the first
row with the id decides, and a null handler counts as none. -/
def findHandler (entry : Option Entrypoint) (msgId : UInt32) : Option Fn :=
  match entry with
  | none => none
  | some e =>
      match e.msgTable.find? fun row => row.msgId == msgId with
      | none => none
      | some row => if row.fn = 0 then none else some row.fn

theorem findServiceFrom_some {id : UInt32} {groups : List GroupTable}
    {base g i : Nat} (h : findServiceFrom id groups base = some (g, i)) :
    ∃ k, g = base + k ∧ ∃ c, groups[k]? = some c ∧ c.Registered i ∧
      (c.row i).srvId = id := by
  induction groups generalizing base with
  | nil => simp [findServiceFrom] at h
  | cons c rest ih =>
      simp only [findServiceFrom] at h
      cases hfind : c.service.findIdx? fun t => t.srvId == id with
      | none =>
          rw [hfind] at h
          obtain ⟨k, rfl, c', hc', hreg⟩ := ih h
          exact ⟨k + 1, by omega, c', by simpa using hc', hreg⟩
      | some j =>
          rw [hfind] at h
          obtain ⟨hreg, rfl, rfl⟩ :
              c.Registered j ∧ base = g ∧ j = i := by
            simpa using h
          obtain ⟨hlt, hid, -⟩ := List.findIdx?_eq_some_iff_getElem.mp hfind
          refine ⟨0, rfl, c, rfl, hreg, ?_⟩
          rw [GroupTable.row, List.getD_eq_getElem _ _ hlt]
          exact eq_of_beq hid

/-- A service that is found exists, is registered and has the id. -/
theorem findService_some {L : Layout} {id : UInt32} {g i : Nat}
    (h : findService L id = some (g, i)) :
    g < L.size ∧ (L.conf g).Registered i ∧ ((L.conf g).row i).srvId = id := by
  obtain ⟨k, hk, c, hc, hreg, hid⟩ := findServiceFrom_some h
  obtain rfl : g = k := by omega
  have hconf : L.conf g = c := by
    simp [Layout.conf, List.getD_eq_getElem?_getD, hc]
  have hlt : g < L.group.length := (List.getElem?_eq_some_iff.mp hc).1
  exact ⟨hlt, by rw [hconf]; exact hreg, by rw [hconf]; exact hid⟩

end Core
end Eaf

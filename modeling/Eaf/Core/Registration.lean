import Eaf.Core.ServiceGroup

/-!
# Registration

Between `eaf_init` and `eaf_load` the entry points are attached to the services
by `eaf_register`.  It has a search of its own over the group tables, which
leaves the inner loop at the first service with the id but goes on with the
next group, where `_eaf_service_find_service` returns.
-/

namespace Eaf
namespace Core

/-- `_eaf_init_service`: the service of a row has no entry point yet. -/
def ServiceTable.init (info : ServiceTable) : ServiceTable :=
  { info with entry := Option.none }

/-- The services of one group in `_eaf_init_group`. -/
def GroupTable.init (info : GroupTable) : GroupTable :=
  ⟨info.service.map ServiceTable.init⟩

/-- `service->entry = entry` for a row of a group. -/
def Layout.attach (L : Layout) (g i : Nat) (entry : Entrypoint) : Layout :=
  { L with
    group := L.group.modify g fun c =>
      ⟨c.service.modify i fun row => { row with entry := some entry }⟩ }

/-- The inner loop of both searches: the first service of a group with the
id. -/
def GroupTable.find (c : GroupTable) (id : UInt32) : Option Nat :=
  c.service.findIdx? fun row => row.srvId == id

/-- The nested loops of `eaf_register` from group `g` on, with the variable
`service`. -/
def registerSearchFrom (id : UInt32) :
    List GroupTable → Nat → Option (Nat × Nat) → Option (Nat × Nat)
  | [], _, service => service
  | c :: rest, g, service =>
      -- the `break` leaves the inner loop only
      registerSearchFrom id rest (g + 1)
        (match c.find id with
        | some i => some (g, i)
        | none => service)

/-- The service that `eaf_register` selects. -/
def registerSearch (L : Layout) (id : UInt32) : Option (Nat × Nat) :=
  registerSearchFrom id L.group 0 none

/-- What `eaf_register` reads of the context: its state, and the services with
their entry points. -/
structure StartCtx where
  state : CtxState
  layout : Layout

/-- The arguments of `eaf_register`, and the answer of the hook
`on_service_register` if there is one. -/
structure RegisterArgs where
  id : UInt32
  /-- `entry->on_init` -/
  onInit : Fn
  /-- `entry->on_exit` -/
  onExit : Fn
  entry : Entrypoint
  hook : Option Int
  deriving DecidableEq, Repr

namespace StartCtx

/-- After `eaf_init`. -/
def initial (info : Layout) : StartCtx :=
  ⟨.init, { info with group := info.group.map GroupTable.init }⟩

/-- `eaf_register` -/
def eafRegister (s : StartCtx) (a : RegisterArgs) : Int × StartCtx :=
  if s.state ≠ .init then (Errno.state, s)
  else if a.onInit = 0 ∨ a.onExit = 0 then (Errno.invalid, s)
  else
    match registerSearch s.layout a.id with
    | none => (Errno.notfound, s)
    | some (g, i) =>
        if ((s.layout.conf g).row i).entry.isSome then (Errno.duplicate, s)
        else if a.hook.getD 0 < 0 then (a.hook.getD 0, s)
        else
          (Errno.success, { s with layout := s.layout.attach g i a.entry })

end StartCtx

/-- What the application does between `eaf_init` and `eaf_cleanup`, as far as
the entry points depend on it. -/
inductive StartCall
  /-- `eaf_register` -/
  | register (a : RegisterArgs)
  /-- `eaf_load`, `eaf_teardown` or `eaf_exit` changes the state. -/
  | enter (state : CtxState)
  deriving DecidableEq, Repr

namespace StartCtx

/-- One call. -/
def call (s : StartCtx) : StartCall → StartCtx
  | .register a => (s.eafRegister a).2
  | .enter state => { s with state := state }

/-- A sequence of calls. -/
def after (s : StartCtx) (calls : List StartCall) : StartCtx :=
  calls.foldl call s

end StartCtx

/-! ## The two searches -/

section Search

variable {L : Layout} {id : UInt32} {g i : Nat} {groups : List GroupTable}
  {base : Nat} {service : Option (Nat × Nat)}

/-- The group has a service with the id. -/
def Layout.HasId (L : Layout) (g : Nat) (id : UInt32) : Prop :=
  ((L.conf g).find id).isSome

instance (L : Layout) (g : Nat) (id : UInt32) : Decidable (L.HasId g id) :=
  inferInstanceAs (Decidable (_ = true))

/-- No id occurs in two groups. -/
def Layout.IdsInOneGroup (L : Layout) : Prop :=
  ∀ id g h, L.HasId g id → L.HasId h id → g = h

theorem Layout.hasId_iff :
    L.HasId g id ↔ ∃ c, L.group[g]? = some c ∧ (c.find id).isSome := by
  unfold Layout.HasId Layout.conf
  rw [List.getD_eq_getElem?_getD]
  cases hc : L.group[g]? with
  | none => simp [GroupTable.find]
  | some c => simp

/-- A search that has found something goes on to a last group. -/
theorem registerSearchFrom_isSome :
    (registerSearchFrom id groups base service).isSome ↔
      service.isSome ∨ ∃ c ∈ groups, (c.find id).isSome := by
  induction groups generalizing base service with
  | nil => simp [registerSearchFrom]
  | cons c rest ih =>
      rw [registerSearchFrom, ih]
      cases hfind : c.find id with
      | none => simp [hfind]
      | some i => simp [hfind]

/-- The search of `eaf_register` ends with the last group that has the id. -/
theorem registerSearchFrom_some
    (h : registerSearchFrom id groups base service = some (g, i)) :
    (service = some (g, i) ∧ ∀ c ∈ groups, c.find id = none) ∨
      ∃ k c, g = base + k ∧ groups[k]? = some c ∧ c.find id = some i ∧
        ∀ k' c', k < k' → groups[k']? = some c' → c'.find id = none := by
  induction groups generalizing base service with
  | nil => exact .inl ⟨h, by simp⟩
  | cons c rest ih =>
      rw [registerSearchFrom] at h
      obtain ⟨hservice, hrest⟩ | ⟨k, c', rfl, hc', hi, hlast⟩ := ih h
      · cases hfind : c.find id with
        | none =>
            rw [hfind] at hservice
            exact .inl ⟨hservice, by simpa [hfind] using hrest⟩
        | some j =>
            rw [hfind] at hservice
            obtain ⟨rfl, rfl⟩ : base = g ∧ j = i := by simpa using hservice
            refine .inr ⟨0, c, rfl, rfl, hfind, ?_⟩
            intro k' c' hk' hc'
            obtain ⟨k, rfl⟩ : ∃ k, k' = k + 1 := ⟨k' - 1, by omega⟩
            exact hrest c' (List.mem_of_getElem? hc')
      · refine .inr ⟨k + 1, c', by omega, hc', hi, ?_⟩
        intro k' c'' hk' hc''
        obtain ⟨k'', rfl⟩ : ∃ k'', k' = k'' + 1 := ⟨k' - 1, by omega⟩
        exact hlast k'' c'' (by omega) hc''

theorem registerSearch_some (h : registerSearch L id = some (g, i)) :
    (L.conf g).find id = some i ∧ ∀ k, g < k → ¬L.HasId k id := by
  obtain ⟨hnone, -⟩ | ⟨k, c, hk, hc, hi, hlast⟩ := registerSearchFrom_some h
  · cases hnone
  · obtain rfl : g = k := by omega
    constructor
    · rw [Layout.conf, List.getD_eq_getElem?_getD, hc]
      exact hi
    · intro k' hk' hid
      obtain ⟨c', hc', hsome⟩ := Layout.hasId_iff.mp hid
      rw [hlast k' c' hk' hc'] at hsome
      cases hsome

theorem registerSearch_isSome (h : L.HasId g id) :
    (registerSearch L id).isSome := by
  obtain ⟨c, hc, hsome⟩ := Layout.hasId_iff.mp h
  exact registerSearchFrom_isSome.mpr
    (.inr ⟨c, List.mem_of_getElem? hc, hsome⟩)

/-- The search of `_eaf_service_find_service` is decided by the first group
that has the id. -/
theorem findServiceFrom_eq {k : Nat} {c : GroupTable}
    (hc : groups[k]? = some c) (hi : c.find id = some i)
    (hfirst : ∀ k' c', k' < k → groups[k']? = some c' → c'.find id = none) :
    findServiceFrom id groups base =
      if c.Registered i then some (base + k, i) else none := by
  induction groups generalizing base k with
  | nil => simp at hc
  | cons c₀ rest ih =>
      cases k with
      | zero =>
          obtain rfl : c₀ = c := by simpa using hc
          rw [GroupTable.find] at hi
          simp only [findServiceFrom, hi, Nat.add_zero]
      | succ k =>
          have hnone := hfirst 0 c₀ (by omega) rfl
          rw [GroupTable.find] at hnone
          simp only [findServiceFrom, hnone]
          rw [ih hc fun k' c' hk' hc' => hfirst (k' + 1) c' (by omega) hc']
          congr 3
          omega

theorem findService_eq (hi : (L.conf g).find id = some i)
    (hfirst : ∀ k, k < g → ¬L.HasId k id) :
    findService L id =
      if (L.conf g).Registered i then some (g, i) else none := by
  obtain ⟨c, hc, -⟩ := Layout.hasId_iff.mp
    (show L.HasId g id by rw [Layout.HasId, hi]; rfl)
  have hconf : L.conf g = c := by
    simp [Layout.conf, List.getD_eq_getElem?_getD, hc]
  rw [hconf] at hi ⊢
  rw [findService, findServiceFrom_eq hc hi, Nat.zero_add]
  intro k' c' hk' hc'
  by_contra hne
  exact hfirst k' hk'
    (Layout.hasId_iff.mpr ⟨c', hc', Option.isSome_iff_ne_none.mpr hne⟩)

end Search

/-! ## The entry points along the calls -/

section Entries

variable {L : Layout} {s : StartCtx} {a : RegisterArgs} {id : UInt32}
  {g i k j : Nat} {entry : Entrypoint} {calls : List StartCall}

theorem GroupTable.lt_size_of_find {c : GroupTable} (h : c.find id = some i) :
    i < c.size :=
  (List.findIdx?_eq_some_iff_getElem.mp h).1

theorem Layout.conf_attach :
    (L.attach g i entry).conf k =
      if k = g then
        ⟨(L.conf k).service.modify i fun row =>
          { row with entry := some entry }⟩
      else L.conf k := by
  unfold Layout.attach Layout.conf
  simp only [List.getD_eq_getElem?_getD, List.getElem?_modify]
  by_cases hk : k = g
  · subst hk
    cases L.group[k]? <;> simp
  · have hk' : ¬g = k := fun h => hk h.symm
    cases L.group[k]? <;> simp [hk, hk']

/-- The ids of a group decide its search. -/
theorem GroupTable.find_congr {c c' : GroupTable}
    (h : c.service.map ServiceTable.srvId = c'.service.map ServiceTable.srvId) :
    c.find id = c'.find id := by
  have key (d : GroupTable) :
      d.find id = (d.service.map ServiceTable.srvId).findIdx? (· == id) := by
    rw [List.findIdx?_map]
    rfl
  rw [key c, key c', h]

/-- Attaching an entry point changes no id. -/
theorem Layout.find_attach :
    ((L.attach g i entry).conf k).find id = (L.conf k).find id := by
  rw [Layout.conf_attach]
  split
  · refine GroupTable.find_congr (List.ext_getElem? fun j => ?_)
    rw [List.getElem?_map, List.getElem?_map, List.getElem?_modify]
    cases (L.conf k).service[j]? with
    | none => rfl
    | some row => by_cases hj : i = j <;> simp [hj]
  · rfl

/-- Only one row gets an entry point. -/
theorem Layout.entry_attach (hi : i < (L.conf g).size) :
    (((L.attach g i entry).conf k).row j).entry =
      if k = g ∧ j = i then some entry else ((L.conf k).row j).entry := by
  rw [Layout.conf_attach]
  by_cases hk : k = g
  · subst hk
    rw [if_pos rfl]
    unfold GroupTable.row
    simp only [List.getD_eq_getElem?_getD, List.getElem?_modify]
    by_cases hj : j = i
    · subst hj
      simp [List.getElem?_eq_getElem hi]
    · have hj' : ¬i = j := fun h => hj h.symm
      cases (L.conf k).service[j]? <;> simp [hj, hj']
  · simp [hk]

namespace StartCtx

/-- Everything a call of `eaf_register` can do: it leaves the context alone, or
it attaches the entry point to the service of its search, which had none. -/
theorem eafRegister_cases :
    ((s.eafRegister a).1 ≠ Errno.success ∧ (s.eafRegister a).2 = s) ∨
      ∃ g i, (s.eafRegister a).1 = Errno.success ∧
        registerSearch s.layout a.id = some (g, i) ∧
        ((s.layout.conf g).row i).entry = none ∧
        (s.eafRegister a).2 =
          { s with layout := s.layout.attach g i a.entry } := by
  unfold eafRegister
  split
  · exact .inl ⟨show Errno.state ≠ Errno.success by decide, rfl⟩
  split
  · exact .inl ⟨show Errno.invalid ≠ Errno.success by decide, rfl⟩
  cases hsearch : registerSearch s.layout a.id with
  | none => exact .inl ⟨show Errno.notfound ≠ Errno.success by decide, rfl⟩
  | some found =>
      obtain ⟨g, i⟩ := found
      dsimp only
      split
      · exact .inl ⟨show Errno.duplicate ≠ Errno.success by decide, rfl⟩
      split
      · next hhook =>
          have hcode : a.hook.getD 0 ≠ Errno.success := by
            show a.hook.getD 0 ≠ 0
            omega
          exact .inl ⟨hcode, rfl⟩
      · next hentry _ =>
          exact .inr ⟨g, i, rfl, rfl, by simpa using hentry, rfl⟩

/-- What a context keeps for ever: the ids, and an entry point once it is
attached. -/
structure Extends (s t : StartCtx) : Prop where
  find : ∀ g id, (t.layout.conf g).find id = (s.layout.conf g).find id
  entry : ∀ g i e, ((s.layout.conf g).row i).entry = some e →
    ((t.layout.conf g).row i).entry = some e

theorem Extends.refl : Extends s s := ⟨fun _ _ => rfl, fun _ _ _ h => h⟩

theorem Extends.trans {t u : StartCtx} (h : Extends s t) (h' : Extends t u) :
    Extends s u where
  find g id := (h'.find g id).trans (h.find g id)
  entry g i e he := h'.entry g i e (h.entry g i e he)

theorem extends_attach (hi : i < (s.layout.conf g).size)
    (hnone : ((s.layout.conf g).row i).entry = none) :
    Extends s { s with layout := s.layout.attach g i entry } where
  find _ _ := Layout.find_attach
  entry k j e he := by
    rw [Layout.entry_attach hi]
    split
    · next h =>
        obtain ⟨rfl, rfl⟩ := h
        rw [hnone] at he
        cases he
    · exact he

theorem extends_eafRegister : Extends s (s.eafRegister a).2 := by
  obtain ⟨-, heq⟩ | ⟨g, i, -, hsearch, hnone, heq⟩ := s.eafRegister_cases
  · rw [heq]
    exact .refl
  · rw [heq]
    have hfind := (registerSearch_some hsearch).1
    exact extends_attach (GroupTable.lt_size_of_find hfind) hnone

theorem extends_after : Extends s (s.after calls) := by
  unfold after
  induction calls generalizing s with
  | nil => exact .refl
  | cons c rest ih =>
      rw [List.foldl_cons]
      refine Extends.trans ?_ ih
      cases c with
      | register a => exact extends_eafRegister
      | enter state => exact ⟨fun _ _ => rfl, fun _ _ _ h => h⟩

/-- The ids decide which groups have one. -/
theorem Extends.hasId_iff {t : StartCtx} (h : Extends s t) :
    t.layout.HasId g id ↔ s.layout.HasId g id := by
  unfold Layout.HasId
  rw [h.find]

/-- The ids decide the search of `eaf_register`. -/
theorem Extends.registerSearch_eq {t : StartCtx} (h : Extends s t) :
    registerSearch t.layout id = registerSearch s.layout id := by
  cases hs : registerSearch s.layout id with
  | none =>
      cases ht : registerSearch t.layout id with
      | none => rfl
      | some found =>
          obtain ⟨g, i⟩ := found
          have hfind := (registerSearch_some ht).1
          rw [h.find] at hfind
          have := registerSearch_isSome
            (show s.layout.HasId g id by rw [Layout.HasId, hfind]; rfl)
          simp [hs] at this
  | some found =>
      obtain ⟨g, i⟩ := found
      obtain ⟨hfind, hlast⟩ := registerSearch_some hs
      have hid : t.layout.HasId g id := by
        rw [h.hasId_iff, Layout.HasId, hfind]
        rfl
      obtain ⟨⟨k, j⟩, ht⟩ := Option.isSome_iff_exists.mp
        (registerSearch_isSome hid)
      obtain ⟨hfind', hlast'⟩ := registerSearch_some ht
      have hid' : s.layout.HasId k id := by
        rw [← h.hasId_iff, Layout.HasId, hfind']
        rfl
      obtain rfl : k = g := by
        rcases Nat.lt_trichotomy k g with hlt | heq | hlt
        · exact absurd hid (hlast' g hlt)
        · exact heq
        · exact absurd hid' (hlast k hlt)
      rw [h.find, hfind] at hfind'
      obtain rfl : i = j := Option.some.inj hfind'
      exact ht

end StartCtx

end Entries

end Core
end Eaf

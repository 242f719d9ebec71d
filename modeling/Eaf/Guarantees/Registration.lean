import Mathlib.Data.Nat.Find
import Eaf.Core.Registration

/-!
# What is registered is found

A lookup stops at the first group that has the id, and `eaf_register` attaches
the entry point to a service of the last one.  So the two agree exactly if no
id occurs in two groups.  Within one group both take the first service, and a
second registration always meets the entry point of the first.
-/

namespace Eaf
namespace Core

namespace StartCtx

/-- What a successful registration promises: a service without an entry point
has got it, every later lookup of the id finds this service with this entry
point, and no later registration of the id succeeds. -/
def RegisterKept (s : StartCtx) (a : RegisterArgs) : Prop :=
  (s.eafRegister a).1 = Errno.success →
    ∃ g i, ((s.layout.conf g).row i).entry = none ∧
      ∀ later : List StartCall,
        let t := (s.eafRegister a).2.after later
        findService t.layout a.id = some (g, i) ∧
          ((t.layout.conf g).row i).entry = some a.entry ∧
          ∀ b : RegisterArgs, b.id = a.id →
            (t.eafRegister b).1 ≠ Errno.success

/-- The promise holds after every sequence of calls. -/
def RegistersKept (info : Layout) : Prop :=
  ∀ (calls : List StartCall) (a : RegisterArgs),
    ((initial info).after calls).RegisterKept a

end StartCtx

section Lookup

variable {s t : StartCtx} {a b : RegisterArgs} {g i : Nat} {info : Layout}
  {id : UInt32} {entry : Entrypoint}

open StartCtx

theorem GroupTable.entry_init {c : GroupTable} :
    (c.init.row i).entry = none := by
  unfold GroupTable.row GroupTable.init
  rw [List.getD_eq_getElem?_getD, List.getElem?_map]
  cases c.service[i]? <;> rfl

theorem StartCtx.conf_initial :
    (initial info).layout.conf g = (info.conf g).init := by
  simp only [initial, Layout.conf, List.getD_eq_getElem?_getD,
    List.getElem?_map]
  cases info.group[g]? <;> rfl

/-- `eaf_init` keeps the ids. -/
theorem StartCtx.hasId_initial :
    (initial info).layout.HasId g id ↔ info.HasId g id := by
  have hfind : ((initial info).layout.conf g).find id =
      (info.conf g).find id := by
    rw [conf_initial]
    apply GroupTable.find_congr
    rw [GroupTable.init, List.map_map]
    rfl
  rw [Layout.HasId, Layout.HasId, hfind]

/-- Once the service of the search has an entry point, no registration of the
id succeeds. -/
theorem StartCtx.eafRegister_refused
    (hsearch : registerSearch t.layout b.id = some (g, i))
    (hentry : ((t.layout.conf g).row i).entry = some entry) :
    (t.eafRegister b).1 ≠ Errno.success := by
  obtain ⟨hcode, -⟩ | ⟨k, j, -, hsearch', hnone, -⟩ := t.eafRegister_cases
  · exact hcode
  · obtain ⟨rfl, rfl⟩ : g = k ∧ i = j := by
      simpa [hsearch] using hsearch'
    rw [hentry] at hnone
    cases hnone

/-- Where the id occurs in one group only, a registration is kept. -/
theorem StartCtx.registerKept
    (hone : ∀ g h, s.layout.HasId g a.id → s.layout.HasId h a.id → g = h) :
    s.RegisterKept a := by
  intro hsuccess
  obtain ⟨hcode, -⟩ | ⟨g, i, -, hsearch, hnone, heq⟩ := s.eafRegister_cases
  · exact absurd hsuccess hcode
  have hfind := (registerSearch_some hsearch).1
  have hi := GroupTable.lt_size_of_find hfind
  have hid : s.layout.HasId g a.id := by
    rw [Layout.HasId, hfind]
    rfl
  refine ⟨g, i, hnone, fun later => ?_⟩
  have hafter : (((s.eafRegister a).2.layout.conf g).row i).entry =
      some a.entry := by
    rw [heq]
    exact (Layout.entry_attach hi).trans (if_pos ⟨rfl, rfl⟩)
  have hlater : Extends (s.eafRegister a).2 ((s.eafRegister a).2.after later) :=
    extends_after
  have hext : Extends s ((s.eafRegister a).2.after later) :=
    extends_eafRegister.trans hlater
  have hentry := hlater.entry g i a.entry hafter
  refine ⟨?_, hentry, fun b hb => ?_⟩
  · have hfind' : ((((s.eafRegister a).2.after later).layout).conf g).find
        a.id = some i := by rw [hext.find, hfind]
    rw [findService_eq hfind' fun k hk hhas =>
      absurd (hone k g (hext.hasId_iff.mp hhas) hid) (by omega)]
    exact if_pos ⟨GroupTable.lt_size_of_find hfind', by rw [hentry]; rfl⟩
  · refine eafRegister_refused ?_ hentry
    rw [hb, hext.registerSearch_eq, hsearch]

/-- The arguments of a call that nothing speaks against. -/
def plainArgs (id : UInt32) : RegisterArgs := ⟨id, 1, 1, ⟨[]⟩, none⟩

/-- On the fresh table, a call registers the service of its search. -/
theorem StartCtx.eafRegister_plain
    (h : registerSearch (initial info).layout id = some (g, i)) :
    ((initial info).eafRegister (plainArgs id)).1 = Errno.success ∧
      ((initial info).eafRegister (plainArgs id)).2 =
        { initial info with
          layout := (initial info).layout.attach g i ⟨[]⟩ } := by
  have hnone : (((initial info).layout.conf g).row i).entry = none := by
    rw [conf_initial, GroupTable.entry_init]
  have hstate : ¬(initial info).state ≠ CtxState.init := fun h => h rfl
  have hfn : ¬((1 : Fn) = 0 ∨ (1 : Fn) = 0) := by decide
  simp only [eafRegister, plainArgs, h, hnone, hstate, hfn, if_false,
    Option.isSome_none, Bool.false_eq_true, Option.getD_none,
    show ¬(0 : Int) < 0 by decide, and_self]

/-- Where an id occurs in two groups, the lookup misses the registered
service. -/
theorem StartCtx.not_registerKept {h : Nat} (hg : info.HasId g id)
    (hh : info.HasId h id) (hne : g ≠ h) :
    ¬(initial info).RegisterKept (plainArgs id) := by
  classical
  intro hkept
  have hex : ∃ k, (initial info).layout.HasId k id :=
    ⟨g, hasId_initial.mpr hg⟩
  -- the first group with the id decides the lookup, and it is not the last
  have hfirst := Nat.find_spec hex
  obtain ⟨⟨l, j⟩, hsearch⟩ := Option.isSome_iff_exists.mp
    (registerSearch_isSome hfirst)
  have hbelow : Nat.find hex < l := by
    have hlast := (registerSearch_some hsearch).2
    have hming := Nat.find_min' hex (hasId_initial.mpr hg)
    have hminh := Nat.find_min' hex (hasId_initial.mpr hh)
    have hgl : g ≤ l := by
      by_contra hlt
      exact hlast g (by omega) (hasId_initial.mpr hg)
    have hhl : h ≤ l := by
      by_contra hlt
      exact hlast h (by omega) (hasId_initial.mpr hh)
    omega
  obtain ⟨hcode, heq⟩ := eafRegister_plain hsearch
  obtain ⟨k, j', -, hlater⟩ := hkept hcode
  obtain ⟨hfound, -⟩ := hlater []
  have hlookup : findService
      ((initial info).layout.attach l j ⟨[]⟩) id = none := by
    obtain ⟨i, hi⟩ := Option.isSome_iff_exists.mp hfirst
    have hmin (k : Nat) (hk : k < Nat.find hex) :
        ¬((initial info).layout.attach l j ⟨[]⟩).HasId k id := by
      rw [Layout.HasId, Layout.find_attach]
      exact Nat.find_min hex hk
    rw [findService_eq (Layout.find_attach.trans hi) hmin]
    refine if_neg fun hreg => ?_
    have hentry := hreg.2
    rw [Layout.conf_attach, if_neg (by omega), conf_initial,
      GroupTable.entry_init] at hentry
    cases hentry
  rw [heq] at hfound
  exact absurd (hlookup.symm.trans hfound) (by simp)

/-- **Registration.**  Every entry point whose registration succeeds is found
by every later lookup, and is the only one for its id, exactly for the tables
in which no id occurs in two groups. -/
theorem registers_kept_iff (info : Layout) :
    RegistersKept info ↔ info.IdsInOneGroup := by
  constructor
  · intro hkept id g h hg hh
    by_contra hne
    exact not_registerKept hg hh hne (hkept [] (plainArgs id))
  · intro hone calls a
    have hext : Extends (initial info) ((initial info).after calls) :=
      extends_after
    refine registerKept fun g h hg hh => hone a.id g h ?_ ?_
    · exact hasId_initial.mp (hext.hasId_iff.mp hg)
    · exact hasId_initial.mp (hext.hasId_iff.mp hh)

/-- Two groups with one service each, of one id. -/
def sharedId : Layout :=
  ⟨[⟨[⟨7, 4, 0, none⟩]⟩, ⟨[⟨7, 4, 0, none⟩]⟩], 1⟩

/-- The registration succeeds, and the lookup of the id fails. -/
theorem registered_not_found :
    ¬RegistersKept sharedId ∧
      let r := (initial sharedId).eafRegister (plainArgs 7)
      r.1 = Errno.success ∧ findService r.2.layout 7 = none := by
  have hg : sharedId.HasId 0 7 := by decide
  have hh : sharedId.HasId 1 7 := by decide
  constructor
  · intro hkept
    exact not_registerKept hg hh (by decide) (hkept [] (plainArgs 7))
  · decide

end Lookup

end Core
end Eaf

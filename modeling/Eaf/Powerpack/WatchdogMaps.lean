import Eaf.Powerpack.Watchdog
import Mathlib.Data.List.Nodup

/-!
# The maps of the watchdog

The three maps are in order, and every record in them belongs to its entry of
the watch list.  Each kind of statement keeps this, provided that a record
changes only while it is in no map.
-/

namespace Eaf
namespace Powerpack

open Core LabelledRun

variable {T : List WatchItem} {s s' t : Watchdog} {m m' : MapName}
  {r r' : Nat} {c : Stmt} {cs : List Stmt} {xs : List Nat}

/-! ## The comparison functions -/

/-- A code that is decided by a first comparison, and else by a second one. -/
theorem lexCode {K J : Type*} [LinearOrder K] [LinearOrder J] {k k' : K}
    {j j' : J} {ret tie : Int} (hneg : ret < 0 ↔ k < k')
    (hpos : 0 < ret ↔ k' < k) (htie : tie < 0 ↔ j < j') :
    (if ret ≠ 0 then ret else tie) < 0 ↔ toLex (k, j) < toLex (k', j') := by
  rw [Prod.Lex.toLex_lt_toLex]
  split
  · next hne =>
    constructor
    · exact fun h => .inl (hneg.mp h)
    · rintro (h | ⟨rfl, -⟩)
      · exact hneg.mpr h
      · have hlt := hneg.not.mpr (lt_irrefl k)
        have hgt := hpos.not.mpr (lt_irrefl k)
        omega
  · next hzero =>
    have hsame : k = k' :=
      le_antisymm (not_lt.mp (hpos.not.mp (by omega)))
        (not_lt.mp (hneg.not.mp (by omega)))
    subst hsame
    rw [htie]
    simp

/-- Such a code is negative the other way round. -/
theorem lexCode_pos {K J : Type*} [LinearOrder K] [LinearOrder J] {k k' : K}
    {j j' : J} {ret tie : Int} (hneg : ret < 0 ↔ k < k')
    (hpos : 0 < ret ↔ k' < k) (htie : 0 < tie ↔ j' < j) :
    0 < (if ret ≠ 0 then ret else tie) ↔ toLex (k', j') < toLex (k, j) := by
  have hlex : (if -ret ≠ 0 then -ret else -tie) < 0 ↔
      toLex (k', j') < toLex (k, j) :=
    lexCode (by rw [← hpos]; omega) (by rw [← hneg]; omega)
      (by rw [← htie]; omega)
  rw [← hlex]
  split <;> split <;> omega

/-- The comparison of two numbers. -/
theorem tieCode_neg {a b : Nat} :
    (if a = b then (0 : Int) else if a < b then -1 else 1) < 0 ↔ a < b := by
  split
  · omega
  · split <;> omega

theorem tieCode_pos {a b : Nat} :
    0 < (if a = b then (0 : Int) else if a < b then -1 else 1) ↔ b < a := by
  split
  · omega
  · split <;> omega

namespace Watchdog

theorem cmpBegin_eq (T : List WatchItem) (s : Watchdog) (r r' : Nat) :
    s.cmpBegin T r r' =
      if (timeDiffclock (s.record r).beginTime (s.record r').beginTime).1 ≠ 0
      then (timeDiffclock (s.record r).beginTime (s.record r').beginTime).1
      else if (s.item T r).sid.toNat = (s.item T r').sid.toNat then 0
      else if (s.item T r).sid.toNat < (s.item T r').sid.toNat then -1
      else 1 := by
  simp only [cmpBegin, UInt32.toNat_inj, UInt32.lt_iff_toNat_lt]

/-- What `_watchdog_on_cmp_begin` compares. -/
def beginKey (T : List WatchItem) (s : Watchdog) (r : Nat) :
    (ℕ ×ₗ ℕ) ×ₗ ℕ :=
  toLex ((s.record r).beginTime.key, (s.item T r).sid.toNat)

/-- What `_watchdog_on_cmp_end` compares. -/
def endKey (s : Watchdog) (r : Nat) : (ℕ ×ₗ ℕ) ×ₗ ℕ :=
  toLex ((s.record r).endTime.key, (s.record r).recAt)

theorem cmpBegin_neg (T : List WatchItem) (s : Watchdog) (r r' : Nat) :
    s.cmpBegin T r r' < 0 ↔ s.beginKey T r < s.beginKey T r' := by
  rw [cmpBegin_eq]
  exact lexCode timeDiffclock_neg timeDiffclock_pos tieCode_neg

theorem cmpBegin_pos (T : List WatchItem) (s : Watchdog) (r r' : Nat) :
    0 < s.cmpBegin T r r' ↔ s.beginKey T r' < s.beginKey T r := by
  rw [cmpBegin_eq]
  exact lexCode_pos timeDiffclock_neg timeDiffclock_pos tieCode_pos

theorem cmpEnd_neg (s : Watchdog) (r r' : Nat) :
    s.cmpEnd r r' < 0 ↔ s.endKey r < s.endKey r' :=
  lexCode timeDiffclock_neg timeDiffclock_pos tieCode_neg

theorem cmpEnd_pos (s : Watchdog) (r r' : Nat) :
    0 < s.cmpEnd r r' ↔ s.endKey r' < s.endKey r :=
  lexCode_pos timeDiffclock_neg timeDiffclock_pos tieCode_pos

theorem cmpToken_neg (s : Watchdog) (r r' : Nat) :
    s.cmpToken r r' < 0 ↔ (s.record r).token < (s.record r').token := by
  rw [cmpToken]
  omega

theorem cmpToken_pos (s : Watchdog) (r r' : Nat) :
    0 < s.cmpToken r r' ↔ (s.record r').token < (s.record r).token := by
  rw [cmpToken]
  omega

/-- The comparison functions are good for ordering the maps. -/
theorem cmp_consistent (T : List WatchItem) (s : Watchdog) (m : MapName) :
    SortedMap.Consistent (s.cmp T m) := by
  cases m with
  | idleStack => exact .of_key _ (s.cmpBegin_neg T) (s.cmpBegin_pos T)
  | busyStack => exact .of_key _ s.cmpEnd_neg s.cmpEnd_pos
  | busyTable => exact .of_key _ s.cmpToken_neg s.cmpToken_pos

/-! ## The parts of the context -/

@[simp] theorem setMap_map (s : Watchdog) (m m' : MapName) (xs : List Nat) :
    (s.setMap m xs).map m' = if m' = m then xs else s.map m' := by
  cases m <;> cases m' <;> rfl

@[simp] theorem setMap_records (s : Watchdog) (m : MapName) (xs : List Nat) :
    (s.setMap m xs).records = s.records := by
  cases m <;> rfl

@[simp] theorem setMap_record (s : Watchdog) (m : MapName) (xs : List Nat)
    (r : Nat) : (s.setMap m xs).record r = s.record r := by
  rw [record, setMap_records]
  rfl

@[simp] theorem setMap_item (s : Watchdog) (m : MapName) (xs : List Nat)
    (r : Nat) : (s.setMap m xs).item T r = s.item T r := by
  rw [item, setMap_record]
  rfl

/-- The comparisons of records that stay the same. -/
theorem cmp_congr {a b : Nat} (ha : s'.record a = s.record a)
    (hb : s'.record b = s.record b) (m : MapName) :
    s'.cmp T m a b = s.cmp T m a b := by
  cases m with
  | idleStack =>
      show s'.cmpBegin T a b = s.cmpBegin T a b
      unfold cmpBegin item
      rw [ha, hb]
  | busyStack =>
      show s'.cmpEnd a b = s.cmpEnd a b
      unfold cmpEnd
      rw [ha, hb]
  | busyTable =>
      show s'.cmpToken a b = s.cmpToken a b
      unfold cmpToken
      rw [ha, hb]

@[simp] theorem setMap_cmp (s : Watchdog) (m m' : MapName) (xs : List Nat) :
    (s.setMap m xs).cmp T m' = s.cmp T m' := by
  funext a b
  exact cmp_congr (setMap_record ..) (setMap_record ..) m'

/-- The entries of the watch list that init goes through have different service
ids. -/
def Distinct (T : List WatchItem) : Prop :=
  ((T.take (intSize T.length)).map (·.sid)).Nodup

theorem intSize_le (size : Nat) : intSize size ≤ size := by
  unfold intSize
  split
  · exact Nat.mod_le _ _
  · exact Nat.zero_le _

theorem Distinct.of_nodup (h : (T.map (·.sid)).Nodup) : Distinct T :=
  h.sublist ((List.take_sublist ..).map _)

/-- The maps are in order, and their records are known. -/
structure InOrder (T : List WatchItem) (s : Watchdog) : Prop where
  room : ∃ records, s.records = some records ∧ records.length = T.length
  known : ∀ m, ∀ r ∈ s.map m, r < intSize T.length ∧
    (s.record r).recAt = r + 1 ∧ (s.record r).token = r
  ordered : ∀ m, SortedMap.Sorted (s.cmp T m) (s.map m)
  apart : ∀ r ∈ s.idleStack, r ∉ s.busyStack

theorem InOrder.nodup (h : InOrder T s) (m : MapName) : (s.map m).Nodup :=
  (h.ordered m).nodup (cmp_consistent T s m)

/-- The record is in no map. -/
def Free (s : Watchdog) (r : Nat) : Prop := ∀ m, r ∉ s.map m

/-- A record is taken out of a map. -/
theorem InOrder.erase (h : InOrder T s) (hr : r ∈ s.map m) :
    s.erase m r = some (s.setMap m ((s.map m).erase r)) ∧
      InOrder T (s.setMap m ((s.map m).erase r)) := by
  refine ⟨if_pos hr, ?_, ?_, ?_, ?_⟩
  · rw [setMap_records]
    exact h.room
  · intro m' r' hr'
    rw [setMap_record]
    rw [setMap_map] at hr'
    split at hr'
    · exact h.known m r' (List.mem_of_mem_erase hr')
    · exact h.known m' r' hr'
  · intro m'
    rw [setMap_cmp, setMap_map]
    split
    · next heq =>
      subst heq
      exact (h.ordered m').erase r
    · exact h.ordered m'
  · intro r' hr' hbusy
    have hidle : r' ∈ s.idleStack := by
      cases m
      · exact List.mem_of_mem_erase hr'
      · exact hr'
      · exact hr'
    have hstack : r' ∈ s.busyStack := by
      cases m
      · exact hbusy
      · exact List.mem_of_mem_erase hbusy
      · exact hbusy
    exact h.apart r' hidle hstack

/-- Records of different entries of the list differ for every map. -/
theorem cmp_ne_zero (hsids : Distinct T) (hr : r < intSize T.length)
    (hr' : r' < intSize T.length) (hne : r ≠ r')
    (hrec : (s.record r).recAt = r + 1)
    (hrec' : (s.record r').recAt = r' + 1) (htoken : (s.record r).token = r)
    (htoken' : (s.record r').token = r') (m : MapName) :
    s.cmp T m r r' ≠ 0 := by
  have hlt := hr.trans_le (intSize_le _)
  have hlt' := hr'.trans_le (intSize_le _)
  cases m with
  | idleStack =>
      have hsid : (s.item T r).sid ≠ (s.item T r').sid := by
        intro heq
        have hlength :
            ((T.take (intSize T.length)).map (·.sid)).length =
              intSize T.length := by
          rw [List.length_map, List.length_take, min_eq_left (intSize_le _)]
        have hi : r < ((T.take (intSize T.length)).map (·.sid)).length := by
          rwa [hlength]
        have hj : r' < ((T.take (intSize T.length)).map (·.sid)).length := by
          rwa [hlength]
        have hget : ((T.take (intSize T.length)).map (·.sid)).get ⟨r, hi⟩ =
            ((T.take (intSize T.length)).map (·.sid)).get ⟨r', hj⟩ := by
          simpa [item, hrec, hrec', hlt, hlt'] using heq
        exact hne ((List.Nodup.getElem_inj_iff hsids).mp hget)
      rw [cmp, cmpBegin]
      split
      · next hret => exact hret
      · split <;> decide
  | busyStack =>
      have hat : (s.record r).recAt ≠ (s.record r').recAt := by omega
      rw [cmp, cmpEnd]
      split
      · next hret => exact hret
      · split <;> decide
  | busyTable =>
      rw [cmp, cmpToken]
      omega

/-- A record that is known, not linked and not equal to any other goes into a
map. -/
theorem InOrder.insert (h : InOrder T s) (hr : r < intSize T.length)
    (hrec : (s.record r).recAt = r + 1) (htoken : (s.record r).token = r)
    (hlinked : s.linked r m = false)
    (hnew : ∀ x ∈ s.map m, s.cmp T m r x ≠ 0) :
    ∃ xs, s.insert T m r = some (s.setMap m xs) ∧
      xs.Perm (r :: s.map m) ∧ InOrder T (s.setMap m xs) := by
  obtain ⟨xs, hxs, hsorted, hperm⟩ :=
    (h.ordered m).insert (cmp_consistent T s m) hnew
  refine ⟨xs, ?_, hperm, ?_, ?_, ?_, ?_⟩
  · simp only [Watchdog.insert, hlinked, Bool.false_eq_true, if_false, hxs,
      Option.map_some]
  · rw [setMap_records]
    exact h.room
  · intro m' r' hr'
    rw [setMap_record]
    rw [setMap_map] at hr'
    split at hr'
    · rcases List.mem_cons.mp (hperm.subset hr') with rfl | hold
      · exact ⟨hr, hrec, htoken⟩
      · exact h.known m r' hold
    · exact h.known m' r' hr'
  · intro m'
    rw [setMap_cmp, setMap_map]
    split
    · next heq =>
      subst heq
      exact hsorted
    · exact h.ordered m'
  · intro r' hidle hbusy
    cases m with
    | idleStack =>
        rcases List.mem_cons.mp (hperm.subset hidle) with rfl | hold
        · simp only [linked, Bool.or_eq_false_iff, decide_eq_false_iff_not]
            at hlinked
          exact hlinked.2 hbusy
        · exact h.apart r' hold hbusy
    | busyStack =>
        rcases List.mem_cons.mp (hperm.subset hbusy) with rfl | hold
        · simp only [linked, Bool.or_eq_false_iff, decide_eq_false_iff_not]
            at hlinked
          exact hlinked.1 hidle
        · exact h.apart r' hidle hold
    | busyTable => exact h.apart r' hidle hbusy

/-- With different service ids, all that a record needs is to be known and not
linked. -/
theorem InOrder.insert_distinct (h : InOrder T s) (hsids : Distinct T)
    (hr : r < intSize T.length) (hrec : (s.record r).recAt = r + 1)
    (htoken : (s.record r).token = r) (hlinked : s.linked r m = false) :
    ∃ xs, s.insert T m r = some (s.setMap m xs) ∧
      xs.Perm (r :: s.map m) ∧ InOrder T (s.setMap m xs) := by
  have hnotin : r ∉ s.map m := by
    cases m <;> simp_all [linked, map]
  refine h.insert hr hrec htoken hlinked fun x hx => ?_
  obtain ⟨hlt, hrec', htoken'⟩ := h.known m x hx
  refine cmp_ne_zero hsids hr hlt ?_ hrec hrec' htoken htoken' m
  rintro rfl
  exact hnotin hx

/-- What a change of one record leaves alone. -/
structure ChangesOnly (s s' : Watchdog) (r : Nat)
    (f : WatchdogRecord → WatchdogRecord) : Prop where
  map : ∀ m, s'.map m = s.map m
  self : s'.record r = f (s.record r)
  other : ∀ r', r' ≠ r → s'.record r' = s.record r'
  fn : s'.fn = s.fn
  arg : s'.arg = s.arg
  size : s'.size = s.size

/-- A record that is in no map may change. -/
theorem InOrder.setRecord (h : InOrder T s) (hr : r < T.length)
    (hfree : s.Free r) (f : WatchdogRecord → WatchdogRecord) :
    ∃ s', s.setRecord r f = some s' ∧ ChangesOnly s s' r f ∧
      InOrder T s' := by
  obtain ⟨records, hrecords, hlength⟩ := h.room
  have hlt : r < records.length := hlength ▸ hr
  have hself : ((records.modify r f).getD r .zero) = f (records.getD r .zero) := by
    simp [List.getD_eq_getElem?_getD, hlt]
  have hother : ∀ r', r' ≠ r →
      (records.modify r f).getD r' .zero = records.getD r' .zero := by
    intro r' hne
    simp [List.getD_eq_getElem?_getD, Ne.symm hne]
  have hset : s.setRecord r f =
      some { s with records := some (records.modify r f) } := by
    simp only [Watchdog.setRecord, hrecords, if_pos hlt]
  have honly : ChangesOnly s { s with records := some (records.modify r f) }
      r f := by
    refine ⟨fun m => by cases m <;> rfl, ?_, fun r' hne => ?_, rfl, rfl, rfl⟩
    · simp only [record, hrecords, Option.getD_some]
      exact hself
    · simp only [record, hrecords, Option.getD_some]
      exact hother r' hne
  refine ⟨_, hset, honly, ⟨_, rfl, ?_⟩, ?_, ?_, h.apart⟩
  · rw [List.length_modify]
    exact hlength
  · intro m r' hr'
    rw [honly.map] at hr'
    rw [honly.other r' fun heq => hfree m (heq ▸ hr')]
    exact h.known m r' hr'
  · intro m
    rw [honly.map]
    refine (h.ordered m).congr fun a ha b hb => ?_
    exact cmp_congr (honly.other a fun heq => hfree m (heq ▸ ha))
      (honly.other b fun heq => hfree m (heq ▸ hb)) m

end Watchdog

end Powerpack
end Eaf

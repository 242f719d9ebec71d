import Mathlib.Data.List.Nodup
import Mathlib.Logic.Function.Basic
import Mathlib.Tactic.Push

/-!
# Ledgers

A ledger says how much of something is at each of finitely many places.  A
step of a system touches few places; the rules below say how the total follows
from what happens at these, and what a total says about a single place.
-/

namespace Ledger

variable {ι : Type*} {places : List ι} {f g : ι → Nat} {a : ι}

/-- How much there is altogether. -/
def total : List ι → (ι → Nat) → Nat
  | [], _ => 0
  | a :: places, f => f a + total places f

@[simp] theorem total_nil (f : ι → Nat) : total [] f = 0 := rfl

@[simp] theorem total_cons (a : ι) (places : List ι) (f : ι → Nat) :
    total (a :: places) f = f a + total places f := rfl

@[simp] theorem total_append (places more : List ι) (f : ι → Nat) :
    total (places ++ more) f = total places f + total more f := by
  induction places with
  | nil => simp
  | cons a rest ih =>
      rw [List.cons_append, total_cons, total_cons, ih]
      omega

/-- Only the entries at the places count. -/
theorem total_congr (h : ∀ b ∈ places, g b = f b) :
    total places g = total places f := by
  induction places with
  | nil => rfl
  | cons b rest ih =>
      rw [total_cons, total_cons, h b (by simp)]
      rw [ih fun b' hb' => h b' (by simp [hb'])]

/-- When one entry changes, the total changes by as much. -/
theorem total_change (hnodup : places.Nodup) (ha : a ∈ places)
    (h : ∀ b, b ≠ a → g b = f b) :
    total places g + f a = total places f + g a := by
  induction places with
  | nil => simp at ha
  | cons b rest ih =>
      obtain ⟨hb, hrest⟩ := List.nodup_cons.mp hnodup
      rw [total_cons, total_cons]
      rcases List.mem_cons.mp ha with rfl | hmem
      · have hsame : total rest g = total rest f :=
          total_congr fun b' hb' => h b' fun heq => hb (heq ▸ hb')
        omega
      · have hne : b ≠ a := fun heq => hb (heq ▸ hmem)
        have hrest := ih hrest hmem
        rw [h b hne]
        omega

/-- The total does not grow when no entry does. -/
theorem total_mono (h : ∀ b ∈ places, g b ≤ f b) :
    total places g ≤ total places f := by
  induction places with
  | nil => exact Nat.le_refl _
  | cons b rest ih =>
      rw [total_cons, total_cons]
      exact Nat.add_le_add (h b (by simp)) (ih fun b' hb' => h b' (by simp [hb']))

/-- When one entry grows by at most `k` and no other one grows, the total grows
by at most `k`. -/
theorem total_le_add {k : Nat} (hnodup : places.Nodup)
    (h : ∀ b, b ≠ a → g b ≤ f b) (ha : g a ≤ f a + k) :
    total places g ≤ total places f + k := by
  induction places with
  | nil => simp
  | cons b rest ih =>
      obtain ⟨hb, hrest⟩ := List.nodup_cons.mp hnodup
      rw [total_cons, total_cons]
      by_cases hba : b = a
      · subst hba
        have hmono : total rest g ≤ total rest f :=
          total_mono fun c hc => h c fun heq => hb (heq ▸ hc)
        omega
      · have hentry := h b hba
        have htotal := ih hrest
        omega

/-- An entry is part of the total. -/
theorem le_total (ha : a ∈ places) : f a ≤ total places f := by
  induction places with
  | nil => simp at ha
  | cons b rest ih =>
      rw [total_cons]
      rcases List.mem_cons.mp ha with rfl | hmem
      · exact Nat.le_add_right _ _
      · exact Nat.le_trans (ih hmem) (Nat.le_add_left _ _)

/-- A total is zero when every entry is. -/
theorem total_eq_zero : total places f = 0 ↔ ∀ b ∈ places, f b = 0 := by
  induction places with
  | nil => simp
  | cons b rest ih => simp [ih]

/-- When entries are at most one, so many places are empty as the total lacks. -/
theorem total_le_length (h : ∀ b ∈ places, f b ≤ 1) :
    total places f ≤ places.length := by
  induction places with
  | nil => simp
  | cons b rest ih =>
      have hb := h b (by simp)
      have hrest := ih fun b' hb' => h b' (by simp [hb'])
      simp only [total_cons, List.length_cons]
      omega

theorem exists_zero_of_total_lt (hlt : total places f < places.length) :
    ∃ b ∈ places, f b = 0 := by
  by_contra hnone
  push Not at hnone
  have hle : places.length ≤ total places f := by
    clear hlt
    induction places with
    | nil => simp
    | cons b rest ih =>
        have hb := hnone b (by simp)
        have hrest := ih fun b' hb' => hnone b' (by simp [hb'])
        simp only [total_cons, List.length_cons]
        omega
  omega

/-- A full ledger has something everywhere. -/
theorem pos_of_total_eq_length (h : ∀ b ∈ places, f b ≤ 1)
    (hfull : total places f = places.length) (ha : a ∈ places) : 0 < f a := by
  induction places with
  | nil => simp at ha
  | cons b rest ih =>
      have hb := h b (by simp)
      have hle := total_le_length fun b' hb' => h b' (List.mem_cons_of_mem b hb')
      simp only [total_cons, List.length_cons] at hfull
      rcases List.mem_cons.mp ha with rfl | hmem
      · omega
      · exact ih (fun b' hb' => h b' (by simp [hb'])) (by omega) hmem

/-! ## Balanced accounts -/

section Accounts

variable {κ : Type*} {held held' : ι → κ → Nat} {count count' : κ → Nat}
  {k : κ} {b : ι}

/-- For every kind of thing, what is held at finitely many places makes up the
count; nothing is held anywhere else. -/
def Balances (held : ι → κ → Nat) (count : κ → Nat) : Prop :=
  ∃ places : List ι, places.Nodup ∧ (∀ a, a ∉ places → ∀ k, held a k = 0) ∧
    ∀ k, total places (fun a => held a k) = count k

theorem balances_zero : Balances (fun (_ : ι) (_ : κ) => 0) fun _ => 0 :=
  ⟨[], .nil, by simp, by simp⟩

/-- What is held somewhere is counted. -/
theorem Balances.le (h : Balances held count) (a : ι) (k : κ) :
    held a k ≤ count k := by
  obtain ⟨places, -, hout, htotal⟩ := h
  by_cases ha : a ∈ places
  · rw [← htotal k]
    exact le_total (f := fun a => held a k) ha
  · rw [hout a ha k]
    exact Nat.zero_le _

/-- When nothing is counted, nothing is held. -/
theorem Balances.eq_zero (h : Balances held count) (hk : count k = 0) (a : ι) :
    held a k = 0 :=
  Nat.le_zero.mp (hk ▸ h.le a k)

/-- One place and the count change by as much. -/
theorem Balances.change [DecidableEq ι] (h : Balances held count) (a : ι)
    (hsame : ∀ b, b ≠ a → held' b = held b)
    (hcount : ∀ k, count' k + held a k = count k + held' a k) :
    Balances held' count' := by
  obtain ⟨places, hnodup, hout, htotal⟩ := h
  by_cases ha : a ∈ places
  · refine ⟨places, hnodup, fun b hb k => ?_, fun k => ?_⟩
    · rw [hsame b fun heq => hb (heq ▸ ha)]
      exact hout b hb k
    · have hchange := total_change (f := fun b => held b k)
        (g := fun b => held' b k) hnodup ha fun b hb => by rw [hsame b hb]
      have hk := hcount k
      have ht := htotal k
      omega
  · refine ⟨a :: places, List.nodup_cons.mpr ⟨ha, hnodup⟩, fun b hb k => ?_,
      fun k => ?_⟩
    · rw [List.mem_cons, not_or] at hb
      rw [hsame b hb.1]
      exact hout b hb.2 k
    · have hrest : total places (fun b => held' b k) =
          total places fun b => held b k :=
        total_congr fun b hb => by rw [hsame b fun heq => ha (heq ▸ hb)]
      have hk := hcount k
      have ht := htotal k
      have hzero := hout a ha k
      rw [total_cons, hrest]
      omega

/-- Two places and the count change by as much. -/
theorem Balances.change₂ [DecidableEq ι] (h : Balances held count)
    (hab : a ≠ b) (hsame : ∀ c, c ≠ a → c ≠ b → held' c = held c)
    (hcount : ∀ k, count' k + (held a k + held b k) =
      count k + (held' a k + held' b k)) :
    Balances held' count' := by
  -- first one of the places, with a count for what it gets or gives
  have hle : ∀ k, held b k ≤ count k := fun k => h.le b k
  have hfirst : Balances (Function.update held b (held' b))
      fun k => count k - held b k + held' b k := by
    refine h.change b (fun c hc => Function.update_of_ne hc ..) fun k => ?_
    have hk := hle k
    rw [Function.update_self]
    omega
  refine hfirst.change a (fun c hc => ?_) fun k => ?_
  · by_cases hcb : c = b
    · subst hcb
      exact (Function.update_self c (held' c) held).symm
    · rw [Function.update_of_ne hcb]
      exact hsame c hc hcb
  · have hk := hcount k
    have hk' := hle k
    rw [Function.update_of_ne hab]
    omega

end Accounts

end Ledger

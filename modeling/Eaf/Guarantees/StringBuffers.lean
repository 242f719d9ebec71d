import Mathlib.Algebra.BigOperators.Ring.Finset
import Eaf.Powerpack.StringApply

/-!
# Text that is put together in a buffer

Any number of calls of `eaf_string_apply` with one token.
-/

namespace Eaf
namespace Powerpack

variable {size token : Nat} {buffer : Nat → Char} {text : List Char}
  {fragments : List (List Char)}

/-- The buffer and the token after calls that make `fragments`, and what the
calls have returned. -/
def stringApplyAll (size : Nat) : (Nat → Char) → Option Nat → List (List Char) →
    (Nat → Char) × Option Nat × List Int
  | buffer, token, [] => (buffer, token, [])
  | buffer, token, text :: rest =>
      let (buffer, token, writeSize) := eafStringApplyInt buffer size token text
      let (buffer, token, returns) := stringApplyAll size buffer token rest
      (buffer, token, writeSize :: returns)

/-- What the calls return adds up to the length of the whole text. -/
theorem sum_lengths (fragments : List (List Char)) :
    (fragments.map fun s => (s.length : Int)).sum =
      (fragments.flatten.length : Int) := by
  rw [List.length_flatten, Nat.cast_list_sum, List.map_map]
  rfl

/-- All calls together write the fragments, nothing behind the buffer, and
return the length of each. -/
theorem Written.applyAll (h : Written size buffer token text) (hsize : 0 < size)
    (hlength : ∀ s ∈ fragments, s.length < 2 ^ 31) :
    ∃ buffer' token', stringApplyAll size buffer (some token) fragments =
        (buffer', some token', fragments.map fun s => (s.length : Int)) ∧
      Written size buffer' token' (text ++ fragments.flatten) ∧
      (fragments ≠ [] →
        buffer' (min (text ++ fragments.flatten).length (size - 1)) = nul) ∧
      ∀ i, size ≤ i → buffer' i = buffer i := by
  induction fragments generalizing buffer token text with
  | nil =>
      refine ⟨buffer, token, rfl, ?_, fun hne => absurd rfl hne, fun _ _ => rfl⟩
      rw [List.flatten_nil, List.append_nil]
      exact h
  | cons s rest ih =>
      have hfirst : eafStringApplyInt buffer size (some token) s = _ :=
        eafStringApplyInt_eq (hlength s List.mem_cons_self) (some token)
      have happly : Written size _ _ (text ++ s) := h.apply hsize
      obtain ⟨buffer', token', hrest, hwritten, hends, houtside⟩ :=
        ih happly fun s hs => hlength s (List.mem_cons_of_mem _ hs)
      refine ⟨buffer', token', ?_, ?_, fun _ => ?_, fun i hi => ?_⟩
      · rw [stringApplyAll, hfirst]
        have hsome : (eafStringApply buffer size (some token) s).2.1 =
            some ((eafStringApply buffer size (some token) s).2.1.getD 0) := rfl
        rw [hsome]
        simp only [hrest]
        rfl
      · rw [List.flatten_cons, ← List.append_assoc]
        exact hwritten
      · rw [List.flatten_cons, ← List.append_assoc]
        cases rest with
        | nil =>
            obtain ⟨rfl, -⟩ := Prod.mk.inj hrest
            rw [List.flatten_nil, List.append_nil]
            exact h.ends_apply hsize
        | cons s' rest' => exact hends (List.cons_ne_nil s' rest')
      · rw [houtside i hi]
        have htoken := h.token_eq
        exact vsnprintf_outside (by simp only [Option.getD_some]; omega)

/-- After any calls of `eaf_string_apply` with one token that starts as 0, the
results add up to the length of the whole text, the buffer holds as much of the
text as fits and a NUL, the token is the length of the text, or the size of the
buffer if the text does not fit, and nothing is written outside the buffer. -/
theorem fragments_joined (hsize : 0 < size) (hne : fragments ≠ [])
    (hnul : ∀ s ∈ fragments, nul ∉ s) (hlength : ∀ s ∈ fragments, s.length < 2 ^ 31) :
    ∃ buffer' token' returns,
      stringApplyAll size buffer (some 0) fragments = (buffer', some token', returns) ∧
      returns.sum = (fragments.flatten.length : Int) ∧
      (∀ i < min fragments.flatten.length (size - 1),
        buffer' i = fragments.flatten.getD i nul) ∧
      Strlen buffer' (min fragments.flatten.length (size - 1)) ∧
      token' = (if fragments.flatten.length < size then fragments.flatten.length
        else size) ∧
      ∀ i, size ≤ i → buffer' i = buffer i := by
  have hstart : Written size buffer 0 [] := .nil
  obtain ⟨buffer', token', hcalls, hwritten, hends, houtside⟩ :=
    hstart.applyAll hsize hlength
  rw [List.nil_append] at hwritten hends
  have htoken := hwritten.token_eq
  refine ⟨buffer', token', _, hcalls, sum_lengths fragments, hwritten.shown,
    ⟨hends hne, fun i hi heq => ?_⟩, ?_, houtside⟩
  · -- no fragment contains a NUL
    have hlt : i < fragments.flatten.length := by omega
    rw [hwritten.shown i hi, List.getD_eq_getElem _ _ hlt] at heq
    have hmem : nul ∈ fragments.flatten := by
      rw [← heq]
      exact List.getElem_mem hlt
    obtain ⟨s, hs, hin⟩ := List.mem_flatten.mp hmem
    exact hnul s hs hin
  · split <;> omega

/-- Two fragments for a buffer of four bytes, the second of which is cut off. -/
theorem fragments_joined_cut : ∃ buffer' token' returns,
    stringApplyAll 4 (fun _ => '?') (some 0) ["ab".toList, "cde".toList] =
      (buffer', some token', returns) ∧ returns.sum = 5 ∧
    (∀ i < 3, buffer' i = "abcde".toList.getD i nul) ∧ Strlen buffer' 3 ∧
    token' = 4 ∧ ∀ i, 4 ≤ i → buffer' i = '?' :=
  fragments_joined (by decide) (by decide) (by decide) (by decide)

end Powerpack
end Eaf

import Mathlib.Algebra.Group.Nat.Defs
import Mathlib.Data.List.GetD

/-!
# Text that is appended to a buffer

`eaf_string_apply` of `string.c`, and what is in a buffer after any number of
calls with one token: all of the text, or as much as fits, and a NUL.
-/

namespace Eaf
namespace Powerpack

/-- The NUL that ends a text. -/
def nul : Char := '\x00'

/-- `vsnprintf` with a format that makes `text`: what is in the buffer
afterwards.  Nothing is written where no room is left. -/
def vsnprintf (buffer : Nat → Char) (startPos leftSize : Nat) (text : List Char)
    (i : Nat) : Char :=
  if leftSize = 0 ∨ i < startPos then buffer i
  else if i < startPos + min text.length (leftSize - 1) then
    text.getD (i - startPos) nul
  else if i = startPos + min text.length (leftSize - 1) then nul
  else buffer i

/-- `eaf_string_apply`: what is in the buffer afterwards, the token and the
number of characters that the text has. -/
def eafStringApply (buffer : Nat → Char) (size : Nat) (token : Option Nat)
    (text : List Char) : (Nat → Char) × Option Nat × Nat :=
  let startPos := token.getD 0
  let leftSize := size - token.getD 0
  (vsnprintf buffer startPos leftSize text,
    token.map fun token =>
      if text.length ≥ leftSize then size else token + text.length,
    text.length)

/-- What `vsnprintf` returns: a length beyond `INT_MAX` is no length. -/
def vsnprintfReturn (text : List Char) : Int :=
  if text.length < 2 ^ 31 then text.length else -1

/-- `eaf_string_apply` with its `int` result. -/
def eafStringApplyInt (buffer : Nat → Char) (size : Nat) (token : Option Nat)
    (text : List Char) : (Nat → Char) × Option Nat × Int :=
  let startPos := token.getD 0
  let leftSize := size - token.getD 0
  let writeSize := vsnprintfReturn text
  let buffer := vsnprintf buffer startPos leftSize text
  if writeSize < 0 then (buffer, token, writeSize)
  else
    (buffer,
      token.map fun token =>
        if writeSize.toNat ≥ leftSize then size else token + writeSize.toNat,
      writeSize)

/-- What the calls with one token have written. -/
structure Written (size : Nat) (buffer : Nat → Char) (token : Nat)
    (text : List Char) : Prop where
  token_eq : token = min text.length size
  shown : ∀ i < min text.length (size - 1), buffer i = text.getD i nul
  ends : text ≠ [] → buffer (min text.length (size - 1)) = nul

/-- `strlen` -/
def Strlen (buffer : Nat → Char) (n : Nat) : Prop :=
  buffer n = nul ∧ ∀ i < n, buffer i ≠ nul

section

variable {size token n m : Nat} {buffer : Nat → Char} {text more : List Char}

/-- A text of up to `INT_MAX` characters is never an error. -/
theorem eafStringApplyInt_eq (h : text.length < 2 ^ 31) (token : Option Nat) :
    eafStringApplyInt buffer size token text =
      ((eafStringApply buffer size token text).1,
        (eafStringApply buffer size token text).2.1, (text.length : Int)) := by
  have hreturn : vsnprintfReturn text = text.length := if_pos h
  have hnot : ¬(text.length : Int) < 0 := by omega
  rw [eafStringApplyInt]
  simp only [hreturn, if_neg hnot, Int.toNat_natCast]
  rfl

/-- Nothing is written behind the buffer. -/
theorem vsnprintf_outside {startPos leftSize i : Nat} (h : startPos + leftSize ≤ i) :
    vsnprintf buffer startPos leftSize text i = buffer i := by
  by_cases hroom : leftSize = 0 ∨ i < startPos
  · exact if_pos hroom
  · rw [vsnprintf, if_neg hroom, if_neg (by omega), if_neg (by omega)]

/-- Before the first call. -/
theorem Written.nil : Written size buffer 0 [] where
  token_eq := (Nat.zero_min size).symm
  shown i hi := by
    rw [List.length_nil, Nat.zero_min] at hi
    omega
  ends h := absurd rfl h

/-- In a full buffer all that is written stays as it is. -/
theorem Written.buffer_full (h : Written size buffer token text)
    (hlong : size ≤ text.length) :
    (eafStringApply buffer size (some token) more).1 = buffer := by
  have htoken := h.token_eq
  have hfull : size - token = 0 := by omega
  funext i
  exact if_pos (.inl hfull)

/-- Elsewhere the text follows what is there. -/
theorem Written.buffer_apply (h : Written size buffer token text)
    (hshort : text.length < size) (i : Nat) :
    (eafStringApply buffer size (some token) more).1 i =
      if i < text.length then buffer i
      else if i < min (text ++ more).length (size - 1) then
        more.getD (i - text.length) nul
      else if i = min (text ++ more).length (size - 1) then nul
      else buffer i := by
  have htoken := h.token_eq
  have hstart : token = text.length := by omega
  subst hstart
  have hroom : size - text.length ≠ 0 := by omega
  have hend : text.length + min more.length (size - text.length - 1) =
      min (text ++ more).length (size - 1) := by
    rw [List.length_append]
    omega
  rw [← hend]
  show vsnprintf buffer text.length (size - text.length) more i = _
  rw [vsnprintf]
  simp only [hroom, false_or]

/-- A call leaves a NUL behind the text. -/
theorem Written.ends_apply (h : Written size buffer token text) (hsize : 0 < size) :
    (eafStringApply buffer size (some token) more).1
      (min (text ++ more).length (size - 1)) = nul := by
  by_cases hlong : size ≤ text.length
  · have hmin : min (text ++ more).length (size - 1) = min text.length (size - 1) := by
      rw [List.length_append]
      omega
    have hne : text ≠ [] := by
      rintro rfl
      rw [List.length_nil] at hlong
      omega
    rw [h.buffer_full hlong, hmin]
    exact h.ends hne
  · have hnot : ¬min (text ++ more).length (size - 1) < text.length := by
      rw [List.length_append]
      omega
    rw [h.buffer_apply (by omega), if_neg hnot, if_neg (by omega), if_pos rfl]

/-- A call appends its text. -/
theorem Written.apply (h : Written size buffer token text) (hsize : 0 < size) :
    Written size (eafStringApply buffer size (some token) more).1
      ((eafStringApply buffer size (some token) more).2.1.getD 0) (text ++ more) := by
  have htoken := h.token_eq
  refine ⟨?_, fun i hi => ?_, fun _ => h.ends_apply hsize⟩
  · show (if more.length ≥ size - token then size else token + more.length) = _
    rw [List.length_append]
    split <;> omega
  · by_cases hlong : size ≤ text.length
    · have hold : i < min text.length (size - 1) := by
        rw [List.length_append] at hi
        omega
      rw [h.buffer_full hlong, List.getD_append _ _ _ _ (by omega)]
      exact h.shown i hold
    · rw [h.buffer_apply (by omega)]
      by_cases hold : i < text.length
      · rw [if_pos hold, List.getD_append _ _ _ _ hold]
        exact h.shown i (by omega)
      · rw [if_neg hold, if_pos hi, List.getD_append_right _ _ _ _ (by omega)]

/-- The length of the text in a buffer. -/
theorem Strlen.unique (hn : Strlen buffer n) (hm : Strlen buffer m) : n = m := by
  rcases Nat.lt_trichotomy n m with hlt | heq | hgt
  · exact absurd hn.1 (hm.2 n hlt)
  · exact heq
  · exact absurd hm.1 (hn.2 m hgt)

theorem Written.strlen (h : Written size buffer token text) (hne : text ≠ [])
    (hnul : nul ∉ text) : Strlen buffer (min text.length (size - 1)) := by
  refine ⟨h.ends hne, fun i hi heq => hnul ?_⟩
  have hlt : i < text.length := by omega
  rw [h.shown i hi, List.getD_eq_getElem _ _ hlt] at heq
  rw [← heq]
  exact List.getElem_mem hlt

/-- The length is that of the text if and only if nothing is cut off. -/
theorem Written.strlen_iff (h : Written size buffer token text) (hne : text ≠ [])
    (hnul : nul ∉ text) (hsize : 0 < size) :
    Strlen buffer text.length ↔ text.length + 1 ≤ size := by
  have hlen := h.strlen hne hnul
  constructor
  · intro hall
    have hsame := hall.unique hlen
    omega
  · intro hfits
    have hmin : min text.length (size - 1) = text.length := by omega
    rw [hmin] at hlen
    exact hlen

end

end Powerpack
end Eaf

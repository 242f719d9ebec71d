import Mathlib.Data.List.Nodup

/-!
# JSON texts

JSON values without escapes in their strings, their texts without blanks, and
when such a text is well formed.
-/

namespace JsonText

/-- A JSON value.  Numbers and strings are given by their characters. -/
inductive Json
  | number (digits : List Char)
  | string (chars : List Char)
  | array (items : List Json)
  | object (members : List (List Char × Json))

/-- Texts with commas between them. -/
def commas : List (List Char) → List Char
  | [] => []
  | [text] => text
  | text :: more :: rest => text ++ ',' :: commas (more :: rest)

/-- A string in quotes. -/
def quoted (chars : List Char) : List Char := '"' :: (chars ++ ['"'])

mutual

/-- The text of a value. -/
def Json.text : Json → List Char
  | .number digits => digits
  | .string chars => quoted chars
  | .array items => '[' :: (commas (itemTexts items) ++ [']'])
  | .object members => '{' :: (commas (memberTexts members) ++ ['}'])

/-- The texts of the items of an array. -/
def itemTexts : List Json → List (List Char)
  | [] => []
  | item :: items => item.text :: itemTexts items

/-- The texts of the members of an object. -/
def memberTexts : List (List Char × Json) → List (List Char)
  | [] => []
  | member :: members => memberText member :: memberTexts members

def memberText : List Char × Json → List Char
  | (name, value) => quoted name ++ ':' :: value.text

end

theorem itemTexts_eq (items : List Json) : itemTexts items = items.map Json.text := by
  induction items with
  | nil => rfl
  | cons item items ih => rw [itemTexts, ih, List.map_cons]

/-- Digits, without a leading zero unless there is nothing else. -/
def IsInt (digits : List Char) : Prop :=
  digits ≠ [] ∧ (∀ c ∈ digits, c.isDigit = true) ∧
    (digits.head? = some '0' → digits = ['0'])

/-- An integer, or one with a fraction. -/
def IsNumber (digits : List Char) : Prop :=
  IsInt digits ∨ ∃ whole frac, digits = whole ++ '.' :: frac ∧ IsInt whole ∧
    frac ≠ [] ∧ ∀ c ∈ frac, c.isDigit = true

/-- Characters that stand for themselves in a string. -/
def IsPlain (chars : List Char) : Prop :=
  ∀ c ∈ chars, ' ' ≤ c ∧ c ≠ '"' ∧ c ≠ '\\'

instance (chars : List Char) : Decidable (IsPlain chars) :=
  List.decidableBAll (fun c => ' ' ≤ c ∧ c ≠ '"' ∧ c ≠ '\\') chars

/-- The text of the value is well formed, and the names in an object differ. -/
inductive Json.WellFormed : Json → Prop
  | number {digits : List Char} (h : IsNumber digits) : WellFormed (.number digits)
  | string {chars : List Char} (h : IsPlain chars) : WellFormed (.string chars)
  | array {items : List Json} (h : ∀ item ∈ items, WellFormed item) :
      WellFormed (.array items)
  | object {members : List (List Char × Json)}
      (hnames : ∀ m ∈ members, IsPlain m.1) (hdistinct : (members.map Prod.fst).Nodup)
      (h : ∀ m ∈ members, WellFormed m.2) : WellFormed (.object members)

@[simp] theorem commas_singleton (text : List Char) : commas [text] = text := rfl

theorem commas_cons (text : List Char) (texts : List (List Char)) :
    commas (text :: texts) = text ++ texts.flatMap fun more => ',' :: more := by
  induction texts generalizing text with
  | nil => simp
  | cons more rest ih => rw [commas, ih, List.flatMap_cons, List.cons_append]

end JsonText

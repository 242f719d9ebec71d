import Eaf.Foundation.FormattedText

/-!
# Dumping data

`eaf_dump_data` of `log.c`.  A line shows where it starts, its bytes in
hexadecimal and its bytes as characters.
-/

namespace Eaf
namespace Powerpack

open FormattedText

/-- `_log_ascii_to_char` -/
def logAsciiToChar (c : UInt8) : Char :=
  if 32 ≤ c ∧ c ≤ 126 then Char.ofNat c.toNat else '.'

/-- What is printed for a column of a line: the byte that was read, and where,
or nothing but blanks. -/
structure DumpCell where
  byte : Option (UInt64 × UInt8)
  /-- the column is not the last one -/
  inner : Bool
  deriving DecidableEq, Repr

namespace DumpCell

/-- `"%02x %s"`, or `"   %s"` without a byte. -/
def hexText (c : DumpCell) : List Char :=
  (match c.byte with
    | some (_, byte) => (hexadecimal byte.toNat).leftpad 2 '0' ++ [' ']
    | none => [' ', ' ', ' ']) ++
    if c.inner then [] else ['|']

/-- `"%c"`, and a blank before the next column. -/
def charText (c : DumpCell) : List Char :=
  (match c.byte with
    | some (_, byte) => [logAsciiToChar byte]
    | none => []) ++
    if c.inner then [' '] else []

end DumpCell

/-- A line of the dump. -/
structure DumpLine where
  /-- the index of the first byte -/
  start : UInt64
  hexPart : List DumpCell
  charPart : List DumpCell
  deriving DecidableEq, Repr

namespace DumpLine

/-- The bytes in the hexadecimal part and where they were read. -/
def hexBytes (line : DumpLine) : List (UInt64 × UInt8) :=
  line.hexPart.filterMap DumpCell.byte

/-- The bytes in the character part. -/
def charBytes (line : DumpLine) : List (UInt64 × UInt8) :=
  line.charPart.filterMap DumpCell.byte

/-- What is printed; `pointer` is the text of `%p` for an index. -/
def text (pointer : UInt64 → List Char) (line : DumpLine) : List Char :=
  pointer line.start ++ [' ', '|', ' '] ++ line.hexPart.flatMap DumpCell.hexText ++
    [' '] ++ line.charPart.flatMap DumpCell.charText ++ ['\n']

end DumpLine

section

variable (data : UInt64 → UInt8) (size width : UInt64)

/-- The columns of a line. -/
def dumpColumes : List UInt64 := (List.range width.toNat).map UInt64.ofNat

/-- The loop `/* printf hex */`. -/
def dumpHex (idxLine : UInt64) : List DumpCell :=
  (dumpColumes width).map fun idxColume =>
    { byte :=
        if idxColume + idxLine < size then
          some (idxColume + idxLine, data (idxColume + idxLine))
        else none
      inner := idxColume < width - 1 }

/-- The loop `/* printf char */`. -/
def dumpChars (idxLine : UInt64) : List DumpCell :=
  ((dumpColumes width).takeWhile fun idxColume => idxColume + idxLine < size).map
    fun idxColume =>
      { byte := some (idxColume + idxLine, data (idxColume + idxLine))
        inner := idxColume < width - 1 }

/-- The body of the outer loop. -/
def dumpLine (idxLine : UInt64) : DumpLine where
  start := idxLine
  hexPart := dumpHex data size width idxLine
  charPart := dumpChars data size width idxLine

/-- The outer loop of `eaf_dump_data` from `idxLine` on; `none` if it takes more
than `fuel` steps. -/
def dumpFrom : Nat → UInt64 → Option (List DumpLine)
  | 0, _ => none
  | fuel + 1, idxLine =>
      if idxLine < size then
        (dumpFrom fuel (idxLine + width)).map (dumpLine data size width idxLine :: ·)
      else some []

/-- `eaf_dump_data` -/
def eafDumpData (fuel : Nat) : Option (List DumpLine) := dumpFrom data size width fuel 0

end

/-- Each byte of the data, and where it is. -/
def dataBytes (data : UInt64 → UInt8) (size : UInt64) : List (UInt64 × UInt8) :=
  (List.range size.toNat).map fun i => (UInt64.ofNat i, data (UInt64.ofNat i))

/-- What a dump has to be. -/
structure Dumps (data : UInt64 → UInt8) (size width : UInt64)
    (lines : List DumpLine) : Prop where
  hex : lines.flatMap DumpLine.hexBytes = dataBytes data size
  chars : lines.flatMap DumpLine.charBytes = dataBytes data size
  /-- both parts of a line show the same bytes, no more than `width` -/
  sameBytes : ∀ line ∈ lines, line.charBytes = line.hexBytes
  width : ∀ line ∈ lines, line.hexBytes.length ≤ width.toNat
  /-- a line shows the bytes from its start on -/
  consecutive : ∀ line ∈ lines, line.hexBytes.map Prod.fst =
    (List.range line.hexBytes.length).map fun i => line.start + UInt64.ofNat i

example : (dumpLine (fun i => i.toUInt8 + 64) 3 2 2).text (fun _ => "0x2".toList) =
    "0x2 | 42    | B \n".toList := by decide

end Powerpack
end Eaf

import Eaf.Powerpack.RingBuffer

/-!
# Random data

`eaf_random` of `random.c`.  Addresses are computed modulo `2 ^ 64`; what is
written is kept as a list, so that a byte written outside the buffer shows.
-/

namespace Eaf
namespace Powerpack

/-- `random_ctx_t`, and how often `rand_s` has been called. -/
structure RandomCtx where
  seed : UInt64
  calls : Nat
  deriving DecidableEq, Repr

/-- What each call of `rand_s` yields, `none` where it fails.  It always fails
where `_MSC_VER` is not defined. -/
abbrev RandS := Nat → Option UInt32

/-- `_random_non_failure` -/
def randomNonFailure (randS : RandS) (g : RandomCtx) : UInt32 × RandomCtx :=
  match randS g.calls with
  | some pad => (pad, { g with calls := g.calls + 1 })
  | none =>
      let seed := 6364136223846793005 * g.seed + 1
      ((seed >>> 33).toUInt32, { seed, calls := g.calls + 1 })

/-- The bytes of an `unsigned int` in memory. -/
def padBytes (pad : UInt32) : List UInt8 :=
  [pad.toUInt8, (pad >>> 8).toUInt8, (pad >>> 16).toUInt8, (pad >>> 24).toUInt8]

/-- The bytes that go to `dst` and the addresses behind it. -/
def writeBytes (dst : UInt64) (bytes : List UInt8) : List (UInt64 × UInt8) :=
  bytes.zipIdx.map fun b => (dst + UInt64.ofNat b.2, b.1)

/-- What `eaf_random` has done so far. -/
structure RandomRun where
  ctx : RandomCtx
  writes : List (UInt64 × UInt8)
  /-- every assertion has held -/
  asserted : Bool
  deriving DecidableEq, Repr

namespace RandomRun

/-- The addresses that have been written. -/
def addresses (run : RandomRun) : List UInt64 := run.writes.map Prod.fst

/-- `memcpy(dst, &pad, n)` of a new random `pad`. -/
def fill (run : RandomRun) (randS : RandS) (dst n : UInt64) : RandomRun :=
  let pad := randomNonFailure randS run.ctx
  { run with
    ctx := pad.2
    writes := run.writes ++ writeBytes dst ((padBytes pad.1).take n.toNat) }

/-- `assert(diff_size < sizeof(unsigned int))` -/
def assertDiff (run : RandomRun) (diffSize : UInt64) : RandomRun :=
  { run with asserted := run.asserted && diffSize < 4 }

end RandomRun

/-- What `read` has put into a buffer. -/
structure ReadBytes (size : UInt64) where
  bytes : List UInt8
  length_le : bytes.length ≤ size.toNat
  /-- the length is returned as an `ssize_t` -/
  length_lt : bytes.length < 2 ^ 63
  deriving DecidableEq, Repr

/-- What `read` has returned, `none` where it fails. -/
abbrev ReadResult (size : UInt64) := Option (ReadBytes size)

namespace ReadResult

variable {size : UInt64}

/-- The bytes that were read. -/
def bytes (r : ReadResult size) : List UInt8 := (r.map ReadBytes.bytes).getD []

/-- `read_size` -/
def readSize (r : ReadResult size) : Int :=
  match r with
  | some read => read.bytes.length
  | none => -1

end ReadResult

/-- The build of `eaf_random`, with what it gets from the system. -/
inductive RandomBuild (size : UInt64)
  /-- with `_MSC_VER` -/
  | msvc (randS : RandS)
  /-- without `_MSC_VER` -/
  | unix (read : ReadResult size)

section

variable (randS : RandS) (buffer size : UInt64)

/-- The loop that fills words, from `startPos` on; `none` if it takes more than
`fuel` steps. -/
def fillWords : Nat → UInt64 → RandomRun → Option (UInt64 × RandomRun)
  | 0, _, _ => none
  | fuel + 1, startPos, run =>
      if startPos ≤ buffer + size - 4 then
        fillWords fuel (startPos + 4) (run.fill randS startPos 4)
      else some (startPos, run)

/-- The tail part. -/
def fillTail (startPos : UInt64) (run : RandomRun) : RandomRun :=
  if startPos ≥ buffer + size then run
  else
    let diffSize := buffer + size - startPos
    (run.assertDiff diffSize).fill randS startPos diffSize

/-- What both builds do from `startPos` on. -/
def fillRest (fuel : Nat) (startPos : UInt64) (run : RandomRun) : Option RandomRun :=
  (fillWords randS buffer size fuel startPos run).map fun s =>
    fillTail randS buffer size s.1 s.2

/-- `EAF_ALIGN(buffer, sizeof(pad))` -/
def alignedStart : UInt64 := UInt64.ofNat (eafAlign buffer.toNat 4)

/-- The part of the buffer that is not aligned. -/
def fillHead (run : RandomRun) : RandomRun :=
  let diffSize := alignedStart buffer - buffer
  if diffSize ≠ 0 then (run.assertDiff diffSize).fill randS buffer diffSize else run

end

/-- `eaf_random` -/
def eafRandom {size : UInt64} (build : RandomBuild size) (ctx : RandomCtx)
    (buffer : UInt64) (fuel : Nat) : Option RandomRun :=
  let run : RandomRun := { ctx, writes := [], asserted := true }
  match build with
  | .msvc randS =>
      fillRest randS buffer size fuel (alignedStart buffer) (fillHead randS buffer run)
  | .unix read =>
      let run := { run with writes := writeBytes buffer read.bytes }
      if read.readSize ≥ size.toInt64.toInt then some run
      else
        fillRest (fun _ => none) buffer size fuel
          (buffer + UInt64.ofNat read.readSize.toNat) run

/-- The bytes of the buffer are written, and no others. -/
structure RandomRun.Fills (run : RandomRun) (buffer size : UInt64) : Prop where
  every : ∀ i < size.toNat, buffer + UInt64.ofNat i ∈ run.addresses
  only : ∀ a ∈ run.addresses, ∃ i < size.toNat, a = buffer + UInt64.ofNat i
  asserted : run.asserted = true

end Powerpack
end Eaf

import Mathlib.Data.UInt
import Mathlib.Logic.Function.Basic

/-!
# The ring buffer

`ringbuffer.c`.  The memory is a function from addresses to words, so that a
node lies in it with its header and with the data of the user; writing a header
over other nodes destroys them.  Following a null pointer ends the run.  Sizes
and differences of pointers are computed modulo `2 ^ 64`.

The functions that compare sizes get the subtraction as a parameter.  The code
uses the one of `size_t`; with a subtraction that fails below zero the same
functions tell whether that ever happens.
-/

namespace Eaf
namespace Powerpack

/-- `ring_buffer_node_state_t` -/
inductive RingState
  | writing
  | committed
  | reading
  deriving DecidableEq, Repr

/-- The value of a state in memory. -/
def RingState.code : RingState → Nat
  | .writing => 0
  | .committed => 1
  | .reading => 2

/-- The fields of `ring_buffer_node_t` before the data. -/
inductive NodeField
  /-- `chain_pos.p_forward` -/
  | pForward
  /-- `chain_pos.p_backward` -/
  | pBackward
  /-- `chain_time.p_newer` -/
  | pNewer
  /-- `chain_time.p_older` -/
  | pOlder
  | state
  /-- `token.size.size` -/
  | size
  deriving DecidableEq, Repr

/-- `offsetof` for the fields. -/
def NodeField.offset : NodeField → Nat
  | .pForward => 0
  | .pBackward => 8
  | .pNewer => 16
  | .pOlder => 24
  | .state => 32
  | .size => 40

/-- `sizeof(ring_buffer_node_t)` -/
def nodeHeader : Nat := 48

/-- `sizeof(void*)` -/
def wordSize : Nat := 8

/-- The sum of two `size_t` values. -/
def plus64 (x y : Nat) : Nat := (x + y) % 2 ^ 64

/-- The difference of two `size_t` values, or of two pointers as a `size_t`. -/
def minus64 (x y : Nat) : Option Nat := some ((x + 2 ^ 64 - y % 2 ^ 64) % 2 ^ 64)

/-- A difference that may not be negative. -/
def minusChecked (x y : Nat) : Option Nat :=
  if y ≤ x then some (x - y) else none

/-- `EAF_ALIGN`, for an alignment that is a power of two: the lowest bits are
cleared. -/
def eafAlign (size align : Nat) : Nat :=
  plus64 size (align - 1) - plus64 size (align - 1) % align

/-- `eaf_ringbuffer_node_cost` -/
def eafRingbufferNodeCost (size : Nat) : Nat :=
  eafAlign (plus64 nodeHeader size) wordSize

/-- `eaf_ringbuffer_heap_cost`: a `struct eaf_ringbuffer` has eight fields. -/
def eafRingbufferHeapCost : Nat := eafAlign 64 wordSize

/-- The words in memory. -/
abbrev Words := Nat → Nat

/-- What a field of a node holds. -/
def Words.field (m : Words) (f : NodeField) (p : Nat) : Nat := m (p + f.offset)

/-- The memory after a field has been written. -/
def Words.put (m : Words) (f : NodeField) (p v : Nat) : Words :=
  Function.update m (p + f.offset) v

/-- `eaf_ringbuffer_counter_t` -/
structure RingCounter where
  committed : UInt64
  writing : UInt64
  reading : UInt64
  deriving DecidableEq, Repr

/-- `eaf_ringbuffer_t`, with the memory. -/
structure RingBuffer where
  /-- `config.cache` -/
  cache : Nat
  /-- `config.capacity` -/
  capacity : Nat
  /-- `node.HEAD` -/
  head : Nat
  /-- `node.TAIL` -/
  tail : Nat
  /-- `node.oldest_reserve` -/
  oldestReserve : Nat
  counter : RingCounter
  mem : Words

/-- The address of the token of a node. -/
def tokenOf (node : Nat) : Nat := node + NodeField.size.offset

/-- `EAF_CONTAINER_OF(token, ring_buffer_node_t, token)` -/
def nodeOf (token : Nat) : Nat := token - NodeField.size.offset

/-- `eaf_ringbuffer_flag_overwrite` -/
def flagOverwrite : UInt32 := 1

/-- `eaf_ringbuffer_flag_discard` -/
def flagDiscard : UInt32 := 2

/-- `eaf_ringbuffer_flag_abandon` -/
def flagAbandon : UInt32 := 4

/-- A difference of sizes. -/
abbrev Minus := Nat → Nat → Option Nat

namespace RingBuffer

/-- Reading a field through a pointer. -/
def get (rb : RingBuffer) (f : NodeField) (p : Nat) : Option Nat :=
  if p = 0 then none else some (rb.mem.field f p)

/-- Writing a field through a pointer. -/
def set (rb : RingBuffer) (f : NodeField) (p v : Nat) : Option RingBuffer :=
  if p = 0 then none else some { rb with mem := rb.mem.put f p v }

/-- `_ring_buffer_reinit` -/
def ringBufferReinit (rb : RingBuffer) : RingBuffer :=
  { rb with
    counter := ⟨0, 0, 0⟩
    oldestReserve := 0
    head := 0
    tail := 0 }

def incWriting (rb : RingBuffer) : RingBuffer :=
  { rb with counter := { rb.counter with writing := rb.counter.writing + 1 } }

/-- `_ring_buffer_reserve_empty` -/
def ringBufferReserveEmpty (rb : RingBuffer) (dataLen nodeSize : Nat) :
    Option (RingBuffer × Nat) :=
  if nodeSize > rb.capacity then some (rb, 0)
  else do
    let rb := { rb with head := rb.cache }
    let rb ← rb.set .state rb.head RingState.writing.code
    let rb ← rb.set .size rb.head dataLen
    let rb ← rb.set .pForward rb.head rb.head
    let rb ← rb.set .pBackward rb.head rb.head
    let rb ← rb.set .pNewer rb.head 0
    let rb ← rb.set .pOlder rb.head 0
    let rb := { rb with tail := rb.head }
    let rb := { rb with oldestReserve := rb.head }
    let rb := rb.incWriting
    some (rb, tokenOf rb.oldestReserve)

/-- `_ring_buffer_update_time_for_new_node` -/
def ringBufferUpdateTimeForNewNode (rb : RingBuffer) (newNode : Nat) :
    Option RingBuffer := do
  let rb ← rb.set .pNewer newNode 0
  let rb ← rb.set .pOlder newNode rb.head
  let older ← rb.get .pOlder newNode
  let rb ← rb.set .pNewer older newNode
  some { rb with head := newNode }

/-- `_ring_buffer_perform_overwrite` -/
def ringBufferPerformOverwrite (rb : RingBuffer)
    (startPoint nodeStart nodeEnd lostNodes dataLen : Nat) :
    Option (RingBuffer × Nat) := do
  let newerNode ← rb.get .pNewer nodeEnd
  let rb := if rb.tail = rb.oldestReserve then { rb with tail := newerNode }
    else rb
  let rb := { rb with oldestReserve := newerNode }
  let newNode := startPoint
  -- the chain of positions
  let forward ← rb.get .pForward nodeEnd
  let rb ← rb.set .pForward newNode forward
  let forward ← rb.get .pForward newNode
  let rb ← rb.set .pBackward forward newNode
  let backward ← rb.get .pBackward nodeStart
  let rb ← rb.set .pBackward newNode backward
  let backward ← rb.get .pBackward newNode
  let rb ← rb.set .pForward backward newNode
  -- the chain of times
  let older ← rb.get .pOlder nodeStart
  let rb ← if older ≠ 0 then do
      let newer ← rb.get .pNewer nodeEnd
      rb.set .pNewer older newer
    else some rb
  let newer ← rb.get .pNewer nodeEnd
  let rb ← if newer ≠ 0 then do
      let older ← rb.get .pOlder nodeStart
      rb.set .pOlder newer older
    else some rb
  let rb ← rb.ringBufferUpdateTimeForNewNode newNode
  let rb := { rb with counter := { rb.counter with
    committed := rb.counter.committed - UInt64.ofNat lostNodes } }
  let rb := rb.incWriting
  let rb ← rb.set .size newNode dataLen
  let rb ← rb.set .state newNode RingState.writing.code
  some (rb, tokenOf newNode)

/-- The loop of `_ring_buffer_reserve_try_overwrite`: the size of the nodes
that it has counted, the last one of them, and their number. -/
def scanLoop (minus : Minus) (rb : RingBuffer) (startPoint nodeSize : Nat) :
    Nat → Nat → Nat → Option (Nat × Nat × Nat)
  | 0, _, _ => none
  | turns + 1, nodeEnd, lostNodes => do
      let size ← rb.get .size nodeEnd
      let sumSize ← minus (nodeEnd + eafRingbufferNodeCost size) startPoint
      if sumSize < nodeSize then
        let forward ← rb.get .pForward nodeEnd
        let state ← rb.get .state forward
        if state = RingState.committed.code then
          let newer ← rb.get .pNewer nodeEnd
          if forward = newer ∧ nodeEnd < forward then
            scanLoop minus rb startPoint nodeSize turns forward (lostNodes + 1)
          else some (sumSize, nodeEnd, lostNodes)
        else some (sumSize, nodeEnd, lostNodes)
      else some (sumSize, nodeEnd, lostNodes)

/-- Where the node goes that overwrites `oldest_reserve`. -/
def startPoint (rb : RingBuffer) : Option Nat := do
  let backward ← rb.get .pBackward rb.oldestReserve
  if backward < rb.oldestReserve then
    let size ← rb.get .size backward
    some (backward + eafRingbufferNodeCost size)
  else some rb.cache

/-- `_ring_buffer_reserve_try_overwrite` -/
def ringBufferReserveTryOverwrite (minus : Minus) (rb : RingBuffer)
    (dataLen nodeSize : Nat) : Option (RingBuffer × Nat) :=
  if rb.oldestReserve = 0 then some (rb, 0)
  else do
    let state ← rb.get .state rb.oldestReserve
    if state ≠ RingState.committed.code then some (rb, 0)
    else
      let forward ← rb.get .pForward rb.oldestReserve
      if forward = rb.oldestReserve then
        if rb.capacity < nodeSize then some (rb, 0)
        else rb.ringBufferReinit.ringBufferReserveEmpty dataLen nodeSize
      else
        let start ← rb.startPoint
        let (sumSize, nodeEnd, lostNodes) ←
          rb.scanLoop minus start nodeSize (rb.capacity + 1) rb.oldestReserve 1
        if sumSize < nodeSize then some (rb, 0)
        else
          rb.ringBufferPerformOverwrite start rb.oldestReserve nodeEnd lostNodes
            dataLen

/-- `_ring_buffer_insert_new_node` -/
def ringBufferInsertNewNode (rb : RingBuffer) (newNode dataLen : Nat) :
    Option RingBuffer := do
  let rb ← rb.set .state newNode RingState.writing.code
  let rb ← rb.set .size newNode dataLen
  let forward ← rb.get .pForward rb.head
  let rb ← rb.set .pForward newNode forward
  let rb ← rb.set .pBackward newNode rb.head
  let forward ← rb.get .pForward newNode
  let rb ← rb.set .pBackward forward newNode
  let backward ← rb.get .pBackward newNode
  let rb ← rb.set .pForward backward newNode
  rb.ringBufferUpdateTimeForNewNode newNode

/-- `_ring_buffer_reserve_update_oldest_reserve` -/
def ringBufferReserveUpdateOldestReserve (rb : RingBuffer) (node : Nat) :
    RingBuffer :=
  if rb.oldestReserve = 0 then { rb with oldestReserve := node } else rb

/-- A node at a free place. -/
def makeToken (rb : RingBuffer) (node dataLen : Nat) :
    Option (RingBuffer × Nat) := do
  let rb := rb.incWriting
  let rb ← rb.ringBufferInsertNewNode node dataLen
  let rb := rb.ringBufferReserveUpdateOldestReserve node
  some (rb, tokenOf node)

/-- The last resort of `_ring_buffer_reserve_none_empty`. -/
def overwriteIf (minus : Minus) (rb : RingBuffer) (dataLen nodeSize : Nat)
    (flags : UInt32) : Option (RingBuffer × Nat) :=
  if flags &&& flagOverwrite ≠ 0 then
    rb.ringBufferReserveTryOverwrite minus dataLen nodeSize
  else some (rb, 0)

/-- `_ring_buffer_reserve_none_empty` -/
def ringBufferReserveNoneEmpty (minus : Minus) (rb : RingBuffer)
    (dataLen nodeSize : Nat) (flags : UInt32) : Option (RingBuffer × Nat) := do
  let size ← rb.get .size rb.head
  let nextPossibleNode := rb.head + eafRingbufferNodeCost size
  let forward ← rb.get .pForward rb.head
  if rb.head < forward then
    let room ← minus forward nextPossibleNode
    if nodeSize ≤ room then rb.makeToken nextPossibleNode dataLen
    else rb.overwriteIf minus dataLen nodeSize flags
  else
    let used ← minus nextPossibleNode rb.cache
    let room ← minus rb.capacity used
    if nodeSize ≤ room then rb.makeToken nextPossibleNode dataLen
    else
      let room ← minus forward rb.cache
      if nodeSize ≤ room then rb.makeToken rb.cache dataLen
      else rb.overwriteIf minus dataLen nodeSize flags

/-- `eaf_ringbuffer_reserve`, with the token it returns. -/
def eafRingbufferReserve (minus : Minus) (rb : RingBuffer) (len : Nat)
    (flags : UInt32) : Option (RingBuffer × Nat) :=
  let nodeSize := eafRingbufferNodeCost len
  if rb.tail = 0 then rb.ringBufferReserveEmpty len nodeSize
  else rb.ringBufferReserveNoneEmpty minus len nodeSize flags

/-- `eaf_ringbuffer_consume`, with the token it returns. -/
def eafRingbufferConsume (rb : RingBuffer) : Option (RingBuffer × Nat) :=
  if rb.oldestReserve = 0 then some (rb, 0)
  else do
    let state ← rb.get .state rb.oldestReserve
    if state ≠ RingState.committed.code then some (rb, 0)
    else
      let rb := { rb with counter := { rb.counter with
        committed := rb.counter.committed - 1
        reading := rb.counter.reading + 1 } }
      let tokenNode := rb.oldestReserve
      let newer ← rb.get .pNewer rb.oldestReserve
      let rb := { rb with oldestReserve := newer }
      let rb ← rb.set .state tokenNode RingState.reading.code
      some (rb, tokenOf tokenNode)

/-- `_ring_buffer_delete_node_update_chain` -/
def ringBufferDeleteNodeUpdateChain (rb : RingBuffer) (node : Nat) :
    Option RingBuffer := do
  let backward ← rb.get .pBackward node
  let forward ← rb.get .pForward node
  let rb ← rb.set .pForward backward forward
  let forward ← rb.get .pForward node
  let backward ← rb.get .pBackward node
  let rb ← rb.set .pBackward forward backward
  let older ← rb.get .pOlder node
  let rb ← if older ≠ 0 then do
      let newer ← rb.get .pNewer node
      rb.set .pNewer older newer
    else some rb
  let newer ← rb.get .pNewer node
  if newer ≠ 0 then
    let older ← rb.get .pOlder node
    rb.set .pOlder newer older
  else some rb

/-- `_ring_buffer_delete_node` -/
def ringBufferDeleteNode (rb : RingBuffer) (node : Nat) :
    Option RingBuffer := do
  let forward ← rb.get .pForward node
  if forward = node then some rb.ringBufferReinit
  else
    let rb ← rb.ringBufferDeleteNodeUpdateChain node
    let newer ← rb.get .pNewer node
    let rb := if rb.oldestReserve = node then { rb with oldestReserve := newer }
      else rb
    let older ← rb.get .pOlder node
    if older = 0 then some { rb with tail := newer }
    else if newer = 0 then some { rb with head := older }
    else some rb

/-- `_ring_buffer_commit_for_write` -/
def ringBufferCommitForWrite (rb : RingBuffer) (node : Nat) (flags : UInt32) :
    Option (RingBuffer × Int) :=
  if flags &&& flagDiscard ≠ 0 then do
    let rb := { rb with
      counter := { rb.counter with writing := rb.counter.writing - 1 } }
    let rb ← rb.ringBufferDeleteNode node
    some (rb, 0)
  else do
    let rb := { rb with counter := { rb.counter with
      writing := rb.counter.writing - 1
      committed := rb.counter.committed + 1 } }
    let rb ← rb.set .state node RingState.committed.code
    some (rb, 0)

/-- `_ring_buffer_commit_for_consume_confirm` -/
def ringBufferCommitForConsumeConfirm (rb : RingBuffer) (node : Nat) :
    Option (RingBuffer × Int) := do
  let rb := { rb with
    counter := { rb.counter with reading := rb.counter.reading - 1 } }
  let rb ← rb.ringBufferDeleteNode node
  some (rb, 0)

/-- `_ring_buffer_commit_for_consume_discard` -/
def ringBufferCommitForConsumeDiscard (rb : RingBuffer) (node : Nat)
    (flags : UInt32) : Option (RingBuffer × Int) := do
  let newer ← rb.get .pNewer node
  let newerIsRead ← if newer ≠ 0 then do
      let state ← rb.get .state newer
      some (state == RingState.reading.code)
    else some false
  if newerIsRead then
    if flags &&& flagAbandon ≠ 0 then rb.ringBufferCommitForConsumeConfirm node
    else some (rb, -1)
  else
    let rb := { rb with counter := { rb.counter with
      reading := rb.counter.reading - 1
      committed := rb.counter.committed + 1 } }
    let rb ← rb.set .state node RingState.committed.code
    let newer ← rb.get .pNewer node
    if newer = 0 then some ({ rb with oldestReserve := node }, 0)
    else if rb.oldestReserve ≠ 0 then
      let older ← rb.get .pOlder rb.oldestReserve
      if older = node then some ({ rb with oldestReserve := node }, 0)
      else some (rb, 0)
    else some (rb, 0)

/-- `_ring_buffer_commit_for_consume` -/
def ringBufferCommitForConsume (rb : RingBuffer) (node : Nat)
    (flags : UInt32) : Option (RingBuffer × Int) :=
  if flags &&& flagDiscard ≠ 0 then
    rb.ringBufferCommitForConsumeDiscard node flags
  else rb.ringBufferCommitForConsumeConfirm node

/-- `eaf_ringbuffer_commit`, with the value it returns. -/
def eafRingbufferCommit (rb : RingBuffer) (token : Nat) (flags : UInt32) :
    Option (RingBuffer × Int) := do
  let node := nodeOf token
  let state ← rb.get .state node
  if state = RingState.writing.code then rb.ringBufferCommitForWrite node flags
  else rb.ringBufferCommitForConsume node flags

/-- A caller writes a word of the data of a token. -/
def storeData (rb : RingBuffer) (token i value : Nat) : RingBuffer :=
  { rb with mem :=
      Function.update rb.mem (token + wordSize + wordSize * i) value }

/-- `eaf_ringbuffer_count` -/
def eafRingbufferCount (rb : RingBuffer) : RingCounter × UInt64 :=
  (rb.counter,
    rb.counter.committed + rb.counter.reading + rb.counter.writing)

/-- `eaf_ringbuffer_begin` -/
def eafRingbufferBegin (rb : RingBuffer) : Nat := tokenOf rb.tail

/-- `eaf_ringbuffer_next` -/
def eafRingbufferNext (rb : RingBuffer) (token : Nat) : Option Nat := do
  let newer ← rb.get .pNewer (nodeOf token)
  if newer = 0 then some 0 else some (tokenOf newer)

end RingBuffer

/-- `eaf_ringbuffer_init`; the result `none` is the null pointer. -/
def eafRingbufferInit (mem : Words) (buffer size : Nat) :
    Option RingBuffer :=
  let handler := eafAlign buffer wordSize
  let leadingAlignSize := (handler + 2 ^ 64 - buffer) % 2 ^ 64
  if plus64 leadingAlignSize eafRingbufferHeapCost ≥ size then none
  else
    some (RingBuffer.ringBufferReinit
      { cache := handler + eafRingbufferHeapCost
        capacity := size - leadingAlignSize - eafRingbufferHeapCost
        head := 0
        tail := 0
        oldestReserve := 0
        counter := ⟨0, 0, 0⟩
        mem := mem })

end Powerpack
end Eaf

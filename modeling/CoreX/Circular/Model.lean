import CoreX.Base.Memory
import CoreX.Base.Run

/-!
# The circular buffer (`utilities/data_structures/circular.rs`)

`Circular`, whose functions run under `LOCK_CIRC` and so one at a time. The buffer is one allocation: all
sizes and positions are below `2 ^ 63`, and no sum of two of them overflows. `none` is a failed `assert`.
-/

namespace CoreX.Circ

def circReadable (write read size : Nat) : Nat :=
  if write ≥ read then write - read else size - (read - write)

def circWritable (write read size : Nat) : Nat := size - circReadable write read size - 1

structure Circular where
  buff : Buf
  buffSize : Nat
  readPtr : Nat
  writePtr : Nat

def circularAllocate (buff : Buf) (size : Nat) : Circular := ⟨buff, size, 0, 0⟩

section
variable (circ : Circular)

def circularRead (out : Buf) (length : Nat) : Option ((Nat × Buf) × Circular) :=
  if length = 0 then none
  else if circ.writePtr = circ.readPtr then some ((0, out), circ)
  else
    let toCopy := min (circReadable circ.writePtr circ.readPtr circ.buffSize) length
    let first := min toCopy (circ.buffSize - circ.readPtr)
    let out := Memory.memcpy out 0 (fun i => circ.buff (circ.readPtr + i)) first
    let second := toCopy - first
    let out := if second ≠ 0 then Memory.memcpy out first circ.buff second else out
    if toCopy > 0 then
      some ((toCopy, out), { circ with readPtr := (circ.readPtr + toCopy) % circ.buffSize })
    else none

def circularReadPoll : Nat := circReadable circ.writePtr circ.readPtr circ.buffSize

def circularWritePoll : Nat := circWritable circ.writePtr circ.readPtr circ.buffSize

def circularWrite (src : Buf) (length : Nat) : Option (Nat × Circular) :=
  if length = 0 then none
  else if length > circWritable circ.writePtr circ.readPtr circ.buffSize then some (0, circ)
  else
    let first := min length (circ.buffSize - circ.writePtr)
    let buff := Memory.memcpy circ.buff circ.writePtr src first
    let second := length - first
    let buff := if second ≠ 0 then Memory.memcpy buff 0 (fun i => src (first + i)) second else buff
    some (length, { circ with buff := buff, writePtr := (circ.writePtr + length) % circ.buffSize })

inductive CircularOp where
  | read (out : Buf) (length : Nat)
  | write (src : Buf) (length : Nat)
  | readPoll
  | writePoll

inductive Response where
  | count (n : Nat)
  | copied (n : Nat) (out : Buf)

def circularStep : CircularOp → Option (Response × Circular)
  | .read out length =>
    (circularRead circ out length).map fun ((n, out), circ) => (.copied n out, circ)
  | .write src length => (circularWrite circ src length).map fun (n, circ) => (.count n, circ)
  | .readPoll => some (.count (circularReadPoll circ), circ)
  | .writePoll => some (.count (circularWritePoll circ), circ)

end

/-! ## What the buffer is for -/

def fifoStep (capacity : Nat) (queue : Bytes) : CircularOp → Option (Response × Bytes)
  | .read out length =>
    if length = 0 then none
    else some (.copied (min length queue.length) (fun i => ((queue.take length)[i]?).getD (out i)),
      queue.drop length)
  | .write src length =>
    if length = 0 then none
    else if queue.length + length ≤ capacity then
      some (.count length, queue ++ (List.range length).map src)
    else some (.count 0, queue)
  | .readPoll => some (.count queue.length, queue)
  | .writePoll => some (.count (capacity - queue.length), queue)

end CoreX.Circ

import CoreX.Base.Ring
import CoreX.Circular.Model

/-!
# The interrupt-friendly buffer, step by step

`CircularInt` is written from an interrupt handler that takes no lock, while reads take `LOCK_READ`. One step of a
call is one access to shared memory, or the computation between two of them. Readers are named by `ι`.

`accepted` and `returned` record the bytes of the writes and reads that returned. `none` is a step that is not
possible: a reader that waits for the lock, or a failed `assert`.
-/

namespace CoreX.Circ

inductive Writer where
  | idle
  | loadWrite (bytes : Bytes)
  | loadRead (bytes : Bytes) (write : Nat)
  | check (bytes : Bytes) (write read : Nat)
  /-- In the loop, with the bytes that are still to be stored, or behind it when there are none. -/
  | store (bytes rest : Bytes) (write : Nat)

inductive Reader where
  | idle
  | acquire (length : Nat)
  | loadWrite (length : Nat)
  | loadRead (length write : Nat)
  | check (length write read : Nat)
  /-- In the loop, with the bytes that it has stored to the caller's buffer. -/
  | copy (toCopy read : Nat) (out : Bytes)
  | release (out : Bytes)

structure CircularInt (ι : Type) where
  buff : Buf
  (buffSize readPtr writePtr : Nat)
  /-- The reader that holds `LOCK_READ`. -/
  lockRead : Option ι
  writer : Writer
  readers : ι → Reader
  (accepted returned : Bytes)

section
variable {ι : Type}

def circularIntAllocate (buff : Buf) (size : Nat) : CircularInt ι :=
  ⟨buff, size, 0, 0, none, .idle, fun _ => .idle, [], []⟩

def writerStep (circ : CircularInt ι) : Option (CircularInt ι) :=
  match circ.writer with
  | .idle => none
  | .loadWrite bytes => some { circ with writer := .loadRead bytes circ.writePtr }
  | .loadRead bytes write => some { circ with writer := .check bytes write circ.readPtr }
  | .check bytes write read =>
    if bytes.length > circWritable write read circ.buffSize then some { circ with writer := .idle }
    else some { circ with writer := .store bytes bytes write }
  | .store bytes (b :: rest) write =>
    some { circ with
      buff := Function.update circ.buff write b
      writer := .store bytes rest ((write + 1) % circ.buffSize) }
  | .store bytes [] write =>
    some { circ with writePtr := write, writer := .idle, accepted := circ.accepted ++ bytes }

variable [DecidableEq ι]

section
variable (circ : CircularInt ι) (i : ι)

def CircularInt.setReader (reader : Reader) : CircularInt ι :=
  { circ with readers := Function.update circ.readers i reader }

def readerStep : Option (CircularInt ι) :=
  match circ.readers i with
  | .idle => none
  | .acquire length =>
    match circ.lockRead with
    | none => some ({ circ with lockRead := some i }.setReader i (.loadWrite length))
    | some _ => none
  | .loadWrite length => some (circ.setReader i (.loadRead length circ.writePtr))
  | .loadRead length write => some (circ.setReader i (.check length write circ.readPtr))
  | .check length write read =>
    if write = read then some (circ.setReader i (.release []))
    else some (circ.setReader i (.copy (min (circReadable write read circ.buffSize) length) read []))
  | .copy toCopy read out =>
    if out.length < toCopy then
      some (circ.setReader i (.copy toCopy ((read + 1) % circ.buffSize) (out ++ [circ.buff read])))
    else if toCopy > 0 then some ({ circ with readPtr := read }.setReader i (.release out))
    else none
  | .release out =>
    some ({ circ with lockRead := none, returned := circ.returned ++ out }.setReader i .idle)

inductive Action (ι : Type) where
  | callWrite (bytes : Bytes)
  | callRead (i : ι) (length : Nat)
  | writer
  | reader (i : ι)

def actionStep : Action ι → Option (CircularInt ι)
  | .callWrite bytes =>
    match circ.writer with
    | .idle => if bytes = [] then none else some { circ with writer := .loadWrite bytes }
    | _ => none
  | .callRead i length =>
    match circ.readers i with
    | .idle => if length = 0 then none else some (circ.setReader i (.acquire length))
    | _ => none
  | .writer => writerStep circ
  | .reader i => readerStep circ i

end

end

/-! ## What can be observed -/

variable {ι : Type}

def CircularInt.contents (circ : CircularInt ι) : Bytes :=
  Ring.window circ.buff circ.buffSize circ.readPtr
    (circReadable circ.writePtr circ.readPtr circ.buffSize)

def Reader.taken : Reader → Bytes
  | .release out => out
  | _ => []

def CircularInt.returning (circ : CircularInt ι) : Bytes :=
  match circ.lockRead with
  | none => []
  | some i => (circ.readers i).taken

end CoreX.Circ

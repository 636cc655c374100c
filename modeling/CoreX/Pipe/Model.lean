import CoreX.Base.Run
import CoreX.Base.Memory

/-!
# Pipes (`syscalls/pipe.rs`)

A pipe is a byte queue behind a mutex, with a condition variable for readers and one for writers. A step is one stay
in the mutex: from `lock`, or from the end of a `wait`, to the next `wait` or to the return. Threads are named by `τ`,
and a `wait` may end without a notification.

`appended` records the bytes that writes have put into the queue, with the number of the call, and `taken` those that
reads have returned. `returned` has the writes that returned `Ok`.
-/

namespace CoreX.Pipe

def pipeBuff : Nat := 65536

structure PipeInfo where
  buf : Bytes
  readFds : Nat
  writeFds : Nat

def PipeInfo.new : PipeInfo := ⟨[], 1, 1⟩

inductive ReadEnd where
  /-- In `cond_read.wait`. -/
  | wait
  /-- With `Ok(0)` at the end of the file. -/
  | eof
  /-- With the bytes that it has copied. -/
  | data (bytes : Bytes) (pipe : PipeInfo)

def readBody (pipe : PipeInfo) (len : Nat) : ReadEnd :=
  if pipe.buf = [] then if pipe.writeFds = 0 then .eof else .wait
  else
    let toCopy := min len pipe.buf.length
    .data (pipe.buf.take toCopy) { pipe with buf := pipe.buf.drop toCopy }

inductive WriteEnd where
  /-- In `cond_write.wait`. -/
  | wait
  | brokenPipe
  | done
  deriving DecidableEq

def writeLoop (data : Bytes) : Nat → PipeInfo → Nat → Bool → Option (WriteEnd × PipeInfo × Nat × Bool)
  | 0, _, _, _ => none
  | fuel + 1, pipe, written, notify =>
    if written < data.length then
      if pipeBuff ≤ pipe.buf.length then
        some (if pipe.readFds = 0 then .brokenPipe else .wait, pipe, written, notify)
      else
        let space := pipeBuff - pipe.buf.length
        let toWrite := min (data.length - written) space
        writeLoop data fuel { pipe with buf := pipe.buf ++ (data.drop written).take toWrite }
          (written + toWrite) true
    else some (.done, pipe, written, notify)

def closeBody (write : Bool) (pipe : PipeInfo) : PipeInfo :=
  if write then { pipe with writeFds := pipe.writeFds - 1 } else { pipe with readFds := pipe.readFds - 1 }

/-! ## Threads -/

/-- Where a thread is between two stays in the mutex. A thread in a `wait` that has ended is `notified`: it is
about to take the mutex again. -/
inductive Thread where
  | idle
  | reading (len : Nat) (notified : Bool)
  | writing (call : Nat) (data : Bytes) (written : Nat) (notified : Bool)

structure PipeState (τ : Type) where
  pipe : PipeInfo
  threads : τ → Thread
  /-- The number of calls of `write`. -/
  calls : Nat
  appended : List (Nat × UInt8)
  taken : Bytes
  /-- The call, its buffer, and `n` of `Ok(n)`. -/
  returned : List (Nat × Bytes × Nat)

def PipeState.init (τ : Type) : PipeState τ := ⟨.new, fun _ => .idle, 0, [], [], []⟩

def Thread.notifyRead : Thread → Thread
  | .reading len _ => .reading len true
  | thread => thread

def Thread.notifyWrite : Thread → Thread
  | .writing call data written _ => .writing call data written true
  | thread => thread

section
variable {τ : Type} [DecidableEq τ]

section
variable (s : PipeState τ) (t : τ)

def enterRead (len : Nat) : PipeState τ :=
  match readBody s.pipe len with
  | .wait => { s with threads := Function.update s.threads t (.reading len false) }
  | .eof => { s with threads := Function.update s.threads t .idle }
  | .data bytes pipe =>
    { s with
      pipe
      threads := Function.update (fun u => (s.threads u).notifyWrite) t .idle
      taken := s.taken ++ bytes }

def enterWrite (call : Nat) (data : Bytes) (written : Nat) : Option (PipeState τ) :=
  (writeLoop data (data.length + 1) s.pipe written false).map fun (ending, pipe, written', notify) =>
    { s with
      pipe
      threads := Function.update (if notify then fun u => (s.threads u).notifyRead else s.threads) t
        (if ending = .wait then .writing call data written' false else .idle)
      appended := s.appended ++ ((data.drop written).take (written' - written)).map (call, ·)
      returned := if ending = .done then s.returned ++ [(call, data, written')] else s.returned }

inductive Action (τ : Type) where
  | read (t : τ) (len : Nat)
  | write (t : τ) (data : Bytes)
  | close (write : Bool)
  /-- A thread whose `wait` has ended takes the mutex. -/
  | resume (t : τ)
  /-- A `wait` ends without a notification. -/
  | spurious (t : τ)

def actionStep : Action τ → Option (PipeState τ)
  | .read t len =>
    match s.threads t with
    | .idle => some (enterRead s t len)
    | _ => none
  | .write t data =>
    match s.threads t with
    | .idle => enterWrite { s with calls := s.calls + 1 } t s.calls data 0
    | _ => none
  | .close write =>
    some { s with
      pipe := closeBody write s.pipe
      threads := fun u => if write then (s.threads u).notifyRead else (s.threads u).notifyWrite }
  | .resume t =>
    match s.threads t with
    | .reading len true => some (enterRead s t len)
    | .writing call data written true => enterWrite s t call data written
    | _ => none
  | .spurious t =>
    match s.threads t with
    | .reading len _ => some { s with threads := Function.update s.threads t (.reading len true) }
    | .writing call data written _ =>
      some { s with threads := Function.update s.threads t (.writing call data written true) }
    | .idle => none

end

end

end CoreX.Pipe

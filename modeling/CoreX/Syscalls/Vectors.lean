import Mathlib.Data.List.Infix
import CoreX.Base.Memory

/-!
# `readv` and `writev` (`syscalls_fs.rs`)

Both functions go over the vectors and make one transfer for each. A transfer that moves fewer bytes than its vector
has does not end the loop. A file is any state with an answer to every call. A vector is the bytes of its buffer, and
no two buffers overlap.
-/

namespace CoreX.Vectors

open List Except

inductive Errno where
  | ebadf
  | other (code : Nat)
  deriving DecidableEq

structure File (δ : Type) where
  fsRead : δ → Nat → Except Errno Bytes × δ
  fsWrite : δ → Bytes → Except Errno Nat × δ
  internalPoll : Option (δ → Bool)
  fsRead_le : ∀ d n bytes, (fsRead d n).1 = .ok bytes → bytes.length ≤ n
  fsWrite_le : ∀ d buf n, (fsWrite d buf).1 = .ok n → n ≤ buf.length

/-- A vector after a transfer, and the bytes that were moved, which are its first ones. -/
structure Transfer where
  vec : Bytes
  moved : Bytes
  inFront : moved <+: vec

structure Outcome where
  result : Except Errno Nat
  iov : List Bytes
  transfers : List Transfer

variable {δ : Type}

/-- The loop of both functions, with the transfer for a vector and the test for whether one can be made. -/
def ioLoop (transfer : δ → Bytes → Except Errno Transfer × δ) (poll : Option (δ → Bool)) :
    δ → Nat → List Bytes → Outcome
  | _, total, [] => ⟨.ok total, [], []⟩
  | d, total, vec :: iov =>
    if vec.length = 0 then
      let o := ioLoop transfer poll d total iov
      { o with iov := vec :: o.iov }
    else if total > 0 ∧ poll.any (fun ready => ! ready d) then ⟨.ok total, vec :: iov, []⟩
    else
      match transfer d vec with
      | (.ok t, d') =>
        let o := ioLoop transfer poll d' (total + t.moved.length) iov
        { o with iov := t.vec :: o.iov, transfers := t :: o.transfers }
      | (.error e, _) => ⟨if total > 0 then .ok total else .error e, vec :: iov, []⟩

section
variable (file : File δ) (d : δ) (vec : Bytes)

def File.readInto : Except Errno Transfer × δ :=
  let (answer, d') := file.fsRead d vec.length
  (answer.map fun bytes => ⟨bytes ++ vec.drop bytes.length, bytes, List.prefix_append _ _⟩, d')

def File.writeFrom : Except Errno Transfer × δ :=
  let (answer, d') := file.fsWrite d vec
  (answer.map fun n => ⟨vec, vec.take n, List.take_prefix _ _⟩, d')

end

section
variable (file : Option (File δ)) (d : δ) (iov : List Bytes)

def syscallReadv : Outcome :=
  match file with
  | none => ⟨.error .ebadf, iov, []⟩
  | some file => ioLoop file.readInto file.internalPoll d 0 iov

def syscallWritev : Outcome :=
  match file with
  | none => ⟨.error .ebadf, iov, []⟩
  | some file => ioLoop file.writeFrom file.internalPoll d 0 iov

end

def stream (transfers : List Transfer) : Bytes := transfers.flatMap Transfer.moved

/-- Behind a short transfer nothing is moved. -/
def Gapless : List Transfer → Prop
  | [] => True
  | t :: ts => t.moved = t.vec ∧ Gapless ts ∨ stream ts = []

variable (transfer : δ → Bytes → Except Errno Transfer × δ) (poll : Option (δ → Bool))

theorem ioLoop_spec (iov : List Bytes) : ∀ d total, (∀ n, (ioLoop transfer poll d total iov).result = .ok n →
        n = total + (stream (ioLoop transfer poll d total iov).transfers).length) ∧
      (Gapless (ioLoop transfer poll d total iov).transfers →
        stream (ioLoop transfer poll d total iov).transfers <+: (ioLoop transfer poll d total iov).iov.flatten) := by
  induction iov with
  | nil => exact fun d total => ⟨fun n hn => (ok.inj hn).symm, fun _ => nil_prefix⟩
  | cons vec iov ih =>
    intro d total
    rw [ioLoop]
    by_cases hempty : vec.length = 0
    · rw [if_pos hempty, eq_nil_of_length_eq_zero hempty]
      exact ih d total
    rw [if_neg hempty]
    by_cases hpoll : total > 0 ∧ poll.any (fun ready => ! ready d)
    · rw [if_pos hpoll]
      exact ⟨fun n hn => (ok.inj hn).symm, fun _ => nil_prefix⟩
    rw [if_neg hpoll]
    rcases transfer d vec with ⟨answer, d'⟩
    cases answer with
    | error e =>
      refine ⟨fun n hn => ?_, fun _ => nil_prefix⟩
      by_cases htotal : total > 0
      · simp only [if_pos htotal] at hn
        exact (ok.inj hn).symm
      · simp only [if_neg htotal] at hn
        cases hn
    | ok t =>
      obtain ⟨hcount, hfront⟩ := ih d' (total + t.moved.length)
      have hstream : ∀ ts, stream (t :: ts) = t.moved ++ stream ts := fun ts => flatMap_cons
      refine ⟨fun n hn => ?_, fun hgapless => ?_⟩
      · rw [hstream, length_append, hcount n hn, Nat.add_assoc]
      rw [hstream, flatten_cons]
      rcases hgapless with ⟨hfull, hrest⟩ | hrest
      · obtain ⟨rest, heq⟩ := hfront hrest
        refine ⟨rest, ?_⟩
        rw [append_assoc, heq, hfull]
      · rw [hrest, append_nil]
        exact t.inFront.trans (prefix_append _ _)

theorem take_of_ioLoop {iov : List Bytes} {d : δ} {total : Nat}
    (hok : (ioLoop transfer poll d 0 iov).result = .ok total)
    (hgapless : Gapless (ioLoop transfer poll d 0 iov).transfers) :
    (ioLoop transfer poll d 0 iov).iov.flatten.take total = stream (ioLoop transfer poll d 0 iov).transfers := by
  obtain ⟨hcount, hfront⟩ := ioLoop_spec transfer poll iov d 0
  rw [hcount total hok, Nat.zero_add]
  exact (prefix_iff_eq_take.1 (hfront hgapless)).symm

/-- **The bytes of a `readv` or a `writev`** are the first ones of the vectors, in order, if no byte is moved behind a
transfer that does not use its whole vector. -/
theorem vectors_in_order (file : Option (File δ)) (d : δ) (iov : List Bytes) (total : Nat) :
    ((syscallReadv file d iov).result = .ok total → Gapless (syscallReadv file d iov).transfers →
      (syscallReadv file d iov).iov.flatten.take total = stream (syscallReadv file d iov).transfers) ∧
    ((syscallWritev file d iov).result = .ok total → Gapless (syscallWritev file d iov).transfers →
      (syscallWritev file d iov).iov.flatten.take total = stream (syscallWritev file d iov).transfers) := by
  cases file with
  | none => exact ⟨nofun, nofun⟩
  | some file => exact ⟨take_of_ioLoop file.readInto _, take_of_ioLoop file.writeFrom _⟩

def pacedFile : File (Bytes × List Nat) where
  fsRead d n := (.ok (d.1.take (min n (d.2.headD 0))), (d.1.drop (min n (d.2.headD 0)), d.2.tail))
  fsWrite d buf := (.ok (min buf.length (d.2.headD 0)), (d.1, d.2.tail))
  internalPoll := none
  fsRead_le d n bytes h := by
    obtain rfl := Except.ok.inj h
    rw [List.length_take]
    omega
  fsWrite_le d buf n h := by
    obtain rfl := Except.ok.inj h
    omega

theorem vectors_in_order_paced :
    (syscallReadv (some pacedFile) ([1, 2, 3, 4], [2, 1]) [[0, 0], [0, 0]]).iov.flatten.take 3 = [1, 2, 3] :=
  (vectors_in_order (some pacedFile) ([1, 2, 3, 4], [2, 1]) [[0, 0], [0, 0]] 3).1 rfl (.inl ⟨rfl, .inr rfl⟩)

/-- Two transfers of one byte each leave a gap in the first vector, and skip a byte of it. -/
theorem vectors_with_gap : (syscallReadv (some pacedFile) ([1, 2, 3, 4], [1, 1]) [[0, 0], [0, 0]]).result = .ok 2 ∧
      (syscallReadv (some pacedFile) ([1, 2, 3, 4], [1, 1]) [[0, 0], [0, 0]]).iov = [[1, 0], [2, 0]] ∧
      (syscallWritev (some pacedFile) ([], [1, 1]) [[1, 2], [3, 4]]).result = .ok 2 ∧
      stream (syscallWritev (some pacedFile) ([], [1, 1]) [[1, 2], [3, 4]]).transfers = [1, 3] :=
  ⟨rfl, rfl, rfl, rfl⟩

end CoreX.Vectors

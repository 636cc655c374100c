import CoreX.Base.Bytes
import CoreX.Base.Word

/-!
# Adding files (`utilities/fakefs/fakefs.rs`)

A directory is an intrusive list of casts of pointers into memory: the model has the bytes. `FakefsFile` begins with
`inner`, the head of the list of its own children, and the link `ll` comes after it. `ll_allocate` writes the link to
the first word, over `inner`, and `ll_init` then clears it. The second word, which `fakefs_traverse` follows, stays
what `malloc` left there (`fakefsAddFile_second`).
-/

namespace CoreX.Fakefs

open Memory

abbrev Mem := Nat → UInt8

section
variable (m : Mem) (addr : Nat)

def read64 : Nat := load m addr 8

def write64 (v : Nat) : Mem := store m addr 8 v

def inner : Nat := 0
def llNext : Nat := 8
def filename : Nat := 16
def filenameLength : Nat := 24
def symlink : Nat := 32
def symlinkLength : Nat := 40
def filetype : Nat := 48
def inode : Nat := 56
def handlers : Nat := 72

/-- `size_of::<FakefsFile>()`, with `size` at 64 and `extra` at 80. -/
def fileSize : Nat := 88

def lastInode : Nat := 8

def fakefsSize : Nat := 16

def llInit (ctrl : Nat) : Mem := write64 m ctrl 0

def llAllocate (ctrl obj size : Nat) (garbage : Mem) : Mem :=
  let m := memcpy m obj garbage size
  let m := write64 m obj (read64 m ctrl)
  write64 m ctrl obj

structure AddFile where
  (under filename filenameLen symlink symlinkLen : Nat)
  filetype : UInt16
  (handlers block : Nat)
  garbage : Mem

def fakefsAddFile (fakefs : Nat) (add : AddFile) : Mem :=
  let file := add.block
  let m := llAllocate m (add.under + inner) file fileSize add.garbage
  let m := llInit m (file + inner)
  let m := write64 m (file + filename) add.filename
  let m := write64 m (file + filenameLength) add.filenameLen
  let m := store16 m (file + filetype) add.filetype
  let m := write64 m (fakefs + lastInode) (Word.add (read64 m (fakefs + lastInode)) 1)
  let m := write64 m (file + inode) (read64 m (fakefs + lastInode))
  let m := write64 m (file + handlers) add.handlers
  -- both branches write the two fields
  let link := if add.symlink ≠ 0 then (add.symlink, add.symlinkLen) else (0, 0)
  write64 (write64 m (file + symlink) link.1) (file + symlinkLength) link.2

def filenameEq (a alen b blen : Nat) : Bool :=
  if alen ≠ blen then false else slice m a alen == slice m b blen

end

def fakefsTraverse (m : Mem) (search searchLen : Nat) : Nat → Nat → Option Nat
  | 0, _ => none
  | fuel + 1, browse =>
    if browse = 0 then some browse
    else if m (read64 m (browse + filename)) = 0x2A then some browse
    else if filenameEq m search searchLen (read64 m (browse + filename)) (read64 m (browse + filenameLength))
    then some browse
    else fakefsTraverse m search searchLen fuel (read64 m (browse + llNext))

/-! ## What one call does to memory -/

section Writes
variable {m : Mem} {addr v i : Nat}

theorem write64_of_notMem (h : ¬(addr ≤ i ∧ i < addr + 8)) : write64 m addr v i = m i := by
  rw [write64, store, memcpy_of_notMem h]

theorem read64_write64 (hv : v < 2 ^ 64) : read64 (write64 m addr v) addr = v := by
  rw [read64, write64, load_store]
  exact Nat.mod_eq_of_lt (by omega)

theorem read64_congr {m' : Mem} (h : ∀ i, addr ≤ i → i < addr + 8 → m' i = m i) : read64 m' addr = read64 m addr :=
  load_congr h

theorem read64_write64_of_disjoint {addr' : Nat} (h : addr + 8 ≤ addr' ∨ addr' + 8 ≤ addr) :
    read64 (write64 m addr' v) addr = read64 m addr :=
  read64_congr fun _ _ _ => write64_of_notMem (by omega)

end Writes

theorem read64_store16_of_disjoint {m : Mem} {addr addr' : Nat} {v : UInt16}
    (h : addr + 8 ≤ addr' ∨ addr' + 2 ≤ addr) : read64 (store16 m addr' v) addr = read64 m addr :=
  read64_congr fun _ _ _ => store16_of_notMem (by omega)

theorem read64_memcpy {m garbage : Mem} {addr obj size : Nat} (h : obj ≤ addr ∧ addr + 8 ≤ obj + size) :
    read64 (memcpy m obj garbage size) addr = read64 garbage (addr - obj) := by
  apply load_shift
  intro i hi
  rw [memcpy_of_mem (by omega)]
  congr 1
  omega

structure Placed (fakefs : Nat) (add : AddFile) : Prop where
  fakefs_block : fakefs + fakefsSize ≤ add.block ∨ add.block + fileSize ≤ fakefs
  under_block : add.under + 8 ≤ add.block ∨ add.block + fileSize ≤ add.under
  fakefs_under : fakefs + fakefsSize ≤ add.under ∨ add.under + 8 ≤ fakefs
  block_pos : 0 < add.block
  block_lt : add.block < 2 ^ 64
  filename_lt : add.filename < 2 ^ 64
  filenameLen_lt : add.filenameLen < 2 ^ 64

/-- The bytes that a call may change: the new file, the head of the list it is put in, and the counter
of inodes. -/
def Touches (fakefs : Nat) (add : AddFile) (i : Nat) : Prop :=
  (add.block ≤ i ∧ i < add.block + fileSize) ∨ (add.under ≤ i ∧ i < add.under + 8) ∨
    (fakefs ≤ i ∧ i < fakefs + fakefsSize)

section Call
variable {fakefs : Nat} {add : AddFile} (m : Mem)

theorem fakefsAddFile_of_not_touches {i : Nat} (h : ¬ Touches fakefs add i) : fakefsAddFile m fakefs add i = m i := by
  simp only [Touches, fileSize, fakefsSize, not_or] at h
  simp only [fakefsAddFile, llAllocate, llInit, inner, filename, filenameLength, filetype, lastInode, inode,
    handlers, symlink, symlinkLength, fileSize]
  -- each write is to one of the three areas
  repeat rw [write64_of_notMem (by omega)]
  rw [store16_of_notMem (by omega)]
  repeat rw [write64_of_notMem (by omega)]
  rw [memcpy_of_notMem (by omega)]

variable (h : Placed fakefs add)
include h

theorem fakefsAddFile_words : read64 (fakefsAddFile m fakefs add) add.under = add.block ∧
      read64 (fakefsAddFile m fakefs add) (add.block + inner) = 0 ∧
      read64 (fakefsAddFile m fakefs add) (add.block + llNext) = read64 add.garbage llNext ∧
      read64 (fakefsAddFile m fakefs add) (add.block + filename) = add.filename ∧
      read64 (fakefsAddFile m fakefs add) (add.block + filenameLength) = add.filenameLen := by
  obtain ⟨hFakefs, hUnder, hFakefsUnder, -, hLt, hName, hLength⟩ := h
  simp only [fileSize, fakefsSize] at hFakefs hUnder hFakefsUnder
  simp only [fakefsAddFile, llAllocate, llInit, inner, llNext, filename, filenameLength, filetype, lastInode, inode,
    handlers, symlink, symlinkLength, fileSize]
  refine ⟨?_, ?_, ?_, ?_, ?_⟩ <;>
    simp (disch := omega) only [read64_write64_of_disjoint, read64_store16_of_disjoint, Nat.add_zero, read64_write64,
      read64_memcpy, Nat.add_sub_cancel_left]

end Call

end CoreX.Fakefs

import CoreX.Ext2.Getdents
import CoreX.Fat32.File

/-!
# Listing a directory (`filesystems/fat32/fat32-dirs.rs`)

`fat32Getdents64` moves `ptr` by the size of `FAT32DirectoryEntry`, which is declared with its first two fields only
and has 12 bytes. So it looks at every twelfth position of the directory, and at the end of a cluster at bytes behind
the buffer. What it makes of these positions is said without the loops (`found`), and the two loops are one walk over
them: it stops where the chain is over or an entry does not fit (`clusterLoop_some`, `clusterLoop_exists`).

The results of `dentsAdd` have other numbers in `utilities/dents.rs` than here.
-/

namespace CoreX.Fat32

open Links Memory Sectors List Option Nat
open Ext2 (Dents LinuxDirent64 dentsAdd)

/-! ## The model -/

def fatAttribArchive : UInt8 := 0x20

def fatAttribLfn : UInt8 := 0x0F

def lfnOrderFinal : UInt8 := 0x40

def lfnMax : Int := 20

def lfnMaxTotalChars : Nat := 260

def dirEntSize : Nat := 12

/-- `DENTS_RES` of `fat32-dirs.rs` -/
inductive DentsRes where
  | dentsOk
  | dentsNoSpace
  | dentsReturn
  deriving DecidableEq

def dentsCode : Ext2.DentsRes → Nat
  | .dentsSuccess => 0
  | .dentsReturn => 1
  | .dentsNoSpace => 2

def DentsRes.ofCode : Nat → DentsRes
  | 0 => .dentsOk
  | 1 => .dentsNoSpace
  | _ => .dentsReturn

def fatInodeGen (cluster index : Nat) : UInt64 := UInt64.ofNat cluster <<< 32 ||| UInt64.ofNat index

def fat32LFNmemcpy (lfnName lfn : Buf) (index : Int) : Option Buf :=
  if index < 0 ∨ lfnMaxTotalChars < index.toNat * 13 + 13 then none
  else some (storeSlice lfnName (index.toNat * 13) ([1, 3, 5, 7, 9, 13, 15, 17, 19, 21, 23, 28, 30].map lfn))

def sfnName (dirent : Buf) : Bytes :=
  (slice dirent 0 8).takeWhile (· ≠ 0x20) ++
    if dirent 8 ≠ 0x20 ∧ dirent 8 ≠ 0 then 0x2E :: (slice dirent 8 3).takeWhile (· ≠ 0x20) else []

def fat32SFNtoNormal (target dirent : Buf) : Buf × Nat :=
  (storeSlice target 0 (sfnName dirent ++ [0]), (sfnName dirent).length + 1)

def lfnLength (lfnName : Buf) : Nat → Nat → Option Nat
  | 0, _ => none
  | n + 1, len => if lfnName len ≠ 0 then lfnLength lfnName n (len + 1) else some len

structure DirWalk where
  ptr : Nat
  lfnName : Buf
  lfnLast : Int
  dents : Dents

section
variable (dir : Buf)

/-- The bytes are taken for a part of a long name. The field `type` of `FAT32LFN` is at the offset 13. -/
def isLfn : Bool := dir 11 = fatAttribLfn ∧ dir 13 = 0

def isEntry : Bool := dir 11 = fatAttribDirectory ∨ dir 11 = fatAttribArchive

def dtypeOf : UInt8 := if dir 11 &&& fatAttribDirectory ≠ 0 then 4 else 8

def visitLfn (s : DirWalk) : Option DirWalk :=
  if isLfn dir then
    let index : Int := (dir 0 &&& ~~~lfnOrderFinal).toNat - 1
    if lfnMax ≤ index then none
    else (fat32LFNmemcpy s.lfnName dir index).map fun lfnName =>
      { s with lfnName, lfnLast := if dir 0 &&& lfnOrderFinal ≠ 0 then index else s.lfnLast }
  else some s

def entryName (s : DirWalk) : Option (Buf × Nat × Int) :=
  if 0 ≤ s.lfnLast then (lfnLength s.lfnName lfnMaxTotalChars 0).map fun len => (s.lfnName, len, -1)
  else
    let (lfnName, len) := fat32SFNtoNormal s.lfnName dir
    some (lfnName, len, s.lfnLast)

end

def visitEntry (hardlimit : UInt32) (curr i : Nat) (dir : Buf) (s : DirWalk) : Option (Bool × DirWalk) :=
  if isEntry dir then do
    let (lfnName, lfnLen, lfnLast) ← entryName dir s
    let (res, dents) := dentsAdd s.dents hardlimit (slice lfnName 0 lfnLen) (fatInodeGen curr (i / 32)) (dtypeOf dir)
    match DentsRes.ofCode (dentsCode res) with
    | .dentsOk => some (false, { s with lfnName := fun _ => 0, lfnLast, dents })
    -- `ERR(EINVAL)` is 22
    | .dentsNoSpace => some (true, { s with lfnName, lfnLast, dents := { dents with allocated := 22 } })
    | .dentsReturn => some (true, { s with lfnName, lfnLast, dents })
  else some (false, s)

def visit (hardlimit : UInt32) (curr i : Nat) (dir : Buf) (s : DirWalk) : Option (Bool × DirWalk) :=
  (visitLfn dir s).bind (visitEntry hardlimit curr i dir)

def dirLoop (v : Volume) (hardlimit : UInt32) (curr : Nat) (bytes : Buf) :
    Nat → Nat → DirWalk → Option (Bool × DirWalk)
  | 0, i, s => if i < v.bytesPerCluster then none else some (false, s)
  | n + 1, i, s =>
    if i < v.bytesPerCluster then do
      let (left, s) ← visit hardlimit curr i (fun k => bytes (i + k)) s
      if left then some (true, s)
      else dirLoop v hardlimit curr bytes n (i + dirEntSize) { s with ptr := s.ptr + dirEntSize }
    else some (false, s)

def clusterLoop (v : Volume) (hardlimit : UInt32) : Nat → Nat → Cache → DirWalk → Option (Nat × Cache × DirWalk)
  | 0, _, _, _ => none
  | fuel + 1, curr, cache, s =>
    if curr = 0 then some (0, cache, s)
    else do
      let lba ← fat32ClusterToLBA v curr
      let bytes := readSectors v.disk v.heap lba v.sectorsPerCluster
      let (left, s) ← dirLoop v hardlimit curr bytes v.bytesPerCluster (s.ptr % v.bytesPerCluster) s
      if left then some (curr, cache, s)
      else
        let (curr, cache) ← fat32FATtraverse v cache curr
        if curr = 0 then some (0, cache, s) else clusterLoop v hardlimit fuel curr cache s

/-- `fat32Getdents64`: the answer, the records in the buffer and the descriptor afterwards. `ERR` does not change the
sign of an error. -/
def fat32Getdents64 (v : Volume) (fuel : Nat) (cache : Cache) (fd : FAT32OpenFd) (hardlimit : UInt32) :
    Option (Nat × List LinuxDirent64 × FAT32OpenFd × Cache) :=
  if fd.dirEnt.attrib &&& fatAttribDirectory = 0 then some (20, [], fd, cache)
  else if fd.directoryCurr = 0 then some (0, [], fd, cache)
  else if v.bytesPerCluster = 0 then none
  else (clusterLoop v hardlimit fuel fd.directoryCurr cache ⟨fd.ptr, fun _ => 0, -1, ⟨[], 0⟩⟩).map
    fun (curr, cache, s) =>
      (s.dents.allocated, s.dents.records, { fd with ptr := s.ptr, directoryCurr := curr }, cache)

/-! ## The names at a row of positions -/

def slotNumber (dir : Buf) : Nat := (dir 0 &&& ~~~lfnOrderFinal).toNat

section
variable (dirs : Nat → Nat → UInt8)

/-- A last part of a long name is among the positions behind the previous entry. -/
def longBegun : Nat → Bool
  | 0 => false
  | j + 1 => !isEntry (dirs j) && (longBegun j || isLfn (dirs j) && dirs j 0 &&& lfnOrderFinal ≠ 0)

/-- The characters of the parts of long names behind the previous entry. -/
def longChars : Nat → Nat → UInt8
  | 0 => fun _ => 0
  | j + 1 =>
    if isEntry (dirs j) then fun _ => 0
    else if isLfn (dirs j) then
      storeSlice (longChars j) ((slotNumber (dirs j) - 1) * 13)
        ([1, 3, 5, 7, 9, 13, 15, 17, 19, 21, 23, 28, 30].map (dirs j))
    else longChars j

def nameOf (j : Nat) : Bytes :=
  if longBegun dirs j then (slice (longChars dirs j) 0 lfnMaxTotalChars).takeWhile (· ≠ 0)
  else sfnName (dirs j) ++ [0]

/-- A part of a long name has a number from 1 to 20, and the long name of an entry does not fill its buffer. -/
def Harmless (j : Nat) : Prop :=
  (isLfn (dirs j) = true → 1 ≤ slotNumber (dirs j) ∧ slotNumber (dirs j) ≤ 20) ∧
    (isEntry (dirs j) = true → longBegun dirs j = true → 0 ∈ slice (longChars dirs j) 0 lfnMaxTotalChars)

instance (j : Nat) : Decidable (Harmless dirs j) := inferInstanceAs (Decidable (_ ∧ _))

end

def reclen (r : LinuxDirent64) : Nat := 23 + r.dName.length + 1

/-! ## The positions of a call -/

section
variable (v : Volume) (cache : Cache) (fd : FAT32OpenFd)

def clusterBytes (curr : Nat) : Buf :=
  readSectors v.disk v.heap ((fat32ClusterToLBA v curr).getD 0) v.sectorsPerCluster

/-- The chain from the cluster of the descriptor on, as the table has it: 0 behind the last cluster, and 1, which is
no cluster, behind one whose entry cannot be addressed. -/
def chainAt : Nat → Nat × Cache
  | 0 => (fd.directoryCurr, cache)
  | d + 1 => (fat32FATtraverse v (chainAt d).2 (chainAt d).1).getD (1, (chainAt d).2)

def posAt (j : Nat) : Nat := fd.ptr + dirEntSize * j

def clusterAt (j : Nat) : Nat := (chainAt v cache fd (posAt fd j / v.bytesPerCluster - fd.ptr / v.bytesPerCluster)).1

/-- What the loops see at a position: the bytes of the cluster from there on, and behind them what is in memory behind
the buffer. -/
def dirAt (j : Nat) : Buf := fun k =>
  clusterBytes v (clusterAt v cache fd j) (posAt fd j % v.bytesPerCluster + k)

def recordAt (j : Nat) : LinuxDirent64 :=
  let filename := nameOf (dirAt v cache fd) j
  ⟨fatInodeGen (clusterAt v cache fd j) (posAt fd j % v.bytesPerCluster / 32),
    UInt16.ofNat (23 + filename.length + 1), dtypeOf (dirAt v cache fd j), filename⟩

/-- The entries among the first positions. -/
def found (n : Nat) : List LinuxDirent64 :=
  ((List.range n).filter fun j => isEntry (dirAt v cache fd j)).map (recordAt v cache fd)

def dentsAt (n : Nat) : Dents := ⟨found v cache fd n, ((found v cache fd n).map reclen).sum⟩

variable (hardlimit : UInt32)

/-- What is found in `n` entries fits the buffer. -/
def Fits (n : Nat) : Prop := found v cache fd n = [] ∨ (dentsAt v cache fd n).allocated + 2 ≤ hardlimit.toNat

instance (n : Nat) : Decidable (Fits v cache fd hardlimit n) := inferInstanceAs (Decidable (_ ∨ _))

structure Passes (j : Nat) : Prop where
  cluster : 2 ≤ clusterAt v cache fd j
  harmless : Harmless (dirAt v cache fd) j
  fits : Fits v cache fd hardlimit (j + 1)

/-- The chain is over, or the entry at the position is the first one that does not fit. -/
def Stops (j : Nat) : Prop :=
  clusterAt v cache fd j = 0 ∨
    2 ≤ clusterAt v cache fd j ∧ Harmless (dirAt v cache fd) j ∧ ¬ Fits v cache fd hardlimit (j + 1)

/-- What a call leaves that stops at a position. The result of `dentsAdd`, mixed up, is 22 if there are records. -/
def answerAt (j : Nat) : Dents :=
  if clusterAt v cache fd j = 0 then dentsAt v cache fd j
  else ⟨found v cache fd j, if found v cache fd j = [] then 0 else 22⟩

/-- The state at a position, if every position before passes. -/
structure At (j : Nat) (s : DirWalk) : Prop where
  ptr : s.ptr = posAt fd j
  lfnName : s.lfnName = longChars (dirAt v cache fd) j
  lfnLast : 0 ≤ s.lfnLast ↔ longBegun (dirAt v cache fd) j = true
  dents : s.dents = dentsAt v cache fd j
  fits : Fits v cache fd hardlimit j

structure Leaves (j : Nat) (r : Nat × Cache × DirWalk) : Prop where
  curr : r.1 = clusterAt v cache fd j
  ptr : r.2.2.ptr = posAt fd j
  dents : r.2.2.dents = answerAt v cache fd j

end

variable {v : Volume} {cache cache' : Cache} {fd : FAT32OpenFd} {hardlimit : UInt32} {s : DirWalk}
  {dir : Buf} {fuel n len j k d curr i : Nat} {r : Nat × Cache × DirWalk}

theorem Stops.not_passes (h : Stops v cache fd hardlimit j) : ¬ Passes v cache fd hardlimit j := by
  intro hpass
  rcases h with hzero | ⟨-, -, hfull⟩
  · have htwo := hpass.cluster
    omega
  · exact hfull hpass.fits

theorem found_succ (v : Volume) (cache : Cache) (fd : FAT32OpenFd) (n : Nat) : found v cache fd (n + 1) =
    found v cache fd n ++ if isEntry (dirAt v cache fd n) then [recordAt v cache fd n] else [] := by
  rw [found, range_succ, filter_append, map_append, filter_singleton]
  cases isEntry (dirAt v cache fd n) <;> rfl

theorem reclen_pos (r : LinuxDirent64) : 24 ≤ reclen r := by
  unfold reclen
  omega

theorem le_sum_reclen {records : List LinuxDirent64} (hne : records ≠ []) : 24 ≤ (records.map reclen).sum := by
  obtain ⟨r, records, rfl⟩ := exists_cons_of_ne_nil hne
  rw [map_cons, sum_cons]
  exact (reclen_pos r).trans (Nat.le_add_right ..)

theorem dentsAt_succ_of_entry (hentry : isEntry (dirAt v cache fd n) = true) : dentsAt v cache fd (n + 1) =
    ⟨found v cache fd n ++ [recordAt v cache fd n],
      (dentsAt v cache fd n).allocated + reclen (recordAt v cache fd n)⟩ := by
  simp [dentsAt, found_succ, hentry]

theorem fits_succ_of_entry (hardlimit : UInt32) (hentry : isEntry (dirAt v cache fd n) = true) :
    Fits v cache fd hardlimit (n + 1) ↔
      (dentsAt v cache fd n).allocated + reclen (recordAt v cache fd n) + 2 ≤ hardlimit.toNat := by
  rw [Fits, dentsAt_succ_of_entry hentry, found_succ, if_pos hentry]
  simp

theorem fits_succ_of_not_entry (hardlimit : UInt32) (hentry : isEntry (dirAt v cache fd n) = false) :
    found v cache fd (n + 1) = found v cache fd n ∧
      (Fits v cache fd hardlimit (n + 1) ↔ Fits v cache fd hardlimit n) := by
  have hfound : found v cache fd (n + 1) = found v cache fd n := by
    simp [found_succ, hentry]
  exact ⟨hfound, by rw [Fits, Fits, dentsAt, dentsAt, hfound]⟩

theorem Fits.of_le (h : Fits v cache fd hardlimit n) (hj : j ≤ n) : Fits v cache fd hardlimit j := by
  induction hj with
  | refl => exact h
  | step _ ih =>
    rename_i k _
    cases hentry : isEntry (dirAt v cache fd k) with
    | true =>
      have hroom := (fits_succ_of_entry hardlimit hentry).1 h
      exact ih (.inr (by omega))
    | false => exact ih ((fits_succ_of_not_entry hardlimit hentry).2.1 h)

/-! ## One position -/

theorem lfnLength_eq (name : Buf) (n len : Nat) : lfnLength name n len =
    if 0 ∈ slice name len n then some (len + ((slice name len n).takeWhile (· ≠ 0)).length) else none := by
  induction n generalizing len with
  | zero => rfl
  | succ n ih =>
    rw [lfnLength, slice_succ, takeWhile_cons]
    by_cases hzero : name len = 0
    · simp [hzero]
    · rw [if_pos hzero, ih]
      simp [hzero, Ne.symm hzero, add_assoc, add_comm 1]

theorem slice_takeWhile (name : Buf) (p : UInt8 → Bool) (n len : Nat) :
    slice name len ((slice name len n).takeWhile p).length = (slice name len n).takeWhile p := by
  induction n generalizing len with
  | zero => rfl
  | succ n ih =>
    rw [slice_succ, takeWhile_cons]
    split
    · rw [length_cons, slice_succ, ih]
    · rfl

theorem isLfn_eq_false_of_isEntry (h : isEntry dir = true) : isLfn dir = false := by
  have hattrib : dir 11 = fatAttribDirectory ∨ dir 11 = fatAttribArchive := by simpa [isEntry] using h
  have hne : dir 11 ≠ fatAttribLfn := by
    rcases hattrib with h | h
    · rw [h]
      decide
    · rw [h]
      decide
  simp [isLfn, hne]

theorem visitLfn_of_lfn (h : isLfn dir = true) (s : DirWalk) :
    visitLfn dir s = if 1 ≤ slotNumber dir ∧ slotNumber dir ≤ 20 then
      some { s with
        lfnName := storeSlice s.lfnName ((slotNumber dir - 1) * 13)
          ([1, 3, 5, 7, 9, 13, 15, 17, 19, 21, 23, 28, 30].map dir)
        lfnLast := if dir 0 &&& lfnOrderFinal ≠ 0 then (slotNumber dir : Int) - 1 else s.lfnLast }
      else none := by
  rw [visitLfn, if_pos h]
  change (if lfnMax ≤ (slotNumber dir : Int) - 1 then none
    else (fat32LFNmemcpy s.lfnName dir ((slotNumber dir : Int) - 1)).map _) = _
  unfold lfnMax
  by_cases hslot : 1 ≤ slotNumber dir ∧ slotNumber dir ≤ 20
  · have hinside : ¬ ((slotNumber dir : Int) - 1 < 0 ∨
        lfnMaxTotalChars < ((slotNumber dir : Int) - 1).toNat * 13 + 13) := by
      unfold lfnMaxTotalChars
      omega
    rw [if_pos hslot, if_neg (by omega), fat32LFNmemcpy, if_neg hinside,
      show ((slotNumber dir : Int) - 1).toNat = slotNumber dir - 1 by omega]
    rfl
  · rw [if_neg hslot]
    by_cases hlarge : 20 ≤ (slotNumber dir : Int) - 1
    · rw [if_pos hlarge]
    · have hnegative : (slotNumber dir : Int) - 1 < 0 := by omega
      rw [if_neg hlarge, fat32LFNmemcpy, if_pos (Or.inl hnegative)]
      rfl

theorem visitLfn_of_not_lfn (h : isLfn dir = false) (s : DirWalk) : visitLfn dir s = some s := by
  rw [visitLfn, h]
  rfl

/-- The name of an entry, and that it takes the long name away. -/
theorem At.entryName_eq (h : At v cache fd hardlimit j s) : (∃ lfnName len lfnLast,
      entryName (dirAt v cache fd j) s = some (lfnName, len, lfnLast) ∧
        slice lfnName 0 len = nameOf (dirAt v cache fd) j ∧ ¬ 0 ≤ lfnLast ∧
        (longBegun (dirAt v cache fd) j = true → 0 ∈ slice (longChars (dirAt v cache fd) j) 0 lfnMaxTotalChars)) ∨
    entryName (dirAt v cache fd j) s = none ∧ longBegun (dirAt v cache fd) j = true ∧
      0 ∉ slice (longChars (dirAt v cache fd) j) 0 lfnMaxTotalChars := by
  unfold entryName nameOf
  by_cases hlong : 0 ≤ s.lfnLast
  · rw [if_pos hlong, if_pos (h.lfnLast.1 hlong), lfnLength_eq, h.lfnName]
    by_cases hzero : 0 ∈ slice (longChars (dirAt v cache fd) j) 0 lfnMaxTotalChars
    · refine .inl ⟨_, _, _, by rw [if_pos hzero]; rfl, ?_, by decide, fun _ => hzero⟩
      rw [zero_add, slice_takeWhile]
    · exact .inr ⟨by rw [if_neg hzero]; rfl, h.lfnLast.1 hlong, hzero⟩
  · have hbegun : longBegun (dirAt v cache fd) j ≠ true := fun hbegun => hlong (h.lfnLast.2 hbegun)
    rw [if_neg hlong, if_neg hbegun]
    refine .inl ⟨_, _, _, rfl, ?_, hlong, fun hbegun' => absurd hbegun' hbegun⟩
    rw [← length_concat (a := 0), concat_eq_append, slice_storeSlice]

theorem visitEntry_of_name {lfnName : Buf} {lfnLast : Int} (hentry : isEntry dir = true)
    (hname : entryName dir s = some (lfnName, len, lfnLast)) (hardlimit : UInt32) (curr i : Nat) :
    visitEntry hardlimit curr i dir s =
      if s.dents.allocated + (23 + len + 1) + 2 ≤ hardlimit.toNat then
        some (false, ⟨s.ptr, fun _ => 0, lfnLast, ⟨s.dents.records ++ [⟨fatInodeGen curr (i / 32),
          UInt16.ofNat (23 + len + 1), dtypeOf dir, slice lfnName 0 len⟩], s.dents.allocated + (23 + len + 1)⟩⟩)
      else some (true, ⟨s.ptr, lfnName, lfnLast, ⟨s.dents.records, if s.dents.allocated = 0 then 0 else 22⟩⟩) := by
  rw [visitEntry, if_pos hentry, hname]
  simp only [bind_eq_bind, bind_some, dentsAdd, length_slice]
  by_cases hroom : s.dents.allocated + (23 + len + 1) + 2 ≤ hardlimit.toNat
  · rw [if_pos hroom, if_neg (not_lt.2 hroom)]
    rfl
  · rw [if_neg hroom, if_pos (not_le.1 hroom)]
    by_cases hzero : s.dents.allocated = 0
    · rw [if_neg (not_not.2 hzero), if_pos hzero, ← hzero]
      rfl
    · rw [if_pos hzero, if_neg hzero]
      rfl

theorem allocated_eq_zero : (dentsAt v cache fd n).allocated = 0 ↔ found v cache fd n = [] := by
  constructor
  · intro hzero
    by_contra hne
    have hle : 24 ≤ (dentsAt v cache fd n).allocated := le_sum_reclen hne
    omega
  · intro hnil
    rw [dentsAt, hnil]
    rfl

def visitAt (v : Volume) (cache : Cache) (fd : FAT32OpenFd) (hardlimit : UInt32) (j : Nat) (s : DirWalk) :
    Option (Bool × DirWalk) :=
  visit hardlimit (clusterAt v cache fd j) (posAt fd j % v.bytesPerCluster) (dirAt v cache fd j) s

/-- The code fails at a position that is not harmless, goes on if everything fits, and leaves otherwise. -/
def Visited (v : Volume) (cache : Cache) (fd : FAT32OpenFd) (hardlimit : UInt32) (j : Nat) :
    Option (Bool × DirWalk) → Prop
  | none => ¬ Harmless (dirAt v cache fd) j
  | some (false, t) => Harmless (dirAt v cache fd) j ∧ Fits v cache fd hardlimit (j + 1) ∧
      At v cache fd hardlimit (j + 1) { t with ptr := t.ptr + dirEntSize }
  | some (true, t) => Harmless (dirAt v cache fd) j ∧ ¬ Fits v cache fd hardlimit (j + 1) ∧ t.ptr = posAt fd j ∧
      t.dents = ⟨found v cache fd j, if found v cache fd j = [] then 0 else 22⟩

section
variable (h : At v cache fd hardlimit j s)
include h

theorem At.next_ptr : s.ptr + dirEntSize = posAt fd (j + 1) := by
  rw [h.ptr, posAt, posAt, mul_succ, add_assoc]

theorem At.visited_entry (hentry : isEntry (dirAt v cache fd j) = true) :
    Visited v cache fd hardlimit j (visitAt v cache fd hardlimit j s) := by
  have hlfn := isLfn_eq_false_of_isEntry hentry
  rw [visitAt, visit, visitLfn_of_not_lfn hlfn, bind_some]
  rcases h.entryName_eq with ⟨lfnName, len, lfnLast, hname, hslice, hlast, hzero⟩ | ⟨hnone, hbegun, hzero⟩
  · have hlen : (recordAt v cache fd j).dName.length = len := by
      rw [← length_slice lfnName 0 len, hslice]
      rfl
    have hsafe : Harmless (dirAt v cache fd) j := ⟨by simp [hlfn], fun _ => hzero⟩
    have hfits := fits_succ_of_entry hardlimit hentry
    rw [reclen, hlen] at hfits
    rw [visitEntry_of_name hentry hname, h.dents]
    by_cases hroom : (dentsAt v cache fd j).allocated + (23 + len + 1) + 2 ≤ hardlimit.toNat
    · rw [if_pos hroom]
      refine ⟨hsafe, hfits.2 hroom, h.next_ptr, ?_, iff_of_false hlast (by simp [longBegun, hentry]), ?_,
        hfits.2 hroom⟩
      · rw [longChars, if_pos hentry]
      · rw [dentsAt_succ_of_entry hentry, reclen, hlen, hslice, ← hlen]
        rfl
    · rw [if_neg hroom]
      refine ⟨hsafe, fun hfits' => hroom (hfits.1 hfits'), h.ptr, ?_⟩
      simp only [allocated_eq_zero]
      rfl
  · rw [visitEntry, if_pos hentry, hnone]
    exact fun hsafe => hzero (hsafe.2 hentry hbegun)

theorem At.visited_not_entry (hentry : isEntry (dirAt v cache fd j) = false) :
    Visited v cache fd hardlimit j (visitAt v cache fd hardlimit j s) := by
  obtain ⟨hfound, hfits⟩ := fits_succ_of_not_entry hardlimit hentry
  have hdents : s.dents = dentsAt v cache fd (j + 1) := by rw [h.dents, dentsAt, dentsAt, hfound]
  have hstay : ∀ t, visitEntry hardlimit (clusterAt v cache fd j) (posAt fd j % v.bytesPerCluster)
      (dirAt v cache fd j) t = some (false, t) := fun t => by
    rw [visitEntry, hentry]
    rfl
  rw [visitAt, visit]
  cases hlfn : isLfn (dirAt v cache fd j) with
  | false =>
    rw [visitLfn_of_not_lfn hlfn, bind_some, hstay]
    refine ⟨⟨by simp [hlfn], by simp [hentry]⟩, hfits.2 h.fits, h.next_ptr, ?_, ?_, hdents, hfits.2 h.fits⟩
    · rw [longChars, hentry, hlfn]
      exact h.lfnName
    · rw [longBegun, hentry, hlfn]
      simpa using h.lfnLast
  | true =>
    rw [visitLfn_of_lfn hlfn]
    by_cases hslot : 1 ≤ slotNumber (dirAt v cache fd j) ∧ slotNumber (dirAt v cache fd j) ≤ 20
    · rw [if_pos hslot, bind_some, hstay]
      refine ⟨⟨fun _ => hslot, by simp [hentry]⟩, hfits.2 h.fits, h.next_ptr, ?_, ?_, hdents, hfits.2 h.fits⟩
      · rw [longChars, hentry, hlfn, ← h.lfnName]
        rfl
      · rw [longBegun, hentry, hlfn]
        by_cases hfinal : dirAt v cache fd j 0 &&& lfnOrderFinal = 0
        · simpa [hfinal] using h.lfnLast
        · simpa [hfinal] using hslot.1
    · rw [if_neg hslot]
      exact fun hsafe => hslot (hsafe.1 hlfn)

/-- **One position** of the walk. -/
theorem At.visited : Visited v cache fd hardlimit j (visitAt v cache fd hardlimit j s) := by
  cases hentry : isEntry (dirAt v cache fd j) with
  | true => exact h.visited_entry hentry
  | false => exact h.visited_not_entry hentry

end

/-! ## The loops -/

theorem posAt_le (fd : FAT32OpenFd) (h : j ≤ n) : posAt fd j ≤ posAt fd n :=
  Nat.add_le_add_left (mul_le_mul_left _ h) _

/-- The rest of a cluster: the loop fails or leaves at the first position that makes it do so, or comes to the first
position behind the cluster. -/
theorem dirLoop_turn (hB : dirEntSize ≤ v.bytesPerCluster) (h : At v cache fd hardlimit j s)
    (hlow : k * v.bytesPerCluster ≤ posAt fd j) (hhigh : posAt fd j < (k + 1) * v.bytesPerCluster + dirEntSize)
    (hn : (k + 1) * v.bytesPerCluster ≤ posAt fd j + dirEntSize * n)
    (hcurr : curr = (chainAt v cache fd (k - fd.ptr / v.bytesPerCluster)).1) (htwo : 2 ≤ curr) :
    ∃ m, j ≤ m ∧ (∀ l, j ≤ l → l < m → Passes v cache fd hardlimit l) ∧
      match dirLoop v hardlimit curr (clusterBytes v curr) n (posAt fd j - k * v.bytesPerCluster) s with
      | none => ¬ Stops v cache fd hardlimit m ∧ ¬ Passes v cache fd hardlimit m
      | some (true, t) => Stops v cache fd hardlimit m ∧ clusterAt v cache fd m = curr ∧ t.ptr = posAt fd m ∧
          t.dents = answerAt v cache fd m
      | some (false, t) => At v cache fd hardlimit m t ∧ posAt fd m / v.bytesPerCluster = k + 1 := by
  have hsucc : (k + 1) * v.bytesPerCluster = k * v.bytesPerCluster + v.bytesPerCluster := succ_mul ..
  have hsucc' : (k + 1 + 1) * v.bytesPerCluster = (k + 1) * v.bytesPerCluster + v.bytesPerCluster := succ_mul ..
  induction n generalizing j s with
  | zero =>
    rw [dirLoop, if_neg (by omega)]
    exact ⟨j, le_refl j, fun l hl hl' => by omega, h, Nat.div_eq_of_lt_le (by omega) (by omega)⟩
  | succ n ih =>
    by_cases hi : posAt fd j < (k + 1) * v.bytesPerCluster
    · have hdiv : posAt fd j / v.bytesPerCluster = k := Nat.div_eq_of_lt_le hlow hi
      have hmod : posAt fd j % v.bytesPerCluster = posAt fd j - k * v.bytesPerCluster := by
        have hadd := div_add_mod' (posAt fd j) v.bytesPerCluster
        rw [hdiv] at hadd
        omega
      have hcl : clusterAt v cache fd j = curr := by rw [clusterAt, hdiv, hcurr]
      have hvisit : visit hardlimit curr (posAt fd j - k * v.bytesPerCluster)
          (fun l => clusterBytes v curr (posAt fd j - k * v.bytesPerCluster + l)) s =
          visitAt v cache fd hardlimit j s := by
        unfold visitAt dirAt
        rw [hcl, hmod]
      have hvisited := h.visited
      rw [dirLoop, if_pos (by omega), hvisit]
      cases hout : visitAt v cache fd hardlimit j s with
      | none =>
        rw [hout] at hvisited
        refine ⟨j, le_refl j, fun l hl hl' => by omega, ?_, fun hpass => hvisited hpass.harmless⟩
        rintro (hzero | ⟨-, hsafe, -⟩)
        · omega
        · exact hvisited hsafe
      | some out =>
        obtain ⟨left, t⟩ := out
        rw [hout] at hvisited
        cases left with
        | true =>
          obtain ⟨hsafe, hfull, hptr, hdents⟩ := hvisited
          refine ⟨j, le_refl j, fun l hl hl' => by omega, .inr ⟨hcl ▸ htwo, hsafe, hfull⟩, hcl, hptr, ?_⟩
          have hne : clusterAt v cache fd j ≠ 0 := by omega
          rw [hdents, answerAt, if_neg hne]
        | false =>
          obtain ⟨hsafe, hfits, hat⟩ := hvisited
          have hnext : posAt fd (j + 1) = posAt fd j + dirEntSize := by rw [← h.next_ptr, h.ptr]
          obtain ⟨m, hm, hpass, hrest⟩ := ih hat (by omega) (by omega) (by rw [mul_succ] at hn; omega)
          refine ⟨m, by omega, fun l hl hl' => ?_, ?_⟩
          · rcases Nat.eq_or_lt_of_le hl with rfl | hlt
            · exact ⟨hcl ▸ htwo, hsafe, hfits⟩
            · exact hpass l hlt hl'
          · rw [show posAt fd (j + 1) - k * v.bytesPerCluster =
              posAt fd j - k * v.bytesPerCluster + dirEntSize by omega] at hrest
            exact hrest
    · rw [dirLoop, if_neg (by omega)]
      exact ⟨j, le_refl j, fun l hl hl' => by omega, h, Nat.div_eq_of_lt_le (by omega) (by omega)⟩

theorem clusterLoop_succ (v : Volume) (hardlimit : UInt32) (fuel : Nat) (cache : Cache) (s : DirWalk)
    (hcurr : 2 ≤ curr) :
    clusterLoop v hardlimit (fuel + 1) curr cache s =
      (dirLoop v hardlimit curr (clusterBytes v curr) v.bytesPerCluster (s.ptr % v.bytesPerCluster) s).bind fun r =>
        if r.1 then some (curr, cache, r.2)
        else (fat32FATtraverse v cache curr).bind fun next =>
          if next.1 = 0 then some (0, next.2, r.2) else clusterLoop v hardlimit fuel next.1 next.2 r.2 := by
  have hlba : fat32ClusterToLBA v curr = some ((fat32ClusterToLBA v curr).getD 0) := by
    rw [fat32ClusterToLBA, if_neg (by omega)]
    rfl
  rw [clusterLoop, if_neg (by omega), hlba]
  rfl

theorem clusterLoop_one (fuel : Nat) (cache : Cache) (s : DirWalk) (hcurr : curr ≠ 0) (hlt : curr < 2) :
    clusterLoop v hardlimit fuel curr cache s = none := by
  cases fuel with
  | zero => rfl
  | succ fuel =>
    rw [clusterLoop, if_neg hcurr, fat32ClusterToLBA, if_pos hlt]
    rfl

theorem not_stops_of_lt_two (hne : clusterAt v cache fd j ≠ 0) (hlt : clusterAt v cache fd j < 2) :
    ¬ Stops v cache fd hardlimit j ∧ ¬ Passes v cache fd hardlimit j := by
  refine ⟨?_, fun hpass => not_le.2 hlt hpass.cluster⟩
  rintro (hzero | ⟨hle, -⟩) <;> omega

section
variable (hB : dirEntSize ≤ v.bytesPerCluster) (h : At v cache fd hardlimit j s)
  (hd : posAt fd j / v.bytesPerCluster = fd.ptr / v.bytesPerCluster + d) (htwo : 2 ≤ (chainAt v cache fd d).1)
include hB h hd htwo

/-- One turn of the loop over the clusters. -/
theorem clusterLoop_turn : ∃ m, j ≤ m ∧ (∀ l, j ≤ l → l < m → Passes v cache fd hardlimit l) ∧
    ((¬ Stops v cache fd hardlimit m ∧ ¬ Passes v cache fd hardlimit m ∧
      ∀ fuel, clusterLoop v hardlimit (fuel + 1) (chainAt v cache fd d).1 (chainAt v cache fd d).2 s = none) ∨
    (Stops v cache fd hardlimit m ∧ ∃ r, Leaves v cache fd m r ∧
      ∀ fuel, clusterLoop v hardlimit (fuel + 1) (chainAt v cache fd d).1 (chainAt v cache fd d).2 s = some r) ∨
    (posAt fd m / v.bytesPerCluster = fd.ptr / v.bytesPerCluster + (d + 1) ∧ 2 ≤ (chainAt v cache fd (d + 1)).1 ∧
      ∃ t, At v cache fd hardlimit m t ∧
      ∀ fuel, clusterLoop v hardlimit (fuel + 1) (chainAt v cache fd d).1 (chainAt v cache fd d).2 s =
        clusterLoop v hardlimit fuel (chainAt v cache fd (d + 1)).1 (chainAt v cache fd (d + 1)).2 t)) := by
  have hpos : 0 < v.bytesPerCluster := lt_of_lt_of_le (by decide) hB
  have hadd := div_add_mod' (posAt fd j) v.bytesPerCluster
  have hmod := mod_lt (posAt fd j) hpos
  rw [hd] at hadd
  have hsucc : (fd.ptr / v.bytesPerCluster + d + 1) * v.bytesPerCluster =
    (fd.ptr / v.bytesPerCluster + d) * v.bytesPerCluster + v.bytesPerCluster := succ_mul ..
  obtain ⟨m, hm, hpass, hloop⟩ := dirLoop_turn (n := v.bytesPerCluster) (k := fd.ptr / v.bytesPerCluster + d) hB h
    (by omega) (by unfold dirEntSize; omega) (by unfold dirEntSize; omega) (by rw [Nat.add_sub_cancel_left]) htwo
  refine ⟨m, hm, hpass, ?_⟩
  rw [show posAt fd j - (fd.ptr / v.bytesPerCluster + d) * v.bytesPerCluster = s.ptr % v.bytesPerCluster by
    rw [h.ptr]; omega] at hloop
  have hturn (fuel : Nat) := clusterLoop_succ v hardlimit fuel (chainAt v cache fd d).2 s htwo
  split at hloop
  case h_1 hout =>
    simp only [hout, bind_none] at hturn
    exact .inl ⟨hloop.1, hloop.2, hturn⟩
  case h_2 t hout =>
    simp only [hout, bind_some, if_true] at hturn
    exact .inr (.inl ⟨hloop.1, _, ⟨hloop.2.1.symm, hloop.2.2.1, hloop.2.2.2⟩, hturn⟩)
  case h_3 t hout =>
    obtain ⟨hat, hdiv⟩ := hloop
    have hcl : clusterAt v cache fd m = (chainAt v cache fd (d + 1)).1 := by
      rw [clusterAt, hdiv, add_assoc, Nat.add_sub_cancel_left]
    simp only [hout, bind_some, Bool.false_eq_true, if_false] at hturn
    cases hnext : fat32FATtraverse v (chainAt v cache fd d).2 (chainAt v cache fd d).1 with
    | none =>
      have hchain : chainAt v cache fd (d + 1) = (1, (chainAt v cache fd d).2) := by rw [chainAt, hnext]; rfl
      rw [hchain] at hcl
      obtain ⟨hstops, hpass⟩ := not_stops_of_lt_two (hcl.trans_ne one_ne_zero) (hcl.trans_lt one_lt_two)
      exact .inl ⟨hstops, hpass, by simpa only [hnext, bind_none] using hturn⟩
    | some next =>
      have hchain : chainAt v cache fd (d + 1) = next := by rw [chainAt, hnext]; rfl
      simp only [hnext, bind_some] at hturn
      rw [hchain] at hcl ⊢
      by_cases hzero : next.1 = 0
      · simp only [if_pos hzero] at hturn
        refine .inr (.inl ⟨.inl (hcl.trans hzero), _, ⟨(hcl.trans hzero).symm, hat.ptr, ?_⟩, hturn⟩)
        rw [answerAt, if_pos (hcl.trans hzero)]
        exact hat.dents
      simp only [if_neg hzero] at hturn
      by_cases hone : next.1 < 2
      · obtain ⟨hstops, hpass⟩ := not_stops_of_lt_two (hcl ▸ hzero) (hcl ▸ hone)
        exact .inl ⟨hstops, hpass, fun fuel => by rw [hturn, clusterLoop_one fuel next.2 t hzero hone]⟩
      · exact .inr (.inr ⟨hdiv, not_lt.1 hone, t, hat, hturn⟩)

/-- A call that returns has stopped at a position. -/
theorem clusterLoop_some
    (hloop : clusterLoop v hardlimit fuel (chainAt v cache fd d).1 (chainAt v cache fd d).2 s = some r) :
    ∃ n, j ≤ n ∧ (∀ l, j ≤ l → l < n → Passes v cache fd hardlimit l) ∧ Stops v cache fd hardlimit n ∧
      Leaves v cache fd n r := by
  induction fuel generalizing j s d with
  | zero => cases hloop
  | succ fuel ih =>
    obtain ⟨m, hm, hpass, ⟨-, -, hnone⟩ | ⟨hstops, r', hleaves, hsome⟩ | ⟨hdiv, htwo', t, hat, hnext⟩⟩ :=
      clusterLoop_turn hB h hd htwo
    · rw [hnone] at hloop
      cases hloop
    · rw [hsome] at hloop
      exact ⟨m, hm, hpass, hstops, some.inj hloop ▸ hleaves⟩
    · rw [hnext] at hloop
      obtain ⟨n, hn, hpass', hend⟩ := ih hat hdiv htwo' hloop
      refine ⟨n, hm.trans hn, fun l hl hl' => ?_, hend⟩
      rcases Nat.lt_or_ge l m with hlt | hge
      · exact hpass l hl hlt
      · exact hpass' l hge hl'

/-- The walk comes to a position where it stops. -/
theorem clusterLoop_exists (hn : j ≤ n) (hpass : ∀ l, j ≤ l → l < n → Passes v cache fd hardlimit l)
    (hstops : Stops v cache fd hardlimit n)
    (hfuel : posAt fd n / v.bytesPerCluster < fd.ptr / v.bytesPerCluster + d + fuel) :
    ∃ r, clusterLoop v hardlimit fuel (chainAt v cache fd d).1 (chainAt v cache fd d).2 s = some r := by
  induction fuel generalizing j s d with
  | zero =>
    have hle := Nat.div_le_div_right (c := v.bytesPerCluster) (posAt_le fd hn)
    omega
  | succ fuel ih =>
    obtain ⟨m, hm, hpass', hturn⟩ := clusterLoop_turn hB h hd htwo
    have hle : m ≤ n := by
      by_contra hlt
      exact hstops.not_passes (hpass' n hn (not_le.1 hlt))
    rcases hturn with ⟨hgoes, hfails, -⟩ | ⟨-, r', -, hsome⟩ | ⟨hdiv, htwo', t, hat, hnext⟩
    · rcases Nat.eq_or_lt_of_le hle with rfl | hlt
      · exact absurd hstops hgoes
      · exact absurd (hpass m hm hlt) hfails
    · exact ⟨r', hsome fuel⟩
    · rw [hnext]
      exact ih hat hdiv htwo' hle (fun l hl => hpass l (hm.trans hl)) (by omega)

end

/-! ## A call -/

theorem dirEntSize_le (hsize : v.bytesPerCluster ≠ 0) : dirEntSize ≤ v.bytesPerCluster := by
  unfold Volume.bytesPerCluster dirEntSize at *
  omega

theorem clusterAt_zero (v : Volume) (cache : Cache) (fd : FAT32OpenFd) :
    clusterAt v cache fd 0 = fd.directoryCurr := by
  rw [clusterAt, posAt, mul_zero, add_zero, Nat.sub_self, chainAt]

theorem at_start (v : Volume) (cache : Cache) (fd : FAT32OpenFd) (hardlimit : UInt32) :
    At v cache fd hardlimit 0 ⟨fd.ptr, fun _ => 0, -1, ⟨[], 0⟩⟩ :=
  ⟨rfl, rfl, iff_of_false (show ¬ 0 ≤ (-1 : Int) by decide) Bool.false_ne_true, rfl, .inl rfl⟩

section
variable (hdir : fd.dirEnt.attrib &&& fatAttribDirectory ≠ 0) (hsize : v.bytesPerCluster ≠ 0)
include hdir hsize

theorem fat32Getdents64_some {out : Nat × List LinuxDirent64 × FAT32OpenFd × Cache}
    (hcall : fat32Getdents64 v fuel cache fd hardlimit = some out) :
    ∃ n, (∀ l < n, Passes v cache fd hardlimit l) ∧ Stops v cache fd hardlimit n ∧
      out = ((answerAt v cache fd n).allocated, (answerAt v cache fd n).records,
        { fd with ptr := posAt fd n, directoryCurr := clusterAt v cache fd n }, out.2.2.2) := by
  rw [fat32Getdents64, if_neg hdir] at hcall
  by_cases hcurr : fd.directoryCurr = 0
  · rw [if_pos hcurr] at hcall
    have hfirst := (clusterAt_zero v cache fd).trans hcurr
    refine ⟨0, fun l hl => absurd hl (not_lt_zero l), .inl hfirst, ?_⟩
    rw [answerAt, if_pos hfirst, clusterAt_zero, ← some.inj hcall]
    rfl
  rw [if_neg hcurr, if_neg hsize] at hcall
  obtain ⟨⟨curr, cache', s⟩, hloop, rfl⟩ := map_eq_some_iff.1 hcall
  by_cases htwo : 2 ≤ fd.directoryCurr
  · obtain ⟨n, -, hpass, hstops, hleaves⟩ := clusterLoop_some (d := 0) (dirEntSize_le hsize)
      (at_start v cache fd hardlimit) rfl htwo hloop
    refine ⟨n, fun l hl => hpass l (zero_le l) hl, hstops, ?_⟩
    obtain ⟨rfl, hptr, hdents⟩ := hleaves
    rw [← hptr, ← hdents]
  · rw [clusterLoop_one fuel cache _ hcurr (not_le.1 htwo)] at hloop
    cases hloop

/-- **A call** goes by the first position that stops it. -/
theorem fat32Getdents64_eq (hpass : ∀ l < n, Passes v cache fd hardlimit l) (hstops : Stops v cache fd hardlimit n)
    (hfuel : posAt fd n / v.bytesPerCluster < fd.ptr / v.bytesPerCluster + fuel) :
    ∃ cache', fat32Getdents64 v fuel cache fd hardlimit =
      some ((answerAt v cache fd n).allocated, (answerAt v cache fd n).records,
        { fd with ptr := posAt fd n, directoryCurr := clusterAt v cache fd n }, cache') := by
  obtain ⟨out, hcall⟩ : ∃ out, fat32Getdents64 v fuel cache fd hardlimit = some out := by
    rw [fat32Getdents64, if_neg hdir]
    by_cases hcurr : fd.directoryCurr = 0
    · exact ⟨_, if_pos hcurr⟩
    have htwo : 2 ≤ fd.directoryCurr := by
      rw [← clusterAt_zero v cache fd] at hcurr ⊢
      rcases Nat.eq_zero_or_pos n with rfl | hpos
      · exact (hstops.resolve_left hcurr).1
      · exact (hpass 0 hpos).cluster
    obtain ⟨r, hloop⟩ := clusterLoop_exists (d := 0) (dirEntSize_le hsize) (at_start v cache fd hardlimit) rfl htwo
      (zero_le n) (fun l _ => hpass l) hstops hfuel
    rw [if_neg hcurr, if_neg hsize]
    exact ⟨_, map_eq_some_iff.2 ⟨r, hloop, rfl⟩⟩
  obtain ⟨m, hpass', hstops', hout⟩ := fat32Getdents64_some hdir hsize hcall
  obtain rfl : m = n := by
    rcases Nat.lt_trichotomy m n with hlt | heq | hgt
    · exact absurd (hpass m hlt) hstops'.not_passes
    · exact heq
    · exact absurd (hpass' n hgt) hstops.not_passes
  exact ⟨_, hcall.trans (congrArg some hout)⟩

end

end CoreX.Fat32

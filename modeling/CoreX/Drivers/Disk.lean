import CoreX.Base.Memory
import Mathlib.Algebra.Ring.Nat
import Mathlib.Data.List.Basic

/-!
# Transfers in chunks (`drivers/disk.rs`, `drivers/ahci.rs`)

`disk_bytes_max` cuts a transfer into chunks, as large as eight PRDT entries can describe, or seven for a buffer that
is not aligned (`diskBytesMax_eq`). But `ahci_rw` fills one entry and has 16 bits for the count (`ahciFits_iff`).
-/

namespace CoreX.Disk

open Memory List

def sectorSize : Nat := 512

def ahciPrdts : Nat := 8

def ahciBytesPerPrdt : Nat := 4 * 1024 * 1024

/-- Memory and the disk; without an AHCI disk `disk_bytes` clears the buffer. -/
structure Machine where
  (memory disk : Buf)
  found : Bool

/-- A call of `disk_bytes`. -/
structure Chunk where
  (address lba sectors : Nat)

def diskBytes (write : Bool) (s : Machine) (c : Chunk) : Machine :=
  if s.found = false then { s with memory := memcpy s.memory c.address (fun _ => 0) (c.sectors * sectorSize) }
  else if write then { s with
    disk := memcpy s.disk (c.lba * sectorSize) (fun i => s.memory (c.address + i)) (c.sectors * sectorSize) }
  else { s with
    memory := memcpy s.memory c.address (fun i => s.disk (c.lba * sectorSize + i)) (c.sectors * sectorSize) }

def maxSectors (address : Nat) : Nat :=
  ahciBytesPerPrdt * (if address % 0x1000 = 0 then ahciPrdts else ahciPrdts - 1) / sectorSize

def chunkSizes (address count : Nat) : List Nat :=
  replicate (count / maxSectors address) (maxSectors address) ++
    if 0 < count % maxSectors address then [count % maxSectors address] else []

/-- The call for the chunk `i`, where `none` is an overflow of the `u32`. -/
def chunkAt (address lba i sectors : Nat) : Option Chunk :=
  let lba := lba + i % 2 ^ 32 * (maxSectors address % 2 ^ 32)
  if lba < 2 ^ 32 then some ⟨address + i * maxSectors address * sectorSize, lba, sectors⟩ else none

section
variable (address lba count : Nat)

def diskChunks : Option (List Chunk) :=
  (chunkSizes address count).zipIdx.mapM fun (sectors, i) => chunkAt address lba i sectors

def diskBytesMax (write : Bool) (s : Machine) : Option Machine :=
  (diskChunks address lba count).map fun cs => cs.foldl (diskBytes write) s

def getDiskBytes : Machine → Option Machine := diskBytesMax address lba count false

def setDiskBytes : Machine → Option Machine := diskBytesMax address lba count true

end

/-- Chunks that are one behind the other in the buffer and on the disk. -/
def Tiles : (address lba count : Nat) → List Chunk → Prop
  | _, _, count, [] => count = 0
  | address, lba, count, c :: cs => c.address = address ∧ c.lba = lba ∧ 0 < c.sectors ∧ c.sectors ≤ count ∧
    Tiles (address + c.sectors * sectorSize) (lba + c.sectors) (count - c.sectors) cs

variable {address lba count : Nat} {s : Machine} {cs : List Chunk}

theorem memcpy_append (m src : Buf) (off a b : Nat) :
    memcpy (memcpy m off src a) (off + a) (fun i => src (a + i)) b = memcpy m off src (a + b) := by
  funext i
  by_cases hsecond : off + a ≤ i ∧ i < off + a + b
  · rw [memcpy_of_mem hsecond, memcpy_of_mem (by omega)]
    exact congrArg src (by omega)
  rw [memcpy_of_notMem hsecond]
  by_cases hfirst : off ≤ i ∧ i < off + a
  · rw [memcpy_of_mem hfirst, memcpy_of_mem (by omega)]
  · rw [memcpy_of_notMem hfirst, memcpy_of_notMem (by omega)]

theorem diskBytes_append (write : Bool) (s : Machine) (address lba m n : Nat) :
    diskBytes write (diskBytes write s ⟨address, lba, m⟩) ⟨address + m * sectorSize, lba + m, n⟩ =
      diskBytes write s ⟨address, lba, m + n⟩ := by
  have hclear := memcpy_append s.memory (fun _ => 0) address (m * sectorSize) (n * sectorSize)
  have hread := memcpy_append s.memory (fun i => s.disk (lba * sectorSize + i)) address (m * sectorSize) (n * sectorSize)
  have hwrite := memcpy_append s.disk (fun i => s.memory (address + i)) (lba * sectorSize) (m * sectorSize)
    (n * sectorSize)
  unfold diskBytes
  cases hfound : s.found <;> cases write <;> simp_all [Nat.add_mul, Nat.add_assoc]

theorem foldl_diskBytes (write : Bool) (h : Tiles address lba count cs) :
    cs.foldl (diskBytes write) s = diskBytes write s ⟨address, lba, count⟩ := by
  induction cs generalizing address lba count s with
  | nil =>
    obtain rfl : count = 0 := h
    have hnone : ∀ (m : Buf) off src, memcpy m off src (0 * sectorSize) = m := fun m off src =>
      funext fun i => memcpy_of_notMem (by omega)
    simp only [foldl_nil, diskBytes, hnone, ite_self]
  | cons c cs ih =>
    obtain ⟨rfl, rfl, hpos, hle, hrest⟩ := h
    rw [foldl_cons, ih hrest, diskBytes_append, Nat.add_sub_cancel' hle]

theorem maxSectors_cases (address : Nat) : maxSectors address = 65536 ∨ maxSectors address = 57344 := by
  unfold maxSectors
  split_ifs
  · exact .inl rfl
  · exact .inr rfl

theorem chunkAt_of_lt {i : Nat} (sectors : Nat) (h : lba + i * maxSectors address < 2 ^ 32) : chunkAt address lba i sectors =
    some ⟨address + i * maxSectors address * sectorSize, lba + i * maxSectors address, sectors⟩ := by
  have hmax := maxSectors_cases address
  have hi : i % 2 ^ 32 = i := Nat.mod_eq_of_lt (by rcases hmax with hmax | hmax <;> rw [hmax] at h <;> omega)
  rw [chunkAt, hi, Nat.mod_eq_of_lt (by omega : maxSectors address < 2 ^ 32), if_pos h]

/-- The induction is on the number of whole chunks from the chunk `i` on. -/
theorem mapM_chunkAt (address lba r : Nat) : ∀ k i, lba + i * maxSectors address + (k * maxSectors address + r) ≤ 2 ^ 32 →
    ∃ cs, ((replicate k (maxSectors address) ++ if 0 < r then [r] else []).zipIdx i).mapM
        (fun p => chunkAt address lba p.2 p.1) = some cs ∧
      Tiles (address + i * maxSectors address * sectorSize) (lba + i * maxSectors address) (k * maxSectors address + r) cs
  | 0, i, h => by
    by_cases hr : 0 < r
    · refine ⟨[⟨_, _, r⟩], ?_, rfl, rfl, hr, by simp, by simp [Tiles]⟩
      simp [hr, zipIdx_cons, chunkAt_of_lt r (show lba + i * maxSectors address < 2 ^ 32 by omega)]
    · exact ⟨[], by simp [hr], by simp only [Tiles]; omega⟩
  | k + 1, i, h => by
    have hpos : 0 < maxSectors address := by have := maxSectors_cases address; omega
    have hle : maxSectors address ≤ (k + 1) * maxSectors address + r := by rw [Nat.succ_mul]; omega
    rw [Nat.succ_mul] at h
    obtain ⟨cs, hcs, htiles⟩ := mapM_chunkAt address lba r k (i + 1) (by rw [Nat.succ_mul]; omega)
    refine ⟨⟨_, _, maxSectors address⟩ :: cs, ?_, rfl, rfl, hpos, hle, ?_⟩
    · have hlt : lba + i * maxSectors address < 2 ^ 32 := by omega
      simp [replicate_succ, zipIdx_cons, hcs, chunkAt_of_lt _ hlt]
    · convert htiles using 1 <;> simp only [Nat.succ_mul, Nat.add_mul] <;> omega

/-- **Chunked transfers.** The chunks are the transfer cut into pieces that lie one behind the other, and do together
what one transfer would do. -/
theorem diskBytesMax_eq (address : Nat) (h : lba + count ≤ 2 ^ 32) :
    (∃ cs, diskChunks address lba count = some cs ∧ Tiles address lba count cs) ∧
      ∀ s, getDiskBytes address lba count s = some (diskBytes false s ⟨address, lba, count⟩) ∧
        setDiskBytes address lba count s = some (diskBytes true s ⟨address, lba, count⟩) := by
  have hcount := Nat.div_add_mod' count (maxSectors address)
  obtain ⟨cs, hcs, htiles⟩ := mapM_chunkAt address lba (count % maxSectors address) (count / maxSectors address) 0
    (by rw [hcount, Nat.zero_mul]; exact h)
  simp only [Nat.zero_mul, Nat.add_zero, hcount] at htiles
  have hchunks : diskChunks address lba count = some cs := hcs
  refine ⟨⟨cs, hchunks, htiles⟩, fun s => ?_⟩
  simp only [getDiskBytes, setDiskBytes, diskBytesMax, hchunks, Option.map_some, foldl_diskBytes _ htiles, and_self]

theorem diskBytesMax_unaligned : 7 + 100000 ≤ 2 ^ 32 ∧
    ∀ s, getDiskBytes 0x1001 7 100000 s = some (diskBytes false s ⟨0x1001, 7, 100000⟩) :=
  ⟨by decide, fun s => ((diskBytesMax_eq 0x1001 (by decide)).2 s).1⟩

/-! ## The command -/

/-- The byte count that `ahci_rw` puts into its entry, where `none` is an underflow; `count` is a `u16`. -/
def dbc (count : Nat) : Option Nat := if count = 0 then none else some (count * 512 - 1)

/-- What `ahci_rw` needs of the size of a chunk: it sets `prdtl` to 1 and fills one entry. -/
def AhciFits (sectors : Nat) : Prop :=
  sectors < 2 ^ 16 ∧ sectors * 512 ≤ 1 * ahciBytesPerPrdt ∧ dbc (sectors % 2 ^ 16) = some (512 * sectors - 1)

theorem ahciFits_iff (address count : Nat) : (∀ n ∈ chunkSizes address count, AhciFits n) ↔ count ≤ 8192 := by
  have hmax := maxSectors_cases address
  unfold chunkSizes AhciFits ahciBytesPerPrdt
  constructor
  · intro h
    by_contra hlarge
    by_cases hwhole : count < maxSectors address
    · have := (h count (by rw [Nat.mod_eq_of_lt hwhole, if_pos (by omega)]; simp)).2.1
      omega
    · have hpos : count / maxSectors address ≠ 0 := Nat.pos_iff_ne_zero.1 (Nat.div_pos (by omega) (by omega))
      have := (h (maxSectors address) (mem_append_left _ (mem_replicate.2 ⟨hpos, rfl⟩))).2.1
      omega
  · intro hsmall n hn
    rw [Nat.div_eq_of_lt (by omega), Nat.mod_eq_of_lt (by omega), replicate_zero, nil_append] at hn
    split_ifs at hn with hpos
    · obtain rfl := mem_singleton.1 hn
      refine ⟨by omega, by omega, ?_⟩
      rw [Nat.mod_eq_of_lt (by omega), dbc, if_neg (by omega), Nat.mul_comm]
    · exact absurd hn not_mem_nil

/-- The chunks of 32 MiB for an aligned buffer have the count 0, whose byte count underflows. -/
theorem ahciFits_aligned : chunkSizes 0x1000 65536 = [65536] ∧ dbc (65536 % 2 ^ 16) = none := by decide

end CoreX.Disk

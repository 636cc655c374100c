import CoreX.Bitmap.Marking

/-!
# The physical memory manager (`memory/pmm.rs`, `entry/bootloader.rs`)

`initiate_pmm` sizes the bitmap from `mmTotal`, places it at the start of the first usable entry that can hold it, and
marks the entries of the bootloader's memory map. Its bitmap is a `DSBitmap` with `memStart` zero; the counter wraps
while it runs and is reset at the end.

The constant `LIMINE_MEMMAP_USABLE` that `pmm.rs` declares for itself is `1`. The bootloader protocol,
`include/limine.h`, and with it `bootloader.rs`, has `0` for usable memory and `1` for reserved memory.
-/

namespace CoreX.Pmm

open Bitmap

inductive MemmapType
  | usable
  | reserved
  | acpiReclaimable
  | acpiNvs
  | badMemory
  | bootloaderReclaimable
  | kernelAndModules
  | framebuffer
  deriving DecidableEq

def MemmapType.code : MemmapType → Nat
  | usable => 0
  | reserved => 1
  | acpiReclaimable => 2
  | acpiNvs => 3
  | badMemory => 4
  | bootloaderReclaimable => 5
  | kernelAndModules => 6
  | framebuffer => 7

structure LimineMemmapEntry where
  base : Nat
  length : Nat
  entryType : MemmapType
  deriving DecidableEq

/-- `LIMINE_MEMMAP_USABLE` as `limine.h` defines it and `bootloader.rs` uses it. -/
def limineMemmapUsable : Nat := 0

/-- `LIMINE_MEMMAP_USABLE` as `pmm.rs` defines it. -/
def pmmMemmapUsable : Nat := 0x1

def mmTotalOf (entries : List LimineMemmapEntry) : Nat :=
  entries.foldl (fun total e =>
    if e.entryType.code = limineMemmapUsable then Word.add total e.length else total) 0

structure BootloaderInfo where
  mmTotal : Nat
  mmEntries : List LimineMemmapEntry

section
variable (boot : BootloaderInfo)

def sizeInBlocks : Nat := Word.divRoundUp boot.mmTotal blockSize

def sizeInBytes : Nat := Word.divRoundUp (sizeInBlocks boot) 8

def isUsable (e : LimineMemmapEntry) : Bool := e.entryType.code = pmmMemmapUsable

/-- The first loop of `initiate_pmm`: entries of another type and too short ones are skipped, and the
first of the rest is taken. -/
def chosenEntry : Option LimineMemmapEntry :=
  boot.mmEntries.find? (fun e => isUsable e && !(e.length < sizeInBytes boot))

section
variable (physMem : Nat → BitVec 8) (physical : DSBitmap)

/-- The bitmap before anything is marked; `physMem` is physical memory, which the bitmap's pointer sees
from the start of the chosen entry on. -/
def freshBitmap (chosen : LimineMemmapEntry) : DSBitmap :=
  { physical with
    bitmapSizeInBlocks := sizeInBlocks boot
    bitmapSizeInBytes := sizeInBytes boot
    bitmap := Memory.memset (fun i => physMem (chosen.base + i)) 0 0xFF#8 (sizeInBytes boot) }

def markEntries (p : LimineMemmapEntry → Bool) (isUsed : Bool) (entries : List LimineMemmapEntry)
    (b : DSBitmap) : DSBitmap :=
  entries.foldl (fun b e => if p e then markRegion b e.base e.length isUsed else b) b

def initiatePmm : Option DSBitmap :=
  match chosenEntry boot with
  | none => none
  | some chosen =>
    let b := freshBitmap boot physMem physical chosen
    let b := markEntries isUsable false boot.mmEntries b
    let b := markEntries (fun e => !isUsable e) true boot.mmEntries b
    let b := markRegion b chosen.base b.bitmapSizeInBytes true
    some { b with allocatedSizeInBlocks := 0 }

end

end

/-! ## Memory maps -/

def LimineMemmapEntry.Contains (e : LimineMemmapEntry) (a : Nat) : Prop := e.base ≤ a ∧ a < e.base + e.length

/-- A memory map as the bootloader delivers it: page-aligned entries inside the 64-bit address space, no
two of which share an address. -/
structure MemoryMap where
  entries : List LimineMemmapEntry
  aligned : ∀ e ∈ entries, e.base % blockSize = 0 ∧ e.length % blockSize = 0
  word : ∀ e ∈ entries, e.base < 2 ^ 64 ∧ e.length < 2 ^ 64
  end_le : ∀ e ∈ entries, e.base + e.length ≤ 2 ^ 64
  disjoint : entries.Pairwise (fun e e' => ∀ a, ¬ (e.Contains a ∧ e'.Contains a))

end CoreX.Pmm

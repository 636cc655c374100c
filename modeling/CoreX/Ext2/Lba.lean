import CoreX.Base.Sectors
import CoreX.Ext2.Blocks
import Mathlib.Order.CompletePartialOrder
import Mathlib.Order.Interval.Set.Disjoint

/-!
# Where a block lies on the disk (`BLOCK_TO_LBA`)

The other modules take the disk as a map from block numbers to contents. That is right if the sectors of different
blocks do not overlap, as with the scaling of `ext2.h` (`Header.disjoint_sectorsOf`). The modules in Rust define
`BLOCK_TO_LBA` again, without it.
-/

namespace CoreX.Ext2

open Memory Sectors

section Transfers
variable (blockToLba : Nat → Nat) (blockSize : Nat)

def sectorsOf (block : Nat) : Set Nat := Set.Ico (blockToLba block) (blockToLba block + blockSize / 512)

def getBlockBytes (disk buf : Buf) (block : Nat) : Buf := readSectors disk buf (blockToLba block) (blockSize / 512)

def setBlockBytes (disk buf : Buf) (block : Nat) : Buf := writeSectors disk buf (blockToLba block) (blockSize / 512)

variable {blockToLba blockSize}

theorem disjoint_sectorsOf_iff {a b : Nat} :
    Disjoint (sectorsOf blockToLba blockSize a) (sectorsOf blockToLba blockSize b) ↔
      blockToLba a + blockSize / 512 ≤ blockToLba b ∨ blockToLba b + blockSize / 512 ≤ blockToLba a := by
  rw [sectorsOf, sectorsOf, Set.Ico_disjoint_Ico]
  omega

theorem getBlockBytes_setBlockBytes_iff {a b : Nat} :
    (∀ disk data buf, getBlockBytes blockToLba blockSize (setBlockBytes blockToLba blockSize disk data a) buf b =
      getBlockBytes blockToLba blockSize disk buf b) ↔
    Disjoint (sectorsOf blockToLba blockSize a) (sectorsOf blockToLba blockSize b) := by
  rw [disjoint_sectorsOf_iff]
  constructor
  · intro hkept
    by_contra hoverlap
    -- the first byte of a sector that belongs to both blocks
    obtain ⟨i, hi, hmem⟩ : ∃ i < blockSize / 512 * 512, blockToLba a * 512 ≤ blockToLba b * 512 + i ∧
        blockToLba b * 512 + i < blockToLba a * 512 + blockSize / 512 * 512 :=
      ⟨(blockToLba a - blockToLba b) * 512, by omega, by omega⟩
    have hbyte := congrFun (hkept (fun _ => 0) (fun _ => 1) (fun _ => 0)) i
    unfold getBlockBytes setBlockBytes at hbyte
    rw [readSectors_of_lt hi, writeSectors, memcpy_of_mem hmem, readSectors_of_lt hi] at hbyte
    exact absurd hbyte (by decide)
  · intro hapart disk data buf
    exact readSectors_writeSectors_of_disjoint hapart

end Transfers

/-! ## The address of a block -/

/-- `BLOCK_TO_LBA` in `ext2-utils.rs`, `ext2-dirs.rs`, `ext2-inode.rs` and `ext2-traverse.rs`. -/
def blockToLba (_group block : Nat) : Nat := block

/-- **Independent blocks.** The sectors of two blocks are disjoint, and a write of one is not seen in the other,
if and only if the numbers of the blocks are at least as far apart as a block has sectors. -/
theorem independent_blocks_iff (blockSize a b : Nat) :
    (Disjoint (sectorsOf (blockToLba 0) blockSize a) (sectorsOf (blockToLba 0) blockSize b) ∧ ∀ disk data buf,
        getBlockBytes (blockToLba 0) blockSize (setBlockBytes (blockToLba 0) blockSize disk data a) buf b =
          getBlockBytes (blockToLba 0) blockSize disk buf b) ↔ a + blockSize / 512 ≤ b ∨ b + blockSize / 512 ≤ a := by
  rw [getBlockBytes_setBlockBytes_iff, and_self]
  exact disjoint_sectorsOf_iff

/-- Blocks of 1024 bytes: block 4 is sectors 4 and 5, and block 5 is sectors 5 and 6. A write of ones to block 4
is read back as the first half of block 5. -/
theorem adjacent_blocks_overlap : ¬ Disjoint (sectorsOf (blockToLba 0) 1024 4) (sectorsOf (blockToLba 0) 1024 5) ∧
      getBlockBytes (blockToLba 0) 1024 (fun _ => 0) (fun _ => 0) 5 0 = 0 ∧
      getBlockBytes (blockToLba 0) 1024 (setBlockBytes (blockToLba 0) 1024 (fun _ => 0) (fun _ => 1) 4)
        (fun _ => 0) 5 0 = 1 := by
  refine ⟨?_, by decide, by decide⟩
  rw [disjoint_sectorsOf_iff]
  decide

end CoreX.Ext2

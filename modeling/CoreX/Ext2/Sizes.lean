import CoreX.Ext2.Blocks
import Mathlib.Order.Interval.Finset.Nat

/-!
# Numbers of blocks and of groups (`ext2-utils.rs`, `ext2-inode.rs`, `ext2-dirs.rs`, `ext2-create.rs`)

`ext2BlockSizeCalculate` counts the indirect blocks behind a number of data blocks, one too many at the two numbers
that just fill the pointers before. The four functions `INODE_TO_BLOCK_GROUP` never agree.
-/

namespace CoreX.Ext2

open Finset

/-! ## Indirect blocks -/

/-- `none` is an overflow of `usize`, or `panic()`. -/
def ext2BlockSizeCalculate (blockSize raw : Nat) : Option Nat :=
  let blocks := (raw + blockSize - 1) / blockSize
  let perSpecial := blockSize / 4
  let singlyBase := 12 + perSpecial
  let doublyBase := singlyBase + perSpecial * perSpecial
  let retblocks :=
    if blocks < 12 then blocks
    else if blocks < singlyBase then blocks + 1
    else blocks + 2 + (blocks - singlyBase + perSpecial - 1) / perSpecial
  if raw + blockSize < 2 ^ 64 ∧ doublyBase < 2 ^ 64 ∧ blocks < doublyBase ∧ retblocks * blockSize < 2 ^ 64 then
    some (retblocks * blockSize)
  else none

/-- The indirect blocks on the way of `ext2BlockFetch` to the index `i`, with `p` pointers in each. -/
def indirectOf (p i : Nat) : Finset Slot :=
  if i < 12 then ∅ else if i < 12 + p then {.single} else {.double, .child ((i - (12 + p)) / p)}

def indirectBlocks (p blocks : Nat) : Finset Slot := (range blocks).biUnion (indirectOf p)

def indirectCount (p blocks : Nat) : Nat :=
  if blocks ≤ 12 then 0 else if blocks ≤ 12 + p then 1 else 1 + 1 + (blocks - (12 + p) + p - 1) / p

variable {p blocks : Nat} {s : Slot}

theorem mem_indirectOf {i : Nat} : s ∈ indirectOf p i ↔ 12 ≤ i ∧
    (i < 12 + p ∧ s = .single ∨ 12 + p ≤ i ∧ (s = .double ∨ s = .child ((i - (12 + p)) / p))) := by
  grind [indirectOf]

theorem mem_indirectBlocks (hp : 0 < p) : s ∈ indirectBlocks p blocks ↔ s = .single ∧ 12 < blocks ∨
    12 + p < blocks ∧ (s = .double ∨ ∃ j < (blocks - (12 + p) + p - 1) / p, .child j = s) := by
  simp only [indirectBlocks, mem_biUnion, mem_range, mem_indirectOf, ← Nat.succ_le_iff, Nat.le_div_iff_mul_le hp,
    Nat.succ_mul]
  constructor
  · rintro ⟨i, hi, hge, ⟨hlt, rfl⟩ | ⟨hle, hs⟩⟩
    · exact .inl ⟨rfl, by omega⟩
    · refine .inr ⟨by omega, hs.imp_right fun hs => ⟨_, ?_, hs.symm⟩⟩
      have := Nat.div_mul_le_self (i - (12 + p)) p
      omega
  · rintro (⟨rfl, hlt⟩ | ⟨hlt, rfl | ⟨j, hj, rfl⟩⟩)
    · exact ⟨12, by omega, le_rfl, .inl ⟨by omega, rfl⟩⟩
    · exact ⟨12 + p, by omega, by omega, .inr ⟨le_rfl, .inl rfl⟩⟩
    · refine ⟨12 + p + j * p, by omega, by omega, .inr ⟨by omega, .inr ?_⟩⟩
      rw [Nat.add_sub_cancel_left, Nat.mul_div_cancel _ hp]

theorem card_indirectBlocks (hfew : blocks < 12 + p + p * p) :
    (indirectBlocks p blocks).card = indirectCount p blocks := by
  rw [indirectCount]
  split_ifs with hdirect hsingle
  · rw [card_eq_zero, eq_empty_iff_forall_notMem]
    intro s hs
    obtain ⟨i, hi, hs⟩ := mem_biUnion.1 hs
    exact absurd (mem_indirectOf.1 hs).1 (by have := mem_range.1 hi; omega)
  · rw [card_eq_one]
    refine ⟨.single, Finset.ext fun s => ?_⟩
    rw [mem_indirectBlocks (by omega), mem_singleton]
    have : 12 < blocks ∧ ¬ 12 + p < blocks := by omega
    tauto
  · have hp : 0 < p := Nat.pos_of_ne_zero fun hzero => by simp [hzero] at hfew; omega
    have hset : indirectBlocks p blocks =
        insert .single (insert .double ((range ((blocks - (12 + p) + p - 1) / p)).image .child)) := by
      apply Finset.ext
      intro s
      simp only [mem_indirectBlocks hp, mem_insert, mem_image, mem_range]
      have : 12 < blocks ∧ 12 + p < blocks := by omega
      tauto
    rw [hset, card_insert_of_notMem (by simp), card_insert_of_notMem (by simp),
      card_image_of_injective _ fun a b h => Slot.child.inj h, card_range]
    omega

/-- **The size with indirect blocks** counts those on the way to the data blocks, but for the two numbers of data blocks
that just fill the direct pointers and the singly indirect block. -/
theorem ext2BlockSizeCalculate_iff {blockSize raw : Nat} (hsize : 0 < blockSize) (hp : p = blockSize / 4)
    (hblocks : blocks = (raw + blockSize - 1) / blockSize) (hfew : blocks < 12 + p + p * p) :
    (indirectBlocks p blocks).card = indirectCount p blocks ∧
    (ext2BlockSizeCalculate blockSize raw = some ((blocks + indirectCount p blocks) * blockSize) ↔
      (blocks ≠ 12 ∧ blocks ≠ 12 + p) ∧ raw + blockSize < 2 ^ 64 ∧ 12 + p + p * p < 2 ^ 64 ∧
        (blocks + indirectCount p blocks) * blockSize < 2 ^ 64) := by
  refine ⟨card_indirectBlocks hfew, ?_⟩
  generalize hret : (if blocks < 12 then blocks else if blocks < 12 + p then blocks + 1
    else blocks + 2 + (blocks - (12 + p) + p - 1) / p) = retblocks
  have hexact : retblocks = blocks + indirectCount p blocks ↔ blocks ≠ 12 ∧ blocks ≠ 12 + p := by
    have hlast : blocks = 12 + p → (blocks - (12 + p) + p - 1) / p = 0 := fun h => by
      have hp : p ≠ 0 := fun hzero => by simp [h, hzero] at hfew
      exact Nat.div_eq_of_lt (by omega)
    rw [← hret, indirectCount]
    split_ifs <;> omega
  simp only [ext2BlockSizeCalculate, ← hp, ← hblocks, hret]
  constructor
  · intro h
    split_ifs at h with hfits
    have hmul := Nat.eq_of_mul_eq_mul_right hsize (Option.some.inj h)
    exact ⟨hexact.1 hmul, hfits.1, hfits.2.1, hmul ▸ hfits.2.2.2⟩
  · rintro ⟨hne, hraw, hdoubly, hmul⟩
    rw [hexact.2 hne, if_pos ⟨hraw, hdoubly, hfew, hmul⟩]

theorem ext2BlockSizeCalculate_thirteen : ext2BlockSizeCalculate 1024 (13 * 1024) = some (14 * 1024) :=
  (ext2BlockSizeCalculate_iff (by decide) rfl (show 13 = (13 * 1024 + 1024 - 1) / 1024 from rfl) (by decide)).2.2
    ⟨by decide, by decide, by decide, by decide⟩

/-- Twelve blocks have their pointers in the inode. -/
theorem ext2BlockSizeCalculate_twelve : indirectBlocks 256 12 = ∅ ∧
    ext2BlockSizeCalculate 1024 (12 * 1024) = some (13 * 1024) :=
  ⟨by decide +kernel, by decide⟩

/-! ## Groups -/

structure GroupSizes where
  (blocksPerGroup inodesPerGroup : Nat)

/-- `none` is a division by zero. -/
def groupOf (perGroup inode : Nat) : Option Nat := if perGroup = 0 then none else some ((inode - 1) / perGroup)

section
variable (superblock : GroupSizes) (inode : Nat)

def Utils.inodeToBlockGroup : Option Nat := groupOf superblock.blocksPerGroup inode

def Inode.inodeToBlockGroup : Option Nat := groupOf superblock.inodesPerGroup inode

def Dirs.inodeToBlockGroup (_superblock : GroupSizes) (inode : Nat) : Option Nat := some inode

def Create.inodeToBlockGroup (_superblock : GroupSizes) (inode : Nat) : Option Nat := some inode

end

def inodeToBlockGroups : List (GroupSizes → Nat → Option Nat) :=
  [Utils.inodeToBlockGroup, Inode.inodeToBlockGroup, Dirs.inodeToBlockGroup, Create.inodeToBlockGroup]

theorem groupOf_lt_iff {perGroup inode groups : Nat} (hpos : 1 ≤ inode) :
    (∃ g < groups, groupOf perGroup inode = some g) ↔ inode ≤ groups * perGroup := by
  rcases Nat.eq_zero_or_pos perGroup with rfl | hper
  · simp only [groupOf, if_pos, Nat.mul_zero, reduceCtorEq, and_false, exists_false, false_iff]
    omega
  · simp only [groupOf, if_neg hper.ne', Option.some.injEq, exists_eq_right', Nat.div_lt_iff_lt_mul hper]
    omega

/-- **The group of an inode** is never the same in the four modules. It is in range in all of them for the inodes below
the number of groups and of blocks in the groups. -/
theorem inodeToBlockGroups_iff {superblock : GroupSizes} {blockGroups inode : Nat} (hpos : 1 ≤ inode)
    (hinode : inode ≤ blockGroups * superblock.inodesPerGroup) :
    (¬ ∃ g < blockGroups, ∀ f ∈ inodeToBlockGroups, f superblock inode = some g) ∧
    ((∀ f ∈ inodeToBlockGroups, ∃ g < blockGroups, f superblock inode = some g) ↔
      inode < blockGroups ∧ inode ≤ blockGroups * superblock.blocksPerGroup) := by
  simp only [inodeToBlockGroups, List.forall_mem_cons, List.not_mem_nil, false_implies, implies_true, and_true]
  constructor
  · rintro ⟨g, -, -, hgroup, hself, -⟩
    obtain rfl : inode = g := Option.some.inj hself
    rw [Inode.inodeToBlockGroup, groupOf] at hgroup
    split_ifs at hgroup with hzero
    have := Nat.div_le_self (inode - 1) superblock.inodesPerGroup
    have := Option.some.inj hgroup
    omega
  · simp only [Utils.inodeToBlockGroup, Inode.inodeToBlockGroup, groupOf_lt_iff hpos, Dirs.inodeToBlockGroup,
      Create.inodeToBlockGroup, Option.some.injEq, exists_eq_right']
    tauto

theorem inodeToBlockGroups_twoGroups : Inode.inodeToBlockGroup ⟨8192, 2048⟩ 1 = some 0 ∧
    ∀ f ∈ inodeToBlockGroups, ∃ g < 2, f ⟨8192, 2048⟩ 1 = some g :=
  ⟨rfl, (inodeToBlockGroups_iff (le_refl 1) (by decide)).2.2 (by decide)⟩

/-- The lock of the only group has index 0. -/
theorem inodeToBlockGroup_root : Inode.inodeToBlockGroup ⟨8192, 2048⟩ 2 = some 0 ∧
    Dirs.inodeToBlockGroup ⟨8192, 2048⟩ 2 = some 2 :=
  ⟨rfl, rfl⟩

end CoreX.Ext2

import CoreX.Base.Sectors
import CoreX.Ext2.Blocks

/-!
# Inodes on the disk (`filesystems/ext2/ext2-inode.rs`)

Both functions read a window of sectors from the one in which the slot of an inode starts. `ext2InodeFetch` copies
`inodeSize` bytes out of it. `ext2InodeModifyM` copies `size_of::<Ext2Inode>()` bytes into it and writes it back.
`modifyInode` takes the number of bytes as a parameter. The struct of the source is empty.
-/

namespace CoreX.Ext2.InodeTable

open Memory Sectors Nat

structure Ext2Tables where
  inodeSize : Nat
  blockGroups : Nat
  inodesPerGroup : UInt32
  /-- `bgdts[group].inode_table` -/
  inodeTable : Nat → UInt32
  disk : Buf
  /-- What a buffer from `alloc` holds. -/
  heap : Buf

section
variable (ext2 : Ext2Tables) (inode : Nat)

def inodeWindow : Except Fault (Nat × Nat × Nat) :=
  if inode = 0 then .error .overflow
  else if ext2.inodesPerGroup = 0 then .error .panic
  else
    let group := (inode - 1) / ext2.inodesPerGroup.toNat
    let index := (inode - 1) % ext2.inodesPerGroup.toNat
    if ext2.blockGroups ≤ group then .error .bounds
    else
      let leftovers := index * ext2.inodeSize
      .ok ((ext2.inodeTable group).toNat + leftovers / 512, leftovers % 512, (ext2.inodeSize * 4 + 511) / 512)

def ext2InodeFetch : Except Fault Bytes := do
  let (lba, rem, sectors) ← inodeWindow ext2 inode
  let buf := readSectors ext2.disk ext2.heap lba sectors
  if rem + ext2.inodeSize ≤ sectors * 512 then .ok (slice buf rem ext2.inodeSize) else .error .bounds

def modifyInode (size : Nat) (ext2 : Ext2Tables) (inode : Nat) (target : Bytes) : Except Fault Ext2Tables := do
  let (lba, rem, sectors) ← inodeWindow ext2 inode
  let buf := readSectors ext2.disk ext2.heap lba sectors
  if rem + size ≤ sectors * 512 ∧ size ≤ target.length then
    let buf := storeSlice buf rem (target.take size)
    .ok { ext2 with disk := writeSectors ext2.disk buf lba sectors }
  else .error .bounds

/-- `size_of::<Ext2Inode>()`. The only field of the struct is `_data: [u8; 0]`. -/
def sizeOfExt2Inode : Nat := 0

def ext2InodeModifyM (target : Bytes) : Except Fault Ext2Tables :=
  modifyInode sizeOfExt2Inode ext2 inode target

end

/-! ## Slots -/

variable {ext2 : Ext2Tables} {n size : Nat} {v : Bytes}

section
variable (ext2 n)

/-- The number of an inode. -/
def Valid : Prop := 1 ≤ n ∧ n ≤ ext2.blockGroups * ext2.inodesPerGroup.toNat

def slotOf : Nat :=
  (ext2.inodeTable ((n - 1) / ext2.inodesPerGroup.toNat)).toNat * 512 +
    (n - 1) % ext2.inodesPerGroup.toNat * ext2.inodeSize

/-- A power of two from 128 on. -/
def SizeOk : Prop := ∃ k, 7 ≤ k ∧ ext2.inodeSize = 2 ^ k

end

/-- An inode does not reach behind the window. Up to 512 bytes, a sector holds whole inodes; from then on, an
inode starts with a sector. -/
theorem rem_add_inodeSize_le (hsize : SizeOk ext2) (index : Nat) :
    index * ext2.inodeSize % 512 + ext2.inodeSize ≤ (ext2.inodeSize * 4 + 511) / 512 * 512 := by
  obtain ⟨k, hk, hpow⟩ := hsize
  rcases lt_or_ge k 9 with hlt | hge
  · have hcases : k = 7 ∨ k = 8 := by omega
    rcases hcases with rfl | rfl
    · rw [hpow]
      omega
    · rw [hpow]
      omega
  · obtain ⟨j, rfl⟩ := Nat.exists_eq_add_of_le hge
    have hmul : ext2.inodeSize = 512 * 2 ^ j := by rw [hpow, pow_add]; rfl
    have hzero : index * ext2.inodeSize % 512 = 0 := by
      rw [hmul, mul_left_comm, mul_mod_right]
    rw [hzero]
    omega

theorem inodeWindow_eq (hvalid : Valid ext2 n) :
    ∃ lba rem, inodeWindow ext2 n = .ok (lba, rem, (ext2.inodeSize * 4 + 511) / 512) ∧
      lba * 512 + rem = slotOf ext2 n ∧ rem = (n - 1) % ext2.inodesPerGroup.toNat * ext2.inodeSize % 512 := by
  obtain ⟨hpos, hle⟩ := hvalid
  have hper : ext2.inodesPerGroup.toNat ≠ 0 := by
    intro hzero
    rw [hzero] at hle
    omega
  have hper' : ext2.inodesPerGroup ≠ 0 := fun h => hper (by rw [h]; rfl)
  have hgroup : (n - 1) / ext2.inodesPerGroup.toNat < ext2.blockGroups :=
    Nat.div_lt_of_lt_mul (by rw [Nat.mul_comm]; omega)
  refine ⟨(ext2.inodeTable ((n - 1) / ext2.inodesPerGroup.toNat)).toNat +
    (n - 1) % ext2.inodesPerGroup.toNat * ext2.inodeSize / 512, _, ?_, ?_, rfl⟩
  · rw [inodeWindow, if_neg (by omega), if_neg hper', if_neg (not_le.2 hgroup)]
  · rw [slotOf, add_mul, add_assoc, div_add_mod']

section
variable (hsize : SizeOk ext2) (hvalid : Valid ext2 n)
include hsize hvalid

theorem modifyInode_eq (hle : size ≤ ext2.inodeSize) (hv : v.length = ext2.inodeSize) : modifyInode size ext2 n v =
      .ok { ext2 with disk := storeSlice ext2.disk (slotOf ext2 n) (v.take size) } := by
  obtain ⟨lba, rem, hwindow, hslot, rfl⟩ := inodeWindow_eq hvalid
  have hrem := rem_add_inodeSize_le hsize ((n - 1) % ext2.inodesPerGroup.toNat)
  have hlength : (v.take size).length = size := by rw [List.length_take]; omega
  rw [modifyInode, hwindow, ok_bind]
  simp only
  rw [if_pos ⟨by omega, by omega⟩, writeSectors_storeSlice (by omega), hslot]

end

/-- **`ext2InodeModifyM` changes no byte of the disk**, so `ext2InodeFetch` returns the new inode afterwards
exactly if it did before. -/
theorem ext2InodeFetch_modify_iff (hsize : SizeOk ext2) (hvalid : Valid ext2 n) (hv : v.length = ext2.inodeSize) :
    ∃ ext2', ext2InodeModifyM ext2 n v = .ok ext2' ∧
      (ext2InodeFetch ext2' n = .ok v ↔ ext2InodeFetch ext2 n = .ok v) ∧
      (∀ m, Valid ext2 m → m ≠ n → ext2InodeFetch ext2' m = ext2InodeFetch ext2 m) ∧
      ∀ a, ¬(slotOf ext2 n ≤ a ∧ a < slotOf ext2 n + ext2.inodeSize) → ext2'.disk a = ext2.disk a := by
  have hmodify : ext2InodeModifyM ext2 n v = _ := modifyInode_eq hsize hvalid (zero_le _) hv
  have hdisk : storeSlice ext2.disk (slotOf ext2 n) (v.take sizeOfExt2Inode) = ext2.disk := by
    funext a
    apply storeSlice_of_notMem
    rw [sizeOfExt2Inode, List.take_zero, List.length_nil]
    omega
  rw [hdisk] at hmodify
  exact ⟨ext2, hmodify, Iff.rfl, fun _ _ _ => rfl, fun _ _ => rfl⟩

/-- Every inode is full of a number: the third one, at the byte 2816, of 22. -/
def filledTables : Ext2Tables := ⟨128, 1, 4, fun _ => 5, fun a => UInt8.ofNat (a / 128), fun _ => 0⟩

theorem sizeOk_filledTables : SizeOk filledTables := ⟨7, by decide, rfl⟩

theorem ext2InodeFetch_modify_iff_filledTables :
    ∃ ext2', ext2InodeModifyM filledTables 3 (List.replicate 128 22) = .ok ext2' ∧
      ext2InodeFetch ext2' 3 = .ok (List.replicate 128 22) := by
  obtain ⟨ext2', hmodify, hiff, -⟩ := ext2InodeFetch_modify_iff (n := 3) (v := List.replicate 128 22)
    sizeOk_filledTables ⟨by decide, by decide⟩ rfl
  exact ⟨ext2', hmodify, hiff.2 (by decide +kernel)⟩

/-- An inode of other bytes is not stored. -/
theorem ext2InodeModifyM_lost : SizeOk filledTables ∧ Valid filledTables 3 ∧
      ∃ ext2', ext2InodeModifyM filledTables 3 (List.replicate 128 1) = .ok ext2' ∧
        ext2InodeFetch ext2' 3 = .ok (List.replicate 128 22) := by
  have hvalid : Valid filledTables 3 := ⟨by decide, by decide⟩
  refine ⟨sizeOk_filledTables, hvalid, _, modifyInode_eq sizeOk_filledTables hvalid (by decide) rfl, ?_⟩
  decide +kernel

end CoreX.Ext2.InodeTable

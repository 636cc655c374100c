import CoreX.Base.Bytes

/-!
# A disk of sectors

A transfer moves whole sectors of 512 bytes between a byte memory and a buffer. If some bytes of a window that was
read are changed and all of it is written back, these bytes are all that changes on the disk
(`writeSectors_storeSlice`).
-/

namespace CoreX.Sectors

open Memory

variable {disk buf data : Buf} {lba sectors off n i sectors' lba' : Nat}

section
variable (disk buf lba sectors)

def readSectors : Buf :=
  memcpy buf 0 (fun i => disk (lba * 512 + i)) (sectors * 512)

def writeSectors : Buf :=
  memcpy disk (lba * 512) buf (sectors * 512)

end

theorem readSectors_of_lt (h : i < sectors * 512) : readSectors disk buf lba sectors i = disk (lba * 512 + i) := by
  rw [readSectors, memcpy_of_mem (by omega), Nat.sub_zero]

theorem writeSectors_storeSlice {s : Bytes} (h : off + s.length ≤ sectors * 512) :
    writeSectors disk (storeSlice (readSectors disk buf lba sectors) off s) lba sectors =
      storeSlice disk (lba * 512 + off) s := by
  funext a
  by_cases hwindow : lba * 512 ≤ a ∧ a < lba * 512 + sectors * 512
  · rw [writeSectors, memcpy_of_mem hwindow]
    by_cases hslot : lba * 512 + off ≤ a ∧ a < lba * 512 + off + s.length
    · rw [storeSlice, storeSlice, memcpy_of_mem (by omega), memcpy_of_mem hslot]
      congr 1
      omega
    · rw [storeSlice_of_notMem (by omega), storeSlice_of_notMem hslot, readSectors_of_lt (by omega)]
      congr 1
      omega
  · have hslot : ¬(lba * 512 + off ≤ a ∧ a < lba * 512 + off + s.length) := fun hslot => hwindow ⟨by omega, by omega⟩
    rw [writeSectors, memcpy_of_notMem hwindow, storeSlice_of_notMem hslot]

theorem readSectors_writeSectors_of_disjoint (h : lba' + sectors' ≤ lba ∨ lba + sectors ≤ lba') :
    readSectors (writeSectors disk data lba' sectors') buf lba sectors = readSectors disk buf lba sectors := by
  funext i
  by_cases hi : i < sectors * 512
  · have hnot : ¬(lba' * 512 ≤ lba * 512 + i ∧ lba * 512 + i < lba' * 512 + sectors' * 512) := by omega
    rw [readSectors_of_lt hi, readSectors_of_lt hi, writeSectors, memcpy_of_notMem hnot]
  · rw [readSectors, readSectors, memcpy_of_notMem (by omega), memcpy_of_notMem (by omega)]

end CoreX.Sectors

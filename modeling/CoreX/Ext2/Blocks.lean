import CoreX.Base.Bytes
import CoreX.Base.Run

/-!
# Block pointers (`filesystems/ext2/ext2-utils.rs`)

The disk is a map from block numbers to contents. `ext2BlockFind` is not part of the source; `found` lists what its
coming calls return. A lookup control caches one block of pointers in each of its two buffers.

`blockAt` reads a data pointer straight from the disk; `ext2BlockFetch` returns the same (`ext2BlockFetch_spec`), for
every index below `capacity`.
-/

namespace CoreX.Ext2

open Nat

/-! ## The model -/

inductive Fault where
  /-- `panic()` -/
  | panic
  /-- An access behind the end of a buffer. -/
  | bounds
  /-- An entry size that leaves its range. -/
  | overflow
  /-- A walk that does not end. -/
  | diverges
  deriving DecidableEq

structure Ext2Inode where
  (permission size numSectors : UInt32)
  /-- `blocks: [u32; 15]`, by index. -/
  blocks : Nat → UInt32

def Ext2Inode.setBlock (ino : Ext2Inode) (i : Nat) (block : UInt32) : Ext2Inode :=
  { ino with blocks := Function.update ino.blocks i block }

structure Ext2LookupControl where
  (tmp1 tmp2 : Buf)
  (tmp1Block tmp2Block : UInt32)

end CoreX.Ext2

open CoreX.Ext2 in
structure CoreX.Ext2 where
  blockSize : Nat
  disk : UInt32 → Buf
  inodes : UInt32 → Ext2Inode
  /-- What the coming calls of `ext2BlockFind` return. -/
  found : List UInt32
  /-- What a buffer from `alloc` or `malloc` holds. -/
  heap : Buf

namespace CoreX.Ext2

open Memory

section
variable (ext2 : Ext2) (block : UInt32) (buf : Buf)

def setDiskBytes : Ext2 :=
  { ext2 with disk := Function.update ext2.disk block buf }

def ext2InodeModifyM (inode : UInt32) (target : Ext2Inode) : Ext2 :=
  { ext2 with inodes := Function.update ext2.inodes inode target }

def ext2BlockFind : Except Fault (UInt32 × Ext2) :=
  match ext2.found with
  | [] => .error .panic
  | block :: rest => .ok (block, { ext2 with found := rest })

def ext2BlockFetchInit : Ext2LookupControl := ⟨ext2.heap, ext2.heap, 0, 0⟩

def fetchTmp1 (control : Ext2LookupControl) (block : UInt32) : Ext2LookupControl :=
  if control.tmp1Block ≠ block then { control with tmp1Block := block, tmp1 := ext2.disk block } else control

def fetchTmp2 (control : Ext2LookupControl) (block : UInt32) : Ext2LookupControl :=
  if control.tmp2Block ≠ block then { control with tmp2Block := block, tmp2 := ext2.disk block } else control

def tmpGet (tmp : Buf) (i : Nat) : Except Fault UInt32 :=
  if 4 * i + 4 ≤ ext2.blockSize then .ok (load32 tmp (4 * i)) else .error .bounds

section
variable (ino : Ext2Inode)

def ext2BlockFetch (control : Ext2LookupControl) (curr : Nat) : Except Fault (UInt32 × Ext2LookupControl) :=
  let itemsPerBlock := ext2.blockSize / 4
  let baseSingly := 12 + itemsPerBlock
  -- the source multiplies the block size, not the number of pointers
  let baseDoubly := baseSingly + ext2.blockSize * itemsPerBlock
  if curr < 12 then .ok (ino.blocks curr, control)
  else if curr < baseSingly then
    if ino.blocks 12 = 0 then .ok (0, control)
    else do
      let control := fetchTmp1 ext2 control (ino.blocks 12)
      let result ← tmpGet ext2 control.tmp1 (curr - 12)
      return (result, control)
  else if curr < baseDoubly then
    if ino.blocks 13 = 0 then .ok (0, control)
    else do
      let control := fetchTmp1 ext2 control (ino.blocks 13)
      let blk ← tmpGet ext2 control.tmp1 ((curr - baseSingly) / itemsPerBlock)
      if blk = 0 then return (0, control)
      let control := fetchTmp2 ext2 control blk
      let result ← tmpGet ext2 control.tmp2 ((curr - baseSingly) % itemsPerBlock)
      return (result, control)
  else .error .panic

def ext2BlockAssign (inodeNum : UInt32) (control : Ext2LookupControl) (curr : Nat) (val : UInt32) :
    Except Fault (Ext2 × Ext2Inode × Ext2LookupControl) :=
  let itemsPerBlock := ext2.blockSize / 4
  if curr < 12 then
    let ino := ino.setBlock curr val
    .ok (ext2InodeModifyM ext2 inodeNum ino, ino, control)
  else if curr < 12 + itemsPerBlock then do
    let (ext2, ino, noninit) ←
      if ino.blocks 12 = 0 then do
        let (block, ext2) ← ext2BlockFind ext2
        let ino := ino.setBlock 12 block
        pure (ext2InodeModifyM ext2 inodeNum ino, ino, true)
      else pure (ext2, ino, false)
    let control := fetchTmp1 ext2 control (ino.blocks 12)
    let tmp1 := if noninit then memset control.tmp1 0 0 ext2.blockSize else control.tmp1
    let tmp1 := store32 tmp1 (4 * (curr - 12)) val
    return (setDiskBytes ext2 (ino.blocks 12) tmp1, ino, { control with tmp1 })
  else .error .panic

/-! ## The pointers of an inode -/

def perBlock : Nat := ext2.blockSize / 4

def capacity : Nat := 12 + ext2.perBlock + ext2.perBlock * ext2.perBlock

def indirect (i : Nat) : UInt32 :=
  if block = 0 then 0 else load32 (ext2.disk block) (4 * i)

def blockAt (i : Nat) : UInt32 :=
  let p := ext2.perBlock
  if i < 12 then ino.blocks i
  else if i < 12 + p then indirect ext2 (ino.blocks 12) (i - 12)
  else if i < ext2.capacity then
    indirect ext2 (indirect ext2 (ino.blocks 13) ((i - (12 + p)) / p)) ((i - (12 + p)) % p)
  else 0

inductive Slot where
  | single
  | double
  | child (i : Nat)
  | data (i : Nat)
  deriving DecidableEq

/-- The place is one of the inode. -/
def Slot.Valid : Slot → Prop
  | .single => True
  | .double => True
  | .child i => i < ext2.perBlock
  | .data i => i < ext2.capacity

def pointer : Slot → UInt32
  | .single => ino.blocks 12
  | .double => ino.blocks 13
  | .child i => indirect ext2 (ino.blocks 13) i
  | .data i => blockAt ext2 ino i

/-- No block has two places in the inode. -/
def Distinct : Prop :=
  ∀ s t : Slot, s.Valid ext2 → t.Valid ext2 → pointer ext2 ino s ≠ 0 →
    pointer ext2 ino s = pointer ext2 ino t → s = t

/-- The block has no place in the inode. -/
def Unused (block : UInt32) : Prop :=
  block ≠ 0 ∧ ∀ s : Slot, s.Valid ext2 → pointer ext2 ino s ≠ block

end

/-- A buffer with a number holds the block of that number. -/
def Coherent : Prop :=
  block ≠ 0 → ∀ i < ext2.blockSize, buf i = ext2.disk block i

end

variable {i : Nat} {block b : UInt32}

section Pointers
variable {ext2 ext2' : Ext2} {ino ino' : Ext2Inode}

theorem setDiskBytes_self (block : UInt32) (buf : Buf) : (setDiskBytes ext2 block buf).disk block = buf :=
  Function.update_self ..

theorem setDiskBytes_of_ne (h : b ≠ block) (buf : Buf) :
    (setDiskBytes ext2 block buf).disk b = ext2.disk b := Function.update_of_ne h _ _

theorem setBlock_self (i : Nat) (block : UInt32) : (ino.setBlock i block).blocks i = block := Function.update_self ..

theorem setBlock_of_ne {j : Nat} (h : j ≠ i) (block : UInt32) :
    (ino.setBlock i block).blocks j = ino.blocks j := Function.update_of_ne h _ _

theorem capacity_congr (hsize : ext2'.blockSize = ext2.blockSize) : ext2'.capacity = ext2.capacity := by
  rw [capacity, capacity, perBlock, perBlock, hsize]

theorem Slot.valid_congr (hsize : ext2'.blockSize = ext2.blockSize) (s : Slot) : s.Valid ext2' ↔ s.Valid ext2 := by
  cases s <;> simp [Slot.Valid, capacity, perBlock, hsize]

theorem blockAt_direct (hi : i < 12) : blockAt ext2 ino i = ino.blocks i := if_pos hi

theorem blockAt_singly (hi : 12 ≤ i) (hi' : i < 12 + ext2.perBlock) :
    blockAt ext2 ino i = indirect ext2 (ino.blocks 12) (i - 12) := by
  simp only [blockAt]
  rw [if_neg (by omega), if_pos hi']

theorem blockAt_doubly (hi : 12 + ext2.perBlock ≤ i) (hi' : i < ext2.capacity) : blockAt ext2 ino i =
      indirect ext2 (pointer ext2 ino (.child ((i - (12 + ext2.perBlock)) / ext2.perBlock)))
        ((i - (12 + ext2.perBlock)) % ext2.perBlock) := by
  simp only [blockAt]
  rw [if_neg (by omega), if_neg (by omega), if_pos hi']
  rfl

theorem blockAt_of_le (hi : ext2.capacity ≤ i) : blockAt ext2 ino i = 0 := by
  have hcap : 12 + ext2.perBlock ≤ ext2.capacity := by
    unfold capacity
    omega
  simp only [blockAt]
  rw [if_neg (by omega), if_neg (by omega), if_neg (by omega)]

theorem indirect_zero (i : Nat) : indirect ext2 0 i = 0 := if_pos rfl

theorem indirect_of_ne (h : block ≠ 0) (i : Nat) :
    indirect ext2 block i = load32 (ext2.disk block) (4 * i) := if_neg h

theorem doubly_index_lt (hi : 12 + ext2.perBlock ≤ i) (hi' : i < ext2.capacity) :
    (i - (12 + ext2.perBlock)) / ext2.perBlock < ext2.perBlock ∧
      (i - (12 + ext2.perBlock)) % ext2.perBlock < ext2.perBlock := by
  have hlt : i - (12 + ext2.perBlock) < ext2.perBlock * ext2.perBlock := by
    unfold capacity at hi'
    omega
  have hpos : 0 < ext2.perBlock := by
    rcases eq_zero_or_pos ext2.perBlock with h | h
    · rw [h] at hlt
      omega
    · exact h
  exact ⟨Nat.div_lt_of_lt_mul hlt, Nat.mod_lt _ hpos⟩

theorem four_mul_perBlock_le (hi : i < ext2.perBlock) : 4 * i + 4 ≤ ext2.blockSize := by
  unfold perBlock at hi
  omega

theorem indirect_congr (hdisk : block ≠ 0 → ext2'.disk block = ext2.disk block) (i : Nat) :
    indirect ext2' block i = indirect ext2 block i := by
  by_cases hblock : block = 0
  · rw [hblock, indirect_zero, indirect_zero]
  · rw [indirect_of_ne hblock, indirect_of_ne hblock, hdisk hblock]

theorem pointer_child_congr (hblocks : ino'.blocks 13 = ino.blocks 13)
    (hdisk : ino.blocks 13 ≠ 0 → ext2'.disk (ino.blocks 13) = ext2.disk (ino.blocks 13)) (i : Nat) :
    pointer ext2' ino' (.child i) = pointer ext2 ino (.child i) := by
  rw [pointer, pointer, hblocks]
  exact indirect_congr hdisk i

theorem pointer_congr (hsize : ext2'.blockSize = ext2.blockSize) (hblocks : ino'.blocks = ino.blocks)
    (hdisk : ∀ s : Slot, (∀ i, s ≠ .data i) → s.Valid ext2 → pointer ext2 ino s ≠ 0 →
      ext2'.disk (pointer ext2 ino s) = ext2.disk (pointer ext2 ino s)) :
    ∀ s : Slot, pointer ext2' ino' s = pointer ext2 ino s := by
  have hp : ext2'.perBlock = ext2.perBlock := by rw [perBlock, perBlock, hsize]
  have hcap := capacity_congr hsize
  have hchild : ∀ i, pointer ext2' ino' (.child i) = pointer ext2 ino (.child i) :=
    pointer_child_congr (congrFun hblocks 13) (hdisk .double (by simp) trivial)
  intro s
  cases s with
  | single => exact congrFun hblocks 12
  | double => exact congrFun hblocks 13
  | child i => exact hchild i
  | data i =>
    rw [pointer, pointer]
    rcases lt_or_ge i 12 with hi | hi
    · rw [blockAt_direct hi, blockAt_direct hi, hblocks]
    rcases lt_or_ge i (12 + ext2.perBlock) with hi' | hi'
    · rw [blockAt_singly hi (by rwa [hp]), blockAt_singly hi hi', hblocks]
      exact indirect_congr (hdisk .single (by simp) trivial) _
    rcases lt_or_ge i ext2.capacity with hi'' | hi''
    · rw [blockAt_doubly (by rwa [hp]) (by rwa [hcap]), blockAt_doubly hi' hi'', hp, hchild]
      exact indirect_congr (hdisk (.child _) (by simp) (doubly_index_lt hi' hi'').1) _
    · rw [blockAt_of_le (by rwa [hcap]), blockAt_of_le hi'']

theorem Distinct.congr (hdist : Distinct ext2 ino) (hsize : ext2'.blockSize = ext2.blockSize)
    (hpointer : ∀ s, pointer ext2' ino' s = pointer ext2 ino s) : Distinct ext2' ino' := by
  intro s t hs ht hne heq
  rw [Slot.valid_congr hsize] at hs ht
  rw [hpointer] at hne heq
  rw [hpointer] at heq
  exact hdist s t hs ht hne heq

theorem Unused.congr (hunused : Unused ext2 ino b) (hsize : ext2'.blockSize = ext2.blockSize)
    (hpointer : ∀ s, pointer ext2' ino' s = pointer ext2 ino s) : Unused ext2' ino' b := by
  refine ⟨hunused.1, fun s hs => ?_⟩
  rw [Slot.valid_congr hsize] at hs
  rw [hpointer]
  exact hunused.2 s hs

end Pointers

/-! ## Reading through the control -/

/-- The control answers for the inode: what it would not read again is what the disk holds. -/
structure Serves (ext2 : Ext2) (ino : Ext2Inode) (control : Ext2LookupControl) : Prop where
  tmp1 : Coherent ext2 control.tmp1Block control.tmp1
  tmp2 : ∀ i < ext2.perBlock, control.tmp2Block = pointer ext2 ino (.child i) →
    Coherent ext2 control.tmp2Block control.tmp2

structure Holds (ext2 : Ext2) (ino : Ext2Inode) (control : Ext2LookupControl) : Prop where
  tmp1 : control.tmp1Block = 0 ∨ control.tmp1Block = ino.blocks 12 ∨ control.tmp1Block = ino.blocks 13
  tmp2 : control.tmp2Block = 0 ∨ ∃ i < ext2.perBlock, control.tmp2Block = pointer ext2 ino (.child i)

section Fetch
variable {ext2 : Ext2} {ino : Ext2Inode} {control : Ext2LookupControl} {curr : Nat}

section
variable (block)

@[simp] theorem fetchTmp1_tmp1Block : (fetchTmp1 ext2 control block).tmp1Block = block := by
  by_cases h : control.tmp1Block = block <;> simp [fetchTmp1, h]

@[simp] theorem fetchTmp1_tmp2Block : (fetchTmp1 ext2 control block).tmp2Block = control.tmp2Block := by
  by_cases h : control.tmp1Block = block <;> simp [fetchTmp1, h]

@[simp] theorem fetchTmp1_tmp2 : (fetchTmp1 ext2 control block).tmp2 = control.tmp2 := by
  by_cases h : control.tmp1Block = block <;> simp [fetchTmp1, h]

@[simp] theorem fetchTmp2_tmp2Block : (fetchTmp2 ext2 control block).tmp2Block = block := by
  by_cases h : control.tmp2Block = block <;> simp [fetchTmp2, h]

@[simp] theorem fetchTmp2_tmp1Block : (fetchTmp2 ext2 control block).tmp1Block = control.tmp1Block := by
  by_cases h : control.tmp2Block = block <;> simp [fetchTmp2, h]

@[simp] theorem fetchTmp2_tmp1 : (fetchTmp2 ext2 control block).tmp1 = control.tmp1 := by
  by_cases h : control.tmp2Block = block <;> simp [fetchTmp2, h]

end

theorem fetchTmp1_coherent (h : Coherent ext2 control.tmp1Block control.tmp1) (block : UInt32) :
    Coherent ext2 block (fetchTmp1 ext2 control block).tmp1 := by
  by_cases hblock : control.tmp1Block = block
  · simpa [fetchTmp1, hblock] using h
  · simp [fetchTmp1, hblock, Coherent]

theorem fetchTmp2_coherent (h : control.tmp2Block = block → Coherent ext2 control.tmp2Block control.tmp2) :
    Coherent ext2 block (fetchTmp2 ext2 control block).tmp2 := by
  by_cases hblock : control.tmp2Block = block
  · have hcoh := h hblock
    simpa [fetchTmp2, hblock] using hcoh
  · simp [fetchTmp2, hblock, Coherent]

theorem tmpGet_of_coherent {tmp : Buf} (h : Coherent ext2 block tmp) (hblock : block ≠ 0) (hi : i < ext2.perBlock) :
    tmpGet ext2 tmp i = .ok (indirect ext2 block i) := by
  have hle := four_mul_perBlock_le hi
  have hload : load32 tmp (4 * i) = load32 (ext2.disk block) (4 * i) :=
    load32_congr fun j _ hj => h hblock j (by omega)
  rw [tmpGet, if_pos hle, indirect_of_ne hblock, hload]

theorem Serves.fetchTmp1 (h : Serves ext2 ino control) (block : UInt32) :
    Serves ext2 ino (fetchTmp1 ext2 control block) := by
  refine ⟨?_, ?_⟩
  · rw [fetchTmp1_tmp1Block]
    exact fetchTmp1_coherent h.tmp1 block
  · rw [fetchTmp1_tmp2Block, fetchTmp1_tmp2]
    exact h.tmp2

theorem Serves.fetchTmp2 (h : Serves ext2 ino control) (hi : i < ext2.perBlock) :
    Serves ext2 ino (fetchTmp2 ext2 control (pointer ext2 ino (.child i))) := by
  refine ⟨?_, ?_⟩
  · rw [fetchTmp2_tmp1Block, fetchTmp2_tmp1]
    exact h.tmp1
  · intro _ _ _
    rw [fetchTmp2_tmp2Block]
    exact fetchTmp2_coherent (h.tmp2 i hi)

theorem Holds.fetchTmp1 (h : Holds ext2 ino control) (hblock : block = ino.blocks 12 ∨ block = ino.blocks 13) :
    Holds ext2 ino (fetchTmp1 ext2 control block) :=
  ⟨by rw [fetchTmp1_tmp1Block]; exact .inr hblock, by rw [fetchTmp1_tmp2Block]; exact h.tmp2⟩

theorem Holds.fetchTmp2 (h : Holds ext2 ino control) (hi : i < ext2.perBlock) :
    Holds ext2 ino (fetchTmp2 ext2 control (pointer ext2 ino (.child i))) :=
  ⟨by rw [fetchTmp2_tmp1Block]; exact h.tmp1, .inr ⟨i, hi, by rw [fetchTmp2_tmp2Block]⟩⟩

theorem ext2BlockFetch_of_lt (h : Serves ext2 ino control) (hcurr : curr < ext2.capacity) :
    ∃ control', ext2BlockFetch ext2 ino control curr = .ok (blockAt ext2 ino curr, control') ∧
      Serves ext2 ino control' ∧ (Holds ext2 ino control → Holds ext2 ino control') := by
  have hp : ext2.blockSize / 4 = ext2.perBlock := rfl
  simp only [ext2BlockFetch, hp]
  rcases lt_or_ge curr 12 with hdirect | hdirect
  · rw [if_pos hdirect, blockAt_direct hdirect]
    exact ⟨control, rfl, h, id⟩
  rw [if_neg (by omega)]
  rcases lt_or_ge curr (12 + ext2.perBlock) with hsingly | hsingly
  · rw [if_pos hsingly, blockAt_singly hdirect hsingly]
    by_cases h12 : ino.blocks 12 = 0
    · rw [if_pos h12, h12, indirect_zero]
      exact ⟨control, rfl, h, id⟩
    · rw [if_neg h12, tmpGet_of_coherent (fetchTmp1_coherent h.tmp1 _) h12 (by omega)]
      exact ⟨_, rfl, h.fetchTmp1 _, fun hheld => hheld.fetchTmp1 (.inl rfl)⟩
  have hdoubly : curr < 12 + ext2.perBlock + ext2.blockSize * ext2.perBlock := by
    have hle : ext2.perBlock * ext2.perBlock ≤ ext2.blockSize * ext2.perBlock :=
      Nat.mul_le_mul_right _ (Nat.div_le_self _ _)
    unfold capacity at hcurr
    omega
  obtain ⟨hindex, hrem⟩ := doubly_index_lt hsingly hcurr
  rw [if_neg (by omega), if_pos hdoubly, blockAt_doubly hsingly hcurr]
  by_cases h13 : ino.blocks 13 = 0
  · rw [if_pos h13, pointer, h13, indirect_zero, indirect_zero]
    exact ⟨control, rfl, h, id⟩
  rw [if_neg h13, tmpGet_of_coherent (fetchTmp1_coherent h.tmp1 _) h13 hindex]
  have h₁ := h.fetchTmp1 (ino.blocks 13)
  by_cases hchild : indirect ext2 (ino.blocks 13) ((curr - (12 + ext2.perBlock)) / ext2.perBlock) = 0
  · refine ⟨fetchTmp1 ext2 control (ino.blocks 13), ?_, h₁, fun hheld => hheld.fetchTmp1 (.inr rfl)⟩
    rw [pointer, hchild, indirect_zero]
    rfl
  refine ⟨fetchTmp2 ext2 (fetchTmp1 ext2 control (ino.blocks 13))
    (pointer ext2 ino (.child ((curr - (12 + ext2.perBlock)) / ext2.perBlock))), ?_,
    h₁.fetchTmp2 hindex, fun hheld => (hheld.fetchTmp1 (.inr rfl)).fetchTmp2 hindex⟩
  have hget := tmpGet_of_coherent (fetchTmp2_coherent (h₁.tmp2 _ hindex)) hchild hrem
  refine (if_neg hchild).trans ?_
  exact congrArg (· >>= fun result => pure (result, _)) hget

/-- Where `ext2BlockFetch` stops looking at an index. The source multiplies the block size, so this is further
than `capacity`. -/
def baseDoubly (ext2 : Ext2) : Nat := 12 + ext2.perBlock + ext2.blockSize * ext2.perBlock

section
variable (ino control)

theorem ext2BlockFetch_of_baseDoubly_le (hcurr : ext2.baseDoubly ≤ curr) :
    ext2BlockFetch ext2 ino control curr = .error .panic := by
  have hle : 12 + ext2.blockSize / 4 + ext2.blockSize * (ext2.blockSize / 4) ≤ curr := hcurr
  simp only [ext2BlockFetch]
  rw [if_neg (by omega), if_neg (by omega), if_neg (by omega)]

theorem ext2BlockFetch_of_capacity_le (hcurr : ext2.capacity ≤ curr) (hcurr' : curr < ext2.baseDoubly) :
    ext2BlockFetch ext2 ino control curr =
      if ino.blocks 13 = 0 then .ok (0, control) else .error .bounds := by
  have hle : 12 + ext2.perBlock + ext2.perBlock * ext2.perBlock ≤ curr := hcurr
  have hlt : curr < 12 + ext2.perBlock + ext2.blockSize * ext2.perBlock := hcurr'
  have hp : ext2.blockSize / 4 = ext2.perBlock := rfl
  simp only [ext2BlockFetch, hp]
  rw [if_neg (by omega), if_neg (by omega), if_pos hlt]
  by_cases h13 : ino.blocks 13 = 0
  · rw [if_pos h13, if_pos h13]
  have hpos : 0 < ext2.perBlock := by
    rcases eq_zero_or_pos ext2.perBlock with h | h
    · rw [h] at hlt hle
      omega
    · exact h
  have hindex : ext2.perBlock ≤ (curr - (12 + ext2.perBlock)) / ext2.perBlock := by
    rw [Nat.le_div_iff_mul_le hpos]
    omega
  have hbounds : ¬ 4 * ((curr - (12 + ext2.perBlock)) / ext2.perBlock) + 4 ≤ ext2.blockSize := by
    omega
  rw [if_neg h13, if_neg h13, tmpGet, if_neg hbounds]
  rfl

theorem ext2BlockFetch_of_le (hcurr : ext2.capacity ≤ curr) :
    (∃ fault, fault ≠ .overflow ∧ ext2BlockFetch ext2 ino control curr = .error fault) ∨
      ext2BlockFetch ext2 ino control curr = .ok (blockAt ext2 ino curr, control) := by
  rw [blockAt_of_le hcurr]
  rcases lt_or_ge curr ext2.baseDoubly with hdoubly | hdoubly
  · rw [ext2BlockFetch_of_capacity_le ino control hcurr hdoubly]
    by_cases h13 : ino.blocks 13 = 0
    · rw [if_pos h13]
      exact .inr rfl
    · rw [if_neg h13]
      exact .inl ⟨.bounds, by decide, rfl⟩
  · exact .inl ⟨.panic, by decide, ext2BlockFetch_of_baseDoubly_le ino control hdoubly⟩

end

theorem ext2BlockFetch_spec (h : Serves ext2 ino control) (curr : Nat) :
    (∃ control', ext2BlockFetch ext2 ino control curr = .ok (blockAt ext2 ino curr, control') ∧
      Serves ext2 ino control' ∧ (Holds ext2 ino control → Holds ext2 ino control')) ∨ (ext2.capacity ≤ curr ∧
      ∃ fault, fault ≠ .overflow ∧ ext2BlockFetch ext2 ino control curr = .error fault) := by
  rcases lt_or_ge curr ext2.capacity with hcurr | hcurr
  · exact .inl (ext2BlockFetch_of_lt h hcurr)
  · rcases ext2BlockFetch_of_le ino control hcurr with hfault | hok
    · exact .inr ⟨hcurr, hfault⟩
    · exact .inl ⟨control, hok, h, id⟩

theorem ext2BlockFetchInit_serves (ext2 : Ext2) (ino : Ext2Inode) :
    Serves ext2 ino (ext2BlockFetchInit ext2) ∧ Holds ext2 ino (ext2BlockFetchInit ext2) :=
  ⟨⟨fun h => absurd rfl h, fun _ _ _ h => absurd rfl h⟩, ⟨.inl rfl, .inl rfl⟩⟩

theorem tmpGet_of_lt (hi : i < ext2.perBlock) (tmp : Buf) :
    tmpGet ext2 tmp i = .ok (load32 tmp (4 * i)) := if_pos (four_mul_perBlock_le hi)

theorem ext2BlockFetch_isOk (ino : Ext2Inode) (control : Ext2LookupControl) (hcurr : curr < ext2.capacity) :
    ∃ result, ext2BlockFetch ext2 ino control curr = .ok result := by
  have hp : ext2.blockSize / 4 = ext2.perBlock := rfl
  have hdoubly : curr < 12 + ext2.perBlock + ext2.blockSize * ext2.perBlock :=
    hcurr.trans_le (Nat.add_le_add_left (Nat.mul_le_mul_right _ (Nat.div_le_self _ _)) _)
  simp only [ext2BlockFetch, hp]
  rcases lt_or_ge curr 12 with hdirect | hdirect
  · rw [if_pos hdirect]
    exact ⟨_, rfl⟩
  rw [if_neg (by omega)]
  rcases lt_or_ge curr (12 + ext2.perBlock) with hsingly | hsingly
  · rw [if_pos hsingly, tmpGet_of_lt (by omega)]
    split <;> exact ⟨_, rfl⟩
  obtain ⟨hindex, hrem⟩ := doubly_index_lt hsingly hcurr
  rw [if_neg (by omega), if_pos hdoubly, tmpGet_of_lt hindex, ok_bind]
  split
  · exact ⟨_, rfl⟩
  split
  · exact ⟨_, rfl⟩
  · rw [tmpGet_of_lt hrem]
    exact ⟨_, rfl⟩

/-- **The reach of a lookup.** The panic marks the end of the doubly indirect range, and no lookup reads behind
the end of a block of pointers, for exactly the indices below that end and those from `baseDoubly` on. -/
theorem ext2BlockFetch_covers_iff (ext2 : Ext2) (ino : Ext2Inode) (control : Ext2LookupControl) (curr : Nat) :
    ((ext2BlockFetch ext2 ino control curr = .error .panic ↔
        12 + ext2.perBlock + ext2.perBlock * ext2.perBlock ≤ curr) ∧
      ext2BlockFetch ext2 ino control curr ≠ .error .bounds) ↔
    curr < 12 + ext2.perBlock + ext2.perBlock * ext2.perBlock ∨
      12 + ext2.perBlock + ext2.blockSize * ext2.perBlock ≤ curr := by
  rcases lt_or_ge curr (12 + ext2.perBlock + ext2.perBlock * ext2.perBlock) with hcurr | hcurr
  · obtain ⟨result, hok⟩ := ext2BlockFetch_isOk ino control hcurr
    rw [hok]
    refine iff_of_true ⟨iff_of_false (by simp) (by omega), by simp⟩ (.inl hcurr)
  rcases lt_or_ge curr (12 + ext2.perBlock + ext2.blockSize * ext2.perBlock) with hcurr' | hcurr'
  · refine iff_of_false ?_ (by omega)
    rintro ⟨hpanic, -⟩
    have hfetch := ext2BlockFetch_of_capacity_le ino control hcurr hcurr'
    rw [hpanic.2 hcurr] at hfetch
    by_cases h13 : ino.blocks 13 = 0
    · rw [if_pos h13] at hfetch
      cases hfetch
    · rw [if_neg h13] at hfetch
      cases hfetch
  · rw [ext2BlockFetch_of_baseDoubly_le ino control hcurr']
    exact iff_of_true ⟨iff_of_true rfl hcurr, by simp⟩ (.inr hcurr')

def doubleInode (block : UInt32) : Ext2Inode := ⟨0, 0, 0, Function.update (fun _ => 0) 13 block⟩

def zeroExt2 : Ext2 := ⟨1024, fun _ _ => 0, fun _ => doubleInode 0, [], fun _ => 0⟩

/-- The first index behind the doubly indirect range: entry 256 of a block of 256 pointers is read, or `0` is
returned if there is no doubly indirect block. -/
theorem ext2BlockFetch_reads_behind : zeroExt2.perBlock = 256 ∧
      ext2BlockFetch zeroExt2 (doubleInode 5) (ext2BlockFetchInit zeroExt2) (12 + 256 + 256 * 256) = .error .bounds ∧
      ext2BlockFetch zeroExt2 (doubleInode 0) (ext2BlockFetchInit zeroExt2) (12 + 256 + 256 * 256) =
        .ok (0, ext2BlockFetchInit zeroExt2) := by
  have hfetch (ino : Ext2Inode) : ext2BlockFetch zeroExt2 ino (ext2BlockFetchInit zeroExt2) (12 + 256 + 256 * 256) =
        if ino.blocks 13 = 0 then .ok (0, ext2BlockFetchInit zeroExt2) else .error .bounds :=
    ext2BlockFetch_of_capacity_le ino (ext2BlockFetchInit zeroExt2) (by decide) (by decide)
  refine ⟨by decide, ?_, ?_⟩
  · rw [hfetch, if_neg (by decide)]
  · rw [hfetch, if_pos (by decide)]

end Fetch

end CoreX.Ext2

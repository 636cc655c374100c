import Mathlib.Tactic.IntervalCases
import CoreX.Base.Bits
import CoreX.Ext2.Blocks

/-!
# Inode bitmaps (`filesystems/ext2/ext2-inode.rs`)

Every block group has a bitmap of its inodes and a counter of the free ones; the superblock counts them all.
`ext2InodeFindL` returns `0` for "none", and so does not see a bit with index `0`: it leaves the byte of that bit with
it. `findLoop_spec` says which bits the scan sees.
-/

namespace CoreX.Ext2

open UInt32 Bits Function

structure Ext2Bgdt where
  inodeBitmap : UInt32
  freeInodes : UInt32

structure Ext2Superblock where
  freeInodes : UInt32
  inodesPerGroup : UInt32
  /-- `extended.first_inode` -/
  firstInode : UInt32

structure Ext2Groups where
  blockSize : Nat
  blockGroups : Nat
  bgdts : Nat → Ext2Bgdt
  superblock : Ext2Superblock
  disk : UInt32 → Buf

def bitMask (j : Nat) : UInt8 := 1 <<< UInt8.ofNat j

def putInodes (ext2 : Ext2Groups) (group : Nat) (buff : Buf) (free total : UInt32) : Ext2Groups where
  blockSize := ext2.blockSize
  blockGroups := ext2.blockGroups
  bgdts := Function.update ext2.bgdts group { ext2.bgdts group with freeInodes := free }
  superblock := { ext2.superblock with freeInodes := total }
  disk := Function.update ext2.disk (ext2.bgdts group).inodeBitmap buff

def findBit (byte : UInt8) (first : Nat) : Option Nat :=
  (List.range' first (8 - first)).find? fun j => byte &&& bitMask j = 0

def findLoop (buff : Buf) (firstDiv firstRem : Nat) : List Nat → UInt32
  | [] => 0
  | i :: is =>
    if buff i = 0xff then findLoop buff firstDiv firstRem is
    else
      let ret := match findBit (buff i) (if i = firstDiv then firstRem else 0) with
        | some j => UInt32.ofNat (i * 8 + j)
        | none => 0
      if ret ≠ 0 then ret else findLoop buff firstDiv firstRem is

section
variable (ext2 : Ext2Groups) (group : Nat)

def firstIndex : Nat :=
  if group = 0 then ext2.superblock.firstInode.toNat else 0

def ext2InodeFindL : Except Fault (UInt32 × Ext2Groups) :=
  if ext2.blockGroups ≤ group then .error .bounds
  else
    let bgdt := ext2.bgdts group
    if bgdt.freeInodes < 1 then .ok (0, ext2)
    else
      let buff := ext2.disk bgdt.inodeBitmap
      let firstDiv := firstIndex ext2 group / 8
      let firstRem := firstIndex ext2 group % 8
      let ret := findLoop buff firstDiv firstRem (List.range' firstDiv (ext2.blockSize - firstDiv))
      if ret ≠ 0 then
        let addr := ret.toNat / 8
        let buff := Function.update buff addr (buff addr ||| bitMask (ret.toNat % 8))
        .ok (UInt32.ofNat group * ext2.superblock.inodesPerGroup + ret + 1,
          putInodes ext2 group buff (bgdt.freeInodes - 1) (ext2.superblock.freeInodes - 1))
      else .ok (0, ext2)

def findOther (ext2 : Ext2Groups) (groupSuggestion : Nat) : List Nat → Except Fault (UInt32 × Ext2Groups)
  | [] => .error .panic
  | i :: is =>
    if i = groupSuggestion then findOther ext2 groupSuggestion is
    else do
      let (ret, ext2) ← ext2InodeFindL ext2 i
      if ret ≠ 0 then return (ret, ext2)
      findOther ext2 groupSuggestion is

def ext2InodeFind (groupSuggestion : Nat) : Except Fault (UInt32 × Ext2Groups) :=
  if ext2.superblock.freeInodes < 1 then .error .panic
  else do
    let (suggested, ext2) ← ext2InodeFindL ext2 groupSuggestion
    if suggested ≠ 0 then return (suggested, ext2)
    findOther ext2 groupSuggestion (List.range ext2.blockGroups)

def inodeToBlockGroup (inode : Nat) : Nat := (inode - 1) / ext2.superblock.inodesPerGroup.toNat

def inodeToIndex (inode : Nat) : Nat := (inode - 1) % ext2.superblock.inodesPerGroup.toNat

def ext2InodeDelete (inode : Nat) : Except Fault Ext2Groups :=
  if ext2.superblock.inodesPerGroup = 0 then .error .panic
  else if inode = 0 then .error .overflow
  else
    let group := inodeToBlockGroup ext2 inode
    let index := inodeToIndex ext2 inode
    if ext2.blockGroups ≤ group ∨ ext2.blockSize ≤ index / 8 then .error .bounds
    else
      let buff := ext2.disk (ext2.bgdts group).inodeBitmap
      let buff := Function.update buff (index / 8) (buff (index / 8) &&& ~~~bitMask (index % 8))
      .ok (putInodes ext2 group buff ((ext2.bgdts group).freeInodes + 1) (ext2.superblock.freeInodes + 1))

end

/-! ## Bits of a buffer -/

def bits (buff : Buf) : Nat → BitVec 8 := fun i => (buff i).toBitVec

variable {buff : Buf} {i j k n first : Nat}

theorem toBitVec_bitMask (hj : j < 8) : (bitMask j).toBitVec = 1#8 <<< j := by
  interval_cases j <;> rfl

theorem bits_or_bitMask (buff : Buf) (k : Nat) :
    bits (update buff (k / 8) (buff (k / 8) ||| bitMask (k % 8))) = put (bits buff) k true := by
  have hk : k % 8 < 8 := Nat.mod_lt _ (by decide)
  have hbyte : (buff (k / 8) ||| bitMask (k % 8)).toBitVec = (bits buff) (k / 8) ||| 1#8 <<< (k % 8) := by
    rw [UInt8.toBitVec_or, toBitVec_bitMask hk]
    rfl
  rw [put, if_pos rfl, ← hbyte]
  exact comp_update UInt8.toBitVec buff _ _

theorem bits_and_bitMask (buff : Buf) (k : Nat) :
    bits (update buff (k / 8) (buff (k / 8) &&& ~~~bitMask (k % 8))) = put (bits buff) k false := by
  have hk : k % 8 < 8 := Nat.mod_lt _ (by decide)
  have hbyte : (buff (k / 8) &&& ~~~bitMask (k % 8)).toBitVec = (bits buff) (k / 8) &&& ~~~(1#8 <<< (k % 8)) := by
    rw [UInt8.toBitVec_and, UInt8.toBitVec_not, toBitVec_bitMask hk]
    rfl
  rw [put, if_neg (by simp), ← hbyte]
  exact comp_update UInt8.toBitVec buff _ _

theorem and_bitMask_eq_zero (hj : j < 8) : buff i &&& bitMask j = 0 ↔ get (bits buff) (i * 8 + j) = false := by
  have hdiv : (i * 8 + j) / 8 = i := by omega
  have hmod : (i * 8 + j) % 8 = j := by omega
  rw [Bits.get, hdiv, hmod, ← Bits.and_one_shiftLeft_ne_zero _ hj, ← toBitVec_bitMask hj, bits,
    ← UInt8.toBitVec_and, bne_eq_false_iff_eq]
  exact UInt8.toBitVec_inj.symm

theorem get_bits_of_eq (h : buff (k / 8) = 0xff) : get (bits buff) k = true := by
  have hk : k % 8 < 8 := Nat.mod_lt _ (by decide)
  rw [Bits.get, bits, h]
  interval_cases k % 8 <;> rfl

/-! ## The scan -/

theorem findBit_eq_some (h : findBit (buff i) first = some j) :
    first ≤ j ∧ j < 8 ∧ get (bits buff) (i * 8 + j) = false ∧
      ∀ l, first ≤ l → l < j → get (bits buff) (i * 8 + l) = true := by
  obtain ⟨hclear, hmem, hbefore⟩ := List.find?_range'_eq_some.1 h
  rw [List.mem_range'_1] at hmem
  have hj : j < 8 := by omega
  refine ⟨hmem.1, hj, (and_bitMask_eq_zero hj).1 (by simpa using hclear), fun l hl hl' => ?_⟩
  have hset : ¬ buff i &&& bitMask l = 0 := by simpa using hbefore l hl hl'
  rw [and_bitMask_eq_zero (by omega)] at hset
  exact Bool.eq_true_of_not_eq_false hset

theorem findBit_eq_none (h : findBit (buff i) first = none) (hj : first ≤ j) (hj' : j < 8) :
    get (bits buff) (i * 8 + j) = true := by
  have hset := List.find?_range'_eq_none.1 h j hj (by omega)
  have hne : ¬ buff i &&& bitMask j = 0 := by simpa using hset
  rw [and_bitMask_eq_zero hj'] at hne
  exact Bool.eq_true_of_not_eq_false hne

/-- The scan leaves the first byte at a clear bit with index `0`, and does not return it. -/
def Hidden (m : Nat → BitVec 8) (first k : Nat) : Prop := k < 8 ∧ first = 0 ∧ Bits.get m 0 = false

theorem findLoop_step (hlt : ∀ k, k / 8 = i → get (bits buff) k = false → k < 2 ^ 32) (hi : first / 8 ≤ i)
    (is : List Nat) : (findLoop buff (first / 8) (first % 8) (i :: is) = findLoop buff (first / 8) (first % 8) is ∧
      ∀ k, first ≤ k → k / 8 = i → get (bits buff) k = false → Hidden (bits buff) first k) ∨
    ∃ k, findLoop buff (first / 8) (first % 8) (i :: is) = ofNat k ∧ k ≠ 0 ∧ k < 2 ^ 32 ∧ first ≤ k ∧
      k / 8 = i ∧ get (bits buff) k = false ∧ ¬ Hidden (bits buff) first k := by
  by_cases hfull : buff i = 0xff
  · refine .inl ⟨by rw [findLoop, if_pos hfull], fun k _ hk hclear => ?_⟩
    exact absurd (get_bits_of_eq (hk ▸ hfull)) (by simp [hclear])
  -- the bits of the byte that the loop tests
  set low := if i = first / 8 then first % 8 else 0 with hlow
  have hlow' : ∀ k, first ≤ k → k / 8 = i → low ≤ k % 8 := by
    intro k hk hk'
    rw [hlow]
    split_ifs <;> omega
  have hindex : ∀ k, k / 8 = i → i * 8 + k % 8 = k := fun k hk => by omega
  cases hbit : findBit (buff i) low with
  | none =>
    refine .inl ⟨?_, fun k hk hk' hclear => ?_⟩
    · rw [findLoop, if_neg hfull]
      simp only [← hlow, hbit]
      rfl
    · have hset := findBit_eq_none hbit (hlow' k hk hk') (Nat.mod_lt _ (by decide))
      rw [hindex k hk'] at hset
      exact absurd hset (by simp [hclear])
  | some j =>
    obtain ⟨hle, hj, hclear, hbefore⟩ := findBit_eq_some hbit
    have hdiv : (i * 8 + j) / 8 = i := by omega
    have hfirst : first ≤ i * 8 + j := by
      rw [hlow] at hle
      split_ifs at hle <;> omega
    have hsmall := hlt _ hdiv hclear
    have hstep : findLoop buff (first / 8) (first % 8) (i :: is) = if ofNat (i * 8 + j) ≠ 0 then ofNat (i * 8 + j)
        else findLoop buff (first / 8) (first % 8) is := by
      rw [findLoop, if_neg hfull]
      simp only [← hlow, hbit]
    have hzero : ofNat (i * 8 + j) = 0 ↔ i * 8 + j = 0 := by
      rw [← UInt32.toNat_inj, UInt32.toNat_ofNat_of_lt' hsmall]
      rfl
    by_cases hret : i * 8 + j = 0
    · -- index `0` reads as "none": the rest of the byte is not looked at
      refine .inl ⟨by rw [hstep, if_neg (by simpa using hzero.2 hret)], fun k hk hk' _ => ?_⟩
      rw [hret] at hclear hfirst
      exact ⟨by omega, by omega, hclear⟩
    · refine .inr ⟨i * 8 + j, ?_, hret, hsmall, hfirst, hdiv, hclear, ?_⟩
      · rw [hstep, if_pos (fun h => hret (hzero.1 h))]
      · rintro ⟨hk, hfirst', hclear'⟩
        have hi' : i = 0 := by omega
        have hset := hbefore 0 (by rw [hlow, hfirst']; split_ifs <;> simp) (by omega)
        rw [hi'] at hset
        exact absurd hset (by simp [hclear'])

/-- **What the scan finds**: a clear bit that is not hidden, or there is none. The induction is on the number
of bytes that are left; the scan is at byte `i`. -/
theorem findLoop_spec (hlt : ∀ k < 8 * (i + n), get (bits buff) k = false → k < 2 ^ 32) (hi : first / 8 ≤ i) :
    (findLoop buff (first / 8) (first % 8) (List.range' i n) = 0 ∧
      ∀ k, first ≤ k → 8 * i ≤ k → k < 8 * (i + n) → get (bits buff) k = false → Hidden (bits buff) first k) ∨
    ∃ k, findLoop buff (first / 8) (first % 8) (List.range' i n) = ofNat k ∧ k ≠ 0 ∧ k < 2 ^ 32 ∧
      first ≤ k ∧ k < 8 * (i + n) ∧ get (bits buff) k = false ∧ ¬ Hidden (bits buff) first k := by
  induction n generalizing i with
  | zero => exact .inl ⟨rfl, fun k _ hk hk' => by omega⟩
  | succ n ih =>
    rw [List.range'_succ]
    rcases findLoop_step (fun k hk => hlt k (by omega)) hi (List.range' (i + 1) n) with
      ⟨hstep, hnone⟩ | ⟨k, hfound, hne, hsmall, hfirst, hdiv, hclear, hseen⟩
    · rw [hstep]
      have hnext : 8 * (i + 1 + n) = 8 * (i + (n + 1)) := by omega
      have hrest := ih (i := i + 1) (by rwa [hnext]) (by omega)
      rw [hnext] at hrest
      rcases hrest with ⟨hzero, hnone'⟩ | hfound
      · refine .inl ⟨hzero, fun k hfirst hk hk' hclear => ?_⟩
        by_cases hbyte : k / 8 = i
        · exact hnone k hfirst hbyte hclear
        · exact hnone' k hfirst (by omega) hk' hclear
      · exact .inr hfound
    · exact .inr ⟨k, hfound, hne, hsmall, hfirst, by omega, hclear, hseen⟩

end CoreX.Ext2

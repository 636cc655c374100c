import CoreX.Ext2.Traverse
import Mathlib.Data.List.Induction

/-!
# Paths (`filesystems/ext2/ext2-traverse.rs`)

`ext2TraversePath` looks up one component of a path after the other. A component ends at a slash, or at the last byte
of the path, which belongs to it even if it is a slash. A symbolic link ends the lookup.
-/

namespace CoreX.Ext2

open Memory List Except

def ext2SIflnk : UInt32 := 0xA000
def sIfdir : UInt32 := 0x4000

def slash : UInt8 := 0x2F

structure Traversed where
  inode : UInt32
  symlinkResolve : Option Bytes
  deriving DecidableEq

def blocksBytes (ino : Ext2Inode) : Buf := fun i => UInt8.ofNat ((ino.blocks (i / 4)).toNat / 256 ^ (i % 4))

/-- The target of a symbolic link, put in place of the component from `lastslash + 1` on. One that is
absolute has a mark in front. -/
def symlinkTarget (ext2 : Ext2) (inode : Ext2Inode) (path : Bytes) (lastslash length : Nat) :
    Except Fault Bytes :=
  let symlinkLen := inode.size.toNat
  let start := if 60 < symlinkLen then ext2.disk (inode.blocks 0) else blocksBytes inode
  if 60 < symlinkLen ∧ ext2.blockSize < symlinkLen then .error .bounds
  else if start 0 ≠ slash then
    .ok (path.take (lastslash + 1) ++ slice start 0 symlinkLen ++ path.drop (lastslash + 1 + length))
  else .ok (0x21 :: slice start 0 symlinkLen)

def traversePathLoop (ext2 : Ext2) (path : Bytes) (follow : Bool) :
    Nat → Nat → UInt32 → Nat → Except Fault Traversed
  | 0, _, _, _ => .ok ⟨0, none⟩
  | k + 1, i, curr, lastslash =>
    let last := i = path.length - 1
    if path.getD i 0 = slash ∨ last then do
      let length := if last then i - lastslash - 1 + 1 else i - lastslash - 1
      let curr ← ext2Traverse ext2 curr ((path.drop (lastslash + 1)).take length)
      if curr = 0 then return ⟨0, none⟩
      let inode := ext2.inodes curr
      if inode.permission &&& 0xF000 = ext2SIflnk ∧ (¬ last ∨ follow) then
        let target ← symlinkTarget ext2 inode path lastslash length
        return ⟨0, some target⟩
      if last then return ⟨curr, none⟩
      if inode.permission &&& sIfdir = 0 then return ⟨0, none⟩
      traversePathLoop ext2 path follow k (i + 1) curr i
    else traversePathLoop ext2 path follow k (i + 1) curr lastslash

def ext2TraversePath (ext2 : Ext2) (path : Bytes) (initInode : UInt32) (follow : Bool) :
    Except Fault Traversed :=
  if path.length = 1 then .ok ⟨2, none⟩
  else traversePathLoop ext2 path follow (path.length - 1) 1 initInode 0

/-! ## The last slash -/

def lastSlash (path : Bytes) : Option Nat :=
  (List.range path.length).foldl (fun last i => if path.getD i 0 = slash then some i else last) none

theorem lastSlash_concat (path : Bytes) (b : UInt8) :
    lastSlash (path ++ [b]) = if b = slash then some path.length else lastSlash path := by
  have hbefore : ∀ last : Option Nat, ∀ i ∈ List.range path.length,
      (if (path ++ [b]).getD i 0 = slash then some i else last) = if path.getD i 0 = slash then some i else last := by
    intro last i hi
    rw [getD_append _ _ _ _ (mem_range.1 hi)]
  rw [lastSlash, length_append, length_singleton, range_succ, foldl_append, foldl_cons, foldl_nil,
    foldl_ext _ _ _ hbefore, getD_append_right _ _ _ _ (Nat.le_refl _), Nat.sub_self]
  rfl

theorem lastSlash_eq (before : Bytes) {name : Bytes} (h : slash ∉ name) :
    lastSlash (before ++ slash :: name) = some before.length := by
  induction name using reverseRecOn with
  | nil => rw [lastSlash_concat, if_pos rfl]
  | append_singleton name b ih =>
    rw [mem_append, not_or, mem_singleton] at h
    rw [← cons_append, ← append_assoc, lastSlash_concat, if_neg (Ne.symm h.2), ih h.1]

end CoreX.Ext2

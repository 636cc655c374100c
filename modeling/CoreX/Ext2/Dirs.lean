import CoreX.Base.Word
import CoreX.Ext2.Blocks

/-!
# Directories (`filesystems/ext2/ext2-dirs.rs`, `filesystems/ext2/ext2-traverse.rs`)

A directory block is a chain of entries, each of which says how many bytes there are to the next one. `ext2Traverse`,
`ext2DirAllocate` and `ext2DirRemove` walk the blocks in the same loop (`forBlocks`) and the entries of each block in
a `while` loop of their own.

An access behind the end of a block buffer is a fault. A walk that takes more steps than a block has bytes meets an
entry of size zero, and does not end.
-/

namespace CoreX.Ext2

open Memory

structure Ext2Directory where
  inode : UInt32
  size : Nat
  type_ : UInt8
  filename : Bytes
  deriving DecidableEq

def entryAt (names : Buf) (dir : Nat) : Ext2Directory where
  inode := load32 names dir
  size := (load16 names (dir + 4)).toNat
  type_ := names (dir + 7)
  filename := slice names (dir + 8) (names (dir + 6)).toNat

section
variable (ext2 : Ext2) (names : Buf) (dir : Nat)

def dirGet : Except Fault Ext2Directory :=
  if dir + 6 ≤ ext2.blockSize then .ok (entryAt names dir) else .error .bounds

/-- The entry is live and has the name. The length is read only if it is live, and the name only if the lengths
agree. -/
def dirIs (entry : Ext2Directory) (filename : Bytes) : Except Fault Bool :=
  if entry.inode = 0 then .ok false
  else if ext2.blockSize < dir + 7 then .error .bounds
  else if entry.filename.length = filename.length then
    if dir + 8 + filename.length ≤ ext2.blockSize then .ok (entry.filename = filename) else .error .bounds
  else .ok false

def storeEntry (new : Nat) (entry : Ext2Directory) : Buf :=
  let names := store16 names (new + 4) (UInt16.ofNat entry.size)
  let names := Function.update names (new + 7) entry.type_
  let names := Function.update names (new + 6) (UInt8.ofNat entry.filename.length)
  let names := store32 names new entry.inode
  storeSlice names (new + 8) entry.filename

def dirPut (new : Nat) (entry : Ext2Directory) : Except Fault Buf :=
  if new + 8 + entry.filename.length ≤ ext2.blockSize then .ok (storeEntry names new entry)
  else .error .bounds

def roundUp4 (x : Nat) : Nat := (x + 3) / 4 * 4

def blockCount (ino : Ext2Inode) : Except Fault Nat :=
  if ext2.blockSize = 0 then .error .panic else .ok (Word.divRoundUp ino.size.toNat ext2.blockSize)

structure Scan where
  blockNum : Nat
  control : Ext2LookupControl
  names : Buf

def forBlocks {ρ τ : Type} (ino : Ext2Inode) (body : Ext2 → UInt32 → Buf → τ → Except Fault (Ext2 × (ρ ⊕ τ))) :
    Nat → Ext2 → Scan → τ → Except Fault (Ext2 × (ρ ⊕ Scan × τ))
  | 0, ext2, scan, t => .ok (ext2, .inr (scan, t))
  | k + 1, ext2, scan, t => do
    let (block, control) ← ext2BlockFetch ext2 ino scan.control scan.blockNum
    if block = 0 then return (ext2, .inr ({ scan with control }, t))
    let names := ext2.disk block
    match ← body ext2 block names t with
    | (ext2, .inl r) => return (ext2, .inl r)
    | (ext2, .inr t) => forBlocks ino body k ext2 ⟨scan.blockNum + 1, control, names⟩ t

def startScan : Scan := ⟨0, ext2BlockFetchInit ext2, ext2.heap⟩

def traverseWalk (ext2 : Ext2) (names : Buf) (search : Bytes) : Nat → Nat → Except Fault (Option UInt32)
  | 0, dir => if dir < ext2.blockSize then .error .diverges else .ok none
  | fuel + 1, dir =>
    if dir < ext2.blockSize then do
      let entry ← dirGet ext2 names dir
      if ← dirIs ext2 dir entry search then return some entry.inode
      traverseWalk ext2 names search fuel (dir + entry.size)
    else .ok none

def traverseBody (search : Bytes) (ext2 : Ext2) (_ : UInt32) (names : Buf) (_ : Unit) :
    Except Fault (Ext2 × (UInt32 ⊕ Unit)) := do
  match ← traverseWalk ext2 names search ext2.blockSize 0 with
  | some inode => return (ext2, .inl inode)
  | none => return (ext2, .inr ())

def ext2Traverse (initInode : UInt32) (search : Bytes) : Except Fault UInt32 := do
  let ino := ext2.inodes initInode
  let blocks ← blockCount ext2 ino
  match ← forBlocks ino (traverseBody search) blocks ext2 (startScan ext2) () with
  | (_, .inl inode) => return inode
  | (_, .inr _) => return 0

end

inductive Walked where
  /-- The name is live. -/
  | taken
  /-- The entry was put in the slack of another one. -/
  | placed (names : Buf)
  /-- Neither. -/
  | full

def allocateWalk (ext2 : Ext2) (names : Buf) (filename : Bytes) (type_ : UInt8) (inode : UInt32) :
    Nat → Nat → Except Fault Walked
  | 0, dir => if dir < ext2.blockSize then .error .diverges else .ok .full
  | fuel + 1, dir =>
    if dir < ext2.blockSize then do
      let entry ← dirGet ext2 names dir
      if ← dirIs ext2 dir entry filename then return .taken
      -- `filenameLength` of a deleted entry is read as well
      if ext2.blockSize < dir + 7 then throw .bounds
      let minOld := roundUp4 (8 + entry.filename.length)
      let minNew := roundUp4 (8 + filename.length)
      if entry.size < minOld then throw .overflow
      let remainder := entry.size - minOld
      if remainder < minNew then allocateWalk ext2 names filename type_ inode fuel (dir + entry.size)
      else do
        let names := store16 names (dir + 4) (UInt16.ofNat minOld)
        let new := dir + (entryAt names dir).size
        let names ← dirPut ext2 names new ⟨inode, remainder, type_, filename⟩
        return .placed names
    else .ok .full

def allocateBody (filename : Bytes) (type_ : UInt8) (inode : UInt32) (ext2 : Ext2) (block : UInt32)
    (names : Buf) (_ : Unit) : Except Fault (Ext2 × (Bool ⊕ Unit)) := do
  match ← allocateWalk ext2 names filename type_ inode ext2.blockSize 0 with
  | .taken => return (ext2, .inl false)
  | .placed names => return (setDiskBytes ext2 block names, .inl true)
  | .full => return (ext2, .inr ())

section
variable (ext2 : Ext2) (inodeNum : UInt32) (ino : Ext2Inode) (scan : Scan) (filename : Bytes) (type_ : UInt8)
  (inode : UInt32)

def appendBlock : Except Fault (Ext2 × Ext2Inode) := do
  let (newBlock, ext2) ← ext2BlockFind ext2
  let names ← dirPut ext2 scan.names 0 ⟨inode, ext2.blockSize, type_, filename⟩
  let ext2 := setDiskBytes ext2 newBlock names
  let (ext2, ino, _) ← ext2BlockAssign ext2 ino inodeNum scan.control scan.blockNum newBlock
  let ino := { ino with
    numSectors := ino.numSectors + UInt32.ofNat ext2.blockSize / 512
    size := ino.size + UInt32.ofNat ext2.blockSize }
  return (ext2InodeModifyM ext2 inodeNum ino, ino)

def ext2DirAllocate : Except Fault (Bool × Ext2 × Ext2Inode) := do
  let blocks ← blockCount ext2 ino
  match ← forBlocks ino (allocateBody filename type_ inode) blocks ext2 (startScan ext2) () with
  | (ext2, .inl ret) => return (ret, ext2, ino)
  | (ext2, .inr (scan, ())) => do
    let (ext2, ino) ← appendBlock ext2 inodeNum ino scan filename type_ inode
    return (true, ext2, ino)

/-! ## `ext2DirRemove` -/

def removeEntry (names : Buf) (before : Option Nat) (dir : Nat) : Except Fault Buf :=
  match before with
  | none => .ok (Function.update (store32 names dir 0) (dir + 6) 0)
  | some before =>
    let size := (entryAt names before).size + (entryAt names dir).size
    if size < 2 ^ 16 then .ok (store16 names (before + 4) (UInt16.ofNat size)) else .error .overflow

/-- The `while` loop of `ext2DirRemove`. It goes on after it has removed an entry. -/
def removeWalk (block : UInt32) (filename : Bytes) :
    Nat → Ext2 → Buf → Option Nat → Nat → Bool → Except Fault (Ext2 × Bool)
  | 0, ext2, _, _, dir, ret => if dir < ext2.blockSize then .error .diverges else .ok (ext2, ret)
  | fuel + 1, ext2, names, before, dir, ret =>
    if dir < ext2.blockSize then do
      let entry ← dirGet ext2 names dir
      if ← dirIs ext2 dir entry filename then
        let names ← removeEntry names before dir
        removeWalk block filename fuel (setDiskBytes ext2 block names) names (some dir)
          (dir + (entryAt names dir).size) true
      else removeWalk block filename fuel ext2 names (some dir) (dir + entry.size) ret
    else .ok (ext2, ret)

def removeBody (ext2 : Ext2) (block : UInt32) (names : Buf) (ret : Bool) : Except Fault (Ext2 × (Empty ⊕ Bool)) := do
  let (ext2, ret) ← removeWalk block filename ext2.blockSize ext2 names none 0 ret
  return (ext2, .inr ret)

def ext2DirRemove : Except Fault (Bool × Ext2) := do
  let blocks ← blockCount ext2 ino
  match ← forBlocks ino (removeBody filename) blocks ext2 (startScan ext2) false with
  | (ext2, .inr (_, ret)) => return (ret, ext2)

end

end CoreX.Ext2

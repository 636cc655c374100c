import CoreX.Base.Resumption
import CoreX.Ext2.Create

/-!
# `ext2Touch`, one access at a time

The functions below `ext2Touch` as programs that issue a command for every access to the disk, for the inodes and for
`LOCK_DIRALLOC`. Alone, each of them does what the function of the same name does (`exec_ext2Touch`). `ext2InodeFetch`
and `ext2InodeModifyM` hold the lock of the group throughout, and are one command each. So are `ext2InodeFind` and
`ext2BlockFind`, whose way of allocating is of no interest here.
-/

namespace CoreX.Ext2.Steps

open CoreX.Resumption Except
open CoreX.Resumption.Prog (cmd lift)

/-! ## The model -/

inductive Cmd where
  | getDiskBytes (block : UInt32)
  | setDiskBytes (block : UInt32) (buf : Buf)
  | ext2InodeFetch (inode : UInt32)
  | ext2InodeModifyM (inode : UInt32) (target : Ext2Inode)
  | ext2BlockFind
  | ext2InodeFind (group : Nat)
  /-- Of `LOCK_DIRALLOC`, as the last one. -/
  | spinlockAcquire
  | spinlockRelease

def Ans : Cmd → Type
  | .getDiskBytes _ => Buf
  | .setDiskBytes _ _ => Unit
  | .ext2InodeFetch _ => Ext2Inode
  | .ext2InodeModifyM _ _ => Unit
  | .ext2BlockFind => UInt32
  | .ext2InodeFind _ => UInt32
  | .spinlockAcquire => Unit
  | .spinlockRelease => Unit

structure Shared where
  fs : FileSystem
  lockDiralloc : Bool

def Shared.setExt2 (s : Shared) (ext2 : Ext2) : Shared := ⟨⟨ext2, s.fs.groups⟩, s.lockDiralloc⟩

def handle (s : Shared) : (c : Cmd) → Except Fault (Ans c × Shared)
  | .getDiskBytes block => .ok (s.fs.ext2.disk block, s)
  | .setDiskBytes block buf => .ok ((), s.setExt2 (Ext2.setDiskBytes s.fs.ext2 block buf))
  | .ext2InodeFetch inode => .ok (s.fs.ext2.inodes inode, s)
  | .ext2InodeModifyM inode target => .ok ((), s.setExt2 (Ext2.ext2InodeModifyM s.fs.ext2 inode target))
  | .ext2BlockFind => Ext2.ext2BlockFind s.fs.ext2 >>= fun r => .ok (r.1, s.setExt2 r.2)
  | .ext2InodeFind group =>
    Ext2.ext2InodeFind s.fs.groups group >>= fun r => .ok (r.1, ⟨⟨s.fs.ext2, r.2⟩, s.lockDiralloc⟩)
  | .spinlockAcquire => if s.lockDiralloc then .error .diverges else .ok ((), ⟨s.fs, true⟩)
  | .spinlockRelease => .ok ((), ⟨s.fs, false⟩)

abbrev Thread := Prog Cmd Ans Fault

def getDiskBytes (block : UInt32) : Thread Buf := cmd (Cmd.getDiskBytes block)
def setDiskBytes (block : UInt32) (buf : Buf) : Thread Unit := cmd (Cmd.setDiskBytes block buf)
def ext2InodeFetch (inode : UInt32) : Thread Ext2Inode := cmd (Cmd.ext2InodeFetch inode)
def ext2InodeModifyM (inode : UInt32) (target : Ext2Inode) : Thread Unit := cmd (Cmd.ext2InodeModifyM inode target)
def ext2BlockFind : Thread UInt32 := cmd Cmd.ext2BlockFind
def ext2InodeFind (group : Nat) : Thread UInt32 := cmd (Cmd.ext2InodeFind group)
def spinlockAcquire : Thread Unit := cmd Cmd.spinlockAcquire
def spinlockRelease : Thread Unit := cmd Cmd.spinlockRelease

section Model

-- the struct in memory; of the fields only `blockSize` and `heap` are used
variable (ext2 : Ext2)

section
variable (control : Ext2LookupControl) (block : UInt32)

def fetchTmp1 : Thread Ext2LookupControl :=
  if control.tmp1Block ≠ block then do
    let tmp1 ← getDiskBytes block
    return { control with tmp1Block := block, tmp1 }
  else return control

def fetchTmp2 : Thread Ext2LookupControl :=
  if control.tmp2Block ≠ block then do
    let tmp2 ← getDiskBytes block
    return { control with tmp2Block := block, tmp2 }
  else return control

end

def ext2BlockFetch (ino : Ext2Inode) (control : Ext2LookupControl) (curr : Nat) :
    Thread (UInt32 × Ext2LookupControl) :=
  let itemsPerBlock := ext2.blockSize / 4
  let baseSingly := 12 + itemsPerBlock
  let baseDoubly := baseSingly + ext2.blockSize * itemsPerBlock
  if curr < 12 then return (ino.blocks curr, control)
  else if curr < baseSingly then
    if ino.blocks 12 = 0 then return (0, control)
    else do
      let control ← fetchTmp1 control (ino.blocks 12)
      let result ← lift (tmpGet ext2 control.tmp1 (curr - 12))
      return (result, control)
  else if curr < baseDoubly then
    if ino.blocks 13 = 0 then return (0, control)
    else do
      let control ← fetchTmp1 control (ino.blocks 13)
      let blk ← lift (tmpGet ext2 control.tmp1 ((curr - baseSingly) / itemsPerBlock))
      if blk = 0 then return (0, control)
      else do
        let control ← fetchTmp2 control blk
        let result ← lift (tmpGet ext2 control.tmp2 ((curr - baseSingly) % itemsPerBlock))
        return (result, control)
  else .throw .panic

def singlyBlock (ino : Ext2Inode) (inodeNum : UInt32) : Thread (Ext2Inode × Bool) :=
  if ino.blocks 12 = 0 then do
    let block ← ext2BlockFind
    let ino := ino.setBlock 12 block
    ext2InodeModifyM inodeNum ino
    return (ino, true)
  else return (ino, false)

def ext2BlockAssign (ino : Ext2Inode) (inodeNum : UInt32) (control : Ext2LookupControl) (curr : Nat)
    (val : UInt32) : Thread (Ext2Inode × Ext2LookupControl) :=
  if curr < 12 then do
    let ino := ino.setBlock curr val
    ext2InodeModifyM inodeNum ino
    return (ino, control)
  else if curr < 12 + ext2.blockSize / 4 then do
    let (ino, noninit) ← singlyBlock ino inodeNum
    let control ← fetchTmp1 control (ino.blocks 12)
    let tmp1 := if noninit then Memory.memset control.tmp1 0 0 ext2.blockSize else control.tmp1
    let tmp1 := Memory.store32 tmp1 (4 * (curr - 12)) val
    setDiskBytes (ino.blocks 12) tmp1
    return (ino, { control with tmp1 })
  else .throw .panic

def forBlocks {ρ : Type} (ino : Ext2Inode) (body : UInt32 → Buf → Thread (ρ ⊕ Unit)) : Nat → Scan → Thread (ρ ⊕ Scan)
  | 0, scan => return .inr scan
  | k + 1, scan => do
    let (block, control) ← ext2BlockFetch ext2 ino scan.control scan.blockNum
    if block = 0 then return .inr { scan with control }
    else do
      let names ← getDiskBytes block
      match ← body block names with
      | .inl r => return .inl r
      | .inr () => forBlocks ino body k ⟨scan.blockNum + 1, control, names⟩

def traverseBody (search : Bytes) (_ : UInt32) (names : Buf) : Thread (UInt32 ⊕ Unit) := do
  match ← lift (traverseWalk ext2 names search ext2.blockSize 0) with
  | some inode => return .inl inode
  | none => return .inr ()

def ext2Traverse (initInode : UInt32) (search : Bytes) : Thread UInt32 := do
  let ino ← ext2InodeFetch initInode
  let blocks ← lift (blockCount ext2 ino)
  match ← forBlocks ext2 ino (traverseBody ext2 search) blocks (startScan ext2) with
  | .inl inode => return inode
  | .inr _ => return 0

def symlinkTarget (inode : Ext2Inode) (path : Bytes) (lastslash length : Nat) : Thread Bytes :=
  if 60 < inode.size.toNat then do
    let start ← getDiskBytes (inode.blocks 0)
    lift (Ext2.symlinkTarget { ext2 with disk := fun _ => start } inode path lastslash length)
  else lift (Ext2.symlinkTarget ext2 inode path lastslash length)

def traversePathLoop (path : Bytes) (follow : Bool) : Nat → Nat → UInt32 → Nat → Thread Traversed
  | 0, _, _, _ => return ⟨0, none⟩
  | k + 1, i, curr, lastslash =>
    let last := i = path.length - 1
    if path.getD i 0 = slash ∨ last then do
      let length := if last then i - lastslash - 1 + 1 else i - lastslash - 1
      let curr ← ext2Traverse ext2 curr ((path.drop (lastslash + 1)).take length)
      if curr = 0 then return ⟨0, none⟩
      else do
        let inode ← ext2InodeFetch curr
        if inode.permission &&& 0xF000 = ext2SIflnk ∧ (¬ last ∨ follow) then do
          let target ← symlinkTarget ext2 inode path lastslash length
          return ⟨0, some target⟩
        else if last then return ⟨curr, none⟩
        else if inode.permission &&& sIfdir = 0 then return ⟨0, none⟩
        else traversePathLoop path follow k (i + 1) curr i
    else traversePathLoop path follow k (i + 1) curr lastslash

def ext2TraversePath (path : Bytes) (initInode : UInt32) (follow : Bool) : Thread Traversed :=
  if path.length = 1 then return ⟨2, none⟩
  else traversePathLoop ext2 path follow (path.length - 1) 1 initInode 0

def parentOf (path : Bytes) : Thread Traversed :=
  match lastSlash path with
  | some (l + 1) => ext2TraversePath ext2 (path.take (l + 1)) ext2RootInode true
  | _ => return ⟨ext2RootInode, none⟩

def allocateBody (filename : Bytes) (type_ : UInt8) (inode : UInt32) (block : UInt32) (names : Buf) :
    Thread (Bool ⊕ Unit) := do
  match ← lift (allocateWalk ext2 names filename type_ inode ext2.blockSize 0) with
  | .taken => return .inl false
  | .placed names => do
    setDiskBytes block names
    return .inl true
  | .full => return .inr ()

section
variable (inodeNum : UInt32) (ino : Ext2Inode) (scan : Scan) (filename : Bytes) (type_ : UInt8) (inode : UInt32)

def appendBlock : Thread Ext2Inode := do
  let newBlock ← ext2BlockFind
  let names ← lift (dirPut ext2 scan.names 0 ⟨inode, ext2.blockSize, type_, filename⟩)
  setDiskBytes newBlock names
  let (ino, _) ← ext2BlockAssign ext2 ino inodeNum scan.control scan.blockNum newBlock
  let ino := { ino with
    numSectors := ino.numSectors + UInt32.ofNat ext2.blockSize / 512
    size := ino.size + UInt32.ofNat ext2.blockSize }
  ext2InodeModifyM inodeNum ino
  return ino

def allocateLocked : Thread (Bool × Ext2Inode) := do
  let blocks ← lift (blockCount ext2 ino)
  match ← forBlocks ext2 ino (allocateBody ext2 filename type_ inode) blocks (startScan ext2) with
  | .inl ret => return (ret, ino)
  | .inr scan => do
    let ino ← appendBlock ext2 inodeNum ino scan filename type_ inode
    return (true, ino)

def ext2DirAllocate : Thread (Bool × Ext2Inode) := do
  spinlockAcquire
  let r ← allocateLocked ext2 inodeNum ino filename type_ inode
  spinlockRelease
  return r

section
variable (inodeContents : Ext2Inode) (name : Bytes) (mode : UInt32)

def createFile : Thread (Except Errno Created) := do
  let newInodeNum ← ext2InodeFind inode.toNat
  ext2InodeModifyM newInodeNum (newInode (sIfreg ||| mode))
  let _ ← ext2DirAllocate ext2 inode inodeContents (shortName name) 1 newInodeNum
  return .ok ⟨inode, newInodeNum⟩

def createIn : Thread (Except Errno Created) := do
  let inodeContents ← ext2InodeFetch inode
  if inodeContents.permission &&& sIfmt ≠ sIfdir then return .error .enotdir
  else do
    let found ← ext2Traverse ext2 inode name
    if found ≠ 0 then return .error .eexist
    else createFile ext2 inode inodeContents name mode

def ext2Touch : Thread (Except Errno Created) := do
  let parent ← parentOf ext2 filename
  if parent.inode = 0 then return .error (.enoent parent.symlinkResolve)
  else if (nameOf filename).length = 0 then return .error .eisdir
  else createIn ext2 parent.inode (nameOf filename) mode

end

end

end Model

/-! ## Alone -/

section Exec
variable {s : Shared} {ext2 : Ext2} {ext2' : Ext2} {search : Bytes} {block : UInt32}

@[simp] theorem setExt2_self (s : Shared) : s.setExt2 s.fs.ext2 = s := rfl

@[simp] theorem setExt2_ext2 (s : Shared) (ext2 : Ext2) : (s.setExt2 ext2).fs.ext2 = ext2 := rfl

@[simp] theorem exec_getDiskBytes (block : UInt32) :
    exec handle (getDiskBytes block) s = .ok (s.fs.ext2.disk block, s) := rfl

@[simp] theorem exec_setDiskBytes (block : UInt32) (buf : Buf) :
    exec handle (setDiskBytes block buf) s = .ok ((), s.setExt2 (Ext2.setDiskBytes s.fs.ext2 block buf)) := rfl

@[simp] theorem exec_ext2InodeFetch (inode : UInt32) :
    exec handle (ext2InodeFetch inode) s = .ok (s.fs.ext2.inodes inode, s) := rfl

@[simp] theorem exec_ext2InodeModifyM (inode : UInt32) (target : Ext2Inode) :
    exec handle (ext2InodeModifyM inode target) s =
      .ok ((), s.setExt2 (Ext2.ext2InodeModifyM s.fs.ext2 inode target)) := rfl

structure InMemory (ext2 : Ext2) (s : Shared) : Prop where
  blockSize : s.fs.ext2.blockSize = ext2.blockSize
  heap : s.fs.ext2.heap = ext2.heap

theorem tmpGet_congr (h : ext2'.blockSize = ext2.blockSize) (tmp : Buf) (i : Nat) :
    tmpGet ext2' tmp i = tmpGet ext2 tmp i := by rw [tmpGet, tmpGet, h]

theorem exec_fetchTmp1 (control : Ext2LookupControl) (block : UInt32) :
    exec handle (fetchTmp1 control block) s = .ok (Ext2.fetchTmp1 s.fs.ext2 control block, s) := by
  rw [fetchTmp1, Ext2.fetchTmp1]
  split_ifs <;> rfl

theorem exec_fetchTmp2 (control : Ext2LookupControl) (block : UInt32) :
    exec handle (fetchTmp2 control block) s = .ok (Ext2.fetchTmp2 s.fs.ext2 control block, s) := by
  rw [fetchTmp2, Ext2.fetchTmp2]
  split_ifs <;> rfl

theorem exec_ext2BlockFetch (h : InMemory ext2 s) (ino : Ext2Inode) (control : Ext2LookupControl) (curr : Nat) :
    exec handle (ext2BlockFetch ext2 ino control curr) s =
      Ext2.ext2BlockFetch s.fs.ext2 ino control curr >>= fun r => .ok (r, s) := by
  simp only [ext2BlockFetch, Ext2.ext2BlockFetch, h.blockSize]
  split_ifs with hdirect hsingly h12 hdoubly h13
  · rfl
  · rfl
  · rw [exec_bind, exec_fetchTmp1, ok_bind, ← tmpGet_congr h.blockSize]
    exact exec_bind_of (exec_lift _) fun _ _ => rfl
  · rfl
  · rw [exec_bind, exec_fetchTmp1, ok_bind, ← tmpGet_congr h.blockSize]
    refine exec_bind_of (exec_lift _) fun blk _ => ?_
    split_ifs
    · rfl
    · rw [exec_bind, exec_fetchTmp2, ok_bind, ← tmpGet_congr h.blockSize]
      exact exec_bind_of (exec_lift _) fun _ _ => rfl
  · rfl

theorem exec_ext2BlockFind :
    exec handle ext2BlockFind s = Ext2.ext2BlockFind s.fs.ext2 >>= fun r => .ok (r.1, s.setExt2 r.2) :=
  exec_cmd Cmd.ext2BlockFind

theorem exec_ext2InodeFind (group : Nat) : exec handle (ext2InodeFind group) s =
      Ext2.ext2InodeFind s.fs.groups group >>= fun r => .ok (r.1, ⟨⟨s.fs.ext2, r.2⟩, s.lockDiralloc⟩) :=
  exec_cmd (Cmd.ext2InodeFind group)

theorem inMemory_handle (s : Shared) (c : Cmd) (x : Ans c) (s' : Shared) (h : InMemory ext2 s)
    (hhandle : handle s c = .ok (x, s')) : InMemory ext2 s' := by
  cases c with
  | getDiskBytes | ext2InodeFetch => exact (Prod.mk.inj (ok.inj hhandle)).2 ▸ h
  | setDiskBytes | ext2InodeModifyM | spinlockRelease =>
    rw [← (Prod.mk.inj (ok.inj hhandle)).2]
    exact ⟨h.blockSize, h.heap⟩
  | ext2BlockFind =>
    obtain ⟨r, hfind, hr⟩ := bind_eq_ok.1 hhandle
    rw [← (Prod.mk.inj (ok.inj hr)).2]
    rw [Ext2.ext2BlockFind] at hfind
    cases hfound : s.fs.ext2.found with
    | nil => simp [hfound] at hfind
    | cons block rest =>
      rw [hfound] at hfind
      obtain rfl := ok.inj hfind
      exact ⟨h.blockSize, h.heap⟩
  | ext2InodeFind group =>
    obtain ⟨r, -, hr⟩ := bind_eq_ok.1 hhandle
    rw [← (Prod.mk.inj (ok.inj hr)).2]
    exact ⟨h.blockSize, h.heap⟩
  | spinlockAcquire =>
    rw [handle] at hhandle
    split_ifs at hhandle
    rw [← (Prod.mk.inj (ok.inj hhandle)).2]
    exact ⟨h.blockSize, h.heap⟩

theorem InMemory.exec {α : Type} {p : Thread α} {a : α} {s' : Shared} (h : InMemory ext2 s)
    (hexec : exec handle p s = .ok (a, s')) : InMemory ext2 s' := exec_keeps inMemory_handle h hexec

theorem exec_ext2BlockAssign (h : InMemory ext2 s) (ino : Ext2Inode) (inodeNum : UInt32)
    (control : Ext2LookupControl) (curr : Nat) (val : UInt32) :
    exec handle (ext2BlockAssign ext2 ino inodeNum control curr val) s =
      Ext2.ext2BlockAssign s.fs.ext2 ino inodeNum control curr val >>= fun r => .ok (r.2, s.setExt2 r.1) := by
  simp only [ext2BlockAssign, Ext2.ext2BlockAssign, h.blockSize]
  split_ifs with hdirect hsingly h12
  · rfl
  · rw [singlyBlock, if_pos h12, exec_bind, exec_bind, exec_ext2BlockFind]
    cases hfind : Ext2.ext2BlockFind s.fs.ext2 with
    | error fault => rfl
    | ok r =>
      have hexec : exec handle ext2BlockFind s = .ok (r.1, s.setExt2 r.2) := by
        rw [exec_ext2BlockFind, hfind, ok_bind]
      have hsize : r.2.blockSize = ext2.blockSize := (h.exec hexec).blockSize
      simp only [ok_bind, Prog.pure_eq, exec_bind, exec_ext2InodeModifyM, exec_ret, exec_fetchTmp1, exec_setDiskBytes, ← hsize]
      rfl
  · rw [singlyBlock, if_neg h12, exec_bind, Prog.pure_eq, exec_ret, ok_bind, exec_bind, exec_fetchTmp1, ok_bind]
    rfl
  · rfl

section
variable (h : ext2'.blockSize = ext2.blockSize) (names : Buf)
include h

theorem traverseWalk_congr (search : Bytes) (fuel dir : Nat) :
    traverseWalk ext2' names search fuel dir = traverseWalk ext2 names search fuel dir := by
  induction fuel generalizing dir with
  | zero => rw [traverseWalk, traverseWalk, h]
  | succ fuel ih => simp only [traverseWalk, dirGet, dirIs, h, ih]

theorem allocateWalk_congr (filename : Bytes) (type_ : UInt8) (inode : UInt32) (fuel dir : Nat) :
    allocateWalk ext2' names filename type_ inode fuel dir = allocateWalk ext2 names filename type_ inode fuel dir := by
  induction fuel generalizing dir with
  | zero => rw [allocateWalk, allocateWalk, h]
  | succ fuel ih => simp only [allocateWalk, dirGet, dirIs, dirPut, h, ih]

end

theorem exec_traverseBody (h : InMemory ext2 s) (search : Bytes) (block : UInt32) (names : Buf) :
    exec handle (traverseBody ext2 search block names) s =
      Ext2.traverseBody search s.fs.ext2 block names () >>= fun r => .ok (r.2, s.setExt2 r.1) := by
  rw [traverseBody, Ext2.traverseBody, traverseWalk_congr h.blockSize, h.blockSize]
  exact exec_bind_of (exec_lift _) fun found _ => by cases found <;> rfl

theorem exec_allocateBody (h : InMemory ext2 s) (filename : Bytes) (type_ : UInt8) (inode block : UInt32)
    (names : Buf) : exec handle (allocateBody ext2 filename type_ inode block names) s =
      Ext2.allocateBody filename type_ inode s.fs.ext2 block names () >>= fun r => .ok (r.2, s.setExt2 r.1) := by
  rw [allocateBody, Ext2.allocateBody, allocateWalk_congr h.blockSize, h.blockSize]
  exact exec_bind_of (exec_lift _) fun walked _ => by cases walked <;> rfl

theorem exec_forBlocks {ρ : Type} {body : UInt32 → Buf → Thread (ρ ⊕ Unit)}
    {body' : Ext2 → UInt32 → Buf → Unit → Except Fault (Ext2 × (ρ ⊕ Unit))} (h : InMemory ext2 s)
    (hbody : ∀ block names, exec handle (body block names) s =
      body' s.fs.ext2 block names () >>= fun r => .ok (r.2, s.setExt2 r.1))
    (hkeep : ∀ block names ext2', body' s.fs.ext2 block names () = .ok (ext2', .inr ()) → ext2' = s.fs.ext2)
    (ino : Ext2Inode) (k : Nat) (scan : Scan) : exec handle (forBlocks ext2 ino body k scan) s =
      Ext2.forBlocks ino body' k s.fs.ext2 scan () >>= fun r => .ok (r.2.map id Prod.fst, s.setExt2 r.1) := by
  induction k generalizing scan with
  | zero => rfl
  | succ k ih =>
    rw [forBlocks, Ext2.forBlocks]
    refine exec_bind_of (exec_ext2BlockFetch h ..) fun fetched _ => ?_
    obtain ⟨block, control⟩ := fetched
    dsimp only
    split_ifs with hzero
    · rfl
    rw [exec_bind, exec_getDiskBytes, ok_bind]
    refine exec_bind_of (hbody ..) fun ran hrun => ?_
    obtain ⟨ext2', r⟩ := ran
    cases r with
    | inl r => rfl
    | inr t =>
      obtain rfl := hkeep block _ ext2' hrun
      exact ih _

theorem traverseBody_keeps {ext2 : Ext2} {names : Buf} {r : UInt32 ⊕ Unit}
    (h : Ext2.traverseBody search ext2 block names () = .ok (ext2', r)) : ext2' = ext2 := by
  obtain ⟨found, -, h⟩ := bind_eq_ok.1 h
  cases found with
  | none | some => exact (Prod.mk.inj (ok.inj h)).1.symm

theorem allocateBody_keeps {filename : Bytes} {type_ : UInt8} {inode : UInt32} {ext2 : Ext2} {names : Buf}
    (h : Ext2.allocateBody filename type_ inode ext2 block names () = .ok (ext2', .inr ())) : ext2' = ext2 := by
  obtain ⟨walked, -, h⟩ := bind_eq_ok.1 h
  cases walked with
  | taken | placed => exact absurd (Prod.mk.inj (ok.inj h)).2 (by simp)
  | full => exact (Prod.mk.inj (ok.inj h)).1.symm

theorem forBlocks_traverse_keeps {ext2 : Ext2} {ino : Ext2Inode} {k : Nat} {scan : Scan} {r : UInt32 ⊕ Scan × Unit}
    (h : Ext2.forBlocks ino (Ext2.traverseBody search) k ext2 scan () = .ok (ext2', r)) : ext2' = ext2 := by
  induction k generalizing scan with
  | zero => exact (Prod.mk.inj (ok.inj h)).1.symm
  | succ k ih =>
    obtain ⟨⟨block, control⟩, -, h⟩ := bind_eq_ok.1 h
    simp only at h
    split_ifs at h with hzero
    · exact (Prod.mk.inj (ok.inj h)).1.symm
    · obtain ⟨⟨ext2₁, t⟩, hbody, h⟩ := bind_eq_ok.1 h
      obtain rfl := traverseBody_keeps hbody
      cases t with
      | inl inode => exact (Prod.mk.inj (ok.inj h)).1.symm
      | inr t => exact ih h

section
variable (h : InMemory ext2 s)
include h

theorem InMemory.startScan_eq : startScan ext2 = startScan s.fs.ext2 := by
  rw [startScan, startScan, ext2BlockFetchInit, ext2BlockFetchInit, h.heap]

theorem exec_ext2Traverse (initInode : UInt32) (search : Bytes) :
    exec handle (ext2Traverse ext2 initInode search) s =
      Ext2.ext2Traverse s.fs.ext2 initInode search >>= fun r => .ok (r, s) := by
  have hcount : blockCount ext2 (s.fs.ext2.inodes initInode) = blockCount s.fs.ext2 (s.fs.ext2.inodes initInode) := by
    rw [blockCount, blockCount, h.blockSize]
  rw [ext2Traverse, Ext2.ext2Traverse, exec_bind, exec_ext2InodeFetch, ok_bind, hcount, h.startScan_eq]
  refine exec_bind_of (exec_lift _) fun blocks _ => ?_
  refine exec_bind_of (exec_forBlocks h (exec_traverseBody h search) (fun _ _ _ hrun => traverseBody_keeps hrun) ..)
    fun ran hloop => ?_
  obtain ⟨ext2', r⟩ := ran
  obtain rfl := forBlocks_traverse_keeps hloop
  cases r with
  | inl | inr => rfl

section
variable (inode : Ext2Inode) (path : Bytes)

theorem exec_symlinkTarget (lastslash length : Nat) : exec handle (symlinkTarget ext2 inode path lastslash length) s =
      Ext2.symlinkTarget s.fs.ext2 inode path lastslash length >>= fun r => .ok (r, s) := by
  rw [symlinkTarget]
  split_ifs with hlong
  · rw [exec_bind, exec_getDiskBytes, ok_bind, exec_lift]
    simp only [Ext2.symlinkTarget, hlong, if_true, true_and, h.blockSize]
  · rw [exec_lift]
    simp only [Ext2.symlinkTarget, hlong, if_false, false_and]

theorem exec_traversePathLoop (follow : Bool) (k i : Nat) (curr : UInt32) (lastslash : Nat) :
    exec handle (traversePathLoop ext2 path follow k i curr lastslash) s =
      Ext2.traversePathLoop s.fs.ext2 path follow k i curr lastslash >>= fun r => .ok (r, s) := by
  induction k generalizing i curr lastslash with
  | zero => rfl
  | succ k ih =>
    rw [traversePathLoop, Ext2.traversePathLoop]
    by_cases hend : path.getD i 0 = slash ∨ i = path.length - 1
    · simp only [if_pos hend]
      generalize (if i = path.length - 1 then i - lastslash - 1 + 1 else i - lastslash - 1) = length
      refine exec_bind_of (exec_ext2Traverse h ..) fun c _ => ?_
      by_cases hzero : c = 0
      · simp only [if_pos hzero]
        rfl
      simp only [if_neg hzero]
      rw [exec_bind, exec_ext2InodeFetch, ok_bind]
      split_ifs
      · exact exec_bind_of (exec_symlinkTarget h ..) fun _ _ => rfl
      · rfl
      · rfl
      · exact ih ..
    · simp only [if_neg hend]
      exact ih ..

theorem exec_ext2TraversePath (initInode : UInt32) (follow : Bool) :
    exec handle (ext2TraversePath ext2 path initInode follow) s =
      Ext2.ext2TraversePath s.fs.ext2 path initInode follow >>= fun r => .ok (r, s) := by
  rw [ext2TraversePath, Ext2.ext2TraversePath]
  split_ifs
  · rfl
  · exact exec_traversePathLoop h ..

theorem exec_parentOf :
    exec handle (parentOf ext2 path) s = Ext2.parentOf s.fs.ext2 path >>= fun r => .ok (r, s) := by
  rw [parentOf, Ext2.parentOf]
  cases lastSlash path with
  | none => rfl
  | some l =>
    cases l with
    | zero => rfl
    | succ l => exact exec_ext2TraversePath h ..

end

section
variable (inodeNum : UInt32) (ino : Ext2Inode) (scan : Scan) (filename : Bytes) (type_ : UInt8) (inode : UInt32)

theorem exec_appendBlock : exec handle (appendBlock ext2 inodeNum ino scan filename type_ inode) s =
      Ext2.appendBlock s.fs.ext2 inodeNum ino scan filename type_ inode >>= fun r => .ok (r.2, s.setExt2 r.1) := by
  rw [appendBlock, Ext2.appendBlock]
  refine exec_bind_of exec_ext2BlockFind fun found hfind => ?_
  obtain ⟨block, ext2₁⟩ := found
  have hexec : exec handle ext2BlockFind s = .ok (block, s.setExt2 ext2₁) := by
    rw [exec_ext2BlockFind, hfind, ok_bind]
  have h₁ := h.exec hexec
  have hsize : ext2₁.blockSize = ext2.blockSize := h₁.blockSize
  have hput : dirPut ext2₁ scan.names 0 ⟨inode, ext2₁.blockSize, type_, filename⟩ =
      dirPut ext2 scan.names 0 ⟨inode, ext2.blockSize, type_, filename⟩ := by
    rw [dirPut, dirPut, hsize]
  dsimp only
  rw [hput]
  refine exec_bind_of (exec_lift _) fun names _ => ?_
  have h₂ : InMemory ext2 (s.setExt2 (Ext2.setDiskBytes ext2₁ block names)) := ⟨hsize, h₁.heap⟩
  have hassign := exec_ext2BlockAssign h₂ ino inodeNum scan.control scan.blockNum block
  rw [exec_bind, exec_setDiskBytes, ok_bind]
  refine exec_bind_of hassign fun r hok => ?_
  rw [setExt2_ext2, hok] at hassign
  have hsize' : r.1.blockSize = ext2.blockSize := (h₂.exec hassign).blockSize
  simp only [exec_bind, ok_bind, exec_ext2InodeModifyM, setExt2_ext2, ← hsize']
  rfl

theorem exec_allocateLocked : exec handle (allocateLocked ext2 inodeNum ino filename type_ inode) s =
      Ext2.ext2DirAllocate s.fs.ext2 inodeNum ino filename type_ inode >>= fun r =>
        .ok ((r.1, r.2.2), s.setExt2 r.2.1) := by
  have hcount : blockCount ext2 ino = blockCount s.fs.ext2 ino := by
    rw [blockCount, blockCount, h.blockSize]
  rw [allocateLocked, Ext2.ext2DirAllocate, hcount, h.startScan_eq]
  refine exec_bind_of (exec_lift _) fun blocks _ => ?_
  have hloop := exec_forBlocks h (exec_allocateBody h filename type_ inode)
    (fun _ _ _ hrun => allocateBody_keeps hrun) ino blocks (startScan s.fs.ext2)
  refine exec_bind_of hloop fun ran hok => ?_
  obtain ⟨ext2', r⟩ := ran
  rw [hok] at hloop
  cases r with
  | inl ret => rfl
  | inr r => exact exec_bind_of (exec_appendBlock (h.exec hloop) ..) fun _ _ => rfl

end

theorem exec_ext2DirAllocate (hfree : s.lockDiralloc = false) (inodeNum : UInt32) (ino : Ext2Inode)
    (filename : Bytes) (type_ : UInt8) (inode : UInt32) :
    exec handle (ext2DirAllocate ext2 inodeNum ino filename type_ inode) s =
      Ext2.ext2DirAllocate s.fs.ext2 inodeNum ino filename type_ inode >>= fun r =>
        .ok ((r.1, r.2.2), s.setExt2 r.2.1) := by
  obtain ⟨fs, lock⟩ := s
  obtain rfl : lock = false := hfree
  have hlocked : InMemory ext2 ⟨fs, true⟩ := ⟨h.blockSize, h.heap⟩
  have hacquire : exec handle spinlockAcquire ⟨fs, false⟩ = .ok ((), ⟨fs, true⟩) := rfl
  rw [ext2DirAllocate, exec_bind, hacquire, ok_bind, exec_bind, exec_allocateLocked hlocked]
  cases Ext2.ext2DirAllocate fs.ext2 inodeNum ino filename type_ inode <;> rfl

end

theorem exec_createFile {fs : FileSystem} (h : InMemory ext2 ⟨fs, false⟩) (inode : UInt32) (inodeContents : Ext2Inode)
    (name : Bytes) (mode : UInt32) : exec handle (createFile ext2 inode inodeContents name mode) ⟨fs, false⟩ =
      Ext2.ext2InodeFind fs.groups inode.toNat >>= fun r =>
        Ext2.ext2DirAllocate (Ext2.ext2InodeModifyM fs.ext2 r.1 (newInode (sIfreg ||| mode))) inode inodeContents
          (shortName name) 1 r.1 >>= fun r' => .ok (.ok ⟨inode, r.1⟩, ⟨⟨r'.2.1, r.2⟩, false⟩) := by
  rw [createFile, exec_bind, exec_ext2InodeFind]
  cases Ext2.ext2InodeFind fs.groups inode.toNat with
  | error fault => rfl
  | ok r =>
    have h' : InMemory ext2 ⟨⟨Ext2.ext2InodeModifyM fs.ext2 r.1 (newInode (sIfreg ||| mode)), r.2⟩, false⟩ :=
      ⟨h.blockSize, h.heap⟩
    simp only [ok_bind]
    rw [exec_bind, exec_ext2InodeModifyM, ok_bind, exec_bind]
    exact (congrArg (· >>= _) (exec_ext2DirAllocate h' rfl ..)).trans (bind_assoc ..)

/-- **Alone, the program is the function.** -/
theorem exec_ext2Touch (fs : FileSystem) (filename : Bytes) (mode : UInt32) :
    exec handle (ext2Touch fs.ext2 filename mode) ⟨fs, false⟩ =
      Ext2.ext2Touch fs filename mode >>= fun r => .ok (r.1, ⟨r.2, false⟩) := by
  have h : InMemory fs.ext2 ⟨fs, false⟩ := ⟨rfl, rfl⟩
  rw [ext2Touch, Ext2.ext2Touch, createTarget, exec_bind, exec_parentOf h]
  cases Ext2.parentOf fs.ext2 filename with
  | error fault => rfl
  | ok parent =>
    simp only [ok_bind]
    split_ifs with hzero hname hdir
    · rfl
    · rfl
    · rw [createIn, exec_bind, exec_ext2InodeFetch, ok_bind, if_pos hdir]
      rfl
    rw [createIn, exec_bind, exec_ext2InodeFetch, ok_bind, if_neg hdir, exec_bind, exec_ext2Traverse h]
    cases Ext2.ext2Traverse fs.ext2 parent.inode (nameOf filename) with
    | error fault => rfl
    | ok found =>
      simp only [ok_bind]
      split_ifs with hfound
      · rfl
      rw [exec_createFile h]
      simp only [pure_bind, bind_assoc]

end Exec

end CoreX.Ext2.Steps

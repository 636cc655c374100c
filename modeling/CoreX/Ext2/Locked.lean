import CoreX.Ext2.Stale
import CoreX.Ext2.Steps

/-!
# `ext2DirAllocate` while it holds the lock

With the lock held a call does the same whatever happens meanwhile to other inodes and to the bitmaps of the inodes:
`view` forgets these, and commutes with every command of the call (`handle_view`). While the call runs, the inode of
the directory is one of those of `Snapshot` (`through_allocateLocked`).
-/

namespace CoreX.Ext2.Steps

open CoreX.Resumption Except Prod Function
open CoreX.Resumption.Prog (lift)

variable {ext2 : Ext2} {d : UInt32} {C : Cmd → Prop}

section Uses
variable (hget : ∀ block, C (.getDiskBytes block))
include hget

section
variable (control : Ext2LookupControl) (block : UInt32)

theorem uses_fetchTmp1 : (fetchTmp1 control block).Uses C := by
  rw [fetchTmp1]
  split_ifs
  · exact ⟨hget block, fun _ => trivial⟩
  · trivial

theorem uses_fetchTmp2 : (fetchTmp2 control block).Uses C := by
  rw [fetchTmp2]
  split_ifs
  · exact ⟨hget block, fun _ => trivial⟩
  · trivial

end

theorem uses_ext2BlockFetch (ino : Ext2Inode) (control : Ext2LookupControl) (curr : Nat) :
    (ext2BlockFetch ext2 ino control curr).Uses C := by
  simp only [ext2BlockFetch]
  split_ifs
  · trivial
  · trivial
  · refine (uses_fetchTmp1 hget ..).bind fun control => (Prog.uses_lift ..).bind fun result => trivial
  · trivial
  · refine (uses_fetchTmp1 hget ..).bind fun control => (Prog.uses_lift ..).bind fun blk => ?_
    split_ifs
    · trivial
    · exact (uses_fetchTmp2 hget ..).bind fun control => (Prog.uses_lift ..).bind fun result => trivial
  · trivial

theorem uses_forBlocks {ρ : Type} {body : UInt32 → Buf → Thread (ρ ⊕ Unit)}
    (hbody : ∀ block names, (body block names).Uses C) (ino : Ext2Inode) (k : Nat) (scan : Scan) :
    (forBlocks ext2 ino body k scan).Uses C := by
  induction k generalizing scan with
  | zero => trivial
  | succ k ih =>
    refine (uses_ext2BlockFetch hget ..).bind fun fetched => ?_
    by_cases hzero : fetched.1 = 0
    · simp only [if_pos hzero]
      trivial
    · simp only [if_neg hzero]
      refine ⟨hget _, fun names => (hbody _ names).bind fun r => ?_⟩
      cases r with
      | inl r => trivial
      | inr t => exact ih _

section
variable (hfetch : ∀ inode, C (.ext2InodeFetch inode))
include hfetch

theorem uses_ext2Traverse (initInode : UInt32) (search : Bytes) :
    (ext2Traverse ext2 initInode search).Uses C := by
  refine ⟨hfetch initInode, fun ino => (Prog.uses_lift ..).bind fun blocks => ?_⟩
  refine (uses_forBlocks hget (fun block names => ?_) ..).bind fun r => ?_
  · refine (Prog.uses_lift ..).bind fun found => ?_
    cases found <;> trivial
  · cases r <;> trivial

theorem uses_traversePathLoop (path : Bytes) (follow : Bool) (k i : Nat) (curr : UInt32) (lastslash : Nat) :
    (traversePathLoop ext2 path follow k i curr lastslash).Uses C := by
  induction k generalizing i curr lastslash with
  | zero => trivial
  | succ k ih =>
    rw [traversePathLoop]
    by_cases hend : path.getD i 0 = slash ∨ i = path.length - 1
    · simp only [if_pos hend]
      refine (uses_ext2Traverse hget hfetch ..).bind fun c => ?_
      by_cases hzero : c = 0
      · simp only [if_pos hzero]
        trivial
      simp only [if_neg hzero]
      have huses : (ext2InodeFetch c).Uses C := Prog.uses_cmd (hfetch c)
      refine huses.bind fun inode => ?_
      generalize (if i = path.length - 1 then i - lastslash - 1 + 1 else i - lastslash - 1) = length
      split_ifs
      · refine Prog.Uses.bind ?_ fun target => trivial
        rw [symlinkTarget]
        split_ifs
        · exact ⟨hget _, fun start => Prog.uses_lift ..⟩
        · exact Prog.uses_lift ..
      · trivial
      · trivial
      · exact ih ..
    · simp only [if_neg hend]
      exact ih ..

theorem uses_parentOf (path : Bytes) : (parentOf ext2 path).Uses C := by
  rw [parentOf]
  cases lastSlash path with
  | none => trivial
  | some l =>
    cases l with
    | zero => trivial
    | succ l =>
      simp only [ext2TraversePath]
      split_ifs
      · trivial
      · exact uses_traversePathLoop hget hfetch ..

end

section Locked
variable (hset : ∀ block buf, C (.setDiskBytes block buf)) (hfind : C .ext2BlockFind)
  (hmodify : ∀ target, C (.ext2InodeModifyM d target))
include hset

omit hget in
theorem uses_allocateBody (filename : Bytes) (type_ : UInt8) (inode block : UInt32) (names : Buf) :
    (allocateBody ext2 filename type_ inode block names).Uses C := by
  refine (Prog.uses_lift ..).bind fun walked => ?_
  cases walked with
  | taken => trivial
  | placed names => exact ⟨hset block names, fun _ => trivial⟩
  | full => trivial

include hfind hmodify

theorem uses_ext2BlockAssign (ino : Ext2Inode) (control : Ext2LookupControl) (curr : Nat) (val : UInt32) :
    (ext2BlockAssign ext2 ino d control curr val).Uses C := by
  rw [ext2BlockAssign]
  split_ifs
  · exact ⟨hmodify _, fun _ => trivial⟩
  · refine Prog.Uses.bind ?_ fun r => (uses_fetchTmp1 hget ..).bind fun control => ⟨hset _ _, fun _ => trivial⟩
    rw [singlyBlock]
    split_ifs
    · exact ⟨hfind, fun block => ⟨hmodify _, fun _ => trivial⟩⟩
    · trivial
  · trivial

section
variable (ino : Ext2Inode) (scan : Scan) (filename : Bytes) (type_ : UInt8) (inode : UInt32)

theorem uses_appendBlock : (appendBlock ext2 d ino scan filename type_ inode).Uses C := by
  refine Prog.Uses.bind (Prog.uses_cmd hfind : ext2BlockFind.Uses C) fun block => ?_
  refine (Prog.uses_lift ..).bind fun names => ?_
  refine Prog.Uses.bind (Prog.uses_cmd (hset block names) : (setDiskBytes block names).Uses C) fun _ => ?_
  exact (uses_ext2BlockAssign hget hset hfind hmodify ..).bind fun r => ⟨hmodify _, fun _ => trivial⟩

theorem uses_allocateLocked : (allocateLocked ext2 d ino filename type_ inode).Uses C := by
  refine (Prog.uses_lift ..).bind fun blocks => ?_
  refine (uses_forBlocks hget (uses_allocateBody hset filename type_ inode) ..).bind fun r => ?_
  cases r with
  | inl ret => trivial
  | inr scan => exact (uses_appendBlock hget hset hfind hmodify ..).bind fun ino => trivial

end

end Locked

end Uses

/-! ## What the call does not see -/

def Cmd.Within (d : UInt32) : Cmd → Prop
  | .getDiskBytes _ => True
  | .setDiskBytes _ _ => True
  | .ext2BlockFind => True
  | .ext2InodeModifyM inode _ => inode = d
  | _ => False

theorem within_allocateLocked (ino : Ext2Inode) (filename : Bytes) (type_ : UInt8) (inode : UInt32) :
    (allocateLocked ext2 d ino filename type_ inode).Uses (Cmd.Within d) :=
  uses_allocateLocked (fun _ => trivial) (fun _ _ => trivial) trivial (fun _ => rfl) ..

def dirView (d : UInt32) (ext2 : Ext2) : Ext2 :=
  { ext2 with inodes := fun i => if i = d then ext2.inodes d else newInode 0 }

def view (d : UInt32) (groups : Ext2Groups) (s : Shared) : Shared := ⟨⟨dirView d s.fs.ext2, groups⟩, true⟩

theorem dirView_inodes (d : UInt32) (ext2 : Ext2) : (dirView d ext2).inodes d = ext2.inodes d := if_pos rfl

theorem dirView_modify (d : UInt32) (ext2 : Ext2) (target : Ext2Inode) :
    dirView d (Ext2.ext2InodeModifyM ext2 d target) = Ext2.ext2InodeModifyM (dirView d ext2) d target := by
  have hinodes : (fun i => if i = d then (Ext2.ext2InodeModifyM ext2 d target).inodes d else newInode 0) =
      update (fun i => if i = d then ext2.inodes d else newInode 0) d target := by
    funext i
    by_cases hi : i = d
    · subst hi
      rw [if_pos rfl, inodes_modify_self, update_self]
    · rw [if_neg hi, update_of_ne hi, if_neg hi]
  rw [dirView, hinodes]
  rfl

theorem handle_view (groups : Ext2Groups) (c : Cmd) (hc : c.Within d) (s : Shared) :
    handle (view d groups s) c = handle s c >>= fun r => .ok (r.1, view d groups r.2) := by
  cases c with
  | getDiskBytes | setDiskBytes => rfl
  | ext2InodeFetch inode => exact absurd hc id
  | ext2InodeModifyM inode target =>
    obtain rfl : inode = d := hc
    have hmodify := dirView_modify inode s.fs.ext2 target
    refine congrArg (fun ext2 => ok ((), (⟨⟨ext2, groups⟩, true⟩ : Shared))) hmodify.symm
  | ext2BlockFind =>
    have hfound : (dirView d s.fs.ext2).found = s.fs.ext2.found := rfl
    simp only [handle, view, Ext2.ext2BlockFind, hfound]
    cases s.fs.ext2.found <;> rfl
  | ext2InodeFind | spinlockAcquire | spinlockRelease => exact absurd hc id

/-! ## The inode meanwhile -/

theorem forBlocks_allocateBody_inr {ext2' : Ext2} {ino : Ext2Inode} {filename : Bytes} {type_ : UInt8}
    {inode : UInt32} {scan : Scan} (hdir : IsDirectory ext2 ino)
    (h : Ext2.forBlocks ino (Ext2.allocateBody filename type_ inode) (dirCount ext2 ino) ext2 (startScan ext2) () =
      .ok (ext2', .inr (scan, ()))) :
    ext2' = ext2 ∧ ¬ HasRoomFor ext2 ino filename ∧ scan.blockNum = (dirBlocks ext2 ino).length := by
  have hserves := ext2BlockFetchInit_serves ext2 ino
  have hloop := forBlocks_spec (changesBlock_allocateBody filename type_ inode) (dirCount ext2 ino) ext2
    (startScan ext2) () hdir.distinct hserves.1 hserves.2
  obtain ⟨r, hfold, hscan⟩ := foldBlocks_allocateBody hdir.wellFormed filename type_ inode
  rw [Loops, show (startScan ext2).blockNum = 0 from rfl, dirCount, ← dirBlocks, hfold, ← dirCount] at hloop
  cases hscan with
  | full hnone =>
    rcases hloop with ⟨scan', hrun, hnum, -⟩ | ⟨-, fault, -, hrun⟩
    · rw [h] at hrun
      obtain ⟨rfl, hscan⟩ := Prod.mk.inj (ok.inj hrun)
      obtain ⟨rfl, -⟩ := Prod.mk.inj (Sum.inr.inj hscan)
      refine ⟨rfl, ?_, by omega⟩
      rintro ⟨e, he, hroom⟩
      exact hnone e he (.inr hroom)
    · rw [h] at hrun
      exact absurd hrun (by simp)
  | taken | placed =>
    rw [h] at hloop
    exact absurd (Prod.mk.inj (ok.inj hloop)).2 (by simp)

def Cmd.IsTransfer : Cmd → Prop
  | .getDiskBytes _ => True
  | .setDiskBytes _ _ => True
  | _ => False

theorem inodes_of_isTransfer {c : Cmd} (hc : c.IsTransfer) {s s' : Shared} {x : Ans c}
    (h : handle s c = .ok (x, s')) : s'.fs.ext2.inodes = s.fs.ext2.inodes := by
  cases c with
  | getDiskBytes block => rw [← (Prod.mk.inj (ok.inj h)).2]
  | setDiskBytes block buf =>
    rw [← (Prod.mk.inj (ok.inj h)).2]
    rfl
  | ext2InodeFetch | ext2InodeModifyM | ext2BlockFind | ext2InodeFind | spinlockAcquire | spinlockRelease =>
    exact absurd hc id

theorem handle_ext2BlockFind {s s' : Shared} {block : UInt32} (h : handle s .ext2BlockFind = .ok (block, s')) :
    ∃ rest, s.fs.ext2.found = block :: rest ∧ s' = s.setExt2 { s.fs.ext2 with found := rest } := by
  obtain ⟨r, hfind, hr⟩ := bind_eq_ok.1 h
  obtain ⟨rfl, rfl⟩ := Prod.mk.inj (ok.inj hr)
  rw [Ext2.ext2BlockFind] at hfind
  cases hfound : s.fs.ext2.found with
  | nil => simp [hfound] at hfind
  | cons block rest =>
    rw [hfound] at hfind
    obtain rfl := ok.inj hfind
    exact ⟨rest, rfl, rfl⟩

section Through
variable {s : Shared} (ino : Ext2Inode) (filename : Bytes) (type_ : UInt8) (inode : UInt32)

theorem through_appendBlock {J : Shared → Prop} {scan : Scan} (hmem : InMemory ext2 s)
    (hnum : scan.blockNum = dirCount s.fs.ext2 ino) (hcount : dirCount s.fs.ext2 ino < 12)
    (hJ : ∀ s', s'.fs.ext2.inodes d = s.fs.ext2.inodes d → J s')
    (hJ' : ∀ s' block rest, s.fs.ext2.found = block :: rest →
      (s'.fs.ext2.inodes d = ino.setBlock (dirCount s.fs.ext2 ino) block ∨
        s'.fs.ext2.inodes d = appendInode s.fs.ext2 ino block) → J s') :
    Through handle J (appendBlock ext2 d ino scan filename type_ inode) s := by
  refine ⟨hJ s rfl, fun (block : UInt32) s₁ hfind => ?_⟩
  obtain ⟨rest, hfound, rfl⟩ := handle_ext2BlockFind hfind
  show Through handle J (lift (dirPut ext2 scan.names 0 ⟨inode, ext2.blockSize, type_, filename⟩) >>= _) _
  refine (through_lift _ (hJ (s.setExt2 { s.fs.ext2 with found := rest }) rfl)).bind fun names s₂ hput => ?_
  rw [exec_lift] at hput
  obtain ⟨names', -, hput⟩ := bind_eq_ok.1 hput
  obtain ⟨rfl, rfl⟩ := Prod.mk.inj (ok.inj hput)
  refine ⟨hJ _ rfl, fun _ s₃ hset => ?_⟩
  obtain ⟨-, rfl⟩ := Prod.mk.inj (ok.inj hset)
  show Through handle J (ext2BlockAssign ext2 ino d scan.control scan.blockNum block >>= _) _
  rw [ext2BlockAssign, hnum, if_pos hcount]
  refine ⟨hJ _ rfl, fun _ s₄ hassign => ?_⟩
  obtain ⟨-, rfl⟩ := Prod.mk.inj (ok.inj hassign)
  refine ⟨hJ' _ block rest hfound (.inl (inodes_modify_self ..)), fun _ s₅ hmodify => ?_⟩
  obtain ⟨-, rfl⟩ := Prod.mk.inj (ok.inj hmodify)
  refine hJ' _ block rest hfound (.inr ?_)
  rw [setExt2_ext2, inodes_modify_self, appendInode, hmem.blockSize]
  rfl

theorem through_allocateLocked (hmem : InMemory ext2 s) (hsound : Sound s.fs.ext2 (s.fs.ext2.inodes d))
    (hcount : dirCount s.fs.ext2 (s.fs.ext2.inodes d) < 12) :
    Through handle (fun s' => Snapshot s.fs.ext2 (s.fs.ext2.inodes d) filename (s'.fs.ext2.inodes d))
      (allocateLocked ext2 d (s.fs.ext2.inodes d) filename type_ inode) s := by
  set J : Shared → Prop := fun s' => Snapshot s.fs.ext2 (s.fs.ext2.inodes d) filename (s'.fs.ext2.inodes d)
  have hsame : ∀ s' : Shared, s'.fs.ext2.inodes d = s.fs.ext2.inodes d → J s' := fun _ h => .inl h
  have hblocks : blockCount ext2 (s.fs.ext2.inodes d) = .ok (dirCount s.fs.ext2 (s.fs.ext2.inodes d)) := by
    rw [dirCount, ← blockCount_eq hsound.directory.pos, blockCount, blockCount, hmem.blockSize]
  rw [allocateLocked, hblocks, Prog.lift_ok, Prog.ret_bind, hmem.startScan_eq]
  have hloop : Through handle J (forBlocks ext2 (s.fs.ext2.inodes d) (allocateBody ext2 filename type_ inode)
      (dirCount s.fs.ext2 (s.fs.ext2.inodes d)) (startScan s.fs.ext2)) s := by
    refine through_of_uses (C := Cmd.IsTransfer) (fun c hc s₁ x s₂ h₁ hhandle => ?_) ?_ (hsame s rfl)
    · show Snapshot _ _ _ _
      rw [inodes_of_isTransfer hc hhandle]
      exact h₁
    · exact uses_forBlocks (fun _ => trivial) (uses_allocateBody (fun _ _ => trivial) filename type_ inode) ..
  refine hloop.bind fun r s' hr => ?_
  have hJ' := hloop.finish hr
  cases r with
  | inl ret => exact hJ'
  | inr scan =>
    have hexec := exec_forBlocks hmem (exec_allocateBody hmem filename type_ inode)
      (fun _ _ _ hrun => allocateBody_keeps hrun) (s.fs.ext2.inodes d)
      (dirCount s.fs.ext2 (s.fs.ext2.inodes d)) (startScan s.fs.ext2)
    rw [hexec] at hr
    obtain ⟨⟨ext2', r⟩, hrun, hr⟩ := bind_eq_ok.1 hr
    obtain rfl := (Prod.mk.inj (ok.inj hr)).2
    cases r with
    | inl ret => exact absurd hr (by simp)
    | inr r =>
      obtain ⟨scan', t⟩ := r
      obtain rfl : scan' = scan := Sum.inr.inj (Prod.mk.inj (ok.inj hr)).1
      obtain ⟨rfl, hfull, hnum⟩ := forBlocks_allocateBody_inr hsound.directory hrun
      rw [hsound.length_dirBlocks] at hnum
      have happend : Through handle J (appendBlock ext2 d (s.fs.ext2.inodes d) scan' filename type_ inode) s :=
        through_appendBlock _ _ _ _ hmem hnum hcount hsame fun s' block rest hfound hinode =>
          .inr ⟨hfull, block, rest, hfound, hinode⟩
      exact happend.bind fun ino s' h => happend.finish h

end Through

end CoreX.Ext2.Steps

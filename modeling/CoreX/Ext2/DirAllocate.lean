import CoreX.Base.Assoc
import CoreX.Ext2.Append

/-!
# `ext2DirAllocate`

What a call does, from the walk over the blocks and the new block behind them (`ext2DirAllocate_result`). A
call with a name that is not live adds the entry, and nothing else (`ext2DirAllocate_new`).
-/

namespace CoreX.Ext2

open List Word

variable {ext2 ext2' : Ext2} {ino ino' : Ext2Inode} {filename : Bytes} {type_ : UInt8}
  {inode inodeNum : UInt32} {block : UInt32} {entry : Ext2Directory}

inductive AllocateResult (ext2 : Ext2) (inodeNum : UInt32) (ino : Ext2Inode) (filename : Bytes)
    (type_ : UInt8) (inode : UInt32) : Except Fault (Bool × Ext2 × Ext2Inode) → Prop where
  | taken {before e after} : FirstStop filename (entriesOf ext2 (dirBlocks ext2 ino)) before e after →
      e.Is filename → AllocateResult ext2 inodeNum ino filename type_ inode (.ok (false, ext2, ino))
  | placed {block back before e after mid} (front) : dirBlocks ext2 ino = front ++ block :: back →
      FirstStop filename (entriesOf ext2 (dirBlocks ext2 ino)) (entriesOf ext2 front ++ before) e
        (after ++ entriesOf ext2 back) →
      ¬ e.Is filename → Chain (ext2.disk block) 0 before mid →
      Chain (ext2.disk block) mid (e :: after) ext2.blockSize →
      AllocateResult ext2 inodeNum ino filename type_ inode
        (.ok (true, setDiskBytes ext2 block (splitNames (ext2.disk block) mid e filename type_ inode), ino))
  | appended {scan ext2' ino'} : (∀ x ∈ entriesOf ext2 (dirBlocks ext2 ino), ¬ Stops filename x) →
      scan.blockNum = (dirBlocks ext2 ino).length → Serves ext2 ino scan.control → Holds ext2 ino scan.control →
      appendBlock ext2 inodeNum ino scan filename type_ inode = .ok (ext2', ino') →
      AllocateResult ext2 inodeNum ino filename type_ inode (.ok (true, ext2', ino'))
  | fault {fault} : (∀ x ∈ entriesOf ext2 (dirBlocks ext2 ino), ¬ Stops filename x) → fault ≠ .overflow →
      (ext2.capacity < Word.divRoundUp ino.size.toNat ext2.blockSize ∨
        ∃ scan, scan.blockNum = (dirBlocks ext2 ino).length ∧
          appendBlock ext2 inodeNum ino scan filename type_ inode = .error fault) →
      AllocateResult ext2 inodeNum ino filename type_ inode (.error fault)

theorem appendBlock_ne_overflow (scan : Scan) :
    appendBlock ext2 inodeNum ino scan filename type_ inode ≠ .error .overflow := by
  intro h
  rcases bind_eq_error.1 h with hfind | ⟨⟨block, ext2₁⟩, -, h₁⟩
  · rw [ext2BlockFind] at hfind
    cases hrest : ext2.found <;> simp [hrest] at hfind
  rcases bind_eq_error.1 h₁ with hput | ⟨names, -, h₂⟩
  · rw [dirPut] at hput
    split_ifs at hput
    exact absurd hput (by simp)
  rcases bind_eq_error.1 h₂ with hassign | ⟨r, -, h₃⟩
  · cases ext2BlockAssign_result hassign
  · exact absurd h₃ (by simp [pure, Except.pure])

theorem ext2DirAllocate_result (hpos : 0 < ext2.blockSize) (hdist : Distinct ext2 ino)
    (hwellFormed : BlocksWellFormed ext2 (dirBlocks ext2 ino)) {r : Except Fault (Bool × Ext2 × Ext2Inode)}
    (h : ext2DirAllocate ext2 inodeNum ino filename type_ inode = r) :
    AllocateResult ext2 inodeNum ino filename type_ inode r := by
  subst h
  have hserves := ext2BlockFetchInit_serves ext2 ino
  have hloop := forBlocks_spec (changesBlock_allocateBody filename type_ inode)
    (divRoundUp ino.size.toNat ext2.blockSize) ext2 (startScan ext2) () hdist hserves.1 hserves.2
  obtain ⟨r, hfold, hscan⟩ := foldBlocks_allocateBody hwellFormed filename type_ inode
  rw [Loops, show (startScan ext2).blockNum = 0 from rfl, ← dirBlocks, hfold] at hloop
  rw [ext2DirAllocate, blockCount_eq hpos, ok_bind]
  cases hscan with
  | full hnone =>
    rcases hloop with ⟨scan', hrun, hnum, hserves', hholds'⟩ | ⟨hcap, fault, hfault, hrun⟩
    · rw [hrun, ok_bind]
      simp only
      cases happend : appendBlock ext2 inodeNum ino scan' filename type_ inode with
      | error fault =>
        refine .fault hnone ?_ (.inr ⟨scan', by omega, happend⟩)
        rintro rfl
        exact appendBlock_ne_overflow scan' happend
      | ok r => exact .appended hnone (by omega) hserves' hholds' happend
    · rw [hrun]
      exact .fault hnone hfault (.inl (by omega))
  | taken hfirst hmatch =>
    rw [hloop]
    exact .taken hfirst hmatch
  | placed front hsplit hfirst hmatch hchain hchain' =>
    rw [hloop]
    exact .placed front hsplit hfirst hmatch hchain hchain'

/-! ## The directory afterwards -/

theorem dirBlocks_setDiskBytes (h : HoldsNoPointers ext2 ino block) (buf : Buf) :
    dirBlocks (setDiskBytes ext2 block buf) ino = dirBlocks ext2 ino :=
  dirBlocks_congr rfl (blockAt_setDiskBytes h buf)

theorem holdsNoPointers_of_mem (hdist : Distinct ext2 ino) (h : block ∈ dirBlocks ext2 ino) :
    HoldsNoPointers ext2 ino block := by
  obtain ⟨i, -, -, rfl, hne⟩ := mem_blocksFrom h
  exact hdist.holdsNoPointers hne

theorem IsDirectory.setDiskBytes {buf : Buf} (h : IsDirectory ext2 ino) (hmem : block ∈ dirBlocks ext2 ino)
    (hbuf : WellFormed ext2.blockSize buf) : IsDirectory (setDiskBytes ext2 block buf) ino :=
  h.congr rfl (pointer_setDiskBytes (holdsNoPointers_of_mem h.distinct hmem) buf) (h.wellFormed.setDiskBytes hbuf)

/-- The entry is new, and the others keep their order. -/
def InsertsLive (entry : Bytes × UInt32 × UInt8) (before after : List (Bytes × UInt32 × UInt8)) : Prop :=
  ∃ front back, before = front ++ back ∧ after = front ++ entry :: back

theorem live_slackEntry (e : Ext2Directory) : live [{ e with size := e.minSize }, slackEntry e filename type_ inode] =
      live [e] ++ if inode = 0 then [] else [(filename, inode, type_)] := by
  by_cases he : e.inode = 0 <;> by_cases hinode : inode = 0 <;> simp [live, slackEntry, hinode, he]

theorem liveEntries_placed {front back : List UInt32} {before after : List Ext2Directory} {e : Ext2Directory}
    {mid : Nat} (hdist : Distinct ext2 ino) (hname : filename.length < 256) (hinode : inode ≠ 0)
    (hsplit : dirBlocks ext2 ino = front ++ block :: back)
    (hfirst : FirstStop filename (entriesOf ext2 (dirBlocks ext2 ino)) (entriesOf ext2 front ++ before) e (after ++ entriesOf ext2 back))
    (hmatch : ¬ e.Is filename) (hbefore : Chain (ext2.disk block) 0 before mid)
    (hafter : Chain (ext2.disk block) mid (e :: after) ext2.blockSize) (type_ : UInt8) :
    InsertsLive (filename, inode, type_) (liveEntries ext2 ino)
      (liveEntries (setDiskBytes ext2 block (splitNames (ext2.disk block) mid e filename type_ inode)) ino) := by
  have hmem := mem_of_split hsplit
  have hnodup : (front ++ block :: back).Nodup := hsplit ▸ nodup_blocksFrom hdist _ _
  refine ⟨live (entriesOf ext2 front ++ before ++ [e]), live (after ++ entriesOf ext2 back), ?_, ?_⟩
  · rw [liveEntries, hfirst.1, ← live_append, append_assoc _ [e], singleton_append]
  · rw [liveEntries, dirBlocks_setDiskBytes (holdsNoPointers_of_mem hdist hmem), hsplit,
      entriesOf_placed hnodup hbefore hafter (hfirst.2.2.resolve_left hmatch) hname]
    rw [live_append, live_append, live_append, live_append, live_slackEntry e, if_neg hinode]
    simp only [live_append, append_assoc, cons_append, nil_append]

theorem divRoundUp_size_add {size : UInt32} {blockSize : Nat} (hpos : 0 < blockSize) (hlt : blockSize < 2 ^ 16)
    (hcount : divRoundUp size.toNat blockSize < 12) : divRoundUp (size + UInt32.ofNat blockSize).toNat blockSize =
      divRoundUp size.toNat blockSize + 1 := by
  have hsize := size.toNat_lt
  have hcount' := hcount
  rw [divRoundUp_eq hpos (by omega)] at hcount'
  have hle : size.toNat + (blockSize - 1) < 12 * blockSize := (Nat.div_lt_iff_lt_mul hpos).1 hcount'
  have hadd : (size + UInt32.ofNat blockSize).toNat = size.toNat + blockSize := by
    rw [UInt32.toNat_add, UInt32.toNat_ofNat_of_lt' (by simp only [UInt32.size]; omega), Nat.mod_eq_of_lt (by omega)]
  rw [hadd, divRoundUp_eq hpos (by omega), divRoundUp_eq hpos (by omega), Nat.add_right_comm,
    Nat.add_div_right _ hpos]

section
variable (happ : Appended ext2 ino inodeNum (dirBlocks ext2 ino).length block entry ext2' ino')
  (hfinds : Finds ext2 ino) (hdir : IsDirectory ext2 ino)
  (hcount : divRoundUp ino.size.toNat ext2.blockSize < 12)
  (hholes : ∀ i < divRoundUp ino.size.toNat ext2.blockSize, blockAt ext2 ino i ≠ 0)
include happ hfinds hdir hcount hholes

theorem Appended.dirBlocks_eq : dirBlocks ext2' ino' = dirBlocks ext2 ino ++ [block] := by
  set n := divRoundUp ino.size.toNat ext2.blockSize with hn
  have hlength : (dirBlocks ext2 ino).length = n := length_blocksFrom fun i hi => by
    rw [Nat.zero_add]
    exact hholes i hi
  rw [hlength] at happ
  have hcount' : divRoundUp ino'.size.toNat ext2'.blockSize = n + 1 := by
    rw [happ.size, happ.blockSize]
    exact divRoundUp_size_add hdir.pos hdir.lt hcount
  have hold : blocksFrom ext2' ino' 0 n = dirBlocks ext2 ino := by
    apply blocksFrom_congr
    intro i _ hi
    exact (happ.disk_blockAt hfinds hdir.distinct (by omega) (hholes i (by omega))).1
  have hnew : blockAt ext2' ino' (0 + n) = block := by
    rw [Nat.zero_add]
    exact happ.assigned
  have hblock : block ≠ 0 := (hfinds.unused block happ.block_mem).1
  rw [dirBlocks, hcount', blocksFrom_succ (by rw [hold, hlength]) (by rwa [hnew]), hold, hnew]

theorem Appended.isDirectory :
    IsDirectory ext2' ino' ∧ liveEntries ext2' ino' = liveEntries ext2 ino ++ live [entry] := by
  have hblocks := happ.dirBlocks_eq hfinds hdir hcount hholes
  have hsame : ∀ b ∈ dirBlocks ext2 ino, ext2'.disk b = ext2.disk b := by
    intro b hb
    obtain ⟨i, -, hi, rfl, hne⟩ := mem_blocksFrom hb
    have hlength : (dirBlocks ext2 ino).length = divRoundUp ino.size.toNat ext2.blockSize :=
      length_blocksFrom fun i hi => by
        rw [Nat.zero_add]
        exact hholes i hi
    exact (happ.disk_blockAt hfinds hdir.distinct (by omega) hne).2
  have hcapacity : 12 ≤ ext2'.capacity := by
    unfold capacity
    omega
  refine ⟨⟨?_, ?_, ?_, happ.distinct hfinds hdir.distinct, ?_, fun b hb => ?_⟩, ?_⟩
  · rw [happ.blockSize]
    exact hdir.pos
  · rw [happ.blockSize]
    exact hdir.aligned
  · rw [happ.blockSize]
    exact hdir.lt
  · rw [happ.size, happ.blockSize, divRoundUp_size_add hdir.pos hdir.lt hcount]
    omega
  · rw [hblocks] at hb
    rcases mem_append.1 hb with hb | hb
    · rw [happ.blockSize, hsame b hb]
      exact hdir.wellFormed b hb
    · rw [mem_singleton.1 hb]
      exact happ.entries.wellFormed
  · rw [liveEntries, liveEntries, hblocks, entriesOf_append, entriesOf_cons, entriesOf_nil, append_nil,
      happ.entries.blockEntries_eq, live_append, entriesOf_congr happ.blockSize hsame]

end

theorem appendBlock_isOk (scan : Scan) (hindex : scan.blockNum < 12) (hfound : ext2.found ≠ [])
    (hfits : 8 + filename.length ≤ ext2.blockSize) (inodeNum : UInt32) (ino : Ext2Inode) (type_ : UInt8)
    (inode : UInt32) : ∃ ext2' ino', appendBlock ext2 inodeNum ino scan filename type_ inode = .ok (ext2', ino') := by
  obtain ⟨block, rest, hrest⟩ := exists_cons_of_ne_nil hfound
  have hfind : ext2BlockFind ext2 = .ok (block, { ext2 with found := rest }) := by
    rw [ext2BlockFind, hrest]
  have hput : dirPut { ext2 with found := rest } scan.names 0 ⟨inode, ext2.blockSize, type_, filename⟩ =
      .ok (storeEntry scan.names 0 ⟨inode, ext2.blockSize, type_, filename⟩) := by
    rw [dirPut, if_pos (by simp only; omega)]
  rw [appendBlock, hfind, ok_bind]
  simp only [hput, ok_bind, ext2BlockAssign_direct hindex]
  exact ⟨_, _, rfl⟩

/-! ## Adding a name -/

theorem ext2Traverse_inserts (hdir : IsDirectory ext2 (ext2.inodes inodeNum))
    (hdir' : IsDirectory ext2' (ext2'.inodes inodeNum))
    (hinserts : InsertsLive (filename, inode, type_) (liveEntries ext2 (ext2.inodes inodeNum))
      (liveEntries ext2' (ext2'.inodes inodeNum)))
    (hnew : ∀ x ∈ liveEntries ext2 (ext2.inodes inodeNum), x.1 ≠ filename) :
    ext2Traverse ext2' inodeNum filename = .ok inode ∧
      ∀ other, other ≠ filename → ext2Traverse ext2' inodeNum other = ext2Traverse ext2 inodeNum other := by
  obtain ⟨front, back, hbefore, hafter⟩ := hinserts
  have hfront : ∀ q ∈ front, q.1 ≠ filename := fun q hq =>
    hnew q (by rw [hbefore]; exact mem_append_left _ hq)
  constructor
  · rw [ext2Traverse_eq hdir', hafter, Assoc.lookup_append_cons_self (p := (filename, inode, type_)) hfront]
    rfl
  · intro other hother
    rw [ext2Traverse_eq hdir', ext2Traverse_eq hdir, hafter, hbefore,
      Assoc.lookup_append_cons_of_ne (p := (filename, inode, type_)) hother]

/-- **`ext2DirAllocate` of a name that is not live** returns true and adds the entry to the live ones, in the
slack of another entry or in a new block. `ext2Traverse` finds the new name, and every other name as before. -/
theorem ext2DirAllocate_new (ext2 : Ext2) (inodeNum : UInt32) (filename : Bytes) (type_ : UInt8)
    (inode : UInt32) (hdir : IsDirectory ext2 (ext2.inodes inodeNum))
    (hcount : Word.divRoundUp (ext2.inodes inodeNum).size.toNat ext2.blockSize < 12)
    (hholes : ∀ i < Word.divRoundUp (ext2.inodes inodeNum).size.toNat ext2.blockSize,
      blockAt ext2 (ext2.inodes inodeNum) i ≠ 0)
    (hfinds : Finds ext2 (ext2.inodes inodeNum)) (hfound : ext2.found ≠ [])
    (hfits : 8 + filename.length ≤ ext2.blockSize) (hname : filename.length < 256) (hinode : inode ≠ 0)
    (hnew : ∀ x ∈ liveEntries ext2 (ext2.inodes inodeNum), x.1 ≠ filename) :
    ∃ ext2' ino', ext2DirAllocate ext2 inodeNum (ext2.inodes inodeNum) filename type_ inode =
        .ok (true, ext2', ino') ∧ ext2'.inodes inodeNum = ino' ∧
      InsertsLive (filename, inode, type_) (liveEntries ext2 (ext2.inodes inodeNum)) (liveEntries ext2' ino') ∧
      ext2Traverse ext2' inodeNum filename = .ok inode ∧
      ∀ other, other ≠ filename → ext2Traverse ext2' inodeNum other = ext2Traverse ext2 inodeNum other := by
  have hlength : (dirBlocks ext2 (ext2.inodes inodeNum)).length < 12 :=
    Nat.lt_of_le_of_lt (length_blocksFrom_le _ _) hcount
  generalize hcall : ext2DirAllocate ext2 inodeNum (ext2.inodes inodeNum) filename type_ inode = r
  cases ext2DirAllocate_result hdir.pos hdir.distinct hdir.wellFormed hcall with
  | @taken before e after hfirst hmatch =>
    -- the name is not live
    have hlive : (e.filename, e.inode, e.type_) ∈ liveEntries ext2 (ext2.inodes inodeNum) := by
      rw [liveEntries, hfirst.1, live_append, live_cons_of_ne hmatch.1]
      exact mem_append_right _ mem_cons_self
    exact absurd hmatch.2 (hnew _ hlive)
  | @placed block back before e after mid front hsplit hfirst hmatch hbefore hafter =>
    have hmem := mem_of_split hsplit
    have hinserts := liveEntries_placed hdir.distinct hname hinode hsplit hfirst hmatch hbefore hafter type_
    have hdir' := hdir.setDiskBytes hmem
      (chain_placed hbefore hafter (hfirst.2.2.resolve_left hmatch) hname type_ inode).wellFormed
    exact ⟨_, _, rfl, rfl, hinserts, ext2Traverse_inserts hdir hdir' hinserts hnew⟩
  | @appended scan ext2' ino' hnone hnum hserves hholds happend =>
    obtain ⟨block, happ⟩ := appendBlock_appended hdir.distinct hfinds hserves hholds
      hdir.aligned hdir.lt hname happend
    rw [hnum] at happ
    obtain ⟨hdir', hlive⟩ := happ.isDirectory hfinds hdir hcount hholes
    have hinserts : InsertsLive (filename, inode, type_) (liveEntries ext2 (ext2.inodes inodeNum))
        (liveEntries ext2' ino') := by
      refine ⟨_, [], (append_nil _).symm, ?_⟩
      rw [hlive, live_cons_of_ne hinode]
      rfl
    have hfind := ext2Traverse_inserts hdir (happ.inodes.symm ▸ hdir')
      (happ.inodes.symm ▸ hinserts) hnew
    exact ⟨ext2', ino', rfl, happ.inodes, hinserts, hfind⟩
  | fault hnone _ hreason =>
    exfalso
    have hreach := hdir.reach
    rcases hreason with hcap | ⟨scan, hnum, happend⟩
    · omega
    · obtain ⟨ext2', ino', hok⟩ := appendBlock_isOk scan (by omega) hfound hfits inodeNum
        (ext2.inodes inodeNum) type_ inode
      rw [happend] at hok
      exact absurd hok (by simp)

/-! ## A directory of one block -/

def blockOf (es : List Ext2Directory) : Buf :=
  (es.foldl (fun p e => (p.1 + e.size, storeEntry p.2 p.1 e)) ((0, fun _ => 0) : Nat × Buf)).2

def oneBlockInode : Ext2Inode := ⟨0x4000, 1024, 0, fun i => if i = 0 then 5 else 0⟩

def oneBlockExt2 (es : List Ext2Directory) : Ext2 :=
  ⟨1024, fun b => if b = 5 then blockOf es else fun _ => 0, fun _ => oneBlockInode, [7, 8], fun _ => 0⟩

section
variable (es : List Ext2Directory)

theorem pointer_oneBlock (s : Slot) : pointer (oneBlockExt2 es) oneBlockInode s = if s = .data 0 then 5 else 0 := by
  cases s with
  | single | double => rfl
  | child i => exact indirect_zero i
  | data i =>
    have h12 : oneBlockInode.blocks 12 = 0 := rfl
    have h13 : oneBlockInode.blocks 13 = 0 := rfl
    simp only [pointer, blockAt, h12, h13, indirect_zero, ite_self, Slot.data.injEq]
    by_cases hi : i < 12
    · rw [if_pos hi]
      rfl
    · rw [if_neg hi, if_neg (by omega)]

theorem distinct_oneBlock : Distinct (oneBlockExt2 es) oneBlockInode := by
  intro s t _ _ hne heq
  simp only [pointer_oneBlock] at hne heq
  have hs : s = .data 0 := by
    by_contra hs
    exact hne (if_neg hs)
  have ht : t = .data 0 := by
    by_contra ht
    rw [if_neg ht] at heq
    exact hne heq
  rw [hs, ht]

theorem finds_oneBlock : Finds (oneBlockExt2 es) oneBlockInode := by
  refine ⟨show [7, 8].Nodup by decide, fun b hb => ?_⟩
  have hb' : b = 7 ∨ b = 8 := by simpa [oneBlockExt2] using hb
  refine ⟨by rcases hb' with rfl | rfl <;> decide, fun s _ => ?_⟩
  rw [pointer_oneBlock]
  by_cases hs : s = .data 0
  · rw [if_pos hs]
    rcases hb' with rfl | rfl <;> decide
  · rw [if_neg hs]
    rcases hb' with rfl | rfl <;> decide

theorem blockCount_oneBlock : divRoundUp oneBlockInode.size.toNat (oneBlockExt2 es).blockSize = 1 :=
  show divRoundUp 1024 1024 = 1 by decide

theorem dirBlocks_oneBlock : dirBlocks (oneBlockExt2 es) oneBlockInode = [5] := by
  rw [dirBlocks, blockCount_oneBlock]
  rfl

end

theorem isDirectory_oneBlock {es : List Ext2Directory} (h : WellFormed 1024 (blockOf es)) :
    IsDirectory (oneBlockExt2 es) oneBlockInode := by
  refine ⟨show 0 < 1024 by decide, show 4 ∣ 1024 by decide, show 1024 < 2 ^ 16 by decide, distinct_oneBlock es,
    ?_, fun b hb => ?_⟩
  · rw [blockCount_oneBlock, capacity]
    omega
  rw [dirBlocks_oneBlock, mem_singleton] at hb
  rw [hb]
  exact h

theorem ext2DirAllocate_new_oneBlock :
    ∃ ext2' ino', ext2DirAllocate (oneBlockExt2 [⟨11, 1024, 1, [97]⟩]) 2 oneBlockInode [98] 1 12 =
        .ok (true, ext2', ino') ∧ ext2Traverse ext2' 2 [98] = .ok 12 := by
  have hdir : IsDirectory (oneBlockExt2 [⟨11, 1024, 1, [97]⟩]) oneBlockInode :=
    isDirectory_oneBlock (by decide +kernel)
  obtain ⟨ext2', ino', hok, -, -, hfind, -⟩ :=
    ext2DirAllocate_new (oneBlockExt2 [⟨11, 1024, 1, [97]⟩]) 2 [98] 1 12 hdir (by decide) (by decide)
      (finds_oneBlock _) (by decide) (by decide) (by decide) (by decide) (by decide +kernel)
  exact ⟨ext2', ino', hok, hfind⟩

end CoreX.Ext2

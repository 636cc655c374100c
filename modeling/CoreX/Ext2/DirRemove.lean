import CoreX.Ext2.Duplicates
import CoreX.Ext2.Remove

/-!
# `ext2DirRemove`

What a call does, from the walk over the blocks (`ext2DirRemove_result`). If live names are pairwise distinct, a call
removes the name and nothing else (`ext2DirRemove_live`).
-/

namespace CoreX.Ext2

open List Prod Except

variable {ext2 ext2' : Ext2} {ino : Ext2Inode} {filename : Bytes} {blocks : List UInt32}
  {inodeNum block : UInt32}

structure Rewritten (filename : Bytes) (ext2 : Ext2) (blocks : List UInt32) (ext2' : Ext2) : Prop where
  blockSize : ext2'.blockSize = ext2.blockSize
  inodes : ext2'.inodes = ext2.inodes
  kept : ∀ b, b ∉ blocks → ext2'.disk b = ext2.disk b
  entries : ∀ b ∈ blocks, Chain (ext2'.disk b) 0
    (removeFrom filename [] true (blockEntries ext2.blockSize (ext2.disk b))) ext2.blockSize

theorem removeBody_eq (hlt : ext2.blockSize < 2 ^ 16) (h : WellFormed ext2.blockSize (ext2.disk block))
    (filename : Bytes) (ret : Bool) :
    ∃ names, removeBody filename ext2 block (ext2.disk block) ret = .ok (setDiskBytes ext2 block names,
          .inr (ret || (blockEntries ext2.blockSize (ext2.disk block)).any fun e => e.Is filename)) ∧
      Chain names 0 (removeFrom filename [] true (blockEntries ext2.blockSize (ext2.disk block))) ext2.blockSize := by
  have hle := Chain.le h
  have hfuel : (blockEntries ext2.blockSize (ext2.disk block)).length ≤ ext2.blockSize := by omega
  obtain ⟨names, hwalk, hchain⟩ := removeWalk_eq ext2 hlt (.start true) h rfl hfuel ret
  refine ⟨names, ?_, hchain⟩
  rw [removeBody, hwalk]
  rfl

/-- The induction is on the blocks: a step writes one of them, which is none of those that are left. -/
theorem foldBlocks_removeBody (ext2 : Ext2) (hlt : ext2.blockSize < 2 ^ 16) (hnodup : blocks.Nodup)
    (h : BlocksWellFormed ext2 blocks) (filename : Bytes) (ret : Bool) :
    ∃ ext2', foldBlocks (removeBody filename) blocks ext2 ret =
        .ok (ext2', .inr (ret || (entriesOf ext2 blocks).any fun e => e.Is filename)) ∧
      Rewritten filename ext2 blocks ext2' := by
  induction blocks generalizing ext2 ret with
  | nil => exact ⟨ext2, by simp [foldBlocks], rfl, rfl, fun _ _ => rfl, by simp⟩
  | cons block blocks ih =>
    obtain ⟨hblock, hblocks⟩ := h.cons
    obtain ⟨hnotMem, hnodup⟩ := nodup_cons.1 hnodup
    obtain ⟨names, hbody, hchain⟩ := removeBody_eq hlt hblock filename ret
    have hsame : ∀ b ∈ blocks, (setDiskBytes ext2 block names).disk b = ext2.disk b := by
      intro b hb
      refine setDiskBytes_of_ne ?_ names
      rintro rfl
      exact hnotMem hb
    have hblocks' : BlocksWellFormed (setDiskBytes ext2 block names) blocks := by
      intro b hb
      rw [hsame b hb]
      exact hblocks b hb
    obtain ⟨ext2', hfold, hnew⟩ := ih (setDiskBytes ext2 block names) hlt hnodup hblocks'
      (ret || (blockEntries ext2.blockSize (ext2.disk block)).any fun e => e.Is filename)
    have hentries : entriesOf (setDiskBytes ext2 block names) blocks = entriesOf ext2 blocks :=
      entriesOf_congr rfl hsame
    refine ⟨ext2', ?_, hnew.blockSize, hnew.inodes, fun b hb => ?_, fun b hb => ?_⟩
    · rw [foldBlocks, hbody]
      simp only
      rw [hfold, hentries, entriesOf_cons, any_append, Bool.or_assoc]
    · rw [mem_cons, not_or] at hb
      rw [hnew.kept b hb.2, setDiskBytes_of_ne hb.1]
    · rcases mem_cons.1 hb with rfl | hb
      · rw [hnew.kept b hnotMem, setDiskBytes_self]
        exact hchain
      · have hold := hnew.entries b hb
        rw [hsame b hb] at hold
        exact hold

theorem removeWalk_writes {names : Buf} {before : Option Nat} {fuel dir : Nat} {ret ret' : Bool}
    (h : removeWalk block filename fuel ext2 names before dir ret = .ok (ext2', ret')) :
    ∃ buf, ext2' = setDiskBytes ext2 block buf := by
  induction fuel generalizing ext2 names before dir ret with
  | zero =>
    rw [removeWalk] at h
    split_ifs at h
    obtain ⟨rfl, -⟩ := Prod.mk.inj (ok.inj h)
    exact ⟨_, (setDiskBytes_disk ..).symm⟩
  | succ fuel ih =>
    rw [removeWalk] at h
    split_ifs at h
    · obtain ⟨entry, -, h₁⟩ := bind_eq_ok.1 h
      obtain ⟨is, -, h₂⟩ := bind_eq_ok.1 h₁
      cases is with
      | true =>
        obtain ⟨names', -, h₃⟩ := bind_eq_ok.1 h₂
        obtain ⟨buf, rfl⟩ := ih h₃
        exact ⟨buf, setDiskBytes_setDiskBytes ..⟩
      | false => exact ih h₂
    · obtain ⟨rfl, -⟩ := Prod.mk.inj (ok.inj h)
      exact ⟨_, (setDiskBytes_disk ..).symm⟩

theorem changesBlock_removeBody (filename : Bytes) : ChangesBlock (removeBody filename) := by
  intro ext2 block ret ext2' x h
  obtain ⟨⟨ext2₁, ret'⟩, hwalk, h₁⟩ := bind_eq_ok.1 h
  obtain ⟨rfl, -⟩ := Prod.mk.inj (ok.inj h₁)
  exact removeWalk_writes hwalk

/-- What `ext2DirRemove` does. There is no result only if the directory is longer than the pointers reach. -/
theorem ext2DirRemove_result (hpos : 0 < ext2.blockSize) (hlt : ext2.blockSize < 2 ^ 16)
    (hdist : Distinct ext2 ino) (h : BlocksWellFormed ext2 (dirBlocks ext2 ino)) (filename : Bytes) :
    (∃ ext2', Rewritten filename ext2 (dirBlocks ext2 ino) ext2' ∧ ext2DirRemove ext2 ino filename =
        .ok ((entriesOf ext2 (dirBlocks ext2 ino)).any (fun e => e.Is filename), ext2')) ∨
      (ext2.capacity < Word.divRoundUp ino.size.toNat ext2.blockSize ∧
        ∃ fault, fault ≠ .overflow ∧ ext2DirRemove ext2 ino filename = .error fault) := by
  have hserves := ext2BlockFetchInit_serves ext2 ino
  have hloop := forBlocks_spec (changesBlock_removeBody filename)
    (Word.divRoundUp ino.size.toNat ext2.blockSize) ext2 (startScan ext2) false hdist hserves.1 hserves.2
  have hnodup : (dirBlocks ext2 ino).Nodup := nodup_blocksFrom hdist _ _
  obtain ⟨ext2', hfold, hnew⟩ := foldBlocks_removeBody ext2 hlt hnodup h filename false
  rw [Loops, show (startScan ext2).blockNum = 0 from rfl, ← dirBlocks, hfold] at hloop
  rw [ext2DirRemove, blockCount_eq hpos, ok_bind]
  rcases hloop with ⟨scan', hrun, -⟩ | ⟨hcap, fault, hfault, hrun⟩
  · refine .inl ⟨ext2', hnew, ?_⟩
    rw [hrun, Bool.false_or]
    rfl
  · refine .inr ⟨by omega, fault, hfault, ?_⟩
    rw [hrun]
    rfl

section
variable (h : Rewritten filename ext2 (dirBlocks ext2 ino) ext2') (hdist : Distinct ext2 ino)
include h hdist

theorem Rewritten.pointer_eq (s : Slot) : pointer ext2' ino s = pointer ext2 ino s := by
  revert s
  apply pointer_congr h.blockSize rfl
  intro s hs hvalid hne
  apply h.kept
  intro hmem
  exact holdsNoPointers_of_mem hdist hmem s hs hvalid hne rfl

theorem Rewritten.blockAt_eq : blockAt ext2' ino = blockAt ext2 ino :=
  funext fun i => h.pointer_eq hdist (.data i)

theorem Rewritten.dirBlocks_eq : dirBlocks ext2' ino = dirBlocks ext2 ino :=
  dirBlocks_congr h.blockSize (h.blockAt_eq hdist)

end

theorem Rewritten.wellFormed (h : Rewritten filename ext2 blocks ext2') {b : UInt32}
    (hb : WellFormed ext2.blockSize (ext2.disk b)) : WellFormed ext2'.blockSize (ext2'.disk b) := by
  rw [h.blockSize]
  by_cases hmem : b ∈ blocks
  · exact (h.entries b hmem).wellFormed
  · rw [h.kept b hmem]
    exact hb

theorem Rewritten.isDirectory (h : Rewritten filename ext2 (dirBlocks ext2 ino) ext2')
    (hdir : IsDirectory ext2 ino) : IsDirectory ext2' ino :=
  hdir.congr h.blockSize (h.pointer_eq hdir.distinct)
    fun b hb => h.wellFormed (hdir.wellFormed b hb)

/-! ## The live entries afterwards -/

theorem any_is_iff (es : List Ext2Directory) :
    (es.any fun e => e.Is filename) = true ↔ filename ∈ (live es).map fst := by
  rw [any_eq_true, mem_map]
  constructor
  · rintro ⟨e, he, his⟩
    obtain ⟨hlive, hname⟩ := of_decide_eq_true his
    exact ⟨(e.filename, e.inode, e.type_), mem_map_of_mem (mem_filter.2 ⟨he, by simpa using hlive⟩), hname⟩
  · rintro ⟨entry, hentry, hname⟩
    obtain ⟨e, he, rfl⟩ := mem_map.1 hentry
    obtain ⟨he, hlive⟩ := mem_filter.1 he
    exact ⟨e, he, decide_eq_true ⟨by simpa using hlive, hname⟩⟩

theorem removeFrom_of_not_is {real rest : List Ext2Directory} {direct : Bool}
    (h : ∀ e ∈ rest, ¬ e.Is filename) : removeFrom filename real direct rest = real ++ rest := by
  induction rest generalizing real direct with
  | nil => rw [removeFrom, append_nil]
  | cons e rest ih =>
    obtain ⟨he, hrest⟩ := forall_mem_cons.1 h
    rw [removeFrom, if_neg he, ih hrest, append_assoc, singleton_append]

theorem live_grow (real : List Ext2Directory) (size : Nat) : live (grow real size) = live real := by
  rcases eq_nil_or_concat real with rfl | ⟨real, e, rfl⟩
  · rfl
  · rw [concat_eq_append, grow_append_singleton, live_append, live_append]
    by_cases hlive : e.inode = 0 <;> simp [live, hlive]

/-- What is left is live as before, except for the name. Behind the entry that is removed no entry has the
name, so the walk never stands in a slack when it meets the name. -/
theorem live_removeFrom {es : List Ext2Directory} (hnodup : ((live es).map fst).Nodup) (real : List Ext2Directory) :
    live (removeFrom filename real true es) = live real ++ (live es).filter fun entry => entry.1 ≠ filename := by
  induction es generalizing real with
  | nil => simp [removeFrom, live]
  | cons e es ih =>
    by_cases hlive : e.inode = 0
    · have hnot : ¬ e.Is filename := fun his => his.1 hlive
      rw [live_cons_of_eq hlive] at hnodup ⊢
      rw [removeFrom, if_neg hnot, ih hnodup, live_append, live_cons_of_eq hlive]
      simp [live]
    · rw [live_cons_of_ne hlive, map_cons, nodup_cons] at hnodup
      rw [live_cons_of_ne hlive]
      by_cases hname : e.filename = filename
      · have his : e.Is filename := ⟨hlive, hname⟩
        have hnew : filename ∉ (live es).map fst := hname ▸ hnodup.1
        have hnone : ∀ x ∈ es, ¬ x.Is filename := by
          intro x hx hxis
          apply hnew
          apply (any_is_iff es).1
          exact any_eq_true.2 ⟨x, hx, by simpa using hxis⟩
        have hrest : (live es).filter (fun entry => entry.1 ≠ filename) = live es := by
          apply filter_eq_self.2
          intro entry hentry
          have hne : entry.1 ≠ filename := by
            rintro rfl
            exact hnew (mem_map_of_mem hentry)
          simpa using hne
        rw [filter_cons_of_neg (by simpa using hname), hrest, removeFrom, if_pos his]
        by_cases hreal : real = []
        · rw [if_pos hreal, removeFrom_of_not_is hnone, live_append, hreal]
          rfl
        · rw [if_neg hreal, if_pos rfl, removeFrom_of_not_is hnone, live_append, live_grow]
      · have hnot : ¬ e.Is filename := fun his => hname his.2
        rw [filter_cons_of_pos (by simpa using hname), removeFrom, if_neg hnot, ih hnodup.2, live_append,
          live_cons_of_ne hlive, append_assoc]
        rfl

theorem Rewritten.live_entriesOf (h : Rewritten filename ext2 blocks ext2') {part : List UInt32}
    (hpart : ∀ b ∈ part, b ∈ blocks) (hnodup : ((live (entriesOf ext2 part)).map fst).Nodup) :
    live (entriesOf ext2' part) = (live (entriesOf ext2 part)).filter fun entry => entry.1 ≠ filename := by
  induction part with
  | nil => rfl
  | cons b part ih =>
    obtain ⟨hb, hpart⟩ := forall_mem_cons.1 hpart
    rw [entriesOf_cons, live_append, map_append] at hnodup
    have hentries : blockEntries ext2'.blockSize (ext2'.disk b) =
        removeFrom filename [] true (blockEntries ext2.blockSize (ext2.disk b)) := by
      rw [h.blockSize]
      exact (h.entries b hb).blockEntries_eq
    rw [entriesOf_cons, entriesOf_cons, live_append, live_append, filter_append, hentries,
      live_removeFrom hnodup.of_append_left, ih hpart hnodup.of_append_right]
    rfl

/-- **Removing a name.** If live names are pairwise distinct, `ext2DirRemove` says whether the name was live. It
takes that entry away, and keeps the other ones as they are. -/
theorem ext2DirRemove_live (ext2 : Ext2) (inodeNum : UInt32) (filename : Bytes)
    (h : IsDirectory ext2 (ext2.inodes inodeNum))
    (hnodup : ((liveEntries ext2 (ext2.inodes inodeNum)).map Prod.fst).Nodup) :
    ∃ ret ext2', ext2DirRemove ext2 (ext2.inodes inodeNum) filename = .ok (ret, ext2') ∧
      (ret = true ↔ filename ∈ (liveEntries ext2 (ext2.inodes inodeNum)).map Prod.fst) ∧ ext2'.inodes = ext2.inodes ∧
      liveEntries ext2' (ext2.inodes inodeNum) =
        (liveEntries ext2 (ext2.inodes inodeNum)).filter (fun entry => entry.1 ≠ filename) ∧
      ext2Traverse ext2' inodeNum filename = .ok 0 ∧
      ∀ other, other ≠ filename → ext2Traverse ext2' inodeNum other = ext2Traverse ext2 inodeNum other := by
  have hreach := h.reach
  rcases ext2DirRemove_result h.pos h.lt h.distinct h.wellFormed filename with
    ⟨ext2', hnew, hcall⟩ | ⟨hcap, -⟩
  · have hlive : liveEntries ext2' (ext2.inodes inodeNum) =
        (liveEntries ext2 (ext2.inodes inodeNum)).filter fun entry => entry.1 ≠ filename := by
      rw [liveEntries, hnew.dirBlocks_eq h.distinct]
      exact hnew.live_entriesOf (fun _ hb => hb) hnodup
    have hdir : IsDirectory ext2' (ext2'.inodes inodeNum) := by
      rw [hnew.inodes]
      exact hnew.isDirectory h
    have hfind : ∀ search, ext2Traverse ext2' inodeNum search = .ok ((if search = filename then none
          else (liveEntries ext2 (ext2.inodes inodeNum)).lookup search).elim 0 fst) := by
      intro search
      rw [ext2Traverse_eq hdir, hnew.inodes, hlive, Assoc.lookup_filter_ne]
    refine ⟨_, ext2', hcall, any_is_iff _, hnew.inodes, hlive, ?_, fun other hother => ?_⟩
    · rw [hfind, if_pos rfl]
      rfl
    · rw [hfind, if_neg hother, ext2Traverse_eq h]
  · omega

/-- The second entry of three. -/
theorem ext2DirRemove_live_oneBlock : ∃ ret ext2',
      ext2DirRemove (oneBlockExt2 [⟨11, 12, 1, [97]⟩, ⟨12, 12, 1, [98]⟩, ⟨13, 1000, 2, [99]⟩]) oneBlockInode [98] =
        .ok (ret, ext2') ∧ liveEntries ext2' oneBlockInode = [([97], 11, 1), ([99], 13, 2)] := by
  obtain ⟨ret, ext2', hcall, -, -, hlive, -⟩ :=
    ext2DirRemove_live (oneBlockExt2 [⟨11, 12, 1, [97]⟩, ⟨12, 12, 1, [98]⟩, ⟨13, 1000, 2, [99]⟩]) 2 [98]
      (isDirectory_oneBlock (by decide +kernel)) (by decide +kernel)
  exact ⟨ret, ext2', hcall, hlive.trans (by decide +kernel)⟩

/-! ## Well-formed blocks -/

/-- **The blocks of a directory stay well formed** with every result of `ext2DirAllocate` and of
`ext2DirRemove`, and no size of an entry overflows. -/
theorem allBlocks_wellFormed (ext2 : Ext2) (inodeNum : UInt32) (ino : Ext2Inode) (filename : Bytes)
    (type_ : UInt8) (inode : UInt32) (h : WellFormedDirectory ext2 ino) (hfinds : Finds ext2 ino)
    (hname : filename.length < 256) : (ext2DirAllocate ext2 inodeNum ino filename type_ inode ≠ .error .overflow ∧
      ∀ ret ext2' ino', ext2DirAllocate ext2 inodeNum ino filename type_ inode = .ok (ret, ext2', ino') →
        BlocksWellFormed ext2' (allBlocks ext2' ino')) ∧ ext2DirRemove ext2 ino filename ≠ .error .overflow ∧
      ∀ ret ext2', ext2DirRemove ext2 ino filename = .ok (ret, ext2') →
        BlocksWellFormed ext2' (allBlocks ext2' ino) := by
  refine ⟨⟨?_, ?_⟩, ?_, ?_⟩
  · intro hcall
    cases ext2DirAllocate_result h.pos h.distinct h.dirBlocks hcall with
    | fault hnone hfault => exact hfault rfl
  · intro ret ext2' ino' hcall
    exact (ext2DirAllocate_wellFormed h hfinds hname hcall).1.wellFormed
  · intro hcall
    rcases ext2DirRemove_result h.pos h.lt h.distinct h.dirBlocks filename with
      ⟨ext2', -, hresult⟩ | ⟨-, fault, hfault, hresult⟩
    · exact absurd (hcall.symm.trans hresult) (by simp)
    · exact hfault (error.inj (hresult.symm.trans hcall))
  · intro ret ext2' hcall b hb
    rcases ext2DirRemove_result h.pos h.lt h.distinct h.dirBlocks filename with
      ⟨ext2₁, hnew, hresult⟩ | ⟨-, fault, -, hresult⟩
    · obtain ⟨-, rfl⟩ := Prod.mk.inj (ok.inj (hcall.symm.trans hresult))
      rw [allBlocks_congr hnew.blockSize (hnew.blockAt_eq h.distinct)] at hb
      exact hnew.wellFormed (h.wellFormed b hb)
    · exact absurd (hcall.symm.trans hresult) (by simp)

/-- Removing the first entry leaves a blank one. -/
theorem allBlocks_wellFormed_oneBlock :
    ∃ ret ext2', ext2DirRemove (oneBlockExt2 [⟨11, 12, 1, [97]⟩, ⟨12, 1012, 1, [98]⟩]) oneBlockInode [97] =
        .ok (ret, ext2') ∧ BlocksWellFormed ext2' (allBlocks ext2' oneBlockInode) := by
  have h : WellFormedDirectory (oneBlockExt2 [⟨11, 12, 1, [97]⟩, ⟨12, 1012, 1, [98]⟩]) oneBlockInode :=
    wellFormedDirectory_oneBlock (by decide +kernel)
  exact ⟨true, _, rfl, (allBlocks_wellFormed _ 2 _ [97] 1 13 h (finds_oneBlock _) (by decide)).2.2 true _ rfl⟩

end CoreX.Ext2

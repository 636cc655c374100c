import CoreX.Ext2.DirAllocate

/-!
# What `ext2DirAllocate` leaves alone

A call for a name that is not live has put the entry in the slack of another one or in a new block
(`ext2DirAllocate_inserted`). The second stores the inode that it was given with one pointer more. Either way a
directory with other blocks is as it was (`Untouched`).
-/

namespace CoreX.Ext2

open List Function

variable {ext2 ext2' : Ext2} {ino ino' : Ext2Inode} {filename : Bytes} {type_ : UInt8}
  {inode inodeNum block b : UInt32}

def dirCount (ext2 : Ext2) (ino : Ext2Inode) : Nat := Word.divRoundUp ino.size.toNat ext2.blockSize

/-- A directory without holes, and unused blocks for it. -/
structure Sound (ext2 : Ext2) (ino : Ext2Inode) : Prop where
  directory : IsDirectory ext2 ino
  holes : ∀ i < dirCount ext2 ino, blockAt ext2 ino i ≠ 0
  finds : Finds ext2 ino

theorem Sound.length_dirBlocks (h : Sound ext2 ino) : (dirBlocks ext2 ino).length = dirCount ext2 ino :=
  length_blocksFrom fun i hi => by
    rw [Nat.zero_add]
    exact h.holes i hi

theorem sound_oneBlock {es : List Ext2Directory} (h : WellFormed 1024 (blockOf es)) :
    Sound (oneBlockExt2 es) oneBlockInode := by
  refine ⟨isDirectory_oneBlock h, fun i hi => ?_, finds_oneBlock es⟩
  rw [dirCount, blockCount_oneBlock, Nat.lt_one_iff] at hi
  subst hi
  exact show (5 : UInt32) ≠ 0 by decide

theorem exists_slot_of_mem (h : block ∈ dirBlocks ext2 ino) :
    ∃ s : Slot, s.Valid ext2 ∧ pointer ext2 ino s = block ∧ block ≠ 0 := by
  obtain ⟨i, -, -, hblock, hne⟩ := mem_blocksFrom h
  exact ⟨.data i, lt_capacity_of_blockAt_ne (hblock ▸ hne), hblock, hne⟩

structure Untouched (ext2 : Ext2) (ino : Ext2Inode) (ext2' : Ext2) : Prop where
  blockSize : ext2'.blockSize = ext2.blockSize
  disk : ∀ s : Slot, s.Valid ext2 → pointer ext2 ino s ≠ 0 →
    ext2'.disk (pointer ext2 ino s) = ext2.disk (pointer ext2 ino s)

section Untouched
variable (h : Untouched ext2 ino ext2')
include h

theorem Untouched.pointer_eq (s : Slot) : pointer ext2' ino s = pointer ext2 ino s :=
  pointer_congr h.blockSize rfl (fun s _ hvalid hne => h.disk s hvalid hne) s

theorem Untouched.dirBlocks_eq : dirBlocks ext2' ino = dirBlocks ext2 ino :=
  dirBlocks_congr h.blockSize (funext fun i => h.pointer_eq (.data i))

theorem Untouched.disk_of_mem (hb : b ∈ dirBlocks ext2 ino) : ext2'.disk b = ext2.disk b := by
  obtain ⟨s, hvalid, rfl, hne⟩ := exists_slot_of_mem hb
  exact h.disk s hvalid hne

theorem Untouched.entriesOf_eq : entriesOf ext2' (dirBlocks ext2' ino) = entriesOf ext2 (dirBlocks ext2 ino) := by
  rw [h.dirBlocks_eq]
  exact entriesOf_congr h.blockSize fun _ hb => h.disk_of_mem hb

theorem Untouched.liveEntries_eq : liveEntries ext2' ino = liveEntries ext2 ino := congrArg live h.entriesOf_eq

theorem Untouched.isDirectory (hdir : IsDirectory ext2 ino) : IsDirectory ext2' ino := by
  refine hdir.congr h.blockSize h.pointer_eq fun b hb => ?_
  rw [h.blockSize, h.disk_of_mem hb]
  exact hdir.wellFormed b hb

theorem Untouched.sound (hsound : Sound ext2 ino) (hfound : ext2'.found.Sublist ext2.found) : Sound ext2' ino := by
  refine ⟨h.isDirectory hsound.directory, fun i hi => ?_, hsound.finds.nodup.sublist hfound, fun b hb => ?_⟩
  · have hpointer : blockAt ext2' ino i = blockAt ext2 ino i := h.pointer_eq (.data i)
    rw [hpointer]
    apply hsound.holes
    rwa [dirCount, h.blockSize] at hi
  · exact (hsound.finds.unused b (hfound.subset hb)).congr h.blockSize h.pointer_eq

end Untouched

/-! ## The two changes -/

def appendInode (ext2 : Ext2) (ino : Ext2Inode) (block : UInt32) : Ext2Inode :=
  { ino.setBlock (dirCount ext2 ino) block with
    numSectors := ino.numSectors + UInt32.ofNat ext2.blockSize / 512
    size := ino.size + UInt32.ofNat ext2.blockSize }

structure PlacedIn (ext2 : Ext2) (ino : Ext2Inode) (filename : Bytes) (type_ : UInt8) (inode : UInt32)
    (ext2' : Ext2) : Prop where
  change : ∃ block ∈ dirBlocks ext2 ino, ∃ buf, ext2' = setDiskBytes ext2 block buf
  directory : IsDirectory ext2' ino
  live : InsertsLive (filename, inode, type_) (liveEntries ext2 ino) (liveEntries ext2' ino)

structure AppendedIn (ext2 : Ext2) (inodeNum : UInt32) (ino : Ext2Inode) (filename : Bytes) (type_ : UInt8)
    (inode block : UInt32) (ext2' : Ext2) : Prop where
  appended : Appended ext2 ino inodeNum (dirCount ext2 ino) block ⟨inode, ext2.blockSize, type_, filename⟩ ext2'
    (appendInode ext2 ino block)
  found : ext2.found = block :: ext2'.found
  inodes : ext2'.inodes = Function.update ext2.inodes inodeNum (appendInode ext2 ino block)
  disk : ∀ b, b ≠ block → ext2'.disk b = ext2.disk b

inductive Inserted (ext2 : Ext2) (inodeNum : UInt32) (ino : Ext2Inode) (filename : Bytes) (type_ : UInt8)
    (inode : UInt32) : Ext2 → Ext2Inode → Prop where
  | placed {ext2' : Ext2} : (∃ e ∈ entriesOf ext2 (dirBlocks ext2 ino), e.HasRoom filename) →
      PlacedIn ext2 ino filename type_ inode ext2' → Inserted ext2 inodeNum ino filename type_ inode ext2' ino
  | appended {block : UInt32} {ext2' : Ext2} : (∀ e ∈ entriesOf ext2 (dirBlocks ext2 ino), ¬ e.HasRoom filename) →
      AppendedIn ext2 inodeNum ino filename type_ inode block ext2' →
      Inserted ext2 inodeNum ino filename type_ inode ext2' (appendInode ext2 ino block)

section Placed
variable (h : PlacedIn ext2 ino filename type_ inode ext2')
include h

theorem PlacedIn.pointer_eq (hdist : Distinct ext2 ino) (s : Slot) :
    pointer ext2' ino s = pointer ext2 ino s := by
  obtain ⟨block, hmem, buf, rfl⟩ := h.change
  exact pointer_setDiskBytes (holdsNoPointers_of_mem hdist hmem) buf s

theorem PlacedIn.sound (hsound : Sound ext2 ino) : Sound ext2' ino := by
  have hpointer := h.pointer_eq hsound.directory.distinct
  obtain ⟨block, hmem, buf, rfl⟩ := h.change
  refine ⟨h.directory, fun i hi => ?_, hsound.finds.nodup, fun b hb => ?_⟩
  · exact (hpointer (.data i)).trans_ne (hsound.holes i hi)
  · exact (hsound.finds.unused b hb).congr rfl hpointer

end Placed

section Appended
variable (h : AppendedIn ext2 inodeNum ino filename type_ inode block ext2')
include h

theorem AppendedIn.block_mem : block ∈ ext2.found := h.appended.block_mem

theorem AppendedIn.pointer_eq (hcount : dirCount ext2 ino < 12) (s : Slot) :
    pointer ext2' (appendInode ext2 ino block) s = if s = .data (dirCount ext2 ino) then block else pointer ext2 ino s := by
  by_cases hs : s = .data (dirCount ext2 ino)
  · rw [if_pos hs, hs]
    exact h.appended.assigned
  rw [if_neg hs]
  by_cases hsingle : s = .single
  · rw [hsingle]
    exact setBlock_of_ne (by omega) block
  · exact h.appended.other s hs hsingle

section
variable (hsound : Sound ext2 ino) (hcount : dirCount ext2 ino < 12)
include hsound hcount

theorem AppendedIn.liveEntries_eq (hinode : inode ≠ 0) :
    liveEntries ext2' (appendInode ext2 ino block) = liveEntries ext2 ino ++ [(filename, inode, type_)] := by
  have happ := h.appended
  rw [← hsound.length_dirBlocks] at happ
  rw [(happ.isDirectory hsound.finds hsound.directory hcount hsound.holes).2, live_cons_of_ne hinode]
  rfl

theorem AppendedIn.dirCount_eq : dirCount ext2' (appendInode ext2 ino block) = dirCount ext2 ino + 1 := by
  rw [dirCount, h.appended.blockSize]
  exact divRoundUp_size_add hsound.directory.pos hsound.directory.lt hcount

theorem AppendedIn.finds : Finds ext2' (appendInode ext2 ino block) := by
  have hnodup := hsound.finds.nodup
  rw [h.found, nodup_cons] at hnodup
  refine ⟨hnodup.2, fun b hb => ?_⟩
  have hunused := hsound.finds.unused b (by rw [h.found]; exact mem_cons_of_mem _ hb)
  refine ⟨hunused.1, fun s hs => ?_⟩
  rw [h.pointer_eq hcount]
  split_ifs
  · rintro rfl
    exact hnodup.1 hb
  · exact hunused.2 s ((Slot.valid_congr h.appended.blockSize s).1 hs)

theorem AppendedIn.sound : Sound ext2' (appendInode ext2 ino block) := by
  have happ := h.appended
  rw [← hsound.length_dirBlocks] at happ
  refine ⟨(happ.isDirectory hsound.finds hsound.directory hcount hsound.holes).1, fun i hi => ?_,
    h.finds hsound hcount⟩
  rw [h.dirCount_eq hsound hcount] at hi
  refine (h.pointer_eq hcount (.data i)).trans_ne ?_
  split_ifs with heq
  · exact (hsound.finds.unused block h.block_mem).1
  · exact hsound.holes i (by
      have hne : i ≠ dirCount ext2 ino := fun hi => heq (congrArg Slot.data hi)
      omega)

end

end Appended

section Inserted
variable (h : Inserted ext2 inodeNum ino filename type_ inode ext2' ino') (hsound : Sound ext2 ino)
  (hcount : dirCount ext2 ino < 12)
include h

theorem Inserted.blockSize : ext2'.blockSize = ext2.blockSize := by
  cases h with
  | placed _ hplaced =>
    obtain ⟨block, -, buf, rfl⟩ := hplaced.change
    rfl
  | appended _ happ => exact happ.appended.blockSize

theorem Inserted.inodes_of_ne {i : UInt32} (hi : i ≠ inodeNum) : ext2'.inodes i = ext2.inodes i := by
  cases h with
  | placed _ hplaced =>
    obtain ⟨block, -, buf, rfl⟩ := hplaced.change
    rfl
  | appended _ happ =>
    rw [happ.inodes]
    exact update_of_ne hi _ _

theorem Inserted.permission_eq : ino'.permission = ino.permission := by
  cases h with
  | placed | appended => rfl

theorem Inserted.inodes_self (hino : ino = ext2.inodes inodeNum) : ext2'.inodes inodeNum = ino' := by
  cases h with
  | placed _ hplaced =>
    obtain ⟨block, -, buf, rfl⟩ := hplaced.change
    exact hino.symm
  | appended _ happ =>
    rw [happ.inodes]
    exact update_self ..

theorem Inserted.found_sublist : ext2'.found.Sublist ext2.found := by
  cases h with
  | placed _ hplaced =>
    obtain ⟨block, -, buf, rfl⟩ := hplaced.change
    exact List.Sublist.refl _
  | appended _ happ =>
    rw [happ.found]
    exact sublist_cons_self ..

theorem Inserted.disk_eq (hpointer : ∀ s : Slot, s.Valid ext2 → pointer ext2 ino s ≠ b) (hfound : b ∉ ext2.found) :
    ext2'.disk b = ext2.disk b := by
  cases h with
  | placed _ hplaced =>
    obtain ⟨block, hmem, buf, rfl⟩ := hplaced.change
    refine setDiskBytes_of_ne ?_ buf
    rintro rfl
    obtain ⟨s, hvalid, heq, -⟩ := exists_slot_of_mem hmem
    exact hpointer s hvalid heq
  | appended _ happ =>
    refine happ.disk b ?_
    rintro rfl
    exact hfound happ.block_mem

include hsound hcount

theorem Inserted.sound : Sound ext2' ino' := by
  cases h with
  | placed _ hplaced => exact hplaced.sound hsound
  | appended _ happ => exact happ.sound hsound hcount

theorem Inserted.live (hinode : inode ≠ 0) :
    InsertsLive (filename, inode, type_) (liveEntries ext2 ino) (liveEntries ext2' ino') := by
  cases h with
  | placed _ hplaced => exact hplaced.live
  | appended _ happ =>
    exact ⟨_, [], (append_nil _).symm, happ.liveEntries_eq hsound hcount hinode⟩

theorem Inserted.pointer_cases (s : Slot) :
    pointer ext2' ino' s = pointer ext2 ino s ∨ pointer ext2' ino' s ∈ ext2.found := by
  cases h with
  | placed _ hplaced => exact .inl (hplaced.pointer_eq hsound.directory.distinct s)
  | appended _ happ =>
    rw [happ.pointer_eq hcount]
    split_ifs
    · exact .inr happ.block_mem
    · exact .inl rfl

theorem Inserted.dirCount_le : dirCount ext2' ino' ≤ dirCount ext2 ino + 1 := by
  cases h with
  | placed _ hplaced =>
    obtain ⟨block, -, buf, rfl⟩ := hplaced.change
    exact Nat.le_succ _
  | appended _ happ => exact (happ.dirCount_eq hsound hcount).le

end Inserted

/-! ## The call -/

theorem appendBlock_direct {scan : Scan} (hnum : scan.blockNum = dirCount ext2 ino) (hcount : dirCount ext2 ino < 12)
    (h : appendBlock ext2 inodeNum ino scan filename type_ inode = .ok (ext2', ino')) :
    ∃ block, ext2.found = block :: ext2'.found ∧ ino' = appendInode ext2 ino block ∧
      ext2'.inodes = update ext2.inodes inodeNum ino' ∧ ∀ b, b ≠ block → ext2'.disk b = ext2.disk b := by
  obtain ⟨block, rest, ext2₂, ino₂, control₂, hfound, -, hassign, hino, hext2⟩ := appendBlock_eq_ok h
  rw [ext2BlockAssign_direct (by omega)] at hassign
  obtain ⟨hext2₂, hino₂, -⟩ := by simpa using hassign
  subst hext2 hext2₂
  refine ⟨block, hfound, ?_, update_idem .., fun b hb => setDiskBytes_of_ne hb _⟩
  rw [hino, ← hino₂, appendInode, hnum]
  rfl

theorem ext2DirAllocate_inserted {r : Bool} (hsound : Sound ext2 ino) (hcount : dirCount ext2 ino < 12)
    (hname : filename.length < 256) (hinode : inode ≠ 0) (hnew : ∀ x ∈ liveEntries ext2 ino, x.1 ≠ filename)
    (h : ext2DirAllocate ext2 inodeNum ino filename type_ inode = .ok (r, ext2', ino')) :
    r = true ∧ Inserted ext2 inodeNum ino filename type_ inode ext2' ino' := by
  have hdir := hsound.directory
  have hnone : ∀ e ∈ entriesOf ext2 (dirBlocks ext2 ino), ¬ e.Is filename := by
    intro e he hmatch
    refine hnew (e.filename, e.inode, e.type_) ?_ hmatch.2
    obtain ⟨before, after, hsplit⟩ := append_of_mem he
    rw [liveEntries, hsplit, live_append, live_cons_of_ne hmatch.1]
    exact mem_append_right _ mem_cons_self
  have hmem {before after : List Ext2Directory} {e : Ext2Directory}
      (hfirst : FirstStop filename (entriesOf ext2 (dirBlocks ext2 ino)) before e after) :
      e ∈ entriesOf ext2 (dirBlocks ext2 ino) := by
    rw [hfirst.1]
    exact mem_append_right _ mem_cons_self
  cases ext2DirAllocate_result hdir.pos hdir.distinct hdir.wellFormed h with
  | taken hfirst hmatch => exact absurd hmatch (hnone _ (hmem hfirst))
  | @placed block back before e after mid front hsplit hfirst hmatch hbefore hafter =>
    have hroom := hfirst.2.2.resolve_left hmatch
    have hblock := mem_of_split hsplit
    refine ⟨rfl, .placed ⟨e, hmem hfirst, hroom⟩ ⟨⟨block, hblock, _, rfl⟩, ?_, ?_⟩⟩
    · exact hdir.setDiskBytes hblock (chain_placed hbefore hafter hroom hname type_ inode).wellFormed
    · exact liveEntries_placed hdir.distinct hname hinode hsplit hfirst hmatch hbefore hafter type_
  | @appended scan _ _ hstops hnum hserves hholds happend =>
    rw [hsound.length_dirBlocks] at hnum
    obtain ⟨block, hfound, rfl, hinodes, hdisk⟩ := appendBlock_direct hnum hcount happend
    obtain ⟨block', happ⟩ := appendBlock_appended hdir.distinct hsound.finds hserves hholds
      hdir.aligned hdir.lt hname happend
    have hblock : block' = block := by
      rcases happ.single with ⟨-, hfound'⟩ | ⟨-, hfound'⟩ <;>
        exact (List.cons.inj (hfound'.symm.trans hfound)).1
    rw [hblock, hnum] at happ
    exact ⟨rfl, .appended (fun e he hroom => hstops e he (.inr hroom)) ⟨happ, hfound, hinodes, hdisk⟩⟩

end CoreX.Ext2

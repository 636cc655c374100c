import CoreX.Ext2.Allocate

/-!
# A new block of a directory

When no entry has room, `ext2DirAllocate` finds a block, fills it with the new entry and assigns it to the
index behind the last block (`appendBlock_appended`).
-/

namespace CoreX.Ext2

open Memory List

variable {ext2 ext2' : Ext2} {ino ino' : Ext2Inode} {filename : Bytes} {type_ : UInt8}
  {inode inodeNum block : UInt32} {index : Nat} {entry : Ext2Directory} {scan : Scan}

/-- The blocks that will be found are distinct and not the inode's. -/
structure Finds (ext2 : Ext2) (ino : Ext2Inode) : Prop where
  nodup : ext2.found.Nodup
  unused : ∀ b ∈ ext2.found, Unused ext2 ino b

/-- The entry fills the block, which is assigned to the index. The other pointers are where they were, apart
from a singly indirect block that may be new, and no other data block has changed. -/
structure Appended (ext2 : Ext2) (ino : Ext2Inode) (inodeNum : UInt32) (index : Nat) (block : UInt32)
    (entry : Ext2Directory) (ext2' : Ext2) (ino' : Ext2Inode) : Prop where
  blockSize : ext2'.blockSize = ext2.blockSize
  inodes : ext2'.inodes inodeNum = ino'
  size : ino'.size = ino.size + UInt32.ofNat ext2.blockSize
  assigned : pointer ext2' ino' (.data index) = block
  other : ∀ s : Slot, s ≠ .data index → s ≠ .single → pointer ext2' ino' s = pointer ext2 ino s
  single : (pointer ext2' ino' .single = pointer ext2 ino .single ∧ ext2.found = block :: ext2'.found) ∨
    (pointer ext2 ino .single = 0 ∧ ext2.found = block :: pointer ext2' ino' .single :: ext2'.found)
  entries : Chain (ext2'.disk block) 0 [entry] ext2'.blockSize
  disk : ∀ b, b ≠ block → b ≠ pointer ext2' ino' .single → ext2'.disk b = ext2.disk b

theorem pointer_eq (hsize : ext2'.blockSize = ext2.blockSize) (hdisk : ext2'.disk = ext2.disk)
    (hblocks : ino'.blocks = ino.blocks) (s : Slot) : pointer ext2' ino' s = pointer ext2 ino s :=
  pointer_congr hsize hblocks (fun _ _ _ _ => congrFun hdisk _) s

def filled (ext2 : Ext2) (rest : List UInt32) (block : UInt32) (names : Buf) (entry : Ext2Directory) : Ext2 :=
  setDiskBytes { ext2 with found := rest } block (storeEntry names 0 entry)

theorem appendBlock_eq_ok (h : appendBlock ext2 inodeNum ino scan filename type_ inode = .ok (ext2', ino')) :
    ∃ block rest ext2₂ ino₂ control₂, ext2.found = block :: rest ∧ 8 + filename.length ≤ ext2.blockSize ∧
      ext2BlockAssign (filled ext2 rest block scan.names ⟨inode, ext2.blockSize, type_, filename⟩) ino inodeNum
        scan.control scan.blockNum block = .ok (ext2₂, ino₂, control₂) ∧ ino' = { ino₂ with
        numSectors := ino₂.numSectors + UInt32.ofNat ext2₂.blockSize / 512
        size := ino₂.size + UInt32.ofNat ext2₂.blockSize } ∧ ext2' = ext2InodeModifyM ext2₂ inodeNum ino' := by
  obtain ⟨⟨block, ext2₁⟩, hfind, h₁⟩ := bind_eq_ok.1 h
  obtain ⟨names, hput, h₂⟩ := bind_eq_ok.1 h₁
  obtain ⟨⟨ext2₂, ino₂, control₂⟩, hassign, h₃⟩ := bind_eq_ok.1 h₂
  obtain ⟨rest, hfound, rfl⟩ : ∃ rest, ext2.found = block :: rest ∧ ext2₁ = { ext2 with found := rest } := by
    rw [ext2BlockFind] at hfind
    cases hrest : ext2.found with
    | nil => simp [hrest] at hfind
    | cons b rest =>
      rw [hrest] at hfind
      obtain ⟨rfl, rfl⟩ := by simpa using hfind
      exact ⟨rest, rfl, rfl⟩
  obtain ⟨hfits, rfl⟩ : 8 + filename.length ≤ ext2.blockSize ∧
      names = storeEntry scan.names 0 ⟨inode, ext2.blockSize, type_, filename⟩ := by
    rw [dirPut] at hput
    by_cases hbounds : 0 + 8 + filename.length ≤ ext2.blockSize
    · rw [if_pos hbounds] at hput
      exact ⟨by omega, (Except.ok.inj hput).symm⟩
    · rw [if_neg hbounds] at hput
      exact absurd hput (by simp)
  have hresult := Prod.mk.inj (Except.ok.inj h₃)
  refine ⟨block, rest, ext2₂, ino₂, control₂, hfound, hfits, hassign, hresult.2.symm, ?_⟩
  rw [← hresult.2]
  exact hresult.1.symm

theorem Assigned.ne_single_of_unused {curr : Nat} {val b : UInt32}
    (h : Assigned ext2 ino inodeNum curr val ext2' ino') (hunused : Unused ext2 ino b)
    (hfound : b ∉ ext2.found) : b ≠ pointer ext2' ino' .single := by
  rcases h.single with ⟨hsame, -⟩ | ⟨-, hnew⟩
  · rw [hsame]
    exact (hunused.2 .single trivial).symm
  · rw [hnew] at hfound
    exact fun heq => hfound (heq ▸ mem_cons_self)

theorem appendBlock_appended (hdist : Distinct ext2 ino) (hfinds : Finds ext2 ino)
    (hserves : Serves ext2 ino scan.control) (hholds : Holds ext2 ino scan.control) (haligned : 4 ∣ ext2.blockSize)
    (hlt : ext2.blockSize < 2 ^ 16) (hname : filename.length < 256)
    (h : appendBlock ext2 inodeNum ino scan filename type_ inode = .ok (ext2', ino')) :
    ∃ block, Appended ext2 ino inodeNum scan.blockNum block ⟨inode, ext2.blockSize, type_, filename⟩ ext2' ino' := by
  obtain ⟨block, rest, ext2₂, ino₂, control₂, hfound, hfits, hassign, hino, hext2⟩ := appendBlock_eq_ok h
  have hunused : Unused ext2 ino block := hfinds.unused block (by rw [hfound]; exact mem_cons_self)
  have hnodup : block ∉ rest := (nodup_cons.1 (hfound ▸ hfinds.nodup)).1
  set entry : Ext2Directory := ⟨inode, ext2.blockSize, type_, filename⟩
  set ext2₁ := filled ext2 rest block scan.names entry
  have hpointer₁ : ∀ s, pointer ext2₁ ino s = pointer ext2 ino s :=
    pointer_setDiskBytes hunused.holdsNoPointers (storeEntry scan.names 0 entry)
  -- what `ext2BlockAssign` needs of the file system that it is called with
  have hdist₁ : Distinct ext2₁ ino := hdist.congr rfl hpointer₁
  have hfinds₁ : ∀ b, ext2₁.found.head? = some b → Unused ext2₁ ino b := by
    intro b hb
    have hmem : b ∈ ext2.found := by
      rw [hfound]
      exact mem_cons_of_mem _ (mem_of_head? hb)
    exact (hfinds.unused b hmem).congr rfl hpointer₁
  have hserves₁ : Serves ext2₁ ino scan.control :=
    let h := hserves.setDiskBytes hholds hunused.holdsNoPointers (storeEntry scan.names 0 entry)
    ⟨h.tmp1, h.tmp2⟩
  have hset := ext2BlockAssign_assigned (hdist₁.separate hfinds₁) hserves₁.tmp1 hassign
  have hpointer : ∀ s, pointer ext2' ino' s = pointer ext2₂ ino₂ s := by
    subst hino hext2
    exact pointer_eq rfl rfl rfl
  have hne : block ≠ pointer ext2₂ ino₂ .single := hset.ne_single_of_unused (hunused.congr rfl hpointer₁) hnodup
  have hdisk : ext2'.disk = ext2₂.disk := by rw [hext2, ext2InodeModifyM]
  refine ⟨block, ?_, ?_, ?_, ?_, ?_, ?_, ?_, ?_⟩
  · rw [hext2]
    exact hset.blockSize
  · rw [hext2, ext2InodeModifyM]
    exact Function.update_self ..
  · rw [hino, hset.size, hset.blockSize]
    rfl
  · rw [hpointer, hset.assigned]
  · intro s hs hs'
    rw [hpointer, hset.other s hs hs', hpointer₁]
  · rw [hpointer, hfound]
    have hfound' : ext2'.found = ext2₂.found := by rw [hext2, ext2InodeModifyM]
    rw [hfound']
    rcases hset.single with ⟨hsingle, hsame⟩ | ⟨hzero, hnew⟩
    · exact .inl ⟨hsingle.trans (hpointer₁ _), congrArg (block :: ·) hsame.symm⟩
    · exact .inr ⟨(hpointer₁ _).symm.trans hzero, congrArg (block :: ·) hnew⟩
  · have hsize : ext2'.blockSize = ext2.blockSize := by
      rw [hext2]
      exact hset.blockSize
    rw [hdisk, hset.disk block hne, hsize]
    have hblock : ext2₁.disk block = storeEntry scan.names 0 entry := setDiskBytes_self ..
    rw [hblock]
    refine ⟨entryAt_storeEntry scan.names 0 hlt hname, ⟨haligned, ?_⟩, Nat.zero_add _⟩
    simp only [entry, Ext2Directory.minSize, roundUp4]
    omega
  · intro b hb hb'
    rw [hdisk, hset.disk b (by rwa [hpointer] at hb')]
    exact setDiskBytes_of_ne hb _

theorem Appended.block_mem (happ : Appended ext2 ino inodeNum index block entry ext2' ino') :
    block ∈ ext2.found := by
  rcases happ.single with ⟨-, hfound⟩ | ⟨-, hfound⟩ <;> rw [hfound] <;> exact mem_cons_self

section Appended
variable (happ : Appended ext2 ino inodeNum index block entry ext2' ino') (hfinds : Finds ext2 ino)
include happ hfinds

theorem Appended.pointer_ne_block (s : Slot) (hvalid : s.Valid ext2) (hs : s ≠ .data index) :
    pointer ext2' ino' s ≠ block := by
  have hunused := hfinds.unused block happ.block_mem
  by_cases hsingle : s = .single
  · subst hsingle
    rcases happ.single with ⟨hsame, -⟩ | ⟨-, hfound⟩
    · rw [hsame]
      exact hunused.2 .single trivial
    · have hnodup := hfinds.nodup
      rw [hfound] at hnodup
      exact fun heq => (nodup_cons.1 hnodup).1 (heq ▸ mem_cons_self)
  · rw [happ.other s hs hsingle]
    exact hunused.2 s hvalid

section
variable (hdist : Distinct ext2 ino)
include hdist

theorem Appended.pointer_ne_single (s : Slot) (hvalid : s.Valid ext2) (hs : s ≠ .single)
    (hne : pointer ext2' ino' s ≠ 0) : pointer ext2' ino' s ≠ pointer ext2' ino' .single := by
  by_cases hdata : s = .data index
  · rw [hdata, happ.assigned]
    exact (happ.pointer_ne_block hfinds .single trivial (by simp)).symm
  rw [happ.other s hdata hs] at hne ⊢
  rcases happ.single with ⟨hsame, -⟩ | ⟨-, hfound⟩
  · rw [hsame]
    exact fun heq => hs (hdist s .single hvalid trivial hne heq)
  · have hmem : pointer ext2' ino' .single ∈ ext2.found := by
      rw [hfound]
      exact mem_cons_of_mem _ mem_cons_self
    exact (hfinds.unused _ hmem).2 s hvalid

theorem Appended.distinct : Distinct ext2' ino' := by
  intro s t hs ht hne heq
  rw [Slot.valid_congr happ.blockSize] at hs ht
  by_cases hsingle : s = .single
  · by_cases ht' : t = .single
    · rw [hsingle, ht']
    · refine absurd ?_ (happ.pointer_ne_single hfinds hdist t ht ht' (heq ▸ hne))
      rw [← heq, hsingle]
  by_cases ht' : t = .single
  · exact absurd (ht' ▸ heq) (happ.pointer_ne_single hfinds hdist s hs hsingle hne)
  by_cases hdata : s = .data index
  · by_cases ht'' : t = .data index
    · rw [hdata, ht'']
    · refine absurd ?_ (happ.pointer_ne_block hfinds t ht ht'')
      rw [← heq, hdata, happ.assigned]
  by_cases ht'' : t = .data index
  · refine absurd ?_ (happ.pointer_ne_block hfinds s hs hdata)
    rw [heq, ht'', happ.assigned]
  · rw [happ.other s hdata hsingle] at hne heq
    rw [happ.other t ht'' ht'] at heq
    exact hdist s t hs ht hne heq

theorem Appended.disk_blockAt {i : Nat} (hi : i ≠ index) (hne : blockAt ext2 ino i ≠ 0) :
    blockAt ext2' ino' i = blockAt ext2 ino i ∧
      ext2'.disk (blockAt ext2 ino i) = ext2.disk (blockAt ext2 ino i) := by
  have hsame : blockAt ext2' ino' i = blockAt ext2 ino i := happ.other (.data i) (by simpa using hi) (by simp)
  have hvalid : Slot.Valid ext2 (.data i) := lt_capacity_of_blockAt_ne hne
  have hblock : blockAt ext2' ino' i ≠ block := happ.pointer_ne_block hfinds (.data i) hvalid (by simpa using hi)
  have hsingle : blockAt ext2' ino' i ≠ pointer ext2' ino' .single :=
    happ.pointer_ne_single hfinds hdist (.data i) hvalid (by simp) (by rwa [pointer, hsame])
  rw [hsame] at hblock hsingle
  exact ⟨hsame, happ.disk _ hblock hsingle⟩

end

end Appended

end CoreX.Ext2

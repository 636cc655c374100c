import CoreX.Ext2.Insert

/-!
# An entry after another one, with an old inode

`ext2DirAllocate` works on the inode that its caller fetched. `Snapshot` lists what that can be while another call
enters a name: the inode before, the one with a pointer that its size does not cover yet, and the one after.
-/

namespace CoreX.Ext2

open List

variable {ext2 ext2₁ ext2₂ : Ext2} {ino ino₁ ino₂ copy : Ext2Inode} {first second : Bytes} {type_ type₂ : UInt8}
  {inode inode₂ d block : UInt32}

section
variable (ext2 ino) (filename : Bytes)

/-- Some entry has room behind it for the name. -/
def HasRoomFor : Prop :=
  ∃ e ∈ entriesOf ext2 (dirBlocks ext2 ino), e.HasRoom filename

def Snapshot (copy : Ext2Inode) : Prop :=
  copy = ino ∨ ¬ HasRoomFor ext2 ino filename ∧ ∃ block rest, ext2.found = block :: rest ∧
    (copy = ino.setBlock (dirCount ext2 ino) block ∨ copy = appendInode ext2 ino block)

end

/-! ## Old inodes -/

theorem PlacedIn.extend {extra : List UInt32} (h : PlacedIn ext2₁ copy second type_ inode ext2₂)
    (hdist : Distinct ext2₁ copy) (hdir : IsDirectory ext2₁ ino)
    (hblocks : dirBlocks ext2₁ ino = dirBlocks ext2₁ copy ++ extra) :
    PlacedIn ext2₁ ino second type_ inode ext2₂ := by
  obtain ⟨block, hmem, buf, rfl⟩ := h.change
  have hmem' : block ∈ dirBlocks ext2₁ ino := by
    rw [hblocks]
    exact mem_append_left _ hmem
  have hkept : dirBlocks (setDiskBytes ext2₁ block buf) copy = dirBlocks ext2₁ copy :=
    dirBlocks_setDiskBytes (holdsNoPointers_of_mem hdist hmem) buf
  have hkept' : dirBlocks (setDiskBytes ext2₁ block buf) ino = dirBlocks ext2₁ copy ++ extra := by
    rw [dirBlocks_setDiskBytes (holdsNoPointers_of_mem hdir.distinct hmem') buf, hblocks]
  have hbuf : WellFormed ext2₁.blockSize buf := by
    have hwellFormed := h.directory.wellFormed block (by rw [hkept]; exact hmem)
    rwa [setDiskBytes_self] at hwellFormed
  have hextra : entriesOf (setDiskBytes ext2₁ block buf) extra = entriesOf ext2₁ extra := by
    refine entriesOf_congr (show (setDiskBytes ext2₁ block buf).blockSize = ext2₁.blockSize from rfl) fun b hb => ?_
    refine setDiskBytes_of_ne ?_ buf
    rintro rfl
    have hnodup : (dirBlocks ext2₁ ino).Nodup := nodup_blocksFrom hdir.distinct _ _
    rw [hblocks] at hnodup
    exact (nodup_append.1 hnodup).2.2 b hmem b hb rfl
  refine ⟨⟨block, hmem', buf, rfl⟩, hdir.setDiskBytes hmem' hbuf, ?_⟩
  obtain ⟨front, back, hbefore, hafter⟩ := h.live
  rw [liveEntries] at hbefore hafter
  rw [hkept] at hafter
  refine ⟨front, back ++ Ext2.live (entriesOf ext2₁ extra), ?_, ?_⟩
  · rw [liveEntries, hblocks, entriesOf_append, live_append, hbefore, append_assoc]
  · rw [liveEntries, hkept', entriesOf_append, live_append, hafter, hextra, append_assoc, cons_append]

section Appended
variable (h : AppendedIn ext2 d ino first type_ inode block ext2₁) (hsound : Sound ext2 ino)
  (hcount : dirCount ext2 ino < 12)
include h hsound

theorem AppendedIn.untouched : Untouched ext2 ino ext2₁ :=
  ⟨h.appended.blockSize, fun s hs _ => h.disk _ ((hsound.finds.unused block h.block_mem).2 s hs)⟩

include hcount

theorem AppendedIn.dirBlocks_eq : dirBlocks ext2₁ (appendInode ext2 ino block) = dirBlocks ext2 ino ++ [block] := by
  have happ := h.appended
  rw [← hsound.length_dirBlocks] at happ
  exact happ.dirBlocks_eq hsound.finds hsound.directory hcount hsound.holes

theorem AppendedIn.sound_pointer : Sound ext2₁ (ino.setBlock (dirCount ext2 ino) block) ∧
    dirBlocks ext2₁ (ino.setBlock (dirCount ext2 ino) block) = dirBlocks ext2 ino := by
  set copy := ino.setBlock (dirCount ext2 ino) block
  have hsound₁ := h.sound hsound hcount
  have hsize := h.appended.blockSize
  have hpointer : ∀ s, pointer ext2₁ copy s = pointer ext2₁ (appendInode ext2 ino block) s :=
    Ext2.pointer_eq rfl rfl rfl
  have hdirCount : dirCount ext2₁ copy = dirCount ext2 ino := by
    rw [dirCount, hsize]
    rfl
  have hold : ∀ i < dirCount ext2 ino, blockAt ext2₁ copy i = blockAt ext2 ino i := by
    intro i hi
    refine ((hpointer (.data i)).trans (h.pointer_eq hcount (.data i))).trans (if_neg ?_)
    exact fun heq => absurd (Slot.data.inj heq) (by omega)
  have hblocks : dirBlocks ext2₁ copy = dirBlocks ext2 ino := by
    have hcopy : Word.divRoundUp copy.size.toNat ext2₁.blockSize = dirCount ext2 ino := hdirCount
    rw [dirBlocks, hcopy, dirBlocks, dirCount]
    exact blocksFrom_congr fun i _ hi => hold i (by rw [dirCount]; omega)
  refine ⟨⟨⟨hsound₁.directory.pos, hsound₁.directory.aligned, hsound₁.directory.lt,
    hsound₁.directory.distinct.congr rfl hpointer, ?_, fun b hb => ?_⟩, fun i hi => ?_,
    hsound₁.finds.nodup, fun b hb => (hsound₁.finds.unused b hb).congr rfl hpointer⟩, hblocks⟩
  · rw [hsize, capacity_congr hsize]
    exact hsound.directory.reach
  · rw [hblocks] at hb
    rw [hsize, (h.untouched hsound).disk_of_mem hb]
    exact hsound.directory.wellFormed b hb
  · rw [hdirCount] at hi
    rw [hold i hi]
    exact hsound.holes i hi

/-- Whatever was fetched is a directory. It has the blocks from before, and those of the directory begin with its
blocks. -/
theorem AppendedIn.snapshot (hcopy : Snapshot ext2 ino first copy) :
    Sound ext2₁ copy ∧ dirCount ext2₁ copy ≤ dirCount ext2 ino + 1 ∧
      ∃ extra extra', dirBlocks ext2₁ copy = dirBlocks ext2 ino ++ extra ∧
        dirBlocks ext2₁ (appendInode ext2 ino block) = dirBlocks ext2₁ copy ++ extra' := by
  have hsize := h.appended.blockSize
  have hblocks := h.dirBlocks_eq hsound hcount
  rcases hcopy with rfl | ⟨-, block', rest, hfound, hcopy⟩
  · have hkept := h.untouched hsound
    have hsame := hkept.dirBlocks_eq
    refine ⟨hkept.sound hsound ?_, ?_, [], [block], ?_, ?_⟩
    · rw [h.found]
      exact sublist_cons_self ..
    · rw [dirCount, dirCount, hsize]
      exact Nat.le_succ _
    · rw [hsame, append_nil]
    · rw [hblocks, hsame]
  obtain rfl : block' = block := (List.cons.inj (hfound.symm.trans h.found)).1
  rcases hcopy with rfl | rfl
  · obtain ⟨hsound', hsame⟩ := h.sound_pointer hsound hcount
    refine ⟨hsound', ?_, [], [block'], ?_, ?_⟩
    · rw [dirCount, dirCount, hsize]
      exact Nat.le_succ _
    · rw [hsame, append_nil]
    · rw [hblocks, hsame]
  · exact ⟨h.sound hsound hcount, (h.dirCount_eq hsound hcount).le, [block'], [], hblocks, (append_nil _).symm⟩

end Appended

/-! ## The second entry -/

theorem InsertsLive.ne_of_ne {name : Bytes} {before after : List (Bytes × UInt32 × UInt8)}
    (h : InsertsLive (first, inode, type_) before after) (hold : ∀ x ∈ before, x.1 ≠ name) (hne : first ≠ name) :
    ∀ x ∈ after, x.1 ≠ name := by
  obtain ⟨front, back, rfl, rfl⟩ := h
  intro x hx
  rcases mem_append.1 hx with hx | hx
  · exact hold x (mem_append_left _ hx)
  rcases mem_cons.1 hx with rfl | hx
  · exact hne
  · exact hold x (mem_append_right _ hx)

section
variable (hsound : Sound ext2 (ext2.inodes d)) (hcount : dirCount ext2 (ext2.inodes d) < 11)
include hsound hcount

/-- **The second of two entries.** The first call had the inode of the directory, and the second one some inode from
that time. If one of the two names has room in the blocks from before, the second entry is inserted too. -/
theorem inserted_second {r : Bool} (hfirst : Inserted ext2 d (ext2.inodes d) first type_ inode ext2₁ ino₁)
    (hinode : inode ≠ 0) (hcopy : Snapshot ext2 (ext2.inodes d) first copy)
    (hroom : HasRoomFor ext2 (ext2.inodes d) first ∨ HasRoomFor ext2 (ext2.inodes d) second)
    (hname : second.length < 256) (hinode₂ : inode₂ ≠ 0) (hne : first ≠ second)
    (hnew : ∀ x ∈ liveEntries ext2 (ext2.inodes d), x.1 ≠ second)
    (h : ext2DirAllocate ext2₁ d copy second type₂ inode₂ = .ok (r, ext2₂, ino₂)) :
    IsDirectory ext2₂ (ext2₂.inodes d) ∧ InsertsLive (second, inode₂, type₂)
      (liveEntries ext2₁ (ext2₁.inodes d)) (liveEntries ext2₂ (ext2₂.inodes d)) := by
  have hself := hfirst.inodes_self rfl
  have hsound₁ := hfirst.sound hsound (by omega)
  have hnew₁ := (hfirst.live hsound (by omega) hinode).ne_of_ne hnew hne
  cases hfirst with
  | placed hfits hplaced =>
    -- the inode has not changed
    have hcopy : copy = ext2.inodes d := by
      rcases hcopy with hcopy | ⟨hnot, -⟩
      · exact hcopy
      · exact absurd hfits hnot
    subst hcopy
    have hcount₁ : dirCount ext2₁ (ext2.inodes d) < 12 := by
      obtain ⟨b, -, buf, rfl⟩ := hplaced.change
      exact Nat.lt_succ_of_lt hcount
    have hins := (ext2DirAllocate_inserted hsound₁ hcount₁ hname hinode₂ hnew₁ h).2
    rw [hins.inodes_self hself.symm, hself]
    exact ⟨(hins.sound hsound₁ hcount₁).directory, hins.live hsound₁ hcount₁ hinode₂⟩
  | @appended block _ hfull happ =>
    have hfits : HasRoomFor ext2 (ext2.inodes d) second := hroom.resolve_left fun ⟨e, he, hroom⟩ => hfull e he hroom
    obtain ⟨hsound', hcount', extra, extra', hold, hblocks⟩ := happ.snapshot hsound (by omega) hcopy
    have hlive' : ∀ x ∈ liveEntries ext2₁ copy, x.1 ≠ second := by
      intro x hx
      apply hnew₁ x
      rw [liveEntries, hblocks, entriesOf_append, live_append]
      exact mem_append_left _ hx
    have hins := (ext2DirAllocate_inserted hsound' (by omega) hname hinode₂ hlive' h).2
    have hroom' : ∃ e ∈ entriesOf ext2₁ (dirBlocks ext2₁ copy), e.HasRoom second := by
      obtain ⟨e, he, hroom⟩ := hfits
      refine ⟨e, ?_, hroom⟩
      rw [hold, entriesOf_append, ← (happ.untouched hsound).dirBlocks_eq,
        (happ.untouched hsound).entriesOf_eq]
      exact mem_append_left _ he
    cases hins with
    | placed _ hplaced =>
      have hplaced' := hplaced.extend hsound'.directory.distinct hsound₁.directory hblocks
      have hinodes : ext2₂.inodes = ext2₁.inodes := by
        obtain ⟨b, -, buf, rfl⟩ := hplaced.change
        rfl
      rw [hinodes, hself]
      exact ⟨hplaced'.directory, hplaced'.live⟩
    | appended hfull' _ =>
      obtain ⟨e, he, hroom⟩ := hroom'
      exact absurd hroom (hfull' e he)

theorem ext2Traverse_second {r₁ r₂ : Bool} (hcopy : Snapshot ext2 (ext2.inodes d) first copy)
    (hroom : HasRoomFor ext2 (ext2.inodes d) first ∨ HasRoomFor ext2 (ext2.inodes d) second)
    (hname : first.length < 256) (hname₂ : second.length < 256) (hinode : inode ≠ 0) (hinode₂ : inode₂ ≠ 0)
    (hne : first ≠ second) (habsent : ext2Traverse ext2 d first = .ok 0)
    (habsent₂ : ext2Traverse ext2 d second = .ok 0)
    (h₁ : ext2DirAllocate ext2 d (ext2.inodes d) first type_ inode = .ok (r₁, ext2₁, ino₁))
    (h₂ : ext2DirAllocate ext2₁ d copy second type₂ inode₂ = .ok (r₂, ext2₂, ino₂)) :
    IsDirectory ext2₂ (ext2₂.inodes d) ∧ ext2Traverse ext2₂ d first = .ok inode ∧
      ext2Traverse ext2₂ d second = .ok inode₂ ∧
      ∀ name c, ext2Traverse ext2 d name = .ok c → c ≠ 0 → ext2Traverse ext2₂ d name = .ok c := by
  have hnew := ne_of_ext2Traverse_eq_zero hsound.directory habsent
  have hnew₂ := ne_of_ext2Traverse_eq_zero hsound.directory habsent₂
  have hfirst := (ext2DirAllocate_inserted hsound (by omega) hname hinode hnew h₁).2
  have hself := hfirst.inodes_self rfl
  have hsound₁ : Sound ext2₁ (ext2₁.inodes d) := hself ▸ hfirst.sound hsound (by omega)
  have hlive₁ : InsertsLive (first, inode, type_) (liveEntries ext2 (ext2.inodes d))
      (liveEntries ext2₁ (ext2₁.inodes d)) := hself ▸ hfirst.live hsound (by omega) hinode
  obtain ⟨hdir₂, hlive₂⟩ := inserted_second hsound hcount hfirst hinode hcopy hroom hname₂ hinode₂ hne hnew₂ h₂
  obtain ⟨hfound₁, hother₁⟩ := ext2Traverse_inserts hsound.directory hsound₁.directory hlive₁ hnew
  obtain ⟨hfound₂, hother₂⟩ := ext2Traverse_inserts hsound₁.directory hdir₂ hlive₂ (hlive₁.ne_of_ne hnew₂ hne)
  refine ⟨hdir₂, (hother₂ first hne).trans hfound₁, hfound₂, fun name c hc hzero => ?_⟩
  have hold : ∀ other, ext2Traverse ext2 d other = .ok 0 → name ≠ other := by
    rintro other hother rfl
    exact hzero (Except.ok.inj (hc.symm.trans hother))
  rw [hother₂ name (hold second habsent₂), hother₁ name (hold first habsent), hc]

end

end CoreX.Ext2

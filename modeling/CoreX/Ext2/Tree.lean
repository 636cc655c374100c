import CoreX.Ext2.Insert
import CoreX.Ext2.Path

/-!
# The directories of a file system

A set of directories that share no block (`Tree`). An entry that is inserted in one of them leaves the others as they
were, and so does an inode that is stored for none of them. A new inode without blocks is an empty directory.
-/

namespace CoreX.Ext2

variable {ext2 ext2' : Ext2} {dirs : UInt32 → Prop} {ino ino' : Ext2Inode} {filename : Bytes} {type_ : UInt8}
  {inode d n d' : UInt32}

structure Tree (ext2 : Ext2) (dirs : UInt32 → Prop) : Prop where
  sound : ∀ d, dirs d → Sound ext2 (ext2.inodes d)
  apart : ∀ d d', dirs d → dirs d' → d ≠ d' → ∀ s t : Slot, s.Valid ext2 → t.Valid ext2 →
    pointer ext2 (ext2.inodes d) s ≠ 0 → pointer ext2 (ext2.inodes d) s ≠ pointer ext2 (ext2.inodes d') t

section Insert
variable (htree : Tree ext2 dirs) (hd : dirs d) (hcount : dirCount ext2 (ext2.inodes d) < 12)
  (h : Inserted ext2 d (ext2.inodes d) filename type_ inode ext2' ino')
include htree hd h

theorem Tree.untouched (hd' : dirs d') (hne : d' ≠ d) : Untouched ext2 (ext2.inodes d') ext2' := by
  refine ⟨h.blockSize, fun s hs hzero => h.disk_eq (fun t ht heq => ?_) fun hfound => ?_⟩
  · exact htree.apart d' d hd' hd hne s t hs ht hzero heq.symm
  · exact ((htree.sound d' hd').finds.unused _ hfound).2 s hs rfl

theorem Tree.liveEntries_of_ne (hd' : dirs d') (hne : d' ≠ d) :
    liveEntries ext2' (ext2'.inodes d') = liveEntries ext2 (ext2.inodes d') := by
  rw [h.inodes_of_ne hne]
  exact (htree.untouched hd h hd' hne).liveEntries_eq

include hcount

theorem Tree.insert : Tree ext2' dirs := by
  have hself := h.inodes_self rfl
  have hsound := htree.sound d hd
  have hother {d' : UInt32} (hne : d' ≠ d) : ext2'.inodes d' = ext2.inodes d' := h.inodes_of_ne hne
  -- a pointer of the directory is an old one or a block that was found, which no directory uses
  have happart {d' : UInt32} (hd' : dirs d') (hne : d' ≠ d) {s t : Slot} (hs : s.Valid ext2) (ht : t.Valid ext2)
      (hzero : pointer ext2 (ext2.inodes d') s ≠ 0) : pointer ext2 (ext2.inodes d') s ≠ pointer ext2' ino' t := by
    intro heq
    rcases h.pointer_cases hsound hcount t with hold | hfound
    · exact htree.apart d' d hd' hd hne s t hs ht hzero (heq.trans hold)
    · exact ((htree.sound d' hd').finds.unused _ hfound).2 s hs heq
  refine ⟨fun d' hd' => ?_, fun a b ha hb hab s t hs ht hzero => ?_⟩
  · by_cases hne : d' = d
    · rw [hne, hself]
      exact h.sound hsound hcount
    · rw [hother hne]
      exact (htree.untouched hd h hd' hne).sound (htree.sound d' hd') h.found_sublist
  · rw [Slot.valid_congr h.blockSize] at hs ht
    by_cases had : a = d
    · have hbd : b ≠ d := fun heq => hab (had.trans heq.symm)
      have hpointer := (htree.untouched hd h hb hbd).pointer_eq t
      rw [had, hself] at hzero ⊢
      rw [hother hbd, hpointer]
      intro heq
      exact happart hb hbd ht hs (heq ▸ hzero) heq.symm
    · have hpointer := (htree.untouched hd h ha had).pointer_eq s
      rw [hother had, hpointer] at hzero ⊢
      by_cases hbd : b = d
      · rw [hbd, hself]
        exact happart ha had hs ht hzero
      · rw [hother hbd, (htree.untouched hd h hb hbd).pointer_eq t]
        exact htree.apart a b ha hb hab s t hs ht hzero

theorem Tree.ext2Traverse_insert (hinode : inode ≠ 0)
    (hnew : ∀ x ∈ liveEntries ext2 (ext2.inodes d), x.1 ≠ filename) :
    ext2Traverse ext2' d filename = .ok inode ∧ ∀ d' name, dirs d' → ¬ (d' = d ∧ name = filename) →
      ext2Traverse ext2' d' name = ext2Traverse ext2 d' name := by
  have hself := h.inodes_self rfl
  have hdir' := (htree.insert hd hcount h).sound
  have hlive := h.live (htree.sound d hd) hcount hinode
  rw [← hself] at hlive
  have hinserts := ext2Traverse_inserts (htree.sound d hd).directory (hdir' d hd).directory hlive hnew
  refine ⟨hinserts.1, fun d' name hd' hother => ?_⟩
  by_cases hne : d' = d
  · subst hne
    exact hinserts.2 name fun hname => hother ⟨rfl, hname⟩
  · rw [ext2Traverse_eq (hdir' d' hd').directory, ext2Traverse_eq (htree.sound d' hd').directory,
      htree.liveEntries_of_ne hd h hd' hne]

end Insert

theorem untouched_modify (ext2 : Ext2) (n : UInt32) (target ino : Ext2Inode) :
    Untouched ext2 ino (ext2InodeModifyM ext2 n target) := ⟨rfl, fun _ _ _ => rfl⟩

theorem inodes_modify_of_ne (hne : d ≠ n) (target : Ext2Inode) :
    (ext2InodeModifyM ext2 n target).inodes d = ext2.inodes d := Function.update_of_ne hne _ _

theorem inodes_modify_self (ext2 : Ext2) (n : UInt32) (target : Ext2Inode) :
    (ext2InodeModifyM ext2 n target).inodes n = target := Function.update_self ..

theorem Sound.modify (h : Sound ext2 ino) (n : UInt32) (target : Ext2Inode) :
    Sound (ext2InodeModifyM ext2 n target) ino :=
  (untouched_modify ext2 n target ino).sound h (List.Sublist.refl _)

theorem Tree.modify (htree : Tree ext2 dirs) (hn : ¬ dirs n) (target : Ext2Inode) :
    Tree (ext2InodeModifyM ext2 n target) dirs := by
  have hsame {d : UInt32} (hd : dirs d) : (ext2InodeModifyM ext2 n target).inodes d = ext2.inodes d :=
    inodes_modify_of_ne (fun heq : d = n => hn (heq ▸ hd)) target
  refine ⟨fun d hd => ?_, fun a b ha hb hab s t hs ht => ?_⟩
  · rw [hsame hd]
    exact (htree.sound d hd).modify n target
  · rw [hsame ha, hsame hb, (untouched_modify ext2 n target _).pointer_eq, (untouched_modify ext2 n target _).pointer_eq]
    exact htree.apart a b ha hb hab s t hs ht

theorem ext2Traverse_modify (hd : IsDirectory ext2 (ext2.inodes d)) (hne : d ≠ n) (target : Ext2Inode)
    (name : Bytes) : ext2Traverse (ext2InodeModifyM ext2 n target) d name = ext2Traverse ext2 d name := by
  have hsame := untouched_modify ext2 n target (ext2.inodes d)
  have hd' : IsDirectory (ext2InodeModifyM ext2 n target) ((ext2InodeModifyM ext2 n target).inodes d) := by
    rw [inodes_modify_of_ne hne]
    exact hsame.isDirectory hd
  rw [ext2Traverse_eq hd', ext2Traverse_eq hd, inodes_modify_of_ne hne, hsame.liveEntries_eq]

/-! ## A new directory -/

def Ext2Inode.IsEmpty (ino : Ext2Inode) : Prop := ino.size = 0 ∧ ∀ i, ino.blocks i = 0

theorem pointer_of_isEmpty (h : ino.IsEmpty) (s : Slot) : pointer ext2 ino s = 0 := by
  cases s with
  | single => exact h.2 12
  | double => exact h.2 13
  | child i => rw [pointer, h.2 13, indirect_zero]
  | data i =>
    simp only [pointer, blockAt, h.2, indirect_zero, ite_self]

section
variable (h : ino.IsEmpty) (hpos : 0 < ext2.blockSize) (hlt : ext2.blockSize < 2 ^ 16)
include h hpos hlt

theorem dirCount_of_isEmpty : dirCount ext2 ino = 0 := by
  rw [dirCount, h.1, Word.divRoundUp_eq hpos (by simp only [UInt32.toNat_zero]; omega), UInt32.toNat_zero, Nat.zero_add]
  exact Nat.div_eq_of_lt (by omega)

theorem liveEntries_of_isEmpty : liveEntries ext2 ino = [] := by
  have hcount := dirCount_of_isEmpty h hpos hlt
  rw [dirCount] at hcount
  rw [liveEntries, dirBlocks, hcount]
  rfl

end

theorem Sound.of_isEmpty (h : Sound ext2 ino) (hempty : ino'.IsEmpty) : Sound ext2 ino' := by
  have hpos := h.directory.pos
  have hlt := h.directory.lt
  have hcount := dirCount_of_isEmpty hempty hpos hlt
  refine ⟨⟨hpos, h.directory.aligned, hlt, fun s t _ _ hne => ?_, ?_, fun b hb => ?_⟩, fun i hi => ?_,
    h.finds.nodup, fun b hb => ?_⟩
  · exact absurd (pointer_of_isEmpty hempty s) hne
  · rw [dirCount] at hcount
    rw [hcount]
    exact Nat.zero_le _
  · obtain ⟨s, -, hs, hne⟩ := exists_slot_of_mem hb
    exact absurd (hs.symm.trans (pointer_of_isEmpty hempty s)) hne
  · rw [hcount] at hi
    exact absurd hi (Nat.not_lt_zero i)
  · have hne := (h.finds.unused b hb).1
    refine ⟨hne, fun s _ => ?_⟩
    rw [pointer_of_isEmpty hempty]
    exact hne.symm

theorem Tree.add (htree : Tree ext2 dirs) (hd : dirs d) (hn : ¬ dirs n) (hempty : ino.IsEmpty) :
    Tree (ext2InodeModifyM ext2 n ino) fun d' => dirs d' ∨ d' = n := by
  have htree' := htree.modify hn ino
  have hself := inodes_modify_self ext2 n ino
  refine ⟨?_, ?_⟩
  · rintro d' (hd' | rfl)
    · exact htree'.sound d' hd'
    · rw [hself]
      exact ((htree.sound d hd).of_isEmpty hempty).modify _ ino
  · rintro a b ha (hb | rfl) hab s t hs ht hzero
    · rcases ha with ha | rfl
      · exact htree'.apart a b ha hb hab s t hs ht hzero
      · rw [hself] at hzero
        exact absurd (pointer_of_isEmpty hempty s) hzero
    · rw [hself, pointer_of_isEmpty hempty]
      exact hzero

end CoreX.Ext2

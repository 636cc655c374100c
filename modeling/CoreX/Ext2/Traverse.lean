import CoreX.Ext2.Entry
import CoreX.Ext2.Scan

/-!
# Looking up a name

A directory whose blocks are well formed has a list of live entries, in the order of its blocks. `ext2Traverse` looks
up a name in that list (`ext2Traverse_eq`).
-/

namespace CoreX.Ext2

open List Except

variable {ext2 ext2' : Ext2} {ino : Ext2Inode} {names : Buf} {dir : Nat} {es : List Ext2Directory}
  {blocks : List UInt32} {filename : Bytes} {block : UInt32}

section
variable (ext2 blocks)

def entriesOf : List Ext2Directory :=
  blocks.flatMap fun block => blockEntries ext2.blockSize (ext2.disk block)

def liveEntries (ino : Ext2Inode) : List (Bytes × UInt32 × UInt8) :=
  live (entriesOf ext2 (dirBlocks ext2 ino))

/-- Every block is full of entries. -/
def BlocksWellFormed : Prop :=
  ∀ block ∈ blocks, WellFormed ext2.blockSize (ext2.disk block)

end

/-- A directory: its blocks are well formed and pairwise distinct, the block size is aligned and fits in the
size of an entry, and there are no more blocks than the pointers of an inode reach. -/
structure IsDirectory (ext2 : Ext2) (ino : Ext2Inode) : Prop where
  pos : 0 < ext2.blockSize
  aligned : 4 ∣ ext2.blockSize
  lt : ext2.blockSize < 2 ^ 16
  distinct : Distinct ext2 ino
  reach : Word.divRoundUp ino.size.toNat ext2.blockSize ≤ ext2.capacity
  wellFormed : BlocksWellFormed ext2 (dirBlocks ext2 ino)

theorem BlocksWellFormed.setDiskBytes {buf : Buf} (h : BlocksWellFormed ext2 blocks)
    (hbuf : WellFormed ext2.blockSize buf) : BlocksWellFormed (setDiskBytes ext2 block buf) blocks := by
  intro b hb
  by_cases heq : b = block
  · rw [heq, setDiskBytes_self]
    exact hbuf
  · rw [setDiskBytes_of_ne heq]
    exact h b hb

theorem IsDirectory.congr {ino : Ext2Inode} (h : IsDirectory ext2 ino) (hsize : ext2'.blockSize = ext2.blockSize)
    (hpointer : ∀ s, pointer ext2' ino s = pointer ext2 ino s)
    (hblocks : BlocksWellFormed ext2' (dirBlocks ext2 ino)) : IsDirectory ext2' ino := by
  have hdir := dirBlocks_congr hsize (funext fun i => hpointer (.data i))
  refine ⟨?_, ?_, ?_, h.distinct.congr hsize hpointer, ?_, hdir ▸ hblocks⟩
  · rw [hsize]
    exact h.pos
  · rw [hsize]
    exact h.aligned
  · rw [hsize]
    exact h.lt
  · rw [hsize, capacity_congr hsize]
    exact h.reach

@[simp] theorem entriesOf_nil : entriesOf ext2 [] = [] := rfl

@[simp] theorem entriesOf_cons (block : UInt32) : entriesOf ext2 (block :: blocks) =
    blockEntries ext2.blockSize (ext2.disk block) ++ entriesOf ext2 blocks := rfl

@[simp] theorem entriesOf_append (blocks' : List UInt32) :
    entriesOf ext2 (blocks ++ blocks') = entriesOf ext2 blocks ++ entriesOf ext2 blocks' :=
  flatMap_append

theorem entriesOf_congr (hsize : ext2'.blockSize = ext2.blockSize)
    (hdisk : ∀ block ∈ blocks, ext2'.disk block = ext2.disk block) :
    entriesOf ext2' blocks = entriesOf ext2 blocks := by
  induction blocks with
  | nil => rfl
  | cons block blocks ih =>
    obtain ⟨hblock, hblocks⟩ := forall_mem_cons.1 hdisk
    rw [entriesOf_cons, entriesOf_cons, hsize, hblock, ih hblocks]

theorem BlocksWellFormed.cons (h : BlocksWellFormed ext2 (block :: blocks)) :
    WellFormed ext2.blockSize (ext2.disk block) ∧ BlocksWellFormed ext2 blocks := forall_mem_cons.1 h

theorem blockCount_eq (hpos : 0 < ext2.blockSize) :
    blockCount ext2 ino = .ok (Word.divRoundUp ino.size.toNat ext2.blockSize) := by
  rw [blockCount, if_neg (by omega)]

theorem lookup_live (es : List Ext2Directory) (filename : Bytes) :
    (live es).lookup filename = (es.find? fun e => e.Is filename).map fun e => (e.inode, e.type_) := by
  induction es with
  | nil => rfl
  | cons e es ih =>
    by_cases hlive : e.inode = 0
    · have hnot : ¬ e.Is filename := fun h => h.1 hlive
      rw [live_cons_of_eq hlive, find?_cons_of_neg (by simpa using hnot), ih]
    rw [live_cons_of_ne hlive]
    by_cases hname : e.filename = filename
    · have his : e.Is filename := ⟨hlive, hname⟩
      rw [find?_cons_of_pos (by simpa using his), hname, lookup_cons_self]
      rfl
    · have hnot : ¬ e.Is filename := fun h => hname h.2
      have hbeq : (filename == e.filename) = false := by simpa using Ne.symm hname
      rw [find?_cons_of_neg (by simpa using hnot), lookup_cons, hbeq, ih]

theorem traverseWalk_eq (h : Chain names dir es ext2.blockSize) {fuel : Nat} (hfuel : es.length ≤ fuel)
    (search : Bytes) : traverseWalk ext2 names search fuel dir =
      .ok ((es.find? fun e => e.Is search).map Ext2Directory.inode) := by
  induction es generalizing dir fuel with
  | nil =>
    have hend : dir = ext2.blockSize := h
    cases fuel <;> rw [traverseWalk, if_neg (by omega)] <;> rfl
  | cons e es ih =>
    rw [length_cons] at hfuel
    cases fuel with
    | zero => omega
    | succ fuel =>
      obtain ⟨hlt, hget⟩ := h.dirGet_eq
      have his := h.dirIs_eq search
      obtain ⟨-, -, hrest⟩ := h
      rw [traverseWalk, if_pos hlt, hget, ok_bind, his, ok_bind]
      by_cases hmatch : e.Is search
      · rw [find?_cons_of_pos (by simpa using hmatch), decide_eq_true hmatch]
        rfl
      · rw [find?_cons_of_neg (by simpa using hmatch), decide_eq_false hmatch]
        exact ih hrest (by omega)

theorem changesBlock_traverseBody (search : Bytes) : ChangesBlock (traverseBody search) := by
  intro ext2 block t ext2' x h
  refine ⟨ext2.disk block, ?_⟩
  rw [setDiskBytes_disk]
  obtain ⟨found, -, hfound⟩ := bind_eq_ok.1 h
  cases found with
  | none | some => exact congrArg Prod.fst (ok.inj hfound).symm

theorem foldBlocks_traverseBody (h : BlocksWellFormed ext2 blocks) (search : Bytes) :
    foldBlocks (traverseBody search) blocks ext2 () =
      .ok (ext2, (((entriesOf ext2 blocks).find? fun e => e.Is search).elim (.inr ()) fun e => .inl e.inode)) := by
  induction blocks with
  | nil => rfl
  | cons block blocks ih =>
    obtain ⟨hblock, hblocks⟩ := h.cons
    have hle := Chain.le hblock
    rw [foldBlocks, traverseBody, traverseWalk_eq hblock (by omega), entriesOf_cons, find?_append]
    cases (blockEntries ext2.blockSize (ext2.disk block)).find? fun e => e.Is search with
    | none => exact ih hblocks
    | some e => rfl

theorem ext2Traverse_eq {initInode : UInt32} (h : IsDirectory ext2 (ext2.inodes initInode)) (search : Bytes) :
    ext2Traverse ext2 initInode search =
      .ok (((liveEntries ext2 (ext2.inodes initInode)).lookup search).elim 0 Prod.fst) := by
  have hserves := ext2BlockFetchInit_serves ext2 (ext2.inodes initInode)
  have hloop := forBlocks_spec (changesBlock_traverseBody search)
    (Word.divRoundUp (ext2.inodes initInode).size.toNat ext2.blockSize) ext2 (startScan ext2) () h.distinct
    hserves.1 hserves.2
  have hfold := foldBlocks_traverseBody h.wellFormed search
  rw [Loops, show (startScan ext2).blockNum = 0 from rfl, ← dirBlocks, hfold] at hloop
  rw [ext2Traverse, blockCount_eq h.pos, ok_bind, liveEntries, lookup_live]
  have hreach := h.reach
  cases hfind : (entriesOf ext2 (dirBlocks ext2 (ext2.inodes initInode))).find? fun e => e.Is search with
  | none =>
    rw [hfind] at hloop
    rcases hloop with ⟨scan', hrun, -⟩ | ⟨hcap, -⟩
    · rw [hrun]
      rfl
    · omega
  | some e =>
    rw [hfind] at hloop
    rw [hloop]
    rfl

section Found
variable {initInode : UInt32} (h : IsDirectory ext2 (ext2.inodes initInode)) {search : Bytes}
include h

theorem mem_of_ext2Traverse {c : UInt32} (hfound : ext2Traverse ext2 initInode search = .ok c) (hne : c ≠ 0) :
    ∃ type_, (search, c, type_) ∈ liveEntries ext2 (ext2.inodes initInode) := by
  rw [ext2Traverse_eq h] at hfound
  cases hlookup : (liveEntries ext2 (ext2.inodes initInode)).lookup search with
  | none =>
    rw [hlookup] at hfound
    exact absurd (ok.inj hfound).symm hne
  | some entry =>
    obtain ⟨front, back, hsplit, -⟩ := lookup_eq_some_iff.1 hlookup
    rw [hlookup] at hfound
    refine ⟨entry.2, ?_⟩
    rw [← ok.inj hfound, hsplit]
    exact mem_append_right _ mem_cons_self

theorem ne_of_ext2Traverse_eq_zero (hzero : ext2Traverse ext2 initInode search = .ok 0) :
    ∀ x ∈ liveEntries ext2 (ext2.inodes initInode), x.1 ≠ search := by
  rw [ext2Traverse_eq h] at hzero
  intro x hx hname
  cases hlookup : (liveEntries ext2 (ext2.inodes initInode)).lookup search with
  | none =>
    have hne := lookup_eq_none_iff.1 hlookup x hx
    exact absurd hname.symm (by simpa using hne)
  | some entry =>
    obtain ⟨front, back, hsplit, -⟩ := lookup_eq_some_iff.1 hlookup
    have hmem : (search, entry) ∈ liveEntries ext2 (ext2.inodes initInode) := by
      rw [hsplit]
      exact mem_append_right _ mem_cons_self
    rw [hlookup] at hzero
    exact inode_ne_zero_of_mem_live hmem (ok.inj hzero)

end Found

end CoreX.Ext2

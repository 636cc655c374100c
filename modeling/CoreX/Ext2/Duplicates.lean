import Mathlib.Data.List.Nodup
import CoreX.Ext2.DirAllocate

/-!
# Duplicate names

`ext2DirAllocate` compares names only on the way to the first slack that takes the new entry. A name that is live
behind that slack is added a second time (`ext2DirAllocate_duplicate`). The directory is taken here with every block
that its inode points to, also behind a hole or its size.
-/

namespace CoreX.Ext2

open List Prod

variable {ext2 ext2' : Ext2} {ino ino' : Ext2Inode} {filename : Bytes} {type_ : UInt8}
  {inode inodeNum block : UInt32} {e : Ext2Directory} {ret : Bool}

section
variable (ext2 ino)

def blocksAt (indices : List Nat) : List UInt32 :=
  (indices.map (blockAt ext2 ino)).filter (· ≠ 0)

def allBlocks : List UInt32 := blocksAt ext2 ino (List.range ext2.capacity)

/-- A directory: every block that its inode points to is well formed, and the blocks are pairwise distinct. -/
structure WellFormedDirectory (ext2 : Ext2) (ino : Ext2Inode) : Prop where
  pos : 0 < ext2.blockSize
  aligned : 4 ∣ ext2.blockSize
  lt : ext2.blockSize < 2 ^ 16
  distinct : Distinct ext2 ino
  wellFormed : BlocksWellFormed ext2 (allBlocks ext2 ino)

def liveNames : List Bytes :=
  (live (entriesOf ext2 (allBlocks ext2 ino))).map Prod.fst

end

theorem mem_allBlocks : block ∈ allBlocks ext2 ino ↔ block ≠ 0 ∧ ∃ i, blockAt ext2 ino i = block := by
  simp only [allBlocks, blocksAt, mem_filter, mem_map, mem_range, decide_eq_true_eq]
  constructor
  · rintro ⟨⟨i, -, heq⟩, hne⟩
    exact ⟨hne, i, heq⟩
  · rintro ⟨hne, i, heq⟩
    exact ⟨⟨i, lt_capacity_of_blockAt_ne (heq ▸ hne), heq⟩, hne⟩

theorem mem_allBlocks_of_mem (h : block ∈ dirBlocks ext2 ino) : block ∈ allBlocks ext2 ino := by
  obtain ⟨i, -, -, heq, hne⟩ := mem_blocksFrom h
  exact mem_allBlocks.2 ⟨hne, i, heq⟩

theorem nodup_allBlocks (h : Distinct ext2 ino) : (allBlocks ext2 ino).Nodup := by
  rw [allBlocks, blocksAt, filter_map]
  apply List.Nodup.map_on _ (nodup_range.filter _)
  intro i hi j _ heq
  have hne : blockAt ext2 ino i ≠ 0 := by simpa using (mem_filter.1 hi).2
  exact h.blockAt_inj hne heq

theorem WellFormedDirectory.dirBlocks (h : WellFormedDirectory ext2 ino) :
    BlocksWellFormed ext2 (dirBlocks ext2 ino) := fun b hb => h.wellFormed b (mem_allBlocks_of_mem hb)

/-! ## What a call keeps -/

theorem allBlocks_congr (hsize : ext2'.blockSize = ext2.blockSize) (h : blockAt ext2' ino = blockAt ext2 ino) :
    allBlocks ext2' ino = allBlocks ext2 ino := by
  rw [allBlocks, blocksAt, h, capacity_congr hsize]
  rfl

theorem allBlocks_setDiskBytes (h : HoldsNoPointers ext2 ino block) (buf : Buf) :
    allBlocks (setDiskBytes ext2 block buf) ino = allBlocks ext2 ino :=
  allBlocks_congr rfl (blockAt_setDiskBytes h buf)

theorem WellFormedDirectory.setDiskBytes {buf : Buf} (h : WellFormedDirectory ext2 ino)
    (hmem : block ∈ Ext2.dirBlocks ext2 ino) (hbuf : WellFormed ext2.blockSize buf) :
    WellFormedDirectory (setDiskBytes ext2 block buf) ino := by
  have hno := holdsNoPointers_of_mem h.distinct hmem
  refine ⟨h.pos, h.aligned, h.lt, h.distinct.setDiskBytes hno buf, ?_⟩
  rw [allBlocks_setDiskBytes hno]
  exact h.wellFormed.setDiskBytes hbuf

theorem Finds.setDiskBytes (h : Finds ext2 ino) (hno : HoldsNoPointers ext2 ino block) (buf : Buf) :
    Finds (setDiskBytes ext2 block buf) ino :=
  ⟨h.nodup, fun b hb => (h.unused b hb).congr rfl (pointer_setDiskBytes hno buf)⟩

section Appended
variable {index : Nat} {entry : Ext2Directory}
  (happ : Appended ext2 ino inodeNum index block entry ext2' ino') (hfinds : Finds ext2 ino)
include happ hfinds

theorem Appended.wellFormedDirectory (h : WellFormedDirectory ext2 ino) : WellFormedDirectory ext2' ino' := by
  refine ⟨?_, ?_, ?_, happ.distinct hfinds h.distinct, fun b hb => ?_⟩
  · rw [happ.blockSize]
    exact h.pos
  · rw [happ.blockSize]
    exact h.aligned
  · rw [happ.blockSize]
    exact h.lt
  · obtain ⟨hne, i, rfl⟩ := mem_allBlocks.1 hb
    by_cases hi : i = index
    · have hblock : blockAt ext2' ino' i = block := hi ▸ happ.assigned
      rw [hblock]
      exact happ.entries.wellFormed
    · have hsame : blockAt ext2' ino' i = blockAt ext2 ino i :=
        happ.other (.data i) (by simpa using hi) (by simp)
      rw [hsame] at hne ⊢
      rw [(happ.disk_blockAt hfinds h.distinct hi hne).2, happ.blockSize]
      exact h.wellFormed _ (mem_allBlocks.2 ⟨hne, i, rfl⟩)

theorem Appended.finds : Finds ext2' ino' := by
  have hsub : ext2'.found.Sublist ext2.found := by
    rcases happ.single with ⟨-, hfound⟩ | ⟨-, hfound⟩ <;> rw [hfound]
    · exact sublist_cons_self ..
    · exact (sublist_cons_self ..).trans (sublist_cons_self ..)
  refine ⟨hfinds.nodup.sublist hsub, fun b hb => ?_⟩
  have hunused := hfinds.unused b (hsub.subset hb)
  refine ⟨hunused.1, fun s hs => ?_⟩
  rw [Slot.valid_congr happ.blockSize] at hs
  have hnodup := hfinds.nodup
  by_cases hdata : s = .data index
  · rw [hdata, happ.assigned]
    rcases happ.single with ⟨-, hfound⟩ | ⟨-, hfound⟩ <;> rw [hfound] at hnodup
    · exact fun heq => (nodup_cons.1 hnodup).1 (heq ▸ hb)
    · exact fun heq => (nodup_cons.1 hnodup).1 (heq ▸ mem_cons_of_mem _ hb)
  by_cases hsingle : s = .single
  · rw [hsingle]
    rcases happ.single with ⟨hsame, -⟩ | ⟨-, hfound⟩
    · rw [hsame]
      exact hunused.2 .single trivial
    · rw [hfound] at hnodup
      exact fun heq => (nodup_cons.1 (nodup_cons.1 hnodup).2).1 (heq ▸ hb)
  · rw [happ.other s hdata hsingle]
    exact hunused.2 s hs

end Appended

theorem ext2DirAllocate_wellFormed (h : WellFormedDirectory ext2 ino) (hfinds : Finds ext2 ino)
    (hname : filename.length < 256)
    (hok : ext2DirAllocate ext2 inodeNum ino filename type_ inode = .ok (ret, ext2', ino')) :
    WellFormedDirectory ext2' ino' ∧ Finds ext2' ino' := by
  cases ext2DirAllocate_result h.pos h.distinct h.dirBlocks hok with
  | taken => exact ⟨h, hfinds⟩
  | placed front hsplit hfirst hmatch hbefore hafter =>
    have hmem := mem_of_split hsplit
    have hchain := chain_placed hbefore hafter (hfirst.2.2.resolve_left hmatch) hname type_ inode
    exact ⟨h.setDiskBytes hmem hchain.wellFormed, hfinds.setDiskBytes (holdsNoPointers_of_mem h.distinct hmem) _⟩
  | appended hnone hnum hserves hholds happend =>
    obtain ⟨block, happ⟩ := appendBlock_appended h.distinct hfinds hserves hholds h.aligned h.lt hname happend
    exact ⟨happ.wellFormedDirectory hfinds h, happ.finds hfinds⟩

/-! ## The live names after a call -/

def AddsName (filename : Bytes) (before after : List Bytes) : Prop :=
  ∃ front back, (front ++ back).Sublist before ∧ (after = front ++ back ∨ after = front ++ filename :: back)

theorem AddsName.nodup {before after : List Bytes} (h : AddsName filename before after)
    (hnodup : before.Nodup) (hnew : filename ∉ before) : after.Nodup := by
  obtain ⟨front, back, hsub, rfl | rfl⟩ := h
  · exact hnodup.sublist hsub
  · exact nodup_middle.2 (nodup_cons.2 ⟨fun hmem => hnew (hsub.subset hmem), hnodup.sublist hsub⟩)

theorem liveNames_placed {before after : List Ext2Directory} {mid : Nat} (hdist : Distinct ext2 ino)
    (hmem : block ∈ dirBlocks ext2 ino) (hname : filename.length < 256) (hroom : e.HasRoom filename)
    (hbefore : Chain (ext2.disk block) 0 before mid)
    (hafter : Chain (ext2.disk block) mid (e :: after) ext2.blockSize) (type_ : UInt8) (inode : UInt32) :
    AddsName filename (liveNames ext2 ino)
      (liveNames (setDiskBytes ext2 block (splitNames (ext2.disk block) mid e filename type_ inode)) ino) := by
  obtain ⟨front, back, hsplit⟩ := append_of_mem (mem_allBlocks_of_mem hmem)
  have hentries : blockEntries ext2.blockSize (ext2.disk block) = before ++ e :: after :=
    (chain_append.2 ⟨mid, hbefore, hafter⟩).blockEntries_eq
  have hold : liveNames ext2 ino = (live (entriesOf ext2 front ++ before ++ [e])).map fst ++
      (live (after ++ entriesOf ext2 back)).map fst := by
    rw [liveNames, hsplit, entriesOf_append, entriesOf_cons, hentries, ← map_append, ← live_append]
    simp only [append_assoc, cons_append, nil_append]
  have hnew : liveNames (setDiskBytes ext2 block (splitNames (ext2.disk block) mid e filename type_ inode)) ino =
      (live (entriesOf ext2 front ++ before ++ [e])).map fst ++
        (if inode = 0 then [] else [filename]) ++ (live (after ++ entriesOf ext2 back)).map fst := by
    have hnodup : (front ++ block :: back).Nodup := hsplit ▸ nodup_allBlocks hdist
    rw [liveNames, allBlocks_setDiskBytes (holdsNoPointers_of_mem hdist hmem), hsplit,
      entriesOf_placed hnodup hbefore hafter hroom hname, live_append, live_append, live_append, live_append,
      live_slackEntry e]
    by_cases hinode : inode = 0 <;> simp [hinode]
  set l₁ := (live (entriesOf ext2 front ++ before ++ [e])).map fst
  set l₂ := (live (after ++ entriesOf ext2 back)).map fst
  refine ⟨l₁, l₂, ?_, ?_⟩
  · rw [hold]
  · rw [hnew]
    by_cases hinode : inode = 0
    · exact .inl (by rw [if_pos hinode, append_nil])
    · exact .inr (by rw [if_neg hinode, append_assoc, singleton_append])

theorem blocksAt_append (indices indices' : List Nat) :
    blocksAt ext2 ino (indices ++ indices') = blocksAt ext2 ino indices ++ blocksAt ext2 ino indices' := by
  rw [blocksAt, map_append, filter_append]
  rfl

theorem Appended.entriesOf_blocksAt {index : Nat} {entry : Ext2Directory}
    (happ : Appended ext2 ino inodeNum index block entry ext2' ino') (hfinds : Finds ext2 ino)
    (hdist : Distinct ext2 ino) {indices : List Nat} (h : index ∉ indices) :
    entriesOf ext2' (blocksAt ext2' ino' indices) = entriesOf ext2 (blocksAt ext2 ino indices) := by
  have hne : ∀ i ∈ indices, i ≠ index := fun i hi heq => h (heq ▸ hi)
  have hblocks : blocksAt ext2' ino' indices = blocksAt ext2 ino indices := by
    rw [blocksAt, blocksAt]
    congr 1
    apply map_congr_left
    intro i hi
    exact happ.other (.data i) (by simpa using hne i hi) (by simp)
  rw [hblocks]
  apply entriesOf_congr happ.blockSize
  intro b hb
  obtain ⟨hmem, hzero⟩ := mem_filter.1 hb
  obtain ⟨i, hi, rfl⟩ := mem_map.1 hmem
  exact (happ.disk_blockAt hfinds hdist (hne i hi) (by simpa using hzero)).2

theorem Appended.liveNames {index : Nat} {size : Nat}
    (happ : Appended ext2 ino inodeNum index block ⟨inode, size, type_, filename⟩ ext2' ino')
    (hfinds : Finds ext2 ino) (hdist : Distinct ext2 ino) :
    AddsName filename (liveNames ext2 ino) (Ext2.liveNames ext2' ino') := by
  have hblock : blockAt ext2' ino' index = block := happ.assigned
  have hzero : block ≠ 0 := (hfinds.unused block happ.block_mem).1
  have hindex : index < ext2'.capacity := lt_capacity_of_blockAt_ne (hblock ▸ hzero)
  have hcapacity := capacity_congr happ.blockSize
  obtain ⟨front, back, hsplit⟩ := append_of_mem (mem_range.2 hindex)
  have hnodup : (front ++ index :: back).Nodup := hsplit ▸ nodup_range
  have hnotMem : index ∉ front ++ back := (nodup_cons.1 (nodup_middle.1 hnodup)).1
  have hfront := happ.entriesOf_blocksAt hfinds hdist fun h => hnotMem (mem_append_left _ h)
  have hback := happ.entriesOf_blocksAt hfinds hdist fun h => hnotMem (mem_append_right _ h)
  have hold : Ext2.liveNames ext2 ino = (live (entriesOf ext2 (blocksAt ext2 ino front))).map fst ++
      ((live (entriesOf ext2 (blocksAt ext2 ino [index]))).map fst ++
        (live (entriesOf ext2 (blocksAt ext2 ino back))).map fst) := by
    rw [Ext2.liveNames, allBlocks, ← hcapacity, hsplit, ← singleton_append, blocksAt_append, blocksAt_append,
      entriesOf_append, entriesOf_append, live_append, live_append, map_append, map_append]
  have hadded : blocksAt ext2' ino' [index] = [block] := by simp [blocksAt, hblock, hzero]
  have hnew : Ext2.liveNames ext2' ino' = (live (entriesOf ext2 (blocksAt ext2 ino front))).map fst ++
      ((live [⟨inode, size, type_, filename⟩]).map fst ++
        (live (entriesOf ext2 (blocksAt ext2 ino back))).map fst) := by
    rw [Ext2.liveNames, allBlocks, hsplit, ← singleton_append, blocksAt_append, blocksAt_append,
      entriesOf_append, entriesOf_append, live_append, live_append, map_append, map_append, hadded,
      entriesOf_cons, happ.entries.blockEntries_eq, entriesOf_nil, append_nil, hfront, hback]
  set l₁ := (live (entriesOf ext2 (blocksAt ext2 ino front))).map fst
  set l₂ := (live (entriesOf ext2 (blocksAt ext2 ino back))).map fst
  refine ⟨l₁, l₂, ?_, ?_⟩
  · rw [hold]
    exact List.Sublist.append_left (sublist_append_right ..) _
  · rw [hnew]
    by_cases hinode : inode = 0
    · exact .inl (by rw [live_cons_of_eq hinode]; rfl)
    · exact .inr (by rw [live_cons_of_ne hinode]; rfl)

/-! ## Rejecting a name -/

/-- The walk meets the name before any slack that takes it. -/
def Rejects (ext2 : Ext2) (ino : Ext2Inode) (filename : Bytes) : Prop :=
  ((entriesOf ext2 (dirBlocks ext2 ino)).find? fun e => Stops filename e).any fun e => e.Is filename

instance (ext2 : Ext2) (ino : Ext2Inode) (filename : Bytes) : Decidable (Rejects ext2 ino filename) :=
  inferInstanceAs (Decidable (_ = true))

theorem FirstStop.rejects_iff {before after : List Ext2Directory}
    (h : FirstStop filename (entriesOf ext2 (dirBlocks ext2 ino)) before e after) :
    Rejects ext2 ino filename ↔ e.Is filename := by
  have hfind : (entriesOf ext2 (dirBlocks ext2 ino)).find? (fun e => Stops filename e) = some e := by
    rw [h.1, find?_append, find?_eq_none.2 (by simpa using h.2.1), find?_cons_of_pos (by simpa using h.2.2)]
    rfl
  rw [Rejects, hfind, Option.any_some, decide_eq_true_eq]

theorem not_rejects (h : ∀ x ∈ entriesOf ext2 (dirBlocks ext2 ino), ¬ Stops filename x) :
    ¬ Rejects ext2 ino filename := by
  rw [Rejects, find?_eq_none.2 (by simpa using h)]
  simp

def allocateStep (inodeNum : UInt32) (s : Ext2 × Ext2Inode) (op : Bytes × UInt8 × UInt32) :
    Option (Ext2 × Ext2Inode) :=
  match ext2DirAllocate s.1 inodeNum s.2 op.1 op.2.1 op.2.2 with
  | .ok (_, ext2, ino) => some (ext2, ino)
  | .error _ => none

theorem allocateStep_eq_some {s s' : Ext2 × Ext2Inode} {op : Bytes × UInt8 × UInt32}
    (h : allocateStep inodeNum s op = some s') :
    ∃ ret, ext2DirAllocate s.1 inodeNum s.2 op.1 op.2.1 op.2.2 = .ok (ret, s'.1, s'.2) := by
  rw [allocateStep] at h
  cases hcall : ext2DirAllocate s.1 inodeNum s.2 op.1 op.2.1 op.2.2 with
  | error fault =>
    rw [hcall] at h
    exact absurd h (by simp)
  | ok r =>
    rw [hcall] at h
    exact ⟨r.1, by rw [← Option.some.inj h]⟩

theorem ext2DirAllocate_nodup (h : WellFormedDirectory ext2 ino) (hfinds : Finds ext2 ino)
    (hname : filename.length < 256) (hnodup : (liveNames ext2 ino).Nodup)
    (hrejects : filename ∈ liveNames ext2 ino → Rejects ext2 ino filename)
    (hok : ext2DirAllocate ext2 inodeNum ino filename type_ inode = .ok (ret, ext2', ino')) :
    (liveNames ext2' ino').Nodup := by
  cases ext2DirAllocate_result h.pos h.distinct h.dirBlocks hok with
  | taken => exact hnodup
  | placed front hsplit hfirst hmatch hbefore hafter =>
    refine (liveNames_placed h.distinct (mem_of_split hsplit) hname (hfirst.2.2.resolve_left hmatch) hbefore hafter
      type_ inode).nodup hnodup fun hmem => ?_
    exact hmatch (hfirst.rejects_iff.1 (hrejects hmem))
  | appended hnone hnum hserves hholds happend =>
    obtain ⟨block, happ⟩ := appendBlock_appended h.distinct hfinds hserves hholds h.aligned h.lt hname happend
    exact (happ.liveNames hfinds h.distinct).nodup hnodup fun hmem => not_rejects hnone (hrejects hmem)

/-- The directory is well formed and its live names are pairwise distinct. -/
structure NamesDistinct (s : Ext2 × Ext2Inode) : Prop where
  wellFormed : WellFormedDirectory s.1 s.2
  finds : Finds s.1 s.2
  nodup : (liveNames s.1 s.2).Nodup

section
variable (s : Ext2 × Ext2Inode) (op : Bytes × UInt8 × UInt32)

/-- What a call of a sequence has to meet. Its name has a `u8` for its length. -/
def CallRejects : Prop :=
  op.1.length < 256 ∧ (op.1 ∈ liveNames s.1 s.2 → Rejects s.1 s.2 op.1)

theorem allocateStep_namesDistinct (s' : Ext2 × Ext2Inode) (hs : NamesDistinct s) (hop : CallRejects s op)
    (hstep : allocateStep inodeNum s op = some s') : NamesDistinct s' := by
  obtain ⟨ret, hok⟩ := allocateStep_eq_some hstep
  obtain ⟨hwellFormed, hfinds⟩ := ext2DirAllocate_wellFormed hs.wellFormed hs.finds hop.1 hok
  exact ⟨hwellFormed, hfinds, ext2DirAllocate_nodup hs.wellFormed hs.finds hop.1 hs.nodup hop.2 hok⟩

end

/-- **When `ext2DirAllocate` rejects a live name**: exactly if its walk meets the name before any slack that
takes it. Over a sequence of calls all of which that touch a live name meet this, live names stay pairwise
distinct. -/
theorem ext2DirAllocate_rejects (ext2 : Ext2) (ino : Ext2Inode) (inodeNum : UInt32)
    (h : WellFormedDirectory ext2 ino) (hfinds : Finds ext2 ino) :
    (∀ filename type_ inode, filename ∈ liveNames ext2 ino →
      (ext2DirAllocate ext2 inodeNum ino filename type_ inode = .ok (false, ext2, ino) ↔ Rejects ext2 ino filename)) ∧
    ∀ ops s', (liveNames ext2 ino).Nodup → Run.Along (allocateStep inodeNum) CallRejects (ext2, ino) ops →
      Run.run (allocateStep inodeNum) (ext2, ino) ops = some s' → (liveNames s'.1 s'.2).Nodup := by
  constructor
  · intro filename type_ inode _
    generalize hcall : ext2DirAllocate ext2 inodeNum ino filename type_ inode = r
    cases ext2DirAllocate_result h.pos h.distinct h.dirBlocks hcall with
    | taken hfirst hmatch | placed front hsplit hfirst hmatch => simp [hfirst.rejects_iff, hmatch]
    | appended hnone | fault hnone => simp [not_rejects hnone]
  · intro ops s' hnodup halong hrun
    have hstart : NamesDistinct (ext2, ino) := ⟨h, hfinds, hnodup⟩
    exact (Run.run_invariant_along allocateStep_namesDistinct hstart halong hrun).nodup

theorem wellFormedDirectory_oneBlock {es : List Ext2Directory} (h : WellFormed 1024 (blockOf es)) :
    WellFormedDirectory (oneBlockExt2 es) oneBlockInode := by
  have hdir := isDirectory_oneBlock h
  refine ⟨hdir.pos, hdir.aligned, hdir.lt, hdir.distinct, fun b hb => ?_⟩
  obtain ⟨hne, i, rfl⟩ := mem_allBlocks.1 hb
  have hpointer : blockAt (oneBlockExt2 es) oneBlockInode i = if Slot.data i = .data 0 then 5 else 0 :=
    pointer_oneBlock es (.data i)
  by_cases hi : Slot.data i = .data 0
  · rw [hpointer, if_pos hi]
    exact h
  · exact absurd (hpointer.trans (if_neg hi)) hne

/-- Both names of the directory are rejected: the first entry leaves no room. -/
theorem ext2DirAllocate_rejects_oneBlock :
    ext2DirAllocate (oneBlockExt2 [⟨11, 12, 1, [97]⟩, ⟨12, 1012, 1, [98]⟩]) 2 oneBlockInode [98] 1 13 =
      .ok (false, oneBlockExt2 [⟨11, 12, 1, [97]⟩, ⟨12, 1012, 1, [98]⟩], oneBlockInode) :=
  ((ext2DirAllocate_rejects _ _ 2 (wellFormedDirectory_oneBlock (by decide +kernel)) (finds_oneBlock _)).1
    [98] 1 13 (by decide +kernel)).2 (by decide +kernel)

/-- The slack of the first entry takes the name, which is live behind it. -/
theorem ext2DirAllocate_duplicate :
    WellFormedDirectory (oneBlockExt2 [⟨11, 24, 1, [97]⟩, ⟨12, 1000, 1, [98]⟩]) oneBlockInode ∧
      [98] ∈ liveNames (oneBlockExt2 [⟨11, 24, 1, [97]⟩, ⟨12, 1000, 1, [98]⟩]) oneBlockInode ∧ ∃ ext2' ino',
        ext2DirAllocate (oneBlockExt2 [⟨11, 24, 1, [97]⟩, ⟨12, 1000, 1, [98]⟩]) 2 oneBlockInode [98] 1 13 =
          .ok (true, ext2', ino') ∧ liveNames ext2' ino' = [[97], [98], [98]] :=
  ⟨wellFormedDirectory_oneBlock (by decide +kernel), by decide +kernel, _, _, rfl, by decide +kernel⟩

end CoreX.Ext2

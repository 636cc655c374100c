import CoreX.Ext2.CacheRuns
import Mathlib.Order.CompletePartialOrder
import Mathlib.Order.Interval.Set.Disjoint

/-!
# Ranges of the block cache that overlap

What is in the way of a new range is found by where it starts. A cached range that starts before the new one and
reaches into it is left in the list, and then some blocks are cached twice.
-/

namespace CoreX.Ext2.Cache

def Entry.range (e : Entry) : Set Nat := Set.Ico e.blockIndex (e.blockIndex + e.blocks)

section
variable (entries : List Entry)

/-- No block is cached twice. -/
def RangesDisjoint : Prop := entries.Pairwise fun e f => Disjoint e.range f.range

def copies (block : Nat) : Nat :=
  entries.countP fun e => e.blockIndex ≤ block ∧ block < e.blockIndex + e.blocks

def StartsInside (entry : Entry) : Prop :=
  ∃ e ∈ entries, e.blockIndex < entry.blockIndex ∧ entry.blockIndex < e.blockIndex + e.blocks

end

/-- No range starts inside one that is cached when it is added. -/
def NoneInside : List Entry → List Entry → Prop
  | _, [] => True
  | entries, entry :: calls => ¬ StartsInside entries entry ∧ NoneInside (add entries entry) calls

section Overlap
variable {entries calls : List Entry} {entry e f : Entry}

theorem disjoint_of_le (h : e.blockIndex + e.blocks ≤ f.blockIndex) : Disjoint e.range f.range := by
  rw [Entry.range, Entry.range, Set.Ico_disjoint_Ico]
  omega

section
variable (h : RangesDisjoint entries)
include h

theorem RangesDisjoint.copies_le_one (block : Nat) : copies entries block ≤ 1 := by
  induction entries with
  | nil => exact Nat.zero_le 1
  | cons e entries ih =>
    obtain ⟨he, hentries⟩ := List.pairwise_cons.1 h
    rw [copies, List.countP_cons]
    split
    · next hmem =>
      -- no other entry has the block
      have hnone : entries.countP (fun f => f.blockIndex ≤ block ∧ block < f.blockIndex + f.blocks) = 0 := by
        rw [List.countP_eq_zero]
        intro f hf hblock
        simp only [decide_eq_true_eq] at hmem hblock
        exact Set.disjoint_left.1 (he f hf) hmem hblock
      rw [hnone]
    · exact ih hentries

theorem rangesDisjoint_add_iff (hblocks : 1 ≤ entry.blocks) :
    RangesDisjoint (add entries entry) ↔ ¬ StartsInside entries entry := by
  constructor
  · rintro hdisj ⟨e, he, hlt, hreach⟩
    have hkept : e ∈ entries.filter (·.blockIndex < entry.blockIndex) := List.mem_filter.2 ⟨he, decide_eq_true hlt⟩
    have hpair := (List.pairwise_append.1 hdisj).2.2 e hkept entry List.mem_cons_self
    exact Set.disjoint_left.1 hpair ⟨Nat.le_of_lt hlt, hreach⟩ ⟨Nat.le_refl _, by omega⟩
  · intro hnot
    have hbelow : ∀ e ∈ entries.filter (·.blockIndex < entry.blockIndex), e.blockIndex + e.blocks ≤ entry.blockIndex := by
      intro e he
      obtain ⟨hmem, hlt⟩ := List.mem_filter.1 he
      by_contra hreach
      exact hnot ⟨e, hmem, of_decide_eq_true hlt, by omega⟩
    have hbehind : ∀ e ∈ entries.filter (entry.blockIndex + entry.blocks ≤ ·.blockIndex),
        entry.blockIndex + entry.blocks ≤ e.blockIndex := fun e he => of_decide_eq_true (List.mem_filter.1 he).2
    refine List.pairwise_append.2 ⟨h.filter _, List.pairwise_cons.2 ⟨?_, h.filter _⟩, ?_⟩
    · intro e he
      exact disjoint_of_le (hbehind e he)
    intro e he f hf
    have hend := hbelow e he
    rcases List.mem_cons.1 hf with rfl | hf
    · exact disjoint_of_le hend
    · have hstart := hbehind f hf
      exact disjoint_of_le (by omega)

theorem rangesDisjoint_foldl_iff (hblocks : ∀ e ∈ calls, 1 ≤ e.blocks) :
    (∀ k, RangesDisjoint ((calls.take k).foldl add entries)) ↔ NoneInside entries calls := by
  induction calls generalizing entries with
  | nil => exact iff_of_true (fun k => by rwa [List.take_nil]) trivial
  | cons entry calls ih =>
    obtain ⟨hentry, hcalls⟩ := List.forall_mem_cons.1 hblocks
    rw [NoneInside, ← rangesDisjoint_add_iff h hentry]
    constructor
    · intro hall
      have hadd : RangesDisjoint (add entries entry) := hall 1
      exact ⟨hadd, (ih hadd hcalls).1 fun k => hall (k + 1)⟩
    · rintro ⟨hadd, hrest⟩ k
      cases k with
      | zero => exact h
      | succ k => exact (ih hadd hcalls).2 hrest k

end

theorem AllFit.take {blockSize c : Nat} (h : AllFit blockSize c entries calls) (k : Nat) :
    AllFit blockSize c entries (calls.take k) := by
  induction calls generalizing entries k with
  | nil => rwa [List.take_nil]
  | cons entry calls ih =>
    cases k with
    | zero => trivial
    | succ k => exact ⟨h.1, ih h.2 k⟩

end Overlap

/-- **Overlapping ranges.** After every call of a sequence the cached ranges are disjoint, and no block is cached
twice, if and only if none of the new ranges starts inside a range that is cached then. -/
theorem disjoint_iff_noneInside (alloc : Allocator) (blockSize c : Nat) {fuel : Nat} (hfuel : 2 ≤ fuel)
    {global global' : FoundObject} (hsound : Sound c global) (hdisjoint : RangesDisjoint global.entries)
    {calls : List Entry} (hblocks : ∀ e ∈ calls, 1 ≤ e.blocks)
    (hrun : addAll alloc blockSize fuel global calls = .ok global') :
    (∀ k global'', addAll alloc blockSize fuel global (calls.take k) = .ok global'' →
      RangesDisjoint global''.entries ∧ ∀ block, copies global''.entries block ≤ 1) ↔
    NoneInside global.entries calls := by
  have hfit : AllFit blockSize c global.entries calls := by
    by_contra hnot
    rw [hsound.addAll_of_not_allFit hblocks alloc hfuel hnot] at hrun
    cases hrun
  have hprefix : ∀ k, ∃ global'', addAll alloc blockSize fuel global (calls.take k) = .ok global'' ∧
      global''.entries = (calls.take k).foldl add global.entries := by
    intro k
    have htake : ∀ e ∈ calls.take k, 1 ≤ e.blocks := fun e he => hblocks e (List.mem_of_mem_take he)
    obtain ⟨global'', hok, -, hentries⟩ := hsound.addAll_of_allFit htake alloc hfuel (hfit.take k)
    exact ⟨global'', hok, hentries⟩
  rw [← rangesDisjoint_foldl_iff hdisjoint hblocks]
  constructor
  · intro hall k
    obtain ⟨global'', hok, hentries⟩ := hprefix k
    rw [← hentries]
    exact (hall k global'' hok).1
  · intro hall k global'' hok
    obtain ⟨g, hg, hentries⟩ := hprefix k
    obtain rfl := Except.ok.inj (hg.symm.trans hok)
    rw [hentries]
    exact ⟨hall k, (hall k).copies_le_one⟩

/-- Blocks 0 to 3, and then block 4. -/
theorem disjoint_iff_noneInside_apart :
    ∃ global', addAll bumpAllocator 1024 2 (uncached 0) [⟨0, 4, 0x1000⟩, ⟨4, 1, 0x2000⟩] = .ok global' ∧
      ∀ k global'', addAll bumpAllocator 1024 2 (uncached 0) ([⟨0, 4, 0x1000⟩, ⟨4, 1, 0x2000⟩].take k) = .ok global'' →
        RangesDisjoint global''.entries ∧ ∀ block, copies global''.entries block ≤ 1 := by
  refine ⟨_, rfl, ?_⟩
  refine (disjoint_iff_noneInside bumpAllocator 1024 0 (by decide) (uncached_sound 0) List.Pairwise.nil (by decide)
    rfl).2 ⟨?_, ?_, trivial⟩
  · rintro ⟨e, he, -⟩
    exact absurd he List.not_mem_nil
  · rintro ⟨e, he, -, hreach⟩
    obtain rfl := List.mem_singleton.1 he
    exact absurd hreach (by decide)

/-- Blocks 0 to 9, and then block 5. Both entries are in the list, with a copy of block 5 each. -/
theorem ranges_overlap :
    (addAll bumpAllocator 1024 2 (uncached 0) [⟨0, 10, 0x1000⟩, ⟨5, 1, 0x2000⟩]).map FoundObject.entries =
        .ok [⟨0, 10, 0x1000⟩, ⟨5, 1, 0x2000⟩] ∧ ¬ RangesDisjoint [⟨0, 10, 0x1000⟩, ⟨5, 1, 0x2000⟩] ∧
      copies [⟨0, 10, 0x1000⟩, ⟨5, 1, 0x2000⟩] 5 = 2 := by
  refine ⟨by decide, fun hdisj => ?_, by decide⟩
  exact absurd (hdisj.copies_le_one 5) (by decide)

end CoreX.Ext2.Cache

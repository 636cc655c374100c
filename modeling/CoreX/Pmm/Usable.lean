import CoreX.Base.Run
import CoreX.Pmm.Init

/-!
# Whose memory the free blocks are

Because `pmm.rs` compares with `1`, the entries it frees are the reserved ones.
-/

namespace CoreX.Pmm

open Bitmap Option Word

theorem isUsable_iff (e : LimineMemmapEntry) : isUsable e = true ↔ e.entryType = .reserved := by
  cases e with
  | mk base length t => cases t <;> simp [isUsable, MemmapType.code, pmmMemmapUsable]

/-- Every free block lies inside a usable entry, and none overlaps another entry or the bitmap. -/
def FreeBlocksUsable (boot : BootloaderInfo) (b : DSBitmap) : Prop :=
  ∀ i < b.bitmapSizeInBlocks, bitmapGet b i = false →
    (∃ e ∈ boot.mmEntries, e.entryType = .usable ∧ e.HasBlock i) ∧
    (∀ e ∈ boot.mmEntries, e.entryType ≠ .usable → ∀ a, a / blockSize = i → ¬ e.Contains a) ∧
    ∀ c, chosenEntry boot = some c →
      ∀ a, a / blockSize = i → ¬ (c.base ≤ a ∧ a < c.base + sizeInBytes boot)

/-- No reserved block is left: rounding `mmTotal` up to blocks wraps to an empty bitmap, or the pages of
the bitmap cover every block of every reserved entry. -/
def BitmapFillsReserved (boot : BootloaderInfo) : Prop :=
  2 ^ 64 - blockSize < boot.mmTotal ∨
    ∀ c, chosenEntry boot = some c →
      ∀ e ∈ boot.mmEntries, e.entryType = .reserved → ∀ i, e.HasBlock i → HoldsBitmap boot c i

variable {boot : BootloaderInfo} {i : Nat}

theorem sizeInBlocks_of_wrap (hlt : boot.mmTotal < 2 ^ 64) (h : 2 ^ 64 - blockSize < boot.mmTotal) :
    sizeInBlocks boot = 0 := by
  unfold sizeInBlocks divRoundUp sub add
  unfold blockSize at *
  omega

theorem sizeInBlocks_eq (h : boot.mmTotal ≤ 2 ^ 64 - blockSize) :
    sizeInBlocks boot = (boot.mmTotal + 4095) / 4096 := by
  refine divRoundUp_eq (by decide) ?_
  unfold blockSize at *
  omega

theorem lt_sizeInBlocks (h : boot.mmTotal ≤ 2 ^ 64 - blockSize) {e : LimineMemmapEntry}
    (hend : e.base + e.length ≤ boot.mmTotal) (hi : e.HasBlock i) : i < sizeInBlocks boot := by
  have hblock := hi.2
  rw [sizeInBlocks_eq h]
  unfold blockSize at hblock
  omega

theorem MemoryMap.eq_of_hasBlock (m : MemoryMap) {e e' : LimineMemmapEntry} (he : e ∈ m.entries)
    (he' : e' ∈ m.entries) (hi : e.HasBlock i) (hi' : e'.HasBlock i) : e = e' := by
  by_contra hne
  have hsymm : Std.Symm (fun e e' : LimineMemmapEntry => ∀ a, ¬ (e.Contains a ∧ e'.Contains a)) :=
    ⟨fun x y h a ha => h a ha.symm⟩
  have hdisj := m.disjoint.forall he he' hne (i * blockSize)
  apply hdisj
  have h1 := hi.2
  have h2 := hi'.2
  unfold blockSize at *
  exact ⟨⟨hi.1, by omega⟩, ⟨hi'.1, by omega⟩⟩

/-- **When the free blocks are usable memory.** For every memory map below `mmTotal` on which
`initiate_pmm` does not panic, the free blocks it leaves are usable memory outside the bitmap if and only
if it leaves none: the constant in `pmm.rs` makes it free reserved memory. -/
theorem initiatePmm_usable_iff (m : MemoryMap) (mmTotal : Nat) (htotal : mmTotal < 2 ^ 64)
    (hend : ∀ e ∈ m.entries, e.base + e.length ≤ mmTotal) (physMem : Nat → BitVec 8)
    (physical b : DSBitmap) (hmem : physical.memStart = 0)
    (h : initiatePmm ⟨mmTotal, m.entries⟩ physMem physical = some b) :
    FreeBlocksUsable ⟨mmTotal, m.entries⟩ b ↔ BitmapFillsReserved ⟨mmTotal, m.entries⟩ := by
  obtain ⟨c, hc, hsize, -⟩ := initiatePmm_some h
  have hfree := fun i hi => initiatePmm_free_iff m hmem hc h (i := i) hi
  rw [FreeBlocksUsable, hsize]
  by_cases hwrap : 2 ^ 64 - blockSize < mmTotal
  · rw [sizeInBlocks_of_wrap htotal hwrap]
    exact ⟨fun _ => Or.inl hwrap, fun _ i hi => absurd hi (Nat.not_lt_zero i)⟩
  have hle : mmTotal ≤ 2 ^ 64 - blockSize := by omega
  constructor
  · intro hsafe
    right
    intro c' hc' e he hres i hi
    obtain rfl : c = c' := some.inj (hc.symm.trans hc')
    by_contra hout
    have hlt : i < sizeInBlocks ⟨mmTotal, m.entries⟩ := lt_sizeInBlocks hle (hend e he) hi
    have hbit : bitmapGet b i = false := by
      rw [hfree i hlt]
      refine ⟨⟨e, he, (isUsable_iff e).2 hres, hi⟩, fun e' he' hi' => ?_, hout⟩
      rw [m.eq_of_hasBlock he' he hi' hi]
      exact (isUsable_iff e).2 hres
    obtain ⟨⟨e', he', husable, hi'⟩, -, -⟩ := hsafe i hlt hbit
    rw [m.eq_of_hasBlock he' he hi' hi, hres] at husable
    exact absurd husable (by decide)
  · intro hcond i hlt hbit
    obtain ⟨⟨e, he, husable, hi⟩, -, hout⟩ := (hfree i hlt).1 hbit
    have hfill := hcond.resolve_left hwrap c hc e he ((isUsable_iff e).1 husable) i hi
    exact absurd hfill hout

def onePage : MemoryMap where
  entries := [⟨0, 0x1000, .reserved⟩]
  aligned := by decide
  word := by decide
  end_le := by decide
  disjoint := List.pairwise_singleton ..

def zeroBitmap : DSBitmap :=
  { bitmap := fun _ => 0#8, bitmapSizeInBlocks := 0, bitmapSizeInBytes := 0, memStart := 0,
    allocatedSizeInBlocks := 0, lastDeepFragmented := 0 }

theorem initiatePmm_usable_onePage : ∃ b, initiatePmm ⟨0x1000, onePage.entries⟩ (fun _ => 0#8) zeroBitmap = some b ∧
      (FreeBlocksUsable ⟨0x1000, onePage.entries⟩ b ↔ BitmapFillsReserved ⟨0x1000, onePage.entries⟩) := by
  have hsome : (initiatePmm ⟨0x1000, onePage.entries⟩ (fun _ => 0#8) zeroBitmap).isSome = true := by
    decide
  obtain ⟨b, hb⟩ := isSome_iff_exists.1 hsome
  exact ⟨b, hb, initiatePmm_usable_iff onePage 0x1000 (by decide) (by decide) _ _ b rfl hb⟩

theorem pairwise_of_le {e e' : LimineMemmapEntry} (h : e.base + e.length ≤ e'.base) :
    [e, e'].Pairwise (fun e e' => ∀ a, ¬ (e.Contains a ∧ e'.Contains a)) := by
  refine List.pairwise_cons.2 ⟨fun d hd a hboth => ?_, List.pairwise_singleton ..⟩
  rw [List.mem_singleton.1 hd] at hboth
  simp only [LimineMemmapEntry.Contains] at hboth
  omega

def threePages : MemoryMap where
  entries := [⟨0, 0x1000, .usable⟩, ⟨0x1000, 0x2000, .reserved⟩]
  aligned := by decide
  word := by decide
  end_le := by decide
  disjoint := pairwise_of_le (by decide)

/-- On `threePages` the second reserved page is free after `initiate_pmm`. -/
theorem initiatePmm_frees_reserved : (∀ e ∈ threePages.entries, e.base + e.length ≤ 0x3000) ∧
    ∃ b, initiatePmm ⟨0x3000, threePages.entries⟩ (fun _ => 0#8) zeroBitmap = some b ∧
      ¬ FreeBlocksUsable ⟨0x3000, threePages.entries⟩ b := by
  refine ⟨by decide, (exists_of_any (p := fun b => b.bitmapSizeInBlocks = 3 ∧ bitmapGet b 2 = false)
    (by decide)).imp fun b h => ⟨h.1, fun hsafe => ?_⟩⟩
  obtain ⟨-, hsize, hfree⟩ := h
  obtain ⟨⟨e, he, husable, hi⟩, -, -⟩ := hsafe 2 (by rw [hsize]; decide) hfree
  have hnone : ∀ e ∈ threePages.entries, e.entryType = .usable → ¬ e.HasBlock 2 := by decide
  exact hnone e he husable hi

end CoreX.Pmm

import CoreX.Bitmap.Allocator

/-!
# Regions that are not aligned

`MarkRegion` rounds the base and the size each for itself. A region that starts inside of a block may end in one that
is not marked as used, or that is freed as a whole.
-/

namespace CoreX.Bitmap

open Word

/-- The address is in the block. -/
def InBlock (b : DSBitmap) (i a : Nat) : Prop := b.memStart + i * 4096 ≤ a ∧ a < b.memStart + (i + 1) * 4096

variable {b : DSBitmap} {off size : Nat}

theorem bitmapGet_markRegion_of_mem (hwf : WellFormed b) (hbase : b.memStart + off < 2 ^ 64)
    (hend : off + size ≤ b.bitmapSizeInBlocks * 4096) (v : Bool) (i : Nat) :
    bitmapGet (markRegion b (b.memStart + off) size v) i =
      if v then bitmapGet b i || (off / 4096 ≤ i ∧ i < off / 4096 + (size + 4095) / 4096)
      else bitmapGet b i && ¬((off + 4095) / 4096 ≤ i ∧ i < (off + 4095) / 4096 + size / 4096) := by
  have hbytes := hwf.bytes_lt
  unfold blockSize at hbytes
  have hsub : sub (b.memStart + off) b.memStart = off := by
    rw [sub_eq (by omega) hbase, Nat.add_sub_cancel_left]
  cases v <;>
    simp only [markRegion, regionBlocks, Bool.false_eq_true, if_true, if_false, toBlock, toBlockRoundUp, hsub]
  all_goals
    rw [divRoundUp_eq (by decide) (by unfold blockSize; omega), blockSize, bitmapGet_markBlocks b (by omega)]
    split_ifs with h <;> simp [h]

/-- **Regions of any alignment**: all blocks of a used region are marked if it does not end behind its rounded size,
or in a used block; the blocks that are freed are inside of the region if it ends behind its rounded size. -/
theorem markRegion_conservative_iff (hwf : WellFormed b) (off size : Nat) (hbase : b.memStart + off < 2 ^ 64)
    (hend : off + size ≤ b.bitmapSizeInBlocks * 4096) :
    ((∀ i a, InBlock b i a → b.memStart + off ≤ a → a < b.memStart + off + size →
        bitmapGet (markRegion b (b.memStart + off) size true) i = true) ↔
      size = 0 ∨ off % 4096 + size ≤ (size + 4095) / 4096 * 4096 ∨
        bitmapGet b (off / 4096 + (size + 4095) / 4096) = true) ∧
    ((∀ i a, InBlock b i a → bitmapGet b i = true → bitmapGet (markRegion b (b.memStart + off) size false) i = false →
        b.memStart + off ≤ a ∧ a < b.memStart + off + size) ↔
      size < 4096 ∨ ((off + 4095) / 4096 + size / 4096) * 4096 ≤ off + size ∨
        bitmapGet b ((off + 4095) / 4096 + size / 4096 - 1) = false) := by
  simp only [bitmapGet_markRegion_of_mem hwf hbase hend, if_true, Bool.false_eq_true, if_false, Bool.or_eq_true,
    decide_eq_true_eq, InBlock]
  refine ⟨⟨fun h => ?_, ?_⟩, ⟨fun h => ?_, ?_⟩⟩
  · by_contra! hcond
    obtain ⟨hsize, hfits, hfree⟩ := hcond
    rcases h (off / 4096 + (size + 4095) / 4096) (b.memStart + (off / 4096 + (size + 4095) / 4096) * 4096) (by omega)
      (by omega) (by omega) with hused | hmarked
    · exact hfree hused
    · omega
  · rintro hcond i a ⟨hge, hlt⟩ hfirst hlast
    by_cases hmarked : off / 4096 ≤ i ∧ i < off / 4096 + (size + 4095) / 4096
    · exact .inr hmarked
    obtain rfl : i = off / 4096 + (size + 4095) / 4096 := by omega
    exact .inl ((hcond.resolve_left (by omega)).resolve_left (by omega))
  · by_contra! hcond
    obtain ⟨hsize, hfits, hused⟩ := hcond
    have := h ((off + 4095) / 4096 + size / 4096 - 1) (b.memStart + ((off + 4095) / 4096 + size / 4096) * 4096 - 1)
      (by omega) (Bool.eq_true_of_not_eq_false hused) (by simp; omega)
    omega
  · rintro hcond i a ⟨hge, hlt⟩ hused hfreed
    simp only [hused, Bool.true_and, decide_not, Bool.not_eq_false', decide_eq_true_eq] at hfreed
    refine ⟨by omega, ?_⟩
    by_contra hlast
    obtain rfl : i = (off + 4095) / 4096 + size / 4096 - 1 := by omega
    have hclear := (hcond.resolve_left (by omega)).resolve_left (by omega)
    exact absurd hused (ne_true_of_eq_false hclear)

theorem markRegion_conservative_twoBlocks : WellFormed sixteenBlocks ∧
    ∀ i a, InBlock sixteenBlocks i a → 0x100000 + 0 ≤ a → a < 0x100000 + 0 + 0x1001 →
      bitmapGet (markRegion sixteenBlocks (0x100000 + 0) 0x1001 true) i = true := by
  have hwf : WellFormed sixteenBlocks := ⟨by decide, by decide, by decide⟩
  exact ⟨hwf, (markRegion_conservative_iff hwf 0 0x1001 (by decide) (by decide)).1.2 (.inr (.inl (by decide)))⟩

/-- 4096 bytes from the second byte on end in block 1, which is not marked, and is freed as a whole. -/
theorem markRegion_unaligned : InBlock sixteenBlocks 1 0x101000 ∧
    bitmapGet (markRegion sixteenBlocks 0x100001 4096 true) 1 = false ∧
    bitmapGet (markRegion { sixteenBlocks with bitmap := fun _ => 255#8 } 0x100001 4096 false) 1 = false :=
  ⟨⟨by decide, by decide⟩, by decide, by decide⟩

end CoreX.Bitmap

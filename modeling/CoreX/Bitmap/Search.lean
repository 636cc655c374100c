import CoreX.Bitmap.Marking

/-!
# The search for a free region

`FindFreeRegion` scans upwards from `lastDeepFragmented`, keeping the free run that ends at the current block. When no
block below the hint is free (`HintOk`), it finds the first run of the whole bitmap, and `INVALID_BLOCK` means that
there is none.
-/

namespace CoreX.Bitmap

section
variable (b : DSBitmap) (s n : Nat)

/-- The blocks from `s` on are free. -/
def Free : Prop := ∀ j, s ≤ j → j < s + n → bitmapGet b j = false

/-- There are so many free blocks in a row. -/
def HasRun : Prop := ∃ s, s + n ≤ b.bitmapSizeInBlocks ∧ Free b s n

/-- No block below the hint is free. -/
def HintOk : Prop := ∀ i, i < b.lastDeepFragmented → i < b.bitmapSizeInBlocks → bitmapGet b i = true

def afterSearch (blocks region : Nat) : DSBitmap :=
  if blocks = 1 then { b with lastDeepFragmented := region + 1 } else b

end

theorem not_free_of_used {b : DSBitmap} {s n i : Nat} (hi : bitmapGet b i = true) (hs : s ≤ i)
    (hn : i < s + n) : ¬ Free b s n := by
  intro h
  have := h i hs hn
  rw [hi] at this
  exact absurd this (by simp)

section
variable (b : DSBitmap) (blocks : Nat)

/-- What the scan can return. The induction is on the blocks left; `regionStart` and `regionSize` always
describe the free run that ends just before block `i`, and it is still too short. -/
theorem findLoop_cases : ∀ (left i rs rz : Nat), rs + rz = i → rz < blocks → Free b rs rz →
      (findLoop blocks left i rs rz b = (invalidBlock, b) ∧ ∀ s, rs ≤ s → s + blocks ≤ i + left → ¬ Free b s blocks) ∨
      ∃ region, findLoop blocks left i rs rz b = (region, afterSearch b blocks region) ∧
        rs ≤ region ∧ region + blocks ≤ i + left ∧ Free b region blocks ∧
        ∀ s, rs ≤ s → s < region → ¬ Free b s blocks := by
  intro left
  induction left with
  | zero =>
    intro i rs rz hi hrz _
    exact Or.inl ⟨rfl, fun s hs hle => absurd hle (by omega)⟩
  | succ left ih =>
    intro i rs rz hi hrz hfree
    rw [findLoop]
    by_cases hget : bitmapGet b i = true
    · rw [if_pos hget]
      -- a run that starts at or below `i` and is long enough would contain the used block `i`
      have hbelow : ∀ s, rs ≤ s → s < i + 1 → ¬ Free b s blocks := fun s hs hlt =>
        not_free_of_used hget (by omega) (by omega)
      rcases ih (i + 1) (i + 1) 0 rfl (by omega) (fun j hj hlt => absurd hlt (by omega)) with
        ⟨hres, hnone⟩ | ⟨region, hres, hle, hend, hrun, hfirst⟩
      · left
        refine ⟨hres, fun s hs hbound => ?_⟩
        by_cases hsi : s < i + 1
        · exact hbelow s hs hsi
        · exact hnone s (by omega) (by omega)
      · right
        refine ⟨region, hres, by omega, by omega, hrun, fun s hs hlt => ?_⟩
        by_cases hsi : s < i + 1
        · exact hbelow s hs hsi
        · exact hfirst s (by omega) hlt
    · rw [if_neg hget]
      have hrun : Free b rs (rz + 1) := by
        intro j hj hlt
        by_cases hji : j < rs + rz
        · exact hfree j hj hji
        · have : j = i := by omega
          rw [this]
          exact Bool.eq_false_iff.2 hget
      by_cases hlen : rz + 1 ≥ blocks
      · right
        rw [if_pos hlen]
        have heq : rz + 1 = blocks := by omega
        refine ⟨rs, rfl, le_rfl, by omega, heq ▸ hrun, fun s hs hlt => absurd hlt (by omega)⟩
      · rw [if_neg hlen, if_neg (by omega)]
        rcases ih (i + 1) rs (rz + 1) (by omega) (by omega) hrun with
          ⟨hres, hnone⟩ | ⟨region, hres, hle, hend, hrest⟩
        · exact Or.inl ⟨hres, fun s hs hbound => hnone s hs (by omega)⟩
        · exact Or.inr ⟨region, hres, hle, by omega, hrest⟩

theorem findFreeRegion_cases {blocks : Nat} (hblocks : 1 ≤ blocks) : (findFreeRegion b blocks = (invalidBlock, b) ∧
      ∀ s, b.lastDeepFragmented ≤ s → s + blocks ≤ b.bitmapSizeInBlocks → ¬ Free b s blocks) ∨
    ∃ region, findFreeRegion b blocks = (region, afterSearch b blocks region) ∧
      b.lastDeepFragmented ≤ region ∧ region + blocks ≤ b.bitmapSizeInBlocks ∧ Free b region blocks ∧
      ∀ s, b.lastDeepFragmented ≤ s → s < region → ¬ Free b s blocks := by
  by_cases hhint : b.lastDeepFragmented ≤ b.bitmapSizeInBlocks
  · have h := findLoop_cases b blocks (b.bitmapSizeInBlocks - b.lastDeepFragmented)
      b.lastDeepFragmented b.lastDeepFragmented 0 rfl (by omega)
      (fun j hj hlt => absurd hlt (by omega))
    rwa [Nat.add_sub_cancel' hhint] at h
  · left
    refine ⟨?_, fun s hs hle => absurd hle (by omega)⟩
    rw [findFreeRegion, Nat.sub_eq_zero_of_le (by omega)]
    rfl

theorem hint_le_of_free {b : DSBitmap} (hhint : HintOk b) {s n : Nat} (hn : 1 ≤ n)
    (hs : s + n ≤ b.bitmapSizeInBlocks) (hfree : Free b s n) : b.lastDeepFragmented ≤ s := by
  by_contra hlt
  exact not_free_of_used (hhint s (by omega) (by omega)) le_rfl (by omega) hfree

theorem findFreeRegion_eq_invalid_iff {b : DSBitmap} (hhint : HintOk b)
    (hsize : b.bitmapSizeInBlocks < 2 ^ 64) {blocks : Nat} (hblocks : 1 ≤ blocks) :
    (findFreeRegion b blocks).1 = invalidBlock ↔ ¬ HasRun b blocks := by
  rcases findFreeRegion_cases b hblocks with ⟨hres, hnone⟩ | ⟨region, hres, _, hend, hrun, _⟩
  · rw [hres]
    refine ⟨fun _ ⟨s, hs, hfree⟩ => ?_, fun _ => rfl⟩
    exact hnone s (hint_le_of_free hhint hblocks hs hfree) hs hfree
  · rw [hres]
    refine ⟨fun hinv => ?_, fun hno => absurd ⟨region, hend, hrun⟩ hno⟩
    simp only [invalidBlock] at hinv
    omega

section
variable (region : Nat)

@[simp] theorem afterSearch_size : (afterSearch b blocks region).bitmapSizeInBlocks = b.bitmapSizeInBlocks := by
  unfold afterSearch
  split <;> rfl

@[simp] theorem afterSearch_memStart : (afterSearch b blocks region).memStart = b.memStart := by
  unfold afterSearch
  split <;> rfl

@[simp] theorem afterSearch_allocated :
    (afterSearch b blocks region).allocatedSizeInBlocks = b.allocatedSizeInBlocks := by
  unfold afterSearch
  split <;> rfl

@[simp] theorem bitmapGet_afterSearch (i : Nat) : bitmapGet (afterSearch b blocks region) i = bitmapGet b i := by
  unfold afterSearch
  split <;> rfl

end

end

end CoreX.Bitmap

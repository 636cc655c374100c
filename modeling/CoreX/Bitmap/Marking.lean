import CoreX.Bitmap.Model
import Mathlib.Order.Interval.Finset.Nat

/-!
# Marking blocks

`markBlocks` sets or clears the bits of an interval. As the finite set `usedBlocks` of the set bits, it adds the
interval or removes it, which is all that the allocator proofs use of the bit arithmetic.
-/

namespace CoreX.Bitmap

open Finset Word

theorem bitmapGet_foldl_bitmapSet (v : Bool) (j n : Nat) : ∀ (s : Nat) (b : DSBitmap),
    bitmapGet ((List.range' s n).foldl (fun b i => bitmapSet b i v) b) j =
      if s ≤ j ∧ j < s + n then v else bitmapGet b j := by
  induction n with
  | zero => intro s b; rw [if_neg (by omega)]; rfl
  | succ n ih =>
    intro s b
    rw [List.range'_succ, List.foldl_cons, ih, bitmapGet_bitmapSet]
    by_cases hj : j = s
    · rw [if_neg (by omega), if_pos hj, if_pos (by omega)]
    · by_cases hin : s + 1 ≤ j ∧ j < s + 1 + n
      · rw [if_pos hin, if_pos (by omega)]
      · rw [if_neg hin, if_neg hj, if_neg (by omega)]

section
variable (b : DSBitmap) (s e : Nat) (v : Bool) (j : Nat)

theorem bitmapGet_setBlocks : bitmapGet (setBlocks b s e v) j = if s ≤ j ∧ j < e then v else bitmapGet b j := by
  rw [setBlocks, bitmapGet_foldl_bitmapSet]
  by_cases h : s ≤ j ∧ j < e
  · rw [if_pos h, if_pos (by omega)]
  · rw [if_neg h, if_neg (by omega)]

theorem setBlocks_frame : ∃ m, setBlocks b s e v = { b with bitmap := m } := by
  unfold setBlocks
  generalize List.range' s (e - s) = l
  induction l generalizing b with
  | nil => exact ⟨b.bitmap, rfl⟩
  | cons i l ih =>
    obtain ⟨m, hm⟩ := ih (bitmapSet b i v)
    exact ⟨m, by rw [List.foldl_cons, hm]; rfl⟩

theorem setBlocks_byte (a : Nat) (ha : ∀ i, s ≤ i → i < e → i / 8 ≠ a) :
    (setBlocks b s e v).bitmap a = b.bitmap a := by
  have hmem : ∀ i ∈ List.range' s (e - s), i / 8 ≠ a := by
    intro i hi
    rw [List.mem_range'_1] at hi
    exact ha i hi.1 (by omega)
  unfold setBlocks
  generalize List.range' s (e - s) = l at hmem
  induction l generalizing b with
  | nil => rfl
  | cons i l ih =>
    rw [List.foldl_cons, ih _ (fun j hj => hmem j (List.mem_cons_of_mem _ hj))]
    exact Function.update_of_ne (hmem i (List.mem_cons_self ..)).symm _ _

end

section
variable (b : DSBitmap) (s n : Nat) (v : Bool)

theorem markBlocks_frame : (markBlocks b s n v).bitmapSizeInBlocks = b.bitmapSizeInBlocks ∧
    (markBlocks b s n v).bitmapSizeInBytes = b.bitmapSizeInBytes ∧ (markBlocks b s n v).memStart = b.memStart ∧
    (markBlocks b s n v).lastDeepFragmented =
      (if v = false ∧ s < b.lastDeepFragmented then s else b.lastDeepFragmented) ∧
    (markBlocks b s n v).allocatedSizeInBlocks =
      (if v then add b.allocatedSizeInBlocks n else sub b.allocatedSizeInBlocks n) := by
  unfold markBlocks
  obtain ⟨m, hm⟩ := setBlocks_frame (if !v && s < b.lastDeepFragmented then
    { b with lastDeepFragmented := s } else b) s (add s n) v
  simp only [hm]
  cases v
  · by_cases hs : s < b.lastDeepFragmented <;> simp [hs]
  · simp

@[simp] theorem markBlocks_size :
    (markBlocks b s n v).bitmapSizeInBlocks = b.bitmapSizeInBlocks := (markBlocks_frame b s n v).1

@[simp] theorem markBlocks_bytes :
    (markBlocks b s n v).bitmapSizeInBytes = b.bitmapSizeInBytes := (markBlocks_frame b s n v).2.1

@[simp] theorem markBlocks_memStart : (markBlocks b s n v).memStart = b.memStart := (markBlocks_frame b s n v).2.2.1

theorem markBlocks_hint : (markBlocks b s n v).lastDeepFragmented =
      (if v = false ∧ s < b.lastDeepFragmented then s else b.lastDeepFragmented) :=
  (markBlocks_frame b s n v).2.2.2.1

theorem markBlocks_allocated : (markBlocks b s n v).allocatedSizeInBlocks =
      (if v then add b.allocatedSizeInBlocks n else sub b.allocatedSizeInBlocks n) :=
  (markBlocks_frame b s n v).2.2.2.2

theorem bitmapGet_markBlocks_wrap (j : Nat) : bitmapGet (markBlocks b s n v) j =
      if s ≤ j ∧ j < add s n then v else bitmapGet b j := by
  have hbits : bitmapGet (markBlocks b s n v) j = bitmapGet (setBlocks (if !v && s < b.lastDeepFragmented then
        { b with lastDeepFragmented := s } else b) s (add s n) v) j := by
    unfold markBlocks
    cases v <;> rfl
  rw [hbits, bitmapGet_setBlocks]
  by_cases hs : (!v && s < b.lastDeepFragmented) = true
  · rw [if_pos hs]; rfl
  · rw [if_neg hs]

theorem bitmapGet_markBlocks {s n : Nat} (h : s + n < 2 ^ 64) (v : Bool) (j : Nat) :
    bitmapGet (markBlocks b s n v) j = if s ≤ j ∧ j < s + n then v else bitmapGet b j := by
  rw [bitmapGet_markBlocks_wrap, add_eq h]

theorem markBlocks_byte {s n : Nat} (a : Nat) (ha : ∀ i, s ≤ i → i < s + n → i / 8 ≠ a) :
    (markBlocks b s n v).bitmap a = b.bitmap a := by
  have hbyte : (markBlocks b s n v).bitmap a = (setBlocks (if !v && s < b.lastDeepFragmented then
        { b with lastDeepFragmented := s } else b) s (add s n) v).bitmap a := by
    unfold markBlocks
    cases v <;> rfl
  have hle : add s n ≤ s + n := Nat.mod_le _ _
  rw [hbyte, setBlocks_byte _ _ _ _ _ (fun i hi hlt => ha i hi (by omega))]
  split <;> rfl

end

/-! ## The set of used blocks -/

def usedBlocks (b : DSBitmap) : Finset Nat := (range b.bitmapSizeInBlocks).filter (fun i => bitmapGet b i = true)

theorem mem_usedBlocks {b : DSBitmap} {i : Nat} :
    i ∈ usedBlocks b ↔ i < b.bitmapSizeInBlocks ∧ bitmapGet b i = true := by
  simp [usedBlocks]

section
variable {b : DSBitmap} {s n : Nat} (hn : s + n ≤ b.bitmapSizeInBlocks) (hsize : b.bitmapSizeInBlocks < 2 ^ 64)
include hn hsize

theorem usedBlocks_markBlocks_true : usedBlocks (markBlocks b s n true) = usedBlocks b ∪ Ico s (s + n) := by
  ext i
  rw [mem_usedBlocks, mem_union, mem_usedBlocks, mem_Ico, markBlocks_size, bitmapGet_markBlocks b (by omega)]
  by_cases hi : s ≤ i ∧ i < s + n
  · rw [if_pos hi]
    exact ⟨fun _ => Or.inr hi, fun _ => ⟨by omega, rfl⟩⟩
  · rw [if_neg hi]
    exact ⟨Or.inl, fun h => h.resolve_right hi⟩

theorem usedBlocks_markBlocks_false : usedBlocks (markBlocks b s n false) = usedBlocks b \ Ico s (s + n) := by
  ext i
  rw [mem_usedBlocks, mem_sdiff, mem_usedBlocks, mem_Ico, markBlocks_size, bitmapGet_markBlocks b (by omega)]
  by_cases hi : s ≤ i ∧ i < s + n
  · rw [if_pos hi]
    exact ⟨fun h => absurd h.2 (by simp), fun h => absurd hi h.2⟩
  · rw [if_neg hi]
    exact ⟨fun h => ⟨h, hi⟩, fun h => h.1⟩

end

end CoreX.Bitmap

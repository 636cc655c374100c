import Mathlib.Data.Nat.ModEq
import Mathlib.Tactic.Ring

/-!
# One's complement sums

A sum in one's complement adds the carries back at the low end. In base `b` this keeps the value modulo `b - 1`, so
the folded sum is the full word `b - 1` exactly if a positive sum is divisible by `b - 1`.
-/

namespace CoreX.OnesComplement

open Nat

def endAround (b s : Nat) : Nat := s % b + s / b

def foldCarries (b : Nat) : Nat → Nat → Nat
  | 0, s => s
  | fuel + 1, s => if s / b = 0 then s else foldCarries b fuel (endAround b s)

theorem endAround_modEq (b s : Nat) (hb : 0 < b) : endAround b s ≡ s [MOD b - 1] := by
  have hOne : b ≡ 1 [MOD b - 1] := by
    have h := (modEq_iff_dvd' (show 1 ≤ b from hb)).2 (dvd_refl (b - 1))
    exact h.symm
  have hProd : b * (s / b) ≡ s / b [MOD b - 1] := by
    have h := hOne.mul_right (s / b)
    rwa [one_mul] at h
  have hSum := (Nat.ModEq.refl (s % b)).add hProd
  rw [mod_add_div] at hSum
  exact hSum.symm

theorem endAround_pos {b s : Nat} (hs : 0 < s) : 0 < endAround b s := by
  by_contra h
  have hZero : s % b + s / b = 0 := Nat.eq_zero_of_not_pos h
  obtain ⟨hMod, hDiv⟩ := Nat.add_eq_zero_iff.1 hZero
  have := mod_add_div s b
  rw [hDiv, hMod] at this
  omega

theorem foldCarries_modEq (b : Nat) (hb : 0 < b) (fuel : Nat) : ∀ s, foldCarries b fuel s ≡ s [MOD b - 1] := by
  induction fuel with
  | zero => intro s; exact Nat.ModEq.refl s
  | succ fuel ih =>
    intro s
    rw [foldCarries]
    split
    · exact Nat.ModEq.refl s
    · exact (ih _).trans (endAround_modEq b s hb)

theorem foldCarries_pos (b fuel : Nat) : ∀ s, 0 < s → 0 < foldCarries b fuel s := by
  induction fuel with
  | zero => intro s hs; exact hs
  | succ fuel ih =>
    intro s hs
    rw [foldCarries]
    split
    · exact hs
    · exact ih _ (endAround_pos hs)

theorem foldCarries_of_lt {b s : Nat} (fuel : Nat) (hs : s < b) : foldCarries b fuel s = s := by
  cases fuel with
  | zero => rfl
  | succ fuel => rw [foldCarries, if_pos (div_eq_of_lt hs)]

theorem foldCarries_two_lt {b s : Nat} (hb : 1 < b) (hs : s < b * b) : foldCarries b 2 s < b := by
  by_cases hSmall : s < b
  · rw [foldCarries_of_lt 2 hSmall]
    exact hSmall
  have hHigh : s / b < b := Nat.div_lt_of_lt_mul hs
  have hLow : s % b < b := mod_lt _ (by omega)
  have hNext : foldCarries b 2 s = foldCarries b 1 (endAround b s) := by
    rw [foldCarries, if_neg]
    rw [Nat.div_eq_zero_iff]
    omega
  have hBound : endAround b s ≤ (b - 1) + (b - 1) := by rw [endAround]; omega
  rw [hNext]
  by_cases hNone : endAround b s < b
  · rw [foldCarries_of_lt 1 hNone]
    exact hNone
  -- the second carry is one, and the low word it is added to is not the full word
  have hDiv : endAround b s / b = 1 := by
    rw [Nat.div_eq_of_lt_le] <;> omega
  have hSplit := mod_add_div (endAround b s) b
  rw [hDiv, mul_one] at hSplit
  have hLast : foldCarries b 1 (endAround b s) = endAround b s % b + 1 := by
    rw [foldCarries, if_neg (by omega), foldCarries, endAround, hDiv]
  omega

theorem foldCarries_two_eq_iff {b s : Nat} (hb : 1 < b) (hs : s < b * b) (hPos : 0 < s) :
    foldCarries b 2 s = b - 1 ↔ s % (b - 1) = 0 := by
  have hLt := foldCarries_two_lt hb hs
  have hFold : 0 < foldCarries b 2 s := foldCarries_pos b 2 s hPos
  have hMod : foldCarries b 2 s % (b - 1) = s % (b - 1) := foldCarries_modEq b (by omega) 2 s
  constructor
  · intro h
    rw [← hMod, h, mod_self]
  · intro h
    rw [h] at hMod
    have hLe := le_of_dvd hFold (dvd_of_mod_eq_zero hMod)
    omega

theorem swap_modEq_iff {β hi lo : Nat} (hHi : hi < β) (hLo : lo < β) :
    (hi * β + lo ≡ lo * β + hi [MOD β * β - 1]) ↔ hi = lo := by
  -- the two numbers differ by `d (β - 1)` for the distance `d` of the digits, which is too small
  have hFar : ∀ x y : Nat, x < y → y < β → ¬ (x * β + y ≡ y * β + x [MOD β * β - 1]) := by
    intro x y hxy hy hEq
    obtain ⟨d, rfl⟩ := Nat.exists_eq_add_of_lt hxy
    obtain ⟨c, rfl⟩ := Nat.exists_eq_add_of_lt hy
    have hSum : (x + d + 1) * (x + d + 1 + c + 1) + x =
        x * (x + d + 1 + c + 1) + (x + d + 1) + (d + 1) * (x + d + 1 + c) := by
      ring
    have hDvd := (modEq_iff_dvd' (by rw [hSum]; exact le_add_right _ _)).1 hEq
    rw [hSum, Nat.add_sub_cancel_left] at hDvd
    have hPos : 0 < x + d + 1 + c := by omega
    have hSmall := le_of_dvd (mul_pos (succ_pos d) hPos) hDvd
    have hSquare : (x + d + 1 + c + 1) * (x + d + 1 + c + 1) - 1 =
        (x + d + 1 + c + 2) * (x + d + 1 + c) := by
      apply Nat.sub_eq_of_eq_add
      ring
    rw [hSquare] at hSmall
    have := le_of_mul_le_mul_right hSmall hPos
    omega
  constructor
  · intro hEq
    rcases lt_trichotomy hi lo with h | h | h
    · exact absurd hEq (hFar hi lo h hLo)
    · exact h
    · exact absurd hEq.symm (hFar lo hi h hHi)
  · rintro rfl
    exact Nat.ModEq.refl _

end CoreX.OnesComplement

import Mathlib.Tactic.Ring
import Mathlib.Tactic.NormNum
import Mathlib.Data.Nat.ModEq

/-!
# 64-bit words as natural numbers

A machine word is a `Nat` below `2 ^ 64`. `add`, `sub` and `mul` wrap, as the operators of an optimised
build do; the `_eq` lemmas say when they are the operations of `Nat`. `divRoundUp x y` is the usual
`(x + y - 1) / y`, with both of its intermediate results wrapping.
-/

namespace CoreX.Word

open Nat

section
variable (a b : Nat)

def add : Nat := (a + b) % 2 ^ 64

def sub : Nat := (2 ^ 64 + a - b) % 2 ^ 64

def mul : Nat := a * b % 2 ^ 64

def divRoundUp (x y : Nat) : Nat := sub (add x y) 1 / y

theorem add_eq {a b : Nat} (h : a + b < 2 ^ 64) : add a b = a + b := mod_eq_of_lt h

theorem mul_eq {a b : Nat} (h : a * b < 2 ^ 64) : mul a b = a * b := mod_eq_of_lt h

theorem sub_eq {a b : Nat} (hb : b ≤ a) (ha : a < 2 ^ 64) : sub a b = a - b := by
  unfold sub
  omega

theorem add_lt : add a b < 2 ^ 64 := mod_lt _ (by norm_num)

theorem sub_lt : sub a b < 2 ^ 64 := mod_lt _ (by norm_num)

/-- Subtracting what was added gives the offset back, also when the addition wrapped. -/
theorem sub_add_cancel {base off : Nat} (hbase : base < 2 ^ 64) (hoff : off < 2 ^ 64) :
    sub (add base off) base = off := by
  unfold sub add
  omega

theorem add_modEq : add a b ≡ a + b [MOD 2 ^ 64] := mod_modEq _ _

end

theorem sub_modEq {a b : Nat} (hb : b ≤ 2 ^ 64) : sub a b + b ≡ a [MOD 2 ^ 64] := by
  unfold sub Nat.ModEq
  omega

/-- The ceiling of the quotient, unless the rounding itself overflows: a wrap of `x + y` to zero is undone
by the `- 1`. -/
theorem divRoundUp_eq {x y : Nat} (hy : 0 < y) (h : x + (y - 1) < 2 ^ 64) : divRoundUp x y = (x + (y - 1)) / y := by
  have hsub : sub (add x y) 1 = x + (y - 1) := by
    unfold sub add
    omega
  rw [divRoundUp, hsub]

theorem divRoundUp_mul {k y : Nat} (hy : 0 < y) (h : k * y + (y - 1) < 2 ^ 64) : divRoundUp (k * y) y = k := by
  rw [divRoundUp_eq hy h, mul_comm, mul_add_div hy, div_eq_of_lt (by omega)]
  rfl

theorem divRoundUp_of_dvd {x y : Nat} (hy : 0 < y) (hdvd : y ∣ x) (h : x + (y - 1) < 2 ^ 64) :
    divRoundUp x y = x / y := by
  obtain ⟨k, rfl⟩ := hdvd
  rw [Nat.mul_div_cancel_left k hy, Nat.mul_comm] at *
  exact divRoundUp_mul hy h

theorem divRoundUp_le (x y : Nat) : divRoundUp x y ≤ (2 ^ 64 - 1) / y :=
  Nat.div_le_div_right (Nat.le_sub_one_of_lt (sub_lt _ _))

theorem sub_zero {a : Nat} (ha : a < 2 ^ 64) : sub a 0 = a := sub_eq (zero_le a) ha

end CoreX.Word

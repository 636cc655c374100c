import Mathlib.Algebra.BigOperators.Group.Finset.Basic
import Mathlib.Algebra.Ring.Nat

/-!
# Bits of a byte memory

Bit `i` of a memory of bytes is bit `i % 8` of the byte `i / 8`. `put` is the usual read, mask and write of
that byte: it changes one bit. `clear m n` is the set of the clear bits below `n`.
-/

namespace CoreX.Bits

open BitVec Finset

section
variable (m : Nat → BitVec 8) (i : Nat)

def get : Bool := (m (i / 8)).getLsbD (i % 8)

def put (value : Bool) : Nat → BitVec 8 :=
  Function.update m (i / 8)
    (if value then m (i / 8) ||| (1#8 <<< (i % 8)) else m (i / 8) &&& ~~~(1#8 <<< (i % 8)))

theorem and_one_shiftLeft_ne_zero (x : BitVec 8) {k : Nat} (hk : k < 8) :
    ((x &&& (1#8 <<< k)) != 0#8) = x.getLsbD k := by
  have htwo : (1#8 <<< k) = twoPow 8 k := (twoPow_eq 8 k).symm
  rw [htwo, and_twoPow]
  have hne : twoPow 8 k ≠ 0#8 := by
    intro h
    have := congrArg (fun v : BitVec 8 => v.getLsbD k) h
    simp [hk] at this
  by_cases hbit : x.getLsbD k <;> simp [hbit, hne]

theorem get_put (j : Nat) (value : Bool) : get (put m i value) j = if j = i then value else get m j := by
  have hj : j % 8 < 8 := Nat.mod_lt _ (by decide)
  rw [get, get, put]
  by_cases hbyte : j / 8 = i / 8
  · rw [hbyte, Function.update_self]
    have hbit : (1#8 <<< (i % 8)).getLsbD (j % 8) = decide (j = i) := by
      rw [← twoPow_eq, getLsbD_twoPow, decide_eq_true (by omega), Bool.true_and]
      exact decide_eq_decide.2 (by omega)
    cases value
    · simp only [Bool.false_eq_true, if_false, getLsbD_and, getLsbD_not, hbit, hj]
      by_cases hji : j = i <;> simp [hji]
    · simp only [if_true, getLsbD_or, hbit]
      by_cases hji : j = i <;> simp [hji]
  · rw [Function.update_of_ne hbyte, if_neg (fun h => hbyte (by rw [h]))]

def clear (n : Nat) : Finset Nat := (Finset.range n).filter fun i => get m i = false

end

variable {m : Nat → BitVec 8} {i n : Nat}

theorem mem_clear : i ∈ clear m n ↔ i < n ∧ get m i = false := by
  simp [clear]

theorem clear_put_true : clear (put m i true) n = (clear m n).erase i := by
  ext j
  rw [mem_erase, mem_clear, mem_clear, get_put]
  by_cases hj : j = i <;> simp [hj]

theorem clear_put_false (hi : i < n) : clear (put m i false) n = insert i (clear m n) := by
  ext j
  rw [mem_insert, mem_clear, mem_clear, get_put]
  by_cases hj : j = i <;> simp [hj, hi]

theorem shiftLeft_or_of_lt {x n k : Nat} (h : n < 2 ^ k) : x <<< k ||| n = x * 2 ^ k + n := by
  rw [← Nat.shiftLeft_add_eq_or_of_lt h, Nat.shiftLeft_eq]

theorem sum_add_eq {s : Finset Nat} (f f' : Nat → Nat) {g : Nat} (hg : g ∈ s)
    (hother : ∀ h ∈ s, h ≠ g → f' h = f h) : ∑ h ∈ s, f' h + f g = ∑ h ∈ s, f h + f' g := by
  have hrest : ∑ h ∈ s.erase g, f' h = ∑ h ∈ s.erase g, f h :=
    sum_congr rfl fun h hh => hother h (mem_of_mem_erase hh) (ne_of_mem_erase hh)
  rw [← add_sum_erase s f' hg, ← add_sum_erase s f hg, hrest]
  omega

end CoreX.Bits

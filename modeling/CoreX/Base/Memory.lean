import Mathlib.Logic.Function.Basic

/-!
# Byte memory behind a pointer

The memory a pointer gives access to is a function of the offset from it. A single store is
`Function.update`; `memset` and `memcpy` are the two block operations.
-/

namespace CoreX

abbrev Bytes := List UInt8

abbrev Buf := Nat → UInt8

namespace Memory

variable {α : Type*} {m src : Nat → α} {v : α}

def memset (m : Nat → α) (off : Nat) (v : α) (n : Nat) : Nat → α :=
  fun i => if off ≤ i ∧ i < off + n then v else m i

def memcpy (m : Nat → α) (off : Nat) (src : Nat → α) (n : Nat) : Nat → α :=
  fun i => if off ≤ i ∧ i < off + n then src (i - off) else m i

theorem memset_of_mem {off n i : Nat} (h : off ≤ i ∧ i < off + n) : memset m off v n i = v := if_pos h

theorem memcpy_of_mem {off n i : Nat} (h : off ≤ i ∧ i < off + n) : memcpy m off src n i = src (i - off) := if_pos h

theorem memcpy_of_notMem {off n i : Nat} (h : ¬(off ≤ i ∧ i < off + n)) : memcpy m off src n i = m i := if_neg h

theorem memcpy_if_ne_zero (m src : Nat → α) (off n : Nat) :
    (if n ≠ 0 then memcpy m off src n else m) = memcpy m off src n := by
  by_cases hn : n = 0
  · subst hn
    funext i
    exact (memcpy_of_notMem (by omega)).symm
  · rw [if_pos hn]

end Memory

end CoreX

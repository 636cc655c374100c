import CoreX.Base.Memory
import Mathlib.Data.List.TakeDrop
import Mathlib.Data.Nat.ModEq

/-!
# Rings of cells

A ring is a memory of `size` cells whose cell after the last one is the first. `window m size start n` reads
`n` cells from `start` on. A copy that wraps around is done by two `memcpy` calls, one up to the end of the
memory and one from its start.
-/

namespace CoreX.Ring

open List Nat Memory Function

variable {α : Type*} {m m' : Nat → α} {size start k : Nat} {n : Nat}

def window (m : Nat → α) (size start n : Nat) : List α := (List.range n).map fun k => m ((start + k) % size)

@[simp] theorem window_zero : window m size start 0 = [] := rfl

@[simp] theorem length_window (n : Nat) : (window m size start n).length = n := by simp [window]

theorem getElem?_window (hk : k < n) : (window m size start n)[k]? = some (m ((start + k) % size)) := by
  simp [window, hk]

theorem window_congr (h : ∀ k < n, m' ((start + k) % size) = m ((start + k) % size)) :
    window m' size start n = window m size start n :=
  map_congr_left fun k hk => h k (mem_range.1 hk)

theorem add_add_mod (start a b size : Nat) : (start + (a + b)) % size = ((start + a) % size + b) % size := by
  rw [mod_add_mod, add_assoc]

theorem add_mod_of_lt (hstart : start < size) (hk : k ≤ size) :
    (start + k) % size = if start + k < size then start + k else start + k - size := by
  by_cases h : start + k < size
  · rw [if_pos h, mod_eq_of_lt h]
  · rw [if_neg h, mod_eq_sub_mod (by omega), mod_eq_of_lt (by omega)]

theorem add_mod_inj {l : Nat} (hk : k < size) (hl : l < size) (h : (start + k) % size = (start + l) % size) :
    k = l := by
  have hmod : k ≡ l [MOD size] := Nat.ModEq.add_left_cancel' start h
  exact Nat.ModEq.eq_of_lt_of_lt hmod hk hl

theorem window_add (a b : Nat) : window m size start (a + b) =
      window m size start a ++ window m size ((start + a) % size) b := by
  rw [window, range_add, map_append, map_map]
  refine congrArg (window m size start a ++ ·) (map_congr_left fun k _ => ?_)
  rw [comp_apply, add_add_mod]

theorem take_window (n k : Nat) : (window m size start n).take k = window m size start (min k n) := by
  rcases le_total k n with hk | hk
  · obtain ⟨b, rfl⟩ := Nat.exists_eq_add_of_le hk
    rw [min_eq_left hk, window_add, take_left' (length_window k)]
  · rw [min_eq_right hk, take_of_length_le (by rwa [length_window])]

theorem drop_window (n k : Nat) :
    (window m size start n).drop k = window m size ((start + min k n) % size) (n - k) := by
  rcases le_total k n with hk | hk
  · obtain ⟨b, rfl⟩ := Nat.exists_eq_add_of_le hk
    rw [Nat.min_eq_left hk, window_add, drop_left' (length_window k), Nat.add_sub_cancel_left]
  · rw [Nat.sub_eq_zero_of_le hk, window_zero, drop_eq_nil_of_le (by rwa [length_window])]

theorem window_update_of_le (hn : n ≤ k) (hk : k < size) (v : α) :
    window (update m ((start + k) % size) v) size start n = window m size start n := by
  refine window_congr fun l hl => update_of_ne (fun heq => ?_) _ _
  have := add_mod_inj (by omega) hk heq
  omega

theorem window_update_succ (hn : n < size) (v : α) :
    window (update m ((start + n) % size) v) size start (n + 1) = window m size start n ++ [v] := by
  rw [window_add, window_update_of_le (le_refl n) hn]
  simp [window]

/-! ## Copies that wrap around -/

theorem memcpy_wrap_out {out : Nat → α} (hstart : start < size) (hn : n ≤ size) :
    memcpy (memcpy out 0 (fun i => m (start + i)) (min n (size - start)))
        (min n (size - start)) m (n - min n (size - start)) =
      fun i => ((window m size start n)[i]?).getD (out i) := by
  funext i
  by_cases hi : i < n
  · rw [getElem?_window hi, Option.getD_some, add_mod_of_lt hstart (by omega)]
    by_cases hfirst : i < size - start
    · rw [Memory.memcpy_of_notMem (by omega), Memory.memcpy_of_mem (by omega), if_pos (by omega), Nat.sub_zero]
    · rw [memcpy_of_mem (by omega), if_neg (by omega)]
      congr 1
      omega
  · rw [getElem?_eq_none (by rw [length_window]; omega), Option.getD_none,
      memcpy_of_notMem (by omega), memcpy_of_notMem (by omega)]

theorem memcpy_wrap_in {src : Nat → α} (hstart : start < size) (hn : n ≤ size) (hk : k < size) :
    memcpy (memcpy m start src (min n (size - start))) 0
        (fun i => src (min n (size - start) + i)) (n - min n (size - start)) ((start + k) % size) =
      if k < n then src k else m ((start + k) % size) := by
  rw [add_mod_of_lt hstart (by omega)]
  by_cases hwrap : start + k < size
  · rw [if_pos hwrap, memcpy_of_notMem (by omega)]
    by_cases hkn : k < n
    · rw [if_pos hkn, Memory.memcpy_of_mem (by omega), Nat.add_sub_cancel_left]
    · rw [if_neg hkn, memcpy_of_notMem (by omega)]
  · rw [if_neg hwrap]
    by_cases hkn : k < n
    · rw [if_pos hkn, memcpy_of_mem (by omega)]
      congr 1
      omega
    · rw [if_neg hkn, memcpy_of_notMem (by omega), memcpy_of_notMem (by omega)]

end CoreX.Ring

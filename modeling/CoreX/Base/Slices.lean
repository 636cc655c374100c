import Mathlib.Data.Vector.Defs
import Mathlib.Data.List.FinRange

/-!
# Slices of fixed arrays

The operations on `[T; n]` and `&[T]` that check their ranges: `none` is a range that does not exist or a source of
another length. `chunksExact` cuts a slice into pieces of one length.
-/

namespace CoreX.Slices

open List Nat Function

variable {α β : Type*} {n lo hi : Nat} {xs src : List α}

def slice (xs : List α) (lo hi : Nat) : Option (List α) :=
  if lo ≤ hi ∧ hi ≤ xs.length then some ((xs.take hi).drop lo) else none

theorem slice_eq_some (hlo : lo ≤ hi) (hhi : hi ≤ xs.length) :
    slice xs lo hi = some ((xs.take hi).drop lo) := if_pos ⟨hlo, hhi⟩

section
variable (v : List.Vector α n)

theorem length_splice (h : lo ≤ hi ∧ hi ≤ n ∧ src.length = hi - lo) :
    (v.val.take lo ++ src ++ v.val.drop hi).length = n := by
  have hLength := v.property
  simp only [length_append, length_take, length_drop, hLength]
  omega

def copyFromSlice (lo hi : Nat) (src : List α) : Option (List.Vector α n) :=
  if h : lo ≤ hi ∧ hi ≤ n ∧ src.length = hi - lo then
    some ⟨v.val.take lo ++ src ++ v.val.drop hi, length_splice v h⟩
  else none

def fill (lo hi : Nat) (x : α) : Option (List.Vector α n) :=
  copyFromSlice v lo hi (List.replicate (hi - lo) x)

theorem copyFromSlice_eq_some (src : List α) (hlo : lo ≤ hi) (hhi : hi ≤ n) (hsrc : src.length = hi - lo) :
    ∃ w, copyFromSlice v lo hi src = some w ∧ w.val = v.val.take lo ++ src ++ v.val.drop hi :=
  ⟨_, dif_pos ⟨hlo, hhi, hsrc⟩, rfl⟩

end

theorem foldl_update_finRange (f g : Fin n → α) :
    (finRange n).foldl (fun h i => update h i (g i)) f = g := by
  have hMem (is : List (Fin n)) (f : Fin n → α) (j : Fin n) :
      is.foldl (fun h i => update h i (g i)) f j = if j ∈ is then g j else f j := by
    induction is generalizing f with
    | nil => rfl
    | cons i is ih =>
      rw [foldl_cons, ih]
      by_cases hj : j ∈ is
      · rw [if_pos hj, if_pos (mem_cons_of_mem i hj)]
      · by_cases hij : j = i
        · subst hij
          rw [if_neg hj, if_pos mem_cons_self, update_self]
        · have hNot : j ∉ i :: is := fun h => (mem_cons.1 h).elim hij hj
          rw [if_neg hj, if_neg hNot, update_of_ne hij]
  funext j
  rw [hMem, if_pos (mem_finRange j)]

/-! ## Chunks -/

def chunksExact (n : Nat) (xs : List α) : List (List α) :=
  (List.range (xs.length / n)).map fun i => (xs.drop (i * n)).take n

theorem length_of_mem_chunksExact {c : List α} (h : c ∈ chunksExact n xs) : c.length = n := by
  obtain ⟨i, hi, rfl⟩ := mem_map.1 h
  have hi := mem_range.1 hi
  have hle : (i + 1) * n ≤ xs.length := (Nat.mul_le_mul_right n hi).trans (Nat.div_mul_le_self xs.length n)
  rw [Nat.add_mul, Nat.one_mul] at hle
  rw [length_take, length_drop]
  omega

theorem chunksExact_append (h : n ∣ xs.length) (ys : List α) :
    chunksExact n (xs ++ ys) = chunksExact n xs ++ chunksExact n ys := by
  obtain ⟨k, hk⟩ := h
  rcases Nat.eq_zero_or_pos n with rfl | hn
  · simp [chunksExact]
  have hDiv : xs.length / n = k := by rw [hk, Nat.mul_div_cancel_left k hn]
  have hSum : (xs ++ ys).length / n = k + ys.length / n := by
    rw [length_append, hk, mul_add_div hn]
  rw [chunksExact, hSum, range_add, map_append, map_map, chunksExact, chunksExact, hDiv]
  congr 1
  · refine map_congr_left fun i hi => ?_
    have hi := mem_range.1 hi
    have hle : (i + 1) * n ≤ k * n := mul_le_mul_right n hi
    rw [Nat.add_mul, Nat.one_mul, Nat.mul_comm k n, ← hk] at hle
    rw [drop_append_of_le_length (by omega), take_append_of_le_length]
    rw [length_drop]
    omega
  · refine map_congr_left fun i _ => ?_
    have hDrop : (k + i) * n = xs.length + i * n := by rw [Nat.add_mul, hk, Nat.mul_comm n k]
    rw [comp_apply, hDrop, drop_length_add_append]

end CoreX.Slices

import Mathlib.Data.List.Basic
import Mathlib.Data.List.GetD
import Mathlib.Tactic.Ring
import CoreX.Base.Memory

/-!
# Fields in byte memory

Little-endian numbers and byte strings at an offset. Every store is a `memcpy`, so what lies outside of the
stored bytes is unchanged (`memcpy_of_notMem`), and every load depends on the loaded bytes only
(`load_congr`, `slice_congr`).
-/

namespace CoreX.Memory

open List Nat

variable {m m' : Buf} {off w : Nat} {i : Nat}

def load (m : Buf) (off : Nat) : Nat → Nat
  | 0 => 0
  | w + 1 => (m off).toNat + 256 * load m (off + 1) w

section
variable (m off)

def store (w v : Nat) : Buf := memcpy m off (fun i => UInt8.ofNat (v / 256 ^ i)) w

def load16 : UInt16 := UInt16.ofNat (load m off 2)

def load32 : UInt32 := UInt32.ofNat (load m off 4)

def load64 : UInt64 := UInt64.ofNat (load m off 8)

def store16 (v : UInt16) : Buf := store m off 2 v.toNat

def store32 (v : UInt32) : Buf := store m off 4 v.toNat

def store64 (v : UInt64) : Buf := store m off 8 v.toNat

def slice (n : Nat) : Bytes := (List.range n).map fun i => m (off + i)

def storeSlice (s : Bytes) : Buf :=
  memcpy m off (fun i => s.getD i 0) s.length

end

theorem load_congr (h : ∀ i, off ≤ i → i < off + w → m' i = m i) : load m' off w = load m off w := by
  induction w generalizing off with
  | zero => rfl
  | succ w ih =>
    have hrest : load m' (off + 1) w = load m (off + 1) w := ih fun i hi hi' => h i (by omega) (by omega)
    rw [load, load, h off (le_refl _) (by omega), hrest]

theorem load_lt (m : Buf) (off w : Nat) : load m off w < 256 ^ w := by
  induction w generalizing off with
  | zero => exact one_pos
  | succ w ih =>
    have hbyte := (m off).toNat_lt
    have hrest := ih (off + 1)
    rw [load, pow_succ]
    omega

theorem load16_congr (h : ∀ i, off ≤ i → i < off + 2 → m' i = m i) : load16 m' off = load16 m off := by
  rw [load16, load16, load_congr h]

theorem load32_congr (h : ∀ i, off ≤ i → i < off + 4 → m' i = m i) : load32 m' off = load32 m off := by
  rw [load32, load32, load_congr h]

theorem load64_congr (h : ∀ i, off ≤ i → i < off + 8 → m' i = m i) : load64 m' off = load64 m off := by
  rw [load64, load64, load_congr h]

theorem load_shift {off' : Nat} (h : ∀ i < w, m' (off' + i) = m (off + i)) : load m' off' w = load m off w := by
  induction w generalizing off off' with
  | zero => rfl
  | succ w ih =>
    have hrest : load m' (off' + 1) w = load m (off + 1) w := by
      apply ih
      intro i hi
      have hbyte := h (i + 1) (by omega)
      rwa [← add_assoc, ← add_assoc, add_right_comm, add_right_comm off] at hbyte
    rw [load, load, hrest, show m' off' = m off from h 0 (by omega)]

theorem slice_congr {n : Nat} (h : ∀ i, off ≤ i → i < off + n → m' i = m i) : slice m' off n = slice m off n := by
  apply map_congr_left
  intro i hi
  have hi := mem_range.1 hi
  exact h (off + i) (by omega) (by omega)

section
variable (m off) (n : Nat)

@[simp] theorem length_slice : (slice m off n).length = n := by simp [slice]

theorem slice_succ : slice m off (n + 1) = m off :: slice m (off + 1) n := by
  rw [slice, range_succ_eq_map, map_cons, map_map, slice]
  congr 1
  apply map_congr_left
  intro i _
  exact congrArg m (by simp only [succ_eq_add_one]; omega)

theorem slice_add (k : Nat) : slice m off (n + k) = slice m off n ++ slice m (off + n) k := by
  rw [slice, range_add, map_append, map_map, slice, slice]
  congr 1
  apply map_congr_left
  intro i _
  exact congrArg m (add_assoc ..).symm

end

theorem load_digits (v : Nat) (h : ∀ i < w, m (off + i) = UInt8.ofNat (v / 256 ^ i)) :
    load m off w = v % 256 ^ w := by
  induction w generalizing off v with
  | zero => rw [load, pow_zero, mod_one]
  | succ w ih =>
    have hrest : load m (off + 1) w = v / 256 % 256 ^ w := by
      apply ih
      intro i hi
      have hdigit := h (i + 1) (by omega)
      rw [show off + 1 + i = off + (i + 1) by omega, hdigit, pow_succ', Nat.div_div_eq_div_mul]
    have hdigit : m off = UInt8.ofNat v := by simpa using h 0 (by omega)
    rw [load, hrest, hdigit, UInt8.toNat_ofNat', show 2 ^ 8 = 256 from rfl, pow_succ' 256 w, mod_mul]

theorem load32_zeros (h : ∀ i < 4, m (off + i) = 0) : load32 m off = 0 := by
  rw [load32, load_digits 0 fun i hi => by rw [h i hi, Nat.zero_div]; rfl]
  rfl

/-! ## Loads after stores -/

section
variable (m off)

theorem load_store (w v : Nat) : load (store m off w v) off w = v % 256 ^ w := by
  apply load_digits
  intro i hi
  rw [store, memcpy_of_mem (by omega), Nat.add_sub_cancel_left]

@[simp] theorem load16_store16 (v : UInt16) : load16 (store16 m off v) off = v := by
  rw [load16, store16, load_store, mod_eq_of_lt (by exact v.toNat_lt), UInt16.ofNat_toNat]

@[simp] theorem load32_store32 (v : UInt32) : load32 (store32 m off v) off = v := by
  rw [load32, store32, load_store, mod_eq_of_lt (by exact v.toNat_lt), UInt32.ofNat_toNat]

@[simp] theorem load64_store64 (v : UInt64) : load64 (store64 m off v) off = v := by
  rw [load64, store64, load_store, mod_eq_of_lt (by exact v.toNat_lt), UInt64.ofNat_toNat]

@[simp] theorem slice_storeSlice (s : Bytes) : slice (storeSlice m off s) off s.length = s := by
  apply ext_getElem
  · rw [length_slice]
  · intro i hi hi'
    simp [slice, storeSlice, memcpy, hi']

end

theorem store16_of_notMem {v : UInt16} (h : ¬(off ≤ i ∧ i < off + 2)) : store16 m off v i = m i := by
  rw [store16, store, memcpy_of_notMem h]

theorem store32_of_notMem {v : UInt32} (h : ¬(off ≤ i ∧ i < off + 4)) : store32 m off v i = m i := by
  rw [store32, store, memcpy_of_notMem h]

theorem store64_of_notMem {v : UInt64} (h : ¬(off ≤ i ∧ i < off + 8)) : store64 m off v i = m i := by
  rw [store64, store, memcpy_of_notMem h]

theorem storeSlice_of_notMem {s : Bytes} (h : ¬(off ≤ i ∧ i < off + s.length)) : storeSlice m off s i = m i := by
  rw [storeSlice, memcpy_of_notMem h]

theorem storeSlice_append (m : Buf) (off : Nat) (s t : Bytes) :
    storeSlice (storeSlice m off s) (off + s.length) t = storeSlice m off (s ++ t) := by
  funext i
  simp only [storeSlice, memcpy, length_append]
  by_cases hbehind : off + s.length ≤ i ∧ i < off + s.length + t.length
  · rw [if_pos hbehind, if_pos (by omega), getD_append_right _ _ _ _ (by omega), sub_add_eq]
  · rw [if_neg hbehind]
    by_cases hfront : off ≤ i ∧ i < off + s.length
    · rw [if_pos hfront, if_pos (by omega), getD_append _ _ _ _ (by omega)]
    · rw [if_neg hfront, if_neg (by omega)]

end CoreX.Memory

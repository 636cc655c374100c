import CoreX.Fat32.Getdents

/-!
# Long names (`filesystems/fat32/fat32-utils.rs`)

A slot of a long name has thirteen characters of two bytes in three fields. `fat32_lfn_memcpy` stores the low bytes at
the place of the slot.
-/

namespace CoreX.Fat32

open List Memory

variable {name : Bytes} {k : Nat} {ks : List Nat}

section
variable (name : Bytes)

/-- The two bytes of a character, with a zero behind the name and `0xFFFF` from there on. -/
def lfnChar (i byte : Nat) : UInt8 :=
  if byte = 0 then (name ++ [0]).getD i 0xFF else if i ≤ name.length then 0 else 0xFF

/-- `FAT32LFN` for the slot `k`: the bytes of `first_five`, `next_six` and `last_two`, and zeros. -/
def lfnSlot (k : Nat) : Buf := fun i =>
  if 1 ≤ i ∧ i < 11 then lfnChar name (k * 13 + (i - 1) / 2) ((i - 1) % 2)
  else if 13 ≤ i ∧ i < 25 then lfnChar name (k * 13 + 5 + (i - 13) / 2) ((i - 13) % 2)
  else if 28 ≤ i ∧ i < 32 then lfnChar name (k * 13 + 11 + (i - 28) / 2) ((i - 28) % 2)
  else 0

/-- The slots are copied in the order of the list. -/
def lfnCopyAll (buf : Buf) : List Nat → Option Buf
  | [] => some buf
  | k :: ks => (fat32LFNmemcpy buf (lfnSlot name k) k).bind fun buf => lfnCopyAll buf ks

end

theorem lfnSlot_bytes : [1, 3, 5, 7, 9, 13, 15, 17, 19, 21, 23, 28, 30].map (lfnSlot name k) =
    (List.range 13).map fun j => (name ++ [0]).getD (k * 13 + j) 0xFF := by
  simp [lfnSlot, lfnChar, List.range_succ]

section
variable (name)

theorem fat32LFNmemcpy_slot (buf : Buf) (hk : k < 20) :
    ∃ buf', fat32LFNmemcpy buf (lfnSlot name k) k = some buf' ∧
      ∀ i, buf' i = if i / 13 = k then (name ++ [0]).getD i 0xFF else buf i := by
  refine ⟨_, if_neg (by unfold lfnMaxTotalChars; omega), fun i => ?_⟩
  rw [lfnSlot_bytes, Int.toNat_natCast, storeSlice, memcpy, length_map, length_range]
  split_ifs with hin hslot hslot
  · have hi : i - k * 13 < 13 := by omega
    simp [hi, show k * 13 + (i - k * 13) = i by omega]
  · omega
  · omega
  · rfl

theorem lfnCopyAll_eq (buf : Buf) (hks : ∀ k ∈ ks, k < 20) :
    ∃ buf', lfnCopyAll name buf ks = some buf' ∧
      ∀ i, buf' i = if i / 13 ∈ ks then (name ++ [0]).getD i 0xFF else buf i := by
  induction ks generalizing buf with
  | nil => exact ⟨buf, rfl, fun i => rfl⟩
  | cons k ks ih =>
    obtain ⟨hk, hks⟩ := forall_mem_cons.1 hks
    obtain ⟨buf₁, hcopy, hbuf₁⟩ := fat32LFNmemcpy_slot name buf hk
    obtain ⟨buf', hrest, hbuf'⟩ := ih buf₁ hks
    refine ⟨buf', by rw [lfnCopyAll, hcopy, Option.bind_some, hrest], fun i => ?_⟩
    rw [hbuf', hbuf₁]
    by_cases hlater : i / 13 ∈ ks
    · rw [if_pos hlater, if_pos (mem_cons_of_mem k hlater)]
    · simp only [mem_cons, hlater, or_false, if_false]

end

/-- **A long name** comes back from its slots, in any order. No slot changes a byte of another one. -/
theorem lfnCopyAll_name (hname : name.length ≤ 255) (hks : ks.Perm (List.range ((name.length + 12) / 13))) :
    (∃ buf, lfnCopyAll name (fun _ => 0) ks = some buf ∧ slice buf 0 (name.length + 1) = name ++ [0]) ∧
    ∀ k ∈ ks, ∀ buf, ∃ buf', fat32LFNmemcpy buf (lfnSlot name k) k = some buf' ∧
      ∀ i, i / 13 ≠ k → buf' i = buf i := by
  have hmem : ∀ k, k ∈ ks ↔ k < (name.length + 12) / 13 := fun k => hks.mem_iff.trans mem_range
  have hlt : ∀ k ∈ ks, k < 20 := fun k hk => by have := (hmem k).1 hk; omega
  constructor
  · obtain ⟨buf, hcopy, hbuf⟩ := lfnCopyAll_eq name (fun _ => 0) hlt
    refine ⟨buf, hcopy, ext_getElem (by simp) fun i hi hi' => ?_⟩
    have hlast : ¬ i / 13 < (name.length + 12) / 13 → i = name.length := by
      rw [length_slice] at hi
      omega
    simp only [slice, getElem_map, getElem_range, Nat.zero_add, hbuf, hmem]
    split_ifs with hin
    · exact getD_eq_getElem _ _ hi'
    · simp [hlast hin]
  · intro k hk buf
    obtain ⟨buf', hcopy, hbuf'⟩ := fat32LFNmemcpy_slot name buf (hlt k hk)
    exact ⟨buf', hcopy, fun i hi => (hbuf' i).trans (if_neg hi)⟩

theorem lfnCopyAll_name_reversed : ∃ buf, lfnCopyAll (replicate 14 0x61) (fun _ => 0) [1, 0] = some buf ∧
    slice buf 0 15 = replicate 14 0x61 ++ [0] :=
  (lfnCopyAll_name (by decide) (by decide)).1

end CoreX.Fat32

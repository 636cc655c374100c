import CoreX.Paging.Model
import Mathlib.Tactic.IntervalCases

/-!
# Bits of addresses and entries

The index macros cut bits 12 to 47 of an address into four digits to base 512, so equal paths mean equal bits
(`path_page_eq_iff`). An entry gives its address back, because the flag bits lie outside the address mask. The pages
of two frames do not meet in the window at `hhdmOffset`.
-/

namespace CoreX.Paging

open Nat BitVec

section
variable (shift : Nat) (v : Word)

theorem tableIndex_val : (tableIndex shift v).val = v.toNat / 2 ^ shift % 512 := by
  simp only [tableIndex, toNat_and, toNat_ushiftRight, shiftRight_eq_div_pow]
  exact and_two_pow_sub_one_eq_mod _ 9

theorem stripsx_toNat : (amd64MmStripsx v).toNat = v.toNat % 2 ^ 48 := by
  rw [amd64MmStripsx, toNat_and]
  exact and_two_pow_sub_one_eq_mod _ 48

theorem not_pageMask_toNat : (v &&& ~~~pageMask4k).toNat = v.toNat / 4096 * 4096 := by
  have hsplit : (v &&& ~~~pageMask4k) = (v >>> 12) <<< 12 := by
    apply BitVec.eq_of_getLsbD_eq
    intro i hi
    have hmask : ∀ i < 64, (~~~pageMask4k).getLsbD i = decide (12 ≤ i) := by decide
    rw [BitVec.getLsbD_and, hmask i hi, BitVec.getLsbD_shiftLeft, BitVec.getLsbD_ushiftRight]
    by_cases h12 : 12 ≤ i
    · simp [h12, hi, show ¬ i < 12 by omega, show 12 + (i - 12) = i by omega]
    · simp [h12]
  rw [hsplit, BitVec.toNat_shiftLeft, BitVec.toNat_ushiftRight, Nat.shiftLeft_eq, Nat.shiftRight_eq_div_pow]
  omega

theorem pageMask_toNat : (v &&& pageMask4k).toNat = v.toNat % 4096 := by
  rw [toNat_and]
  exact and_two_pow_sub_one_eq_mod _ 12

theorem page_toNat : (v.extractLsb' 12 36).toNat = v.toNat / 4096 % 2 ^ 36 := by
  rw [extractLsb'_toNat, shiftRight_eq_div_pow]

theorem path_eq_iff (w : Word) : path v = path w ↔ v.toNat / 4096 % 2 ^ 36 = w.toNat / 4096 % 2 ^ 36 := by
  simp only [path, pte, pde, pdpte, pml4e, List.cons.injEq, and_true, ← Fin.val_inj, tableIndex_val]
  omega

theorem path_page_eq_iff (w : Word) : path (amd64MmStripsx (v &&& ~~~pageMask4k)) = path (amd64MmStripsx w) ↔
      v.extractLsb' 12 36 = w.extractLsb' 12 36 := by
  rw [path_eq_iff, stripsx_toNat, not_pageMask_toNat, stripsx_toNat, ← toNat_inj, page_toNat, page_toNat]
  omega

end

theorem getLsbD_addrMask : ∀ i < 64, (0x000FFFFFFFFFF000#64 : Word).getLsbD i = decide (12 ≤ i ∧ i < 52) := by decide

theorem pteGetAddr_or (a b : Word) : pteGetAddr (a ||| b) = pteGetAddr a ||| pteGetAddr b := by
  apply eq_of_getLsbD_eq
  intro i _
  simp only [pteGetAddr, getLsbD_and, getLsbD_or, Bool.and_or_distrib_right]

theorem pteGetAddr_of_aligned {x : Word} (hmod : x.toNat % 4096 = 0) (hlt : x.toNat < 2 ^ 52) : pteGetAddr x = x := by
  apply eq_of_getLsbD_eq
  intro i hi
  rw [pteGetAddr, getLsbD_and, getLsbD_addrMask i hi]
  by_cases hin : 12 ≤ i ∧ i < 52
  · rw [decide_eq_true hin, Bool.and_true]
  rw [decide_eq_false hin, Bool.and_false]
  symm
  rw [getLsbD]
  by_cases hlow : i < 12
  · rw [testBit_eq_decide_div_mod_eq]
    interval_cases i <;> simp only [decide_eq_false_iff_not] <;> omega
  · exact Nat.testBit_lt_two_pow (lt_of_lt_of_le hlt (Nat.pow_le_pow_right (by norm_num) (by omega)))

theorem present_or_ne_zero (a b : Word) : (a ||| pfPresent ||| b) &&& pfPresent ≠ 0#64 := by
  intro h
  have hbit := congrArg (fun w : Word => w.getLsbD 0) h
  simp [pfPresent] at hbit

variable {f : Word}

theorem pteGetAddr_frame (hmod : f.toNat % 4096 = 0) (hlt : f.toNat < 2 ^ 52) :
    pteGetAddr (f ||| pfPresent ||| pfRw ||| pfUser) = f := by
  rw [pteGetAddr_or, pteGetAddr_or, pteGetAddr_or, pteGetAddr_of_aligned hmod hlt,
    show pteGetAddr pfPresent = 0#64 by decide, show pteGetAddr pfRw = 0#64 by decide,
    show pteGetAddr pfUser = 0#64 by decide]
  simp

theorem nextOf_frame (hhdmOffset : Word) (hmod : f.toNat % 4096 = 0) (hlt : f.toNat < 2 ^ 52) :
    nextOf hhdmOffset (f ||| pfPresent ||| pfRw ||| pfUser) = some (f + hhdmOffset) := by
  have hne : (f ||| pfPresent ||| pfRw ||| pfUser) &&& pfPresent ≠ 0#64 := by
    rw [or_assoc (f ||| pfPresent)]
    exact present_or_ne_zero f _
  rw [nextOf, if_neg hne, pteGetAddr_frame hmod hlt]

theorem frame_and_pfPs (hmod : f.toNat % 4096 = 0) : (f ||| pfPresent ||| pfRw ||| pfUser) &&& pfPs = 0#64 := by
  have hbit : f.getLsbD 7 = false := by
    rw [getLsbD, testBit_eq_decide_div_mod_eq]
    simp only [decide_eq_false_iff_not]
    omega
  have hps : pfPs = twoPow 64 7 := by decide
  rw [hps, and_twoPow, if_neg]
  rw [getLsbD_or, getLsbD_or, getLsbD_or, hbit]
  decide

theorem leafEntry_translate {phys flags : Word} (hmod : phys.toNat % 4096 = 0)
    (hlt : phys.toNat < 2 ^ 52) (hflags : pteGetAddr flags = 0#64) (hne : phys ≠ 0#64) :
    leafEntry phys flags &&& pfPresent ≠ 0#64 ∧ pteGetAddr (leafEntry phys flags) = phys := by
  have haddr := pteGetAddr_of_aligned hmod hlt
  have hentry : leafEntry phys flags = phys ||| pfPresent ||| flags := by
    rw [leafEntry, if_neg hne, ← pteGetAddr, haddr]
  rw [hentry]
  refine ⟨present_or_ne_zero phys flags, ?_⟩
  rw [pteGetAddr_or, pteGetAddr_or, haddr, hflags, show pteGetAddr pfPresent = 0#64 by decide]
  simp

theorem or_offset {phys o : Word} (hmod : phys.toNat % 4096 = 0) (ho : o.toNat < 4096) : phys ||| o = phys + o := by
  apply eq_of_toNat_eq
  obtain ⟨q, hq⟩ : ∃ q, phys.toNat = 2 ^ 12 * q := ⟨phys.toNat / 4096, by omega⟩
  rw [toNat_or, toNat_add, hq, ← two_pow_add_eq_or_of_lt (show o.toNat < 2 ^ 12 by omega),
    mod_eq_of_lt (by omega)]

/-! ## Pages -/

section
variable (base : Word) (i : Fin 512)

theorem entryPtr_sub : entryPtr base i - base = BitVec.ofNat 64 (8 * i.val) := by
  unfold entryPtr
  bv_omega

theorem entryPtr_inPage : InPage base (entryPtr base i) := by
  rw [InPage, entryPtr_sub, toNat_ofNat]
  omega

theorem entryPtr_injective (j : Fin 512) (h : entryPtr base i = entryPtr base j) : i = j := by
  have heq := congrArg (fun a : Word => (a - base).toNat) h
  simp only [entryPtr_sub, BitVec.toNat_ofNat] at heq
  exact Fin.ext (by omega)

end

theorem not_inPage_entryPtr {g : Word} (hhdmOffset : Word) (hne : f ≠ g) (hf : f.toNat % 4096 = 0)
    (hg : g.toNat % 4096 = 0) (hflt : f.toNat < 2 ^ 52) (hglt : g.toNat < 2 ^ 52) (i : Fin 512) :
    ¬ InPage (f + hhdmOffset) (entryPtr (g + hhdmOffset) i) := by
  have hnat : f.toNat ≠ g.toNat := fun h => hne (eq_of_toNat_eq h)
  have hsub : entryPtr (g + hhdmOffset) i - (f + hhdmOffset) = g + BitVec.ofNat 64 (8 * i.val) - f := by
    unfold entryPtr
    bv_omega
  rw [InPage, hsub, toNat_sub, toNat_add, toNat_ofNat]
  omega

end CoreX.Paging

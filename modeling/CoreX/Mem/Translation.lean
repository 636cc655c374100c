import CoreX.Mem.Mmap
import CoreX.Paging.Map
import CoreX.Base.PageMap

/-!
# The pages of a task and its page tables

The translation of a task's pages, as the system calls see it, is what `VirtualToPhysicalL` computes from the tables.
A `VirtualMapL` on the tables is `virtualMap` on the translation.
-/

namespace CoreX.Mem

open CoreX.Paging BitVec

variable {hhdmOffset pagedir : Paging.Word} {p : Nat}

def translation (hhdmOffset : Paging.Word) (mem : Paging.Word → Paging.Word) (pagedir : Paging.Word) : Nat → Nat :=
  fun p => (virtualToPhysicalL hhdmOffset mem pagedir (BitVec.ofNat 64 (4096 * p))).toNat

theorem extractLsb'_toNat_page (v : Paging.Word) : (v.extractLsb' 12 36).toNat = pageOf v.toNat := by
  rw [extractLsb'_toNat, Nat.shiftRight_eq_div_pow, pageOf]
  omega

theorem pageOf_mul (h : p < 2 ^ 36) : pageOf (4096 * p) = p := by
  rw [pageOf]
  omega

theorem toNat_ofNat_page (h : p < 2 ^ 36) : (BitVec.ofNat 64 (4096 * p)).toNat = 4096 * p := by
  rw [toNat_ofNat]
  omega

/-- **The tables refine the translation**: a `VirtualMapL` that returns keeps the tables' invariants and
acts on the translation of every page as `virtualMap` does. -/
theorem translation_virtualMapL {s s' : State} {virt phys flags : Paging.Word}
    (hTable : IsTable hhdmOffset s.mem pagedir) (hFresh : FreshFrames hhdmOffset s pagedir)
    (hPhys : phys.toNat % 4096 = 0 ∧ phys.toNat < 2 ^ 52 ∧ pteGetAddr flags = 0#64)
    (h : virtualMapL hhdmOffset s pagedir virt phys flags = some s') :
    IsTable hhdmOffset s'.mem pagedir ∧ FreshFrames hhdmOffset s' pagedir ∧
      ∀ p, p < 2 ^ 36 → translation hhdmOffset s'.mem pagedir p =
        virtualMap (translation hhdmOffset s.mem pagedir) virt.toNat phys.toNat p := by
  obtain ⟨hAligned, hLt, hFlags⟩ := hPhys
  obtain ⟨hTable', hFresh', hEntry⟩ := virtualMapL_spec hTable hFresh h
  refine ⟨hTable', hFresh', fun p hp => ?_⟩
  have hToNat := toNat_ofNat_page hp
  by_cases hPage : p = pageOf virt.toNat
  · have hLeaf := hEntry (path (amd64MmStripsx (BitVec.ofNat 64 (4096 * p)))) rfl
    rw [if_pos ?_] at hLeaf
    · have hMapped := virtualToPhysicalL_mapped hTable'.ne_null (by omega) hAligned hLt hFlags (o := 0#64) (by decide) hLeaf
      rw [BitVec.add_zero, BitVec.add_zero] at hMapped
      rw [translation, hMapped, hPage, virtualMap_self]
      split_ifs with hNull
      · rw [hNull]
        rfl
      · omega
    · rw [path_eq_iff, stripsx_toNat, stripsx_toNat, hToNat]
      rw [pageOf] at hPage
      omega
  · have hOther := hEntry (path (amd64MmStripsx (BitVec.ofNat 64 (4096 * p) &&& ~~~pageMask4k))) rfl
    rw [if_neg fun hPath => hPage ?_] at hOther
    · rw [virtualMap, Function.update_of_ne hPage, translation, translation, virtualToPhysicalL_eq _ hTable'.ne_null,
        virtualToPhysicalL_eq _ hTable.ne_null, hOther]
    · rw [← extractLsb'_toNat_page, ← (path_page_eq_iff _ virt).1 hPath, extractLsb'_toNat_page, hToNat,
        pageOf_mul hp]

/-- **The tables refine an address space**: over any `VirtualMapL` calls, the frames behind the pages are those of a
space in which the same pages are mapped. -/
theorem mapPage_virtualMapL (space : PageMap.Space UInt8) {s s' : State} {calls : List MapCall}
    (hTable : IsTable hhdmOffset s.mem pagedir) (hFresh : FreshFrames hhdmOffset s pagedir)
    (hCalls : ∀ call ∈ calls, call.phys.toNat % 4096 = 0 ∧ call.phys.toNat < 2 ^ 52 ∧ pteGetAddr call.flags = 0#64)
    (hRun : Run.run (mapStep hhdmOffset pagedir) s calls = some s')
    (hSpace : ∀ p, p < 2 ^ 36 → translation hhdmOffset s.mem pagedir p / 4096 = space.frameOf p) :
    ∀ p, p < 2 ^ 36 → translation hhdmOffset s'.mem pagedir p / 4096 = (calls.foldl (fun space call =>
      space.mapPage (pageOf call.virt.toNat) (call.phys.toNat / 4096)) space).frameOf p := by
  induction calls generalizing s space with
  | nil => exact Option.some.inj hRun ▸ hSpace
  | cons call calls ih =>
    obtain ⟨hPhys, hRest⟩ := List.forall_mem_cons.1 hCalls
    obtain ⟨m, hStep, hRun⟩ := Run.run_cons.1 hRun
    obtain ⟨hTable', hFresh', hMap⟩ := translation_virtualMapL hTable hFresh hPhys hStep
    refine ih _ hTable' hFresh' hRest hRun fun p hp => ?_
    rw [hMap p hp]
    by_cases hPage : p = pageOf call.virt.toNat
    · rw [hPage, PageMap.Space.mapPage_frameOf_self, virtualMap_self]
      omega
    · rw [PageMap.Space.mapPage_frameOf_of_ne hPage, virtualMap_of_ne hPage, hSpace p hp]

theorem mapPage_virtualMapL_cleared :
    ∃ s, Run.run (mapStep 0xFFFF800000000000#64 0xFFFF800000001000#64) clearedDirectory
        [⟨0x400000#64, 0x8000#64, 3#64⟩] = some s ∧
      translation 0xFFFF800000000000#64 s.mem 0xFFFF800000001000#64 0x400 / 4096 = 8 := by
  refine (exists_of_any (p := fun _ => True) (by decide +kernel)).imp fun s h => ⟨h.1, ?_⟩
  exact mapPage_virtualMapL ⟨fun _ => 0, _⟩ (isTable_cleared (by decide)) freshFrames_clearedDirectory
    (by decide) h.1 (fun _ _ => rfl) 0x400 (by decide)

end CoreX.Mem

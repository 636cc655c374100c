import CoreX.Base.Ledger
import CoreX.Base.Run
import CoreX.Bitmap.Search

/-!
# The bitmap as an allocator

A `Heap` is a bitmap with the allocations its callers hold. The operations are issued as a correct caller may: of at
least one block, a page frame while a block is free, and one free for a live allocation. Each marks one interval,
which is a move of a `Ledger`.
-/

namespace CoreX.Bitmap

open Finset Option Word

/-- The numbers of a bitmap fit 64 bits. -/
structure WellFormed (b : DSBitmap) : Prop where
  bytes_lt : b.bitmapSizeInBlocks * blockSize < 2 ^ 64
  memStart_lt : b.memStart < 2 ^ 64
  allocated_lt : b.allocatedSizeInBlocks < 2 ^ 64

variable {b : DSBitmap} {r n region : Nat} {op : Op}

theorem WellFormed.size_lt (h : WellFormed b) : b.bitmapSizeInBlocks < 2 ^ 52 := by
  have := h.bytes_lt
  unfold blockSize at this
  omega

section
variable (hwf : WellFormed b) (hr : r ≤ b.bitmapSizeInBlocks)
include hwf hr

theorem toPtr_sub : sub (toPtr b r) b.memStart = r * blockSize := by
  have hsize := hwf.size_lt
  have hlt : r * blockSize < 2 ^ 64 := by unfold blockSize; omega
  rw [toPtr, mul_eq hlt]
  exact sub_add_cancel hwf.memStart_lt hlt

theorem toBlock_toPtr : toBlock b (toPtr b r) = r := by
  rw [toBlock, toPtr_sub hwf hr]
  exact Nat.mul_div_cancel r (by decide)

theorem toBlockRoundUp_toPtr : toBlockRoundUp b (toPtr b r) = r := by
  have hsize := hwf.size_lt
  rw [toBlockRoundUp, toPtr_sub hwf hr]
  exact divRoundUp_mul (by decide) (by unfold blockSize; omega)

end

def grab (b : DSBitmap) (region n : Nat) : DSBitmap := markBlocks (afterSearch b n region) region n true

theorem bitmapAllocate_cases (hwf : WellFormed b) (hn : 1 ≤ n) :
    ((findFreeRegion b n).1 = invalidBlock ∧ bitmapAllocate b n = (0, b)) ∨
    ∃ region, (findFreeRegion b n).1 = region ∧ region ≠ invalidBlock ∧
      bitmapAllocate b n = (toPtr b region, grab b region n) ∧ region + n ≤ b.bitmapSizeInBlocks ∧ Free b region n ∧
      ∀ s, b.lastDeepFragmented ≤ s → s < region → ¬ Free b s n := by
  have hsize := hwf.size_lt
  rcases findFreeRegion_cases b hn with ⟨hres, _⟩ | ⟨region, hres, _, hend, hfree, hfirst⟩
  · left
    refine ⟨by rw [hres], ?_⟩
    rw [bitmapAllocate, if_neg (by omega), hres]
    exact if_pos rfl
  · right
    have hne : region ≠ invalidBlock := by unfold invalidBlock; omega
    refine ⟨region, by rw [hres], hne, ?_, hend, hfree, hfirst⟩
    rw [bitmapAllocate, if_neg (by omega), hres]
    simp only [if_neg hne, toPtr, grab, markBlocks_memStart, afterSearch_memStart]

theorem bitmapAllocatePageframe_cases (hhint : HintOk b) (hrun : HasRun b 1) :
    ∃ region, bitmapAllocatePageframe b = (toPtr b region, grab b region 1) ∧
      region + 1 ≤ b.bitmapSizeInBlocks ∧ Free b region 1 ∧
      ∀ s, b.lastDeepFragmented ≤ s → s < region → ¬ Free b s 1 := by
  rcases findFreeRegion_cases b le_rfl with ⟨_, hnone⟩ | ⟨region, hres, _, hend, hfree, hfirst⟩
  · obtain ⟨s, hs, hfree⟩ := hrun
    exact absurd hfree (hnone s (hint_le_of_free hhint le_rfl hs hfree) hs)
  · refine ⟨region, ?_, hend, hfree, hfirst⟩
    rw [bitmapAllocatePageframe, hres]
    simp only [toPtr, grab, markBlocks_memStart, afterSearch_memStart]

section
variable (hwf : WellFormed b)
include hwf

theorem bitmapFree_eq (hr : r + n ≤ b.bitmapSizeInBlocks) : bitmapFree b (toPtr b r) n = markBlocks b r n false := by
  have hsize := hwf.size_lt
  have hmul : mul blockSize n = n * blockSize := by
    rw [mul_eq (by unfold blockSize; omega), Nat.mul_comm]
  simp only [bitmapFree, markRegion, regionBlocks, Bool.false_eq_true, if_false,
    toBlockRoundUp_toPtr hwf (show r ≤ _ by omega), hmul]
  rw [Nat.mul_div_cancel n (by decide)]

theorem bitmapFreePageframe_eq (hr : r + 1 ≤ b.bitmapSizeInBlocks) :
    bitmapFreePageframe b (toPtr b r) = markBlocks b r 1 false := by
  rw [← bitmapFree_eq hwf hr]
  rfl

theorem hintOk_grab (hhint : HintOk b) (hend : region + n ≤ b.bitmapSizeInBlocks)
    (hfirst : ∀ s, b.lastDeepFragmented ≤ s → s < region → ¬ Free b s n) : HintOk (grab b region n) := by
  have hsize := hwf.size_lt
  have hhint' : (grab b region n).lastDeepFragmented =
      if n = 1 then region + 1 else b.lastDeepFragmented := by
    rw [grab, markBlocks_hint, if_neg (by simp), afterSearch]
    split <;> rfl
  intro i hi hlt
  rw [hhint'] at hi
  rw [grab, markBlocks_size, afterSearch_size] at hlt
  rw [grab, bitmapGet_markBlocks _ (by omega), bitmapGet_afterSearch]
  by_cases hin : region ≤ i ∧ i < region + n
  · rw [if_pos hin]
  rw [if_neg hin]
  by_cases hib : i < b.lastDeepFragmented
  · exact hhint i hib hlt
  -- only a search for one block moves the hint, and then it skipped block `i` because it is used
  · have hone : n = 1 := by
      by_contra hne
      rw [if_neg hne] at hi
      exact hib hi
    rw [if_pos hone] at hi
    have hused := hfirst i (by omega) (by omega)
    by_contra hget
    apply hused
    intro j hj hjn
    rw [show j = i by omega]
    exact Bool.eq_false_iff.2 hget

theorem hintOk_markBlocks_false (hhint : HintOk b) (hr : r + n ≤ b.bitmapSizeInBlocks) :
    HintOk (markBlocks b r n false) := by
  have hsize := hwf.size_lt
  intro i hi hlt
  rw [markBlocks_size] at hlt
  rw [markBlocks_hint] at hi
  have hbelow : i < r ∧ i < b.lastDeepFragmented ∨ b.lastDeepFragmented ≤ r ∧ i < b.lastDeepFragmented := by
    split_ifs at hi with hcond
    · exact Or.inl ⟨hi, by omega⟩
    · exact Or.inr ⟨by simpa using hcond, hi⟩
  rw [bitmapGet_markBlocks b (by omega), if_neg (by omega)]
  exact hhint i (by omega) hlt

theorem usedBlocks_grab (hend : region + n ≤ b.bitmapSizeInBlocks) :
    usedBlocks (grab b region n) = usedBlocks b ∪ Ico region (region + n) := by
  have hsize := hwf.size_lt
  rw [grab, usedBlocks_markBlocks_true (by rwa [afterSearch_size]) (by rw [afterSearch_size]; omega)]
  congr 1
  ext i
  rw [mem_usedBlocks, mem_usedBlocks, afterSearch_size, bitmapGet_afterSearch]

end

theorem disjoint_usedBlocks_of_free {s : Nat} (h : Free b s n) : Disjoint (usedBlocks b) (Ico s (s + n)) := by
  rw [Finset.disjoint_left]
  intro i hi hin
  rw [mem_Ico] at hin
  exact not_free_of_used (mem_usedBlocks.1 hi).2 hin.1 hin.2 h

structure Allocation where
  addr : Nat
  blocks : Nat
  deriving DecidableEq

def Allocation.run (b : DSBitmap) (a : Allocation) : Finset Nat :=
  Ico (toBlock b a.addr) (toBlock b a.addr + a.blocks)

structure Heap where
  bitmap : DSBitmap
  live : List Allocation

inductive Op
  | allocate (blocks : Nat)
  | allocatePageframe
  | free (a : Allocation)
  | freePageframe (addr : Nat)

def returned (h : Heap) : Op → Option Allocation
  | .allocate n =>
    if (findFreeRegion h.bitmap n).1 = invalidBlock then none
    else some ⟨(bitmapAllocate h.bitmap n).1, n⟩
  | .allocatePageframe => some ⟨(bitmapAllocatePageframe h.bitmap).1, 1⟩
  | .free _ => none
  | .freePageframe _ => none

def step (h : Heap) (op : Op) : Option Heap :=
  match op with
  | .allocate n =>
    if 1 ≤ n then some ⟨(bitmapAllocate h.bitmap n).2, (returned h op).toList ++ h.live⟩ else none
  | .allocatePageframe =>
    if ∃ i < h.bitmap.bitmapSizeInBlocks, bitmapGet h.bitmap i = false then
      some ⟨(bitmapAllocatePageframe h.bitmap).2, (returned h op).toList ++ h.live⟩
    else none
  | .free a =>
    if a ∈ h.live then some ⟨bitmapFree h.bitmap a.addr a.blocks, h.live.erase a⟩ else none
  | .freePageframe addr =>
    if ⟨addr, 1⟩ ∈ h.live then some ⟨bitmapFreePageframe h.bitmap addr, h.live.erase ⟨addr, 1⟩⟩ else none

/-- What a step can do: nothing (a failed `BitmapAllocate`), a grab of the first free run of the wanted
length, or the release of a live allocation. -/
inductive Effect (h : Heap) (op : Op) : Heap → Prop
  | none (hret : returned h op = Option.none) : Effect h op h
  | take (region n : Nat) (hn : 1 ≤ n) (hend : region + n ≤ h.bitmap.bitmapSizeInBlocks)
      (hfree : Free h.bitmap region n)
      (hfirst : ∀ s, h.bitmap.lastDeepFragmented ≤ s → s < region → ¬ Free h.bitmap s n)
      (hret : returned h op = some ⟨toPtr h.bitmap region, n⟩) :
      Effect h op ⟨grab h.bitmap region n, ⟨toPtr h.bitmap region, n⟩ :: h.live⟩
  | release (a : Allocation) (r : Nat) (hmem : a ∈ h.live) (haddr : a.addr = toPtr h.bitmap r)
      (hend : r + a.blocks ≤ h.bitmap.bitmapSizeInBlocks) (hret : returned h op = Option.none) :
      Effect h op ⟨markBlocks h.bitmap r a.blocks false, h.live.erase a⟩

/-! ## The invariant -/

/-- The invariant of a run that started from the bitmap `b` and no live allocation. -/
structure Inv (b : DSBitmap) (h : Heap) : Prop where
  wf : WellFormed h.bitmap
  size : h.bitmap.bitmapSizeInBlocks = b.bitmapSizeInBlocks
  hint : HintOk h.bitmap
  addr : ∀ a ∈ h.live, ∃ r, a.addr = toPtr h.bitmap r ∧ r + a.blocks ≤ h.bitmap.bitmapSizeInBlocks
  ledger : Ledger.Valid (usedBlocks b).card (usedBlocks h.bitmap) (h.live.map (Allocation.run h.bitmap))
  counter : h.bitmap.allocatedSizeInBlocks ≡
    b.allocatedSizeInBlocks + (h.live.map Allocation.blocks).sum [MOD 2 ^ 64]

variable {h h' : Heap}

theorem step_effect (hinv : Inv b h) (hstep : step h op = some h') : Effect h op h' := by
  -- every operation has one condition
  rcases op with n | _ | a | addr <;> simp only [step] at hstep <;> split_ifs at hstep with hcond <;>
    obtain rfl := some.inj hstep
  · rcases bitmapAllocate_cases hinv.wf hcond with
      ⟨hregion, hres⟩ | ⟨region, hregion, hne, hres, hend, hfree, hfirst⟩
    · have hret : returned h (.allocate n) = none := if_pos hregion
      rw [hret, hres]
      exact Effect.none hret
    · have hret : returned h (.allocate n) = some ⟨toPtr h.bitmap region, n⟩ := by
        simp only [returned]
        rw [if_neg (by rw [hregion]; exact hne), hres]
      rw [hret, hres]
      exact Effect.take region n hcond hend hfree hfirst hret
  · obtain ⟨i, hi, hget⟩ := hcond
    have hrun : HasRun h.bitmap 1 := ⟨i, hi, fun j hj hlt => by rwa [show j = i by omega]⟩
    obtain ⟨region, hres, hend, hfree, hfirst⟩ := bitmapAllocatePageframe_cases hinv.hint hrun
    have hret : returned h .allocatePageframe = some ⟨toPtr h.bitmap region, 1⟩ := by
      simp only [returned, hres]
    rw [hret, hres]
    exact Effect.take region 1 le_rfl hend hfree hfirst hret
  · obtain ⟨r, haddr, hend⟩ := hinv.addr a hcond
    rw [haddr, bitmapFree_eq hinv.wf hend]
    exact Effect.release a r hcond haddr hend rfl
  · obtain ⟨r, haddr, hend⟩ := hinv.addr _ hcond
    simp only at haddr hend
    rw [haddr] at hcond ⊢
    rw [bitmapFreePageframe_eq hinv.wf hend]
    exact Effect.release ⟨toPtr h.bitmap r, 1⟩ r hcond rfl hend rfl

theorem run_congr {b' : DSBitmap} (h : b'.memStart = b.memStart) : Allocation.run b' = Allocation.run b := by
  funext a
  simp only [Allocation.run, toBlock, h]

theorem run_toPtr (hwf : WellFormed b) (hr : r + n ≤ b.bitmapSizeInBlocks) :
    Allocation.run b ⟨toPtr b r, n⟩ = Ico r (r + n) := by
  rw [Allocation.run, toBlock_toPtr hwf (by omega)]

theorem inv_take (hinv : Inv b h) (hend : region + n ≤ h.bitmap.bitmapSizeInBlocks) (hfree : Free h.bitmap region n)
    (hfirst : ∀ s, h.bitmap.lastDeepFragmented ≤ s → s < region → ¬ Free h.bitmap s n) :
    Inv b ⟨grab h.bitmap region n, ⟨toPtr h.bitmap region, n⟩ :: h.live⟩ := by
  have hmem : (grab h.bitmap region n).memStart = h.bitmap.memStart := by simp [grab]
  have hsize : (grab h.bitmap region n).bitmapSizeInBlocks = h.bitmap.bitmapSizeInBlocks := by
    simp [grab]
  have halloc : (grab h.bitmap region n).allocatedSizeInBlocks =
      add h.bitmap.allocatedSizeInBlocks n := by
    simp [grab, markBlocks_allocated]
  have hptr : ∀ r, toPtr (grab h.bitmap region n) r = toPtr h.bitmap r := fun r => by
    simp only [toPtr, hmem]
  refine ⟨⟨?_, ?_, ?_⟩, ?_, hintOk_grab hinv.wf hinv.hint hend hfirst, ?_, ?_, ?_⟩
  · rw [hsize]; exact hinv.wf.bytes_lt
  · rw [hmem]; exact hinv.wf.memStart_lt
  · rw [halloc]; exact add_lt _ _
  · rw [hsize]; exact hinv.size
  · intro a ha
    rw [hsize]
    simp only [hptr]
    rcases List.mem_cons.1 ha with rfl | ha
    · exact ⟨region, rfl, hend⟩
    · exact hinv.addr a ha
  · rw [run_congr hmem, List.map_cons, run_toPtr hinv.wf hend, usedBlocks_grab hinv.wf hend]
    exact hinv.ledger.take (disjoint_usedBlocks_of_free hfree)
  · rw [halloc, List.map_cons, List.sum_cons]
    have hadd := (add_modEq h.bitmap.allocatedSizeInBlocks n).trans (hinv.counter.add_right n)
    rwa [show b.allocatedSizeInBlocks + (n + (h.live.map Allocation.blocks).sum) =
      b.allocatedSizeInBlocks + (h.live.map Allocation.blocks).sum + n by ring]

theorem inv_release (hinv : Inv b h) {a : Allocation} (hmem : a ∈ h.live) (haddr : a.addr = toPtr h.bitmap r)
    (hend : r + a.blocks ≤ h.bitmap.bitmapSizeInBlocks) :
    Inv b ⟨markBlocks h.bitmap r a.blocks false, h.live.erase a⟩ := by
  have hwf := hinv.wf
  have hsize := hwf.size_lt
  have halloc : (markBlocks h.bitmap r a.blocks false).allocatedSizeInBlocks =
      sub h.bitmap.allocatedSizeInBlocks a.blocks := by
    simp [markBlocks_allocated]
  have hptr : ∀ r', toPtr (markBlocks h.bitmap r a.blocks false) r' = toPtr h.bitmap r' := fun r' => by
    simp only [toPtr, markBlocks_memStart]
  have hrun : Allocation.run h.bitmap a = Ico r (r + a.blocks) := by
    rw [Allocation.run, haddr, toBlock_toPtr hwf (by omega)]
  have hperm := List.perm_cons_erase hmem
  refine ⟨⟨?_, ?_, ?_⟩, ?_, hintOk_markBlocks_false hwf hinv.hint hend, ?_, ?_, ?_⟩
  · rw [markBlocks_size]; exact hwf.bytes_lt
  · rw [markBlocks_memStart]; exact hwf.memStart_lt
  · rw [halloc]; exact sub_lt _ _
  · rw [markBlocks_size]; exact hinv.size
  · intro a' ha'
    rw [markBlocks_size]
    simp only [hptr]
    exact hinv.addr a' (List.mem_of_mem_erase ha')
  · rw [run_congr (markBlocks_memStart ..), usedBlocks_markBlocks_false hend (by omega), ← hrun]
    exact hinv.ledger.release (hperm.map _)
  · rw [halloc]
    have hsum := (hperm.map Allocation.blocks).sum_eq
    rw [List.map_cons, List.sum_cons] at hsum
    have hsub := (sub_modEq (a := h.bitmap.allocatedSizeInBlocks)
      (show a.blocks ≤ 2 ^ 64 by omega)).trans hinv.counter
    rw [hsum, show b.allocatedSizeInBlocks + (a.blocks + ((h.live.erase a).map Allocation.blocks).sum) =
      b.allocatedSizeInBlocks + ((h.live.erase a).map Allocation.blocks).sum + a.blocks by ring] at hsub
    exact Nat.ModEq.add_right_cancel' _ hsub

theorem step_inv (hinv : Inv b h) (hstep : step h op = some h') : Inv b h' := by
  cases step_effect hinv hstep with
  | none _ => exact hinv
  | take region n _ hend hfree hfirst _ => exact inv_take hinv hend hfree hfirst
  | release a r hmem haddr hend _ => exact inv_release hinv hmem haddr hend

theorem inv_start (hwf : WellFormed b) (hhint : HintOk b) : Inv b ⟨b, []⟩ :=
  ⟨hwf, rfl, hhint, fun _ ha => absurd ha (by simp), Ledger.valid_nil _, by simp [Nat.ModEq]⟩

/-! ## The counter -/

theorem Inv.used_card (hinv : Inv b h) :
    (usedBlocks h.bitmap).card = (usedBlocks b).card + (h.live.map Allocation.blocks).sum := by
  rw [hinv.ledger.card, List.map_map]
  congr 3
  funext a
  simp [Allocation.run]

theorem Inv.counter_eq (hinv : Inv b h)
    (hroom : b.allocatedSizeInBlocks + (b.bitmapSizeInBlocks - (usedBlocks b).card) < 2 ^ 64) :
    h.bitmap.allocatedSizeInBlocks = b.allocatedSizeInBlocks + (h.live.map Allocation.blocks).sum := by
  have hcard := hinv.used_card
  have hle : (usedBlocks h.bitmap).card ≤ b.bitmapSizeInBlocks := by
    rw [← hinv.size, ← card_range h.bitmap.bitmapSizeInBlocks]
    exact card_filter_le _ _
  exact Nat.ModEq.eq_of_lt_of_lt hinv.counter hinv.wf.allocated_lt (by omega)

/-! ## All runs -/

/-- **The bitmap allocator over all its runs.** From a bitmap with a sound hint, after any operations: the hint is
sound; a search fails exactly when no run of the wanted length is free; the next operation returns a run that was free
and is disjoint from every live allocation; and the counter changes by the change in the number of set bits, modulo
the word size. -/
theorem allocator_runs (b : DSBitmap) (hwf : WellFormed b) (hhint : HintOk b) (ops : List Op) (h : Heap)
    (hrun : Run.run step ⟨b, []⟩ ops = some h) : HintOk h.bitmap ∧
    (∀ n, 1 ≤ n → ((findFreeRegion h.bitmap n).1 = invalidBlock ↔ ¬ HasRun h.bitmap n)) ∧
    ∀ op h', step h op = some h' → HintOk h'.bitmap ∧ (∀ a, returned h op = some a →
        toPtr h.bitmap (toBlock h.bitmap a.addr) = a.addr ∧ a.run h.bitmap ⊆ range h.bitmap.bitmapSizeInBlocks ∧
        Disjoint (usedBlocks h.bitmap) (a.run h.bitmap) ∧ ∀ l ∈ h.live, Disjoint (a.run h.bitmap) (l.run h.bitmap)) ∧
      h'.bitmap.allocatedSizeInBlocks + (usedBlocks h.bitmap).card ≡
        h.bitmap.allocatedSizeInBlocks + (usedBlocks h'.bitmap).card [MOD 2 ^ 64] ∧
      (b.allocatedSizeInBlocks + (b.bitmapSizeInBlocks - (usedBlocks b).card) < 2 ^ 64 →
        h'.bitmap.allocatedSizeInBlocks + (usedBlocks h.bitmap).card =
          h.bitmap.allocatedSizeInBlocks + (usedBlocks h'.bitmap).card) := by
  have hinv : Inv b h := Run.run_invariant (fun s op s' hs hst => step_inv hs hst)
    (inv_start hwf hhint) hrun
  have hsize := hinv.wf.size_lt
  refine ⟨hinv.hint, fun n hn => findFreeRegion_eq_invalid_iff hinv.hint (by omega) hn, ?_⟩
  intro op h' hstep
  have hinv' := step_inv hinv hstep
  have hcard := hinv.used_card
  have hcard' := hinv'.used_card
  refine ⟨hinv'.hint, ?_, ?_, ?_⟩
  · intro a ha
    cases step_effect hinv hstep with
    | none hret | release _ _ _ _ _ hret => rw [hret] at ha; exact absurd ha (by simp)
    | take region n hn hend hfree hfirst hret =>
      obtain rfl : ⟨toPtr h.bitmap region, n⟩ = a := some.inj (hret.symm.trans ha)
      have hdisj := disjoint_usedBlocks_of_free hfree
      rw [run_toPtr hinv.wf hend]
      refine ⟨by rw [toBlock_toPtr hinv.wf (by omega)], ?_, hdisj, fun l hl => ?_⟩
      · intro i hi
        rw [mem_Ico] at hi
        exact mem_range.2 (by omega)
      · exact hinv.ledger.disjoint_of_free hdisj _ (List.mem_map_of_mem hl)
  · rw [hcard, hcard']
    have h1 := hinv'.counter.add_right ((usedBlocks b).card + (h.live.map Allocation.blocks).sum)
    have h2 := hinv.counter.add_right ((usedBlocks b).card + (h'.live.map Allocation.blocks).sum)
    refine h1.trans (Nat.ModEq.trans ?_ h2.symm)
    rw [show ∀ x y z w : Nat, x + y + (z + w) = x + w + (z + y) by intros; ring]
  · intro hroom
    rw [hcard, hcard', hinv.counter_eq hroom, hinv'.counter_eq hroom]
    ring

def sixteenBlocks : DSBitmap :=
  { bitmap := fun _ => 0#8, bitmapSizeInBlocks := 16, bitmapSizeInBytes := 2, memStart := 0x100000,
    allocatedSizeInBlocks := 0, lastDeepFragmented := 0 }

def sixteenOps : List Op :=
  [.allocate 2, .allocatePageframe, .allocate 3, .free ⟨0x100000, 2⟩, .freePageframe 0x102000]

theorem allocator_runs_sixteenBlocks : ∃ h, Run.run step ⟨sixteenBlocks, []⟩ sixteenOps = some h ∧ HintOk h.bitmap ∧
      ∀ n, 1 ≤ n → ((findFreeRegion h.bitmap n).1 = invalidBlock ↔ ¬ HasRun h.bitmap n) := by
  have hsome : (Run.run step ⟨sixteenBlocks, []⟩ sixteenOps).isSome = true := by decide
  obtain ⟨h, hrun⟩ := isSome_iff_exists.1 hsome
  have hruns := allocator_runs sixteenBlocks ⟨by decide, by decide, by decide⟩
    (fun i hi _ => absurd hi (Nat.not_lt_zero i)) sixteenOps h hrun
  exact ⟨h, hrun, hruns.1, hruns.2.1⟩

/-! ## Pageframes of a full bitmap -/

/-- What a caller may expect of the address and the bitmap that `BitmapAllocatePageframe` returns. -/
def PageframeLaw (b : DSBitmap) (result : Nat × DSBitmap) : Prop :=
  (¬ HasRun b 1 → result.2 = b ∧ (∀ i < b.bitmapSizeInBlocks, result.1 ≠ toPtr b i) ∧
    b.memStart + (findFreeRegion b 1).1 * blockSize < 2 ^ 64) ∧
  (HasRun b 1 → ∃ i < b.bitmapSizeInBlocks, Free b i 1 ∧ result.1 = b.memStart + i * blockSize)

/-- **The pageframe allocator does not look at the result of its search**: it keeps the law exactly where
the search succeeds, at a block whose address is a word. -/
theorem bitmapAllocatePageframe_law_iff (hwf : WellFormed b) : PageframeLaw b (bitmapAllocatePageframe b) ↔
    ∃ i < b.bitmapSizeInBlocks, b.lastDeepFragmented ≤ i ∧ Free b i 1 ∧
      (∀ s, b.lastDeepFragmented ≤ s → s < i → ¬ Free b s 1) ∧ b.memStart + i * blockSize < 2 ^ 64 := by
  have hsize := hwf.size_lt
  rcases findFreeRegion_cases b le_rfl with ⟨hres, hnone⟩ | ⟨region, hres, hhint, hend, hfree, hfirst⟩
  · refine iff_of_false (fun ⟨hfull, hrun⟩ => ?_) fun ⟨i, hi, hle, hfree, _⟩ => hnone i hle hi hfree
    by_cases hone : HasRun b 1
    · obtain ⟨i, hi, -, haddr⟩ := hrun hone
      rw [bitmapAllocatePageframe, hres] at haddr
      simp only [markBlocks_memStart, add, mul, invalidBlock, blockSize] at haddr
      omega
    · have hwrap := (hfull hone).2.2
      rw [hres, blockSize, invalidBlock] at hwrap
      omega
  · have haddr : (bitmapAllocatePageframe b).1 = (b.memStart + region * blockSize) % 2 ^ 64 := by
      rw [bitmapAllocatePageframe, hres]
      simp [add, mul, markBlocks_memStart]
    have hone : HasRun b 1 := ⟨region, hend, hfree⟩
    unfold blockSize at haddr
    constructor
    · rintro ⟨-, hrun⟩
      obtain ⟨i, hi, -, heq⟩ := hrun hone
      refine ⟨region, hend, hhint, hfree, hfirst, ?_⟩
      unfold blockSize at heq ⊢
      omega
    · rintro ⟨i, hi, hle, hfree', hfirst', hword⟩
      obtain rfl : i = region := by
        rcases Nat.lt_trichotomy i region with hlt | heq | hgt
        · exact absurd hfree' (hfirst i hle hlt)
        · exact heq
        · exact absurd hfree (hfirst' region hhint hgt)
      exact ⟨fun hnot => absurd hone hnot, fun _ => ⟨i, hi, hfree, haddr.trans (Nat.mod_eq_of_lt hword)⟩⟩

theorem bitmapAllocatePageframe_law_sixteenBlocks : WellFormed sixteenBlocks ∧
    PageframeLaw sixteenBlocks (bitmapAllocatePageframe sixteenBlocks) := by
  have hwf : WellFormed sixteenBlocks := ⟨by decide, by decide, by decide⟩
  refine ⟨hwf, (bitmapAllocatePageframe_law_iff hwf).2 ⟨0, by decide, by decide, ?_, ?_, by decide⟩⟩
  · exact fun j _ _ => by simp [bitmapGet, sixteenBlocks]
  · exact fun s _ hs => absurd hs (Nat.not_lt_zero s)

/-- A bitmap of one used block counts two used blocks after the call, and the address lies below it. -/
theorem bitmapAllocatePageframe_full :
    let b := { sixteenBlocks with bitmap := fun _ => 1#8, bitmapSizeInBlocks := 1, allocatedSizeInBlocks := 1 }
    (∀ i < b.bitmapSizeInBlocks, bitmapGet b i = true) ∧ (bitmapAllocatePageframe b).1 = b.memStart - 4096 ∧
      (bitmapAllocatePageframe b).2.allocatedSizeInBlocks = 2 := by
  decide

end CoreX.Bitmap

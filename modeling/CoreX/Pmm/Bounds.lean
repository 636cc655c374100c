import CoreX.Base.Ledger
import CoreX.Pmm.Usable

/-!
# Which blocks `initiate_pmm` marks

The bitmap has one bit for each page of usable memory, since `mm_total` is the sum of the usable lengths, but it is
indexed by physical addresses.
-/

namespace CoreX.Pmm

open Bitmap Finset Nat Option Word

structure MarkCall where
  base : Nat
  sizeBytes : Nat
  isUsed : Bool
  deriving DecidableEq

def MarkCall.apply (b : DSBitmap) (call : MarkCall) : DSBitmap := markRegion b call.base call.sizeBytes call.isUsed

def MarkCall.blocks (b : DSBitmap) (call : MarkCall) : Finset Nat :=
  let r := regionBlocks b call.base call.sizeBytes call.isUsed
  Ico r.1 (r.1 + r.2)

def markCalls (boot : BootloaderInfo) : List MarkCall :=
  match chosenEntry boot with
  | none => []
  | some c =>
    (boot.mmEntries.filter isUsable).map (fun e => ⟨e.base, e.length, false⟩) ++
    (boot.mmEntries.filter (fun e => !isUsable e)).map (fun e => ⟨e.base, e.length, true⟩) ++
    [⟨c.base, sizeInBytes boot, true⟩]

section
variable (p : LimineMemmapEntry → Bool) (v : Bool) (l : List LimineMemmapEntry)

theorem initiatePmm_eq_markCalls (boot : BootloaderInfo) (physMem : Nat → BitVec 8) (physical : DSBitmap) :
    initiatePmm boot physMem physical = (chosenEntry boot).map (fun c =>
      { (markCalls boot).foldl MarkCall.apply (freshBitmap boot physMem physical c) with
        allocatedSizeInBlocks := 0 }) := by
  rw [initiatePmm, markCalls]
  cases chosenEntry boot with
  | none => rfl
  | some c =>
    simp only [map_some, List.foldl_append, List.foldl_cons, List.foldl_nil,
      List.foldl_map, List.foldl_filter, MarkCall.apply, (markEntries_frame ..).2.1]
    rfl

theorem foldl_apply_byte {n a : Nat} (ha : (n + 7) / 8 ≤ a) (physical : DSBitmap)
    (calls : List MarkCall) : ∀ (b : DSBitmap), b.memStart = physical.memStart →
      (∀ call ∈ calls, ∀ i ∈ call.blocks physical, i < n) → (calls.foldl MarkCall.apply b).bitmap a = b.bitmap a := by
  induction calls with
  | nil => intro b _ _; rfl
  | cons call calls ih =>
    intro b hb hcalls
    have hmem : (MarkCall.apply b call).memStart = physical.memStart := (markRegion_frame ..).2.2.trans hb
    rw [List.foldl_cons, ih _ hmem (fun c hc => hcalls c (List.mem_cons_of_mem _ hc)), MarkCall.apply, markRegion]
    apply markBlocks_byte
    intro i hi hlt
    simp only [regionBlocks, toBlock, toBlockRoundUp, hb] at hi hlt
    have := hcalls call (List.mem_cons_self ..) i (mem_Ico.2 ⟨hi, hlt⟩)
    omega

/-! ## The total -/

theorem foldl_mmTotal : ∀ total, total < 2 ^ 64 →
    l.foldl (fun total e => if e.entryType.code = limineMemmapUsable then add total e.length else total) total =
    (total + ((l.filter (fun e => decide (e.entryType = .usable))).map LimineMemmapEntry.length).sum) % 2 ^ 64 := by
  induction l with
  | nil => intro total h; simpa using (mod_eq_of_lt h).symm
  | cons e l ih =>
    intro total h
    rw [List.foldl_cons]
    have hcode : e.entryType.code = limineMemmapUsable ↔ e.entryType = .usable := by
      cases e with
      | mk base length t => cases t <;> simp [MemmapType.code, limineMemmapUsable]
    by_cases he : e.entryType = .usable
    · rw [if_pos (hcode.2 he), ih _ (add_lt _ _), List.filter_cons_of_pos (by simpa using he),
        List.map_cons, List.sum_cons, add, mod_add_mod, add_assoc]
    · rw [if_neg (fun h => he (hcode.1 h)), ih _ h, List.filter_cons_of_neg (by simpa using he)]

theorem mmTotalOf_eq : mmTotalOf l = ((l.filter (fun e => decide (e.entryType = .usable))).map
      LimineMemmapEntry.length).sum % 2 ^ 64 := by
  rw [mmTotalOf, foldl_mmTotal l 0 (by norm_num), zero_add]

end

theorem mmTotalOf_dvd (m : MemoryMap) : blockSize ∣ mmTotalOf m.entries := by
  rw [mmTotalOf_eq]
  have hdvd : blockSize ∣ ((m.entries.filter (fun e => decide (e.entryType = .usable))).map
      LimineMemmapEntry.length).sum := by
    refine List.sum_induction (blockSize ∣ ·) (fun _ _ => Nat.dvd_add) (Nat.dvd_zero _) ?_
    intro x hx
    obtain ⟨e, he, rfl⟩ := List.mem_map.1 hx
    exact dvd_of_mod_eq_zero (m.aligned e (List.mem_of_mem_filter he)).2
  exact (dvd_mod_iff (show blockSize ∣ 2 ^ 64 by decide)).2 hdvd

abbrev MemoryMap.bootInfo (m : MemoryMap) : BootloaderInfo := ⟨mmTotalOf m.entries, m.entries⟩

theorem sizeInBlocks_mmTotalOf (m : MemoryMap) : sizeInBlocks m.bootInfo * blockSize = mmTotalOf m.entries := by
  have hlt : mmTotalOf m.entries < 2 ^ 64 := by
    rw [mmTotalOf_eq]
    exact mod_lt _ (by norm_num)
  have hdvd := mmTotalOf_dvd m
  have hround : mmTotalOf m.entries + (blockSize - 1) < 2 ^ 64 := by
    unfold blockSize at *
    omega
  rw [sizeInBlocks, divRoundUp_of_dvd (by decide) hdvd hround]
  exact Nat.div_mul_cancel hdvd

/-! ## Inside the bitmap -/

section
variable (boot : BootloaderInfo)

/-- Every block that `initiate_pmm` marks is below the size of the bitmap, and the memory behind the
bytes reserved for the bitmap is untouched. -/
def MarksInside (physMem : Nat → BitVec 8) (physical : DSBitmap) : Prop :=
  (∀ call ∈ markCalls boot, ∀ i ∈ call.blocks physical, i < sizeInBlocks boot) ∧
  ∀ c b, chosenEntry boot = some c → initiatePmm boot physMem physical = some b →
    ∀ a, sizeInBytes boot ≤ a → b.bitmap a = physMem (c.base + a)

/-- The bitmap fits nowhere, or there is no memory. -/
def NothingMarked : Prop :=
  (∀ e ∈ boot.mmEntries, e.entryType = .reserved → e.length < sizeInBytes boot) ∨
    ∀ e ∈ boot.mmEntries, e.length = 0

end

variable {physical : DSBitmap} {boot : BootloaderInfo} {e c : LimineMemmapEntry} {call : MarkCall}

theorem mem_markCalls (hc : chosenEntry boot = some c) (he : e ∈ boot.mmEntries) :
    ∃ v, (⟨e.base, e.length, v⟩ : MarkCall) ∈ markCalls boot := by
  simp only [markCalls, hc, List.mem_append, List.mem_map, List.mem_filter]
  cases hu : isUsable e with
  | true => exact ⟨false, Or.inl (Or.inl ⟨e, ⟨he, hu⟩, rfl⟩)⟩
  | false => exact ⟨true, Or.inl (Or.inr ⟨e, ⟨he, by simp [hu]⟩, rfl⟩)⟩

section
variable (m : MemoryMap)

theorem end_le_mmTotalOf (hmem : physical.memStart = 0) (hc : chosenEntry m.bootInfo = some c)
    (hin : ∀ call ∈ markCalls m.bootInfo, ∀ i ∈ call.blocks physical, i < sizeInBlocks m.bootInfo)
    (he : e ∈ m.entries) (hlen : e.length ≠ 0) : e.base + e.length ≤ mmTotalOf m.entries := by
  have hpage := m.pageEntry he
  have hb := hpage.base_mod
  have hl := hpage.length_mod
  obtain ⟨v, hv⟩ := mem_markCalls hc he
  have hlast := hin _ hv (e.base / blockSize + e.length / blockSize - 1) (by
    rw [MarkCall.blocks, regionBlocks_entry hmem hpage, mem_Ico]
    unfold blockSize at *
    omega)
  have hsize := sizeInBlocks_mmTotalOf m
  unfold blockSize at *
  omega

theorem sum_filter_add_sum_filter (p : LimineMemmapEntry → Bool) (l : List LimineMemmapEntry) :
    ((l.filter p).map LimineMemmapEntry.length).sum + ((l.filter (fun e => !p e)).map LimineMemmapEntry.length).sum =
      (l.map LimineMemmapEntry.length).sum := by
  induction l with
  | nil => rfl
  | cons e l ih =>
    cases hp : p e <;> simp [hp] <;> omega

theorem sum_length_le {n : Nat} (hbelow : ∀ e ∈ m.entries, e.length ≠ 0 → e.base + e.length ≤ n) :
    (m.entries.map LimineMemmapEntry.length).sum ≤ n := by
  have hpair : (m.entries.map (fun e => Ico e.base (e.base + e.length))).Pairwise Disjoint := by
    rw [List.pairwise_map]
    refine m.disjoint.imp (fun {e e'} hd => ?_)
    rw [Finset.disjoint_left]
    intro a ha ha'
    exact hd a ⟨mem_Ico.1 ha, mem_Ico.1 ha'⟩
  have hsub : ∀ R ∈ m.entries.map (fun e => Ico e.base (e.base + e.length)), R ⊆ range n := by
    intro R hR a ha
    obtain ⟨e, he, rfl⟩ := List.mem_map.1 hR
    rw [mem_Ico] at ha
    have := hbelow e he (by omega)
    exact mem_range.2 (by omega)
  have hcard : (card ∘ fun e : LimineMemmapEntry => Ico e.base (e.base + e.length)) =
      LimineMemmapEntry.length := by
    funext e
    simp
  have hsum := Ledger.sum_card_le hpair hsub
  rwa [List.map_map, card_range, hcard] at hsum

theorem length_eq_zero_of_sum_le (hsum : (m.entries.map LimineMemmapEntry.length).sum ≤ mmTotalOf m.entries)
    (he : e ∈ m.entries) (hne : e.entryType ≠ .usable) : e.length = 0 := by
  have hsplit := sum_filter_add_sum_filter (fun e => decide (e.entryType = .usable)) m.entries
  have hle : mmTotalOf m.entries ≤ ((m.entries.filter (fun e => decide (e.entryType = .usable))).map
      LimineMemmapEntry.length).sum := by
    rw [mmTotalOf_eq]
    exact mod_le _ _
  have hzero : ((m.entries.filter (fun e => !decide (e.entryType = .usable))).map
      LimineMemmapEntry.length).sum = 0 := by
    omega
  apply List.sum_eq_zero_iff_forall_eq_nat.1 hzero
  apply List.mem_map_of_mem
  rw [List.mem_filter]
  exact ⟨he, by simpa using hne⟩

theorem nothingMarked_of_below (hmem : physical.memStart = 0)
    (hin : ∀ call ∈ markCalls m.bootInfo, ∀ i ∈ call.blocks physical, i < sizeInBlocks m.bootInfo) :
    NothingMarked m.bootInfo := by
  cases hc : chosenEntry m.bootInfo with
  | none => exact Or.inl (by simpa [chosenEntry, ← isUsable_iff] using hc)
  | some c =>
    right
    obtain ⟨hcmem, hcres, hclen⟩ := chosenEntry_some hc
    have hsum := sum_length_le m fun e he hlen => end_le_mmTotalOf m hmem hc hin he hlen
    -- the bitmap lives in a reserved entry, which is empty, so the bitmap and the total are empty
    have hreserved : c.entryType ≠ .usable := by
      rw [(isUsable_iff c).1 hcres]
      decide
    have hczero := length_eq_zero_of_sum_le m hsum hcmem hreserved
    have hbytes := sizeInBytes_eq m.bootInfo
    have hblocks : sizeInBlocks m.bootInfo = 0 := by omega
    have htotal := sizeInBlocks_mmTotalOf m
    rw [hblocks, zero_mul] at htotal
    rw [← htotal, le_zero] at hsum
    intro e he
    exact List.sum_eq_zero_iff_forall_eq_nat.1 hsum _ (List.mem_map_of_mem he)

end

theorem MarkCall.blocks_of_empty (physical : DSBitmap) (hzero : call.sizeBytes = 0) : call.blocks physical = ∅ := by
  have hround : divRoundUp 0 blockSize = 0 := by decide
  cases hv : call.isUsed <;> simp [MarkCall.blocks, regionBlocks, hzero, hv, hround]

theorem blocks_eq_empty_of_nothingMarked (hcond : NothingMarked boot) (physical : DSBitmap)
    (hcall : call ∈ markCalls boot) : call.blocks physical = ∅ := by
  cases hc : chosenEntry boot with
  | none =>
    rw [markCalls, hc] at hcall
    exact absurd hcall (by simp)
  | some c =>
    obtain ⟨hcmem, hcres, hclen⟩ := chosenEntry_some hc
    have hempty : ∀ e ∈ boot.mmEntries, e.length = 0 := by
      rcases hcond with hnone | hempty
      · have := hnone c hcmem ((isUsable_iff c).1 hcres)
        omega
      · exact hempty
    have hbytes := hempty c hcmem
    apply MarkCall.blocks_of_empty
    simp only [markCalls, hc, List.mem_append, List.mem_map, List.mem_filter, List.mem_singleton] at hcall
    rcases hcall with (⟨e, he, rfl⟩ | ⟨e, he, rfl⟩) | rfl
    · exact hempty e he.1
    · exact hempty e he.1
    · show sizeInBytes boot = 0
      omega

theorem initiatePmm_byte {physMem : Nat → BitVec 8} {b : DSBitmap}
    (hin : ∀ call ∈ markCalls boot, ∀ i ∈ call.blocks physical, i < sizeInBlocks boot)
    (hc : chosenEntry boot = some c) (hb : initiatePmm boot physMem physical = some b) {a : Nat}
    (ha : sizeInBytes boot ≤ a) : b.bitmap a = physMem (c.base + a) := by
  rw [initiatePmm_eq_markCalls, hc, map_some] at hb
  obtain rfl := some.inj hb
  have hbytes := sizeInBytes_eq boot
  have hframe := foldl_apply_byte (show (sizeInBlocks boot + 7) / 8 ≤ a by omega) physical
    (markCalls boot) (freshBitmap boot physMem physical c) rfl hin
  rw [hframe]
  show Memory.memset (fun i => physMem (c.base + i)) 0 0xFF#8 (sizeInBytes boot) a = _
  exact if_neg (by omega)

/-- **When the marking stays inside the bitmap.** With `mm_total` computed as the bootloader code does, on
every memory map: exactly when `initiate_pmm` panics first, or all entries are empty. -/
theorem marksInside_iff (m : MemoryMap) (physMem : Nat → BitVec 8) (physical : DSBitmap)
    (hmem : physical.memStart = 0) : MarksInside ⟨mmTotalOf m.entries, m.entries⟩ physMem physical ↔
      NothingMarked ⟨mmTotalOf m.entries, m.entries⟩ := by
  constructor
  · intro hinside
    exact nothingMarked_of_below m hmem hinside.1
  intro hcond
  have hin : ∀ call ∈ markCalls m.bootInfo, ∀ i ∈ call.blocks physical, i < sizeInBlocks m.bootInfo := by
    intro call hcall i hi
    rw [blocks_eq_empty_of_nothingMarked hcond physical hcall] at hi
    exact absurd hi (notMem_empty i)
  exact ⟨hin, fun c b hc hb a ha => initiatePmm_byte hin hc hb ha⟩

theorem marksInside_onePage : MarksInside ⟨mmTotalOf onePage.entries, onePage.entries⟩ (fun _ => 0#8) zeroBitmap ↔
      NothingMarked ⟨mmTotalOf onePage.entries, onePage.entries⟩ :=
  marksInside_iff onePage _ zeroBitmap rfl

def holeMap : MemoryMap where
  entries := [⟨0, 0x1000, .usable⟩, ⟨0x100000, 0x1000, .reserved⟩]
  aligned := by decide
  word := by decide
  end_le := by decide
  disjoint := pairwise_of_le (by decide)

/-- On `holeMap` the bitmap has one block and one byte, and byte `32` behind it is written. -/
theorem initiatePmm_marks_outside : sizeInBytes ⟨mmTotalOf holeMap.entries, holeMap.entries⟩ = 1 ∧
    (initiatePmm ⟨mmTotalOf holeMap.entries, holeMap.entries⟩ (fun _ => 0#8) zeroBitmap).map
      (fun b => b.bitmap 32) = some 1#8 ∧
    ¬ MarksInside ⟨mmTotalOf holeMap.entries, holeMap.entries⟩ (fun _ => 0#8) zeroBitmap := by
  refine ⟨by decide, by decide, fun hin => ?_⟩
  have h := hin.1 ⟨0x100000, 0x1000, false⟩ (by decide) 256 (by decide)
  exact absurd h (by decide)

end CoreX.Pmm

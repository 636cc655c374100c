import CoreX.Pmm.Model

/-!
# The bits that `initiate_pmm` leaves

For a page-aligned memory map the marking of an entry covers exactly the blocks inside the entry (`HasBlock`), so the
final value of every bit is known (`initiatePmm_free_iff`).
-/

namespace CoreX.Pmm

open Bitmap Word

def LimineMemmapEntry.HasBlock (e : LimineMemmapEntry) (i : Nat) : Prop :=
  e.base ≤ i * blockSize ∧ i * blockSize + blockSize ≤ e.base + e.length

instance (e : LimineMemmapEntry) (i : Nat) : Decidable (e.HasBlock i) :=
  inferInstanceAs (Decidable (_ ∧ _))

/-- What a memory map promises of each of its entries. -/
structure PageEntry (e : LimineMemmapEntry) : Prop where
  base_mod : e.base % blockSize = 0
  length_mod : e.length % blockSize = 0
  base_lt : e.base < 2 ^ 64
  length_lt : e.length < 2 ^ 64
  end_le : e.base + e.length ≤ 2 ^ 64

variable {e c : LimineMemmapEntry} {b physical : DSBitmap} {boot : BootloaderInfo} {physMem : Nat → BitVec 8}
  {i : Nat}

theorem MemoryMap.pageEntry (m : MemoryMap) (he : e ∈ m.entries) : PageEntry e :=
  ⟨(m.aligned e he).1, (m.aligned e he).2, (m.word e he).1, (m.word e he).2, m.end_le e he⟩

theorem markRegion_frame (b : DSBitmap) (base size : Nat) (v : Bool) :
    (markRegion b base size v).bitmapSizeInBlocks = b.bitmapSizeInBlocks ∧
    (markRegion b base size v).bitmapSizeInBytes = b.bitmapSizeInBytes ∧
    (markRegion b base size v).memStart = b.memStart :=
  ⟨markBlocks_size .., markBlocks_bytes .., markBlocks_memStart ..⟩

theorem regionBlocks_entry (hb : b.memStart = 0) (he : PageEntry e) (v : Bool) :
    regionBlocks b e.base e.length v = (e.base / blockSize, e.length / blockSize) := by
  have hlenLt := he.length_lt
  obtain ⟨hbase, hlen, hbaseLt, -⟩ := he
  have hround : ∀ x, x % blockSize = 0 → x < 2 ^ 64 → divRoundUp x blockSize = x / blockSize := by
    intro x hx hlt
    refine divRoundUp_of_dvd (by decide) (Nat.dvd_of_mod_eq_zero hx) ?_
    unfold blockSize at *
    omega
  cases v with
  | false =>
    simp only [regionBlocks, Bool.false_eq_true, if_false, toBlockRoundUp, hb, sub_zero hbaseLt,
      hround _ hbase hbaseLt]
  | true =>
    simp only [regionBlocks, if_true, toBlock, hb, sub_zero hbaseLt, hround _ hlen hlenLt]

theorem hasBlock_iff (he : PageEntry e) (i : Nat) :
    e.HasBlock i ↔ e.base / blockSize ≤ i ∧ i < e.base / blockSize + e.length / blockSize := by
  have := he.base_mod
  unfold LimineMemmapEntry.HasBlock blockSize at *
  omega

theorem bitmapGet_markRegion (hb : b.memStart = 0) (he : PageEntry e) (v : Bool) (i : Nat) :
    bitmapGet (markRegion b e.base e.length v) i = if e.HasBlock i then v else bitmapGet b i := by
  have hlt : e.base / blockSize + e.length / blockSize < 2 ^ 64 := by
    have := he.end_le
    unfold blockSize
    omega
  rw [markRegion, regionBlocks_entry hb he, bitmapGet_markBlocks b hlt]
  simp only [hasBlock_iff he]

section
variable (p : LimineMemmapEntry → Bool) (v : Bool) (l : List LimineMemmapEntry)

theorem markEntries_frame (b : DSBitmap) : (markEntries p v l b).bitmapSizeInBlocks = b.bitmapSizeInBlocks ∧
    (markEntries p v l b).bitmapSizeInBytes = b.bitmapSizeInBytes ∧ (markEntries p v l b).memStart = b.memStart := by
  unfold markEntries
  induction l generalizing b with
  | nil => exact ⟨rfl, rfl, rfl⟩
  | cons e l ih =>
    rw [List.foldl_cons]
    obtain ⟨h1, h2, h3⟩ := ih (if p e then markRegion b e.base e.length v else b)
    rw [h1, h2, h3]
    by_cases hp : p e
    · rw [if_pos hp]; exact markRegion_frame ..
    · rw [if_neg hp]; exact ⟨rfl, rfl, rfl⟩

theorem bitmapGet_markEntries (i : Nat) (l : List LimineMemmapEntry) :
    ∀ (b : DSBitmap), b.memStart = 0 → (∀ e ∈ l, PageEntry e) →
      bitmapGet (markEntries p v l b) i = if ∃ e ∈ l, p e = true ∧ e.HasBlock i then v else bitmapGet b i := by
  unfold markEntries
  induction l with
  | nil => intro b _ _; simp
  | cons e l ih =>
    intro b hb hl
    have he := hl e (List.mem_cons_self ..)
    have hrest : ∀ e' ∈ l, PageEntry e' := fun e' he' => hl e' (List.mem_cons_of_mem _ he')
    rw [List.foldl_cons]
    simp only [List.exists_mem_cons_iff]
    by_cases hp : p e = true
    · rw [if_pos hp, ih _ ((markRegion_frame ..).2.2.trans hb) hrest, bitmapGet_markRegion hb he]
      by_cases hex : ∃ e' ∈ l, p e' = true ∧ e'.HasBlock i
      · rw [if_pos hex, if_pos (Or.inr hex)]
      rw [if_neg hex]
      by_cases hblock : e.HasBlock i
      · rw [if_pos hblock, if_pos (Or.inl ⟨hp, hblock⟩)]
      · rw [if_neg hblock, if_neg]
        rintro (⟨-, h⟩ | h)
        · exact hblock h
        · exact hex h
    · rw [if_neg hp, ih b hb hrest]
      simp [hp]

end

/-! ## The whole initialisation -/

section
variable (boot)

theorem sizeInBlocks_lt : sizeInBlocks boot < 2 ^ 52 := by
  have h := divRoundUp_le boot.mmTotal blockSize
  rw [← sizeInBlocks] at h
  unfold blockSize at h
  omega

theorem sizeInBytes_eq : sizeInBytes boot = (sizeInBlocks boot + 7) / 8 := by
  have := sizeInBlocks_lt boot
  exact divRoundUp_eq (by decide) (by omega)

theorem bitmapGet_freshBitmap (physMem : Nat → BitVec 8) (physical : DSBitmap) (c : LimineMemmapEntry)
    (hi : i < sizeInBlocks boot) : bitmapGet (freshBitmap boot physMem physical c) i = true := by
  have hbytes := sizeInBytes_eq boot
  have hin : 0 ≤ i / 8 ∧ i / 8 < 0 + sizeInBytes boot := by omega
  have hbyte : (freshBitmap boot physMem physical c).bitmap (i / 8) = 0xFF#8 := by
    show Memory.memset (fun i => physMem (c.base + i)) 0 0xFF#8 (sizeInBytes boot) (i / 8) = 0xFF#8
    exact Memory.memset_of_mem hin
  have hones : ∀ k < 8, (0xFF#8).getLsbD k = true := by decide
  rw [bitmapGet_eq, hbyte]
  exact hones _ (Nat.mod_lt _ (by norm_num))

end

def HoldsBitmap (boot : BootloaderInfo) (c : LimineMemmapEntry) (i : Nat) : Prop :=
  c.base ≤ i * blockSize ∧ i * blockSize < c.base + sizeInBytes boot

theorem bitmapGet_markBitmap (hb : b.memStart = 0) (hc : PageEntry c) (i : Nat) :
    bitmapGet (markRegion b c.base (sizeInBytes boot) true) i = true ↔
      HoldsBitmap boot c i ∨ bitmapGet b i = true := by
  have hbytes := sizeInBytes_eq boot
  have hblocks := sizeInBlocks_lt boot
  have hround : divRoundUp (sizeInBytes boot) blockSize = (sizeInBytes boot + 4095) / 4096 :=
    divRoundUp_eq (by decide) (by unfold blockSize; omega)
  have hregion : regionBlocks b c.base (sizeInBytes boot) true =
      (c.base / 4096, (sizeInBytes boot + 4095) / 4096) := by
    simp only [regionBlocks, if_true, toBlock, hb, sub_zero hc.base_lt, hround]
    rfl
  have hbaseLt := hc.base_lt
  have hmod := hc.base_mod
  rw [markRegion, hregion, bitmapGet_markBlocks b (by simp only; omega)]
  unfold HoldsBitmap
  unfold blockSize at hmod ⊢
  by_cases hin : c.base / 4096 ≤ i ∧ i < c.base / 4096 + (sizeInBytes boot + 4095) / 4096
  · rw [if_pos hin]
    exact ⟨fun _ => Or.inl (by omega), fun _ => rfl⟩
  · rw [if_neg hin]
    refine ⟨Or.inr, fun h => h.resolve_left ?_⟩
    omega

theorem chosenEntry_some (hc : chosenEntry boot = some c) :
    c ∈ boot.mmEntries ∧ isUsable c = true ∧ sizeInBytes boot ≤ c.length := by
  refine ⟨List.mem_of_find?_eq_some hc, ?_⟩
  have hp := List.find?_some hc
  simpa using hp

theorem initiatePmm_some (h : initiatePmm boot physMem physical = some b) :
    ∃ c, chosenEntry boot = some c ∧ b.bitmapSizeInBlocks = sizeInBlocks boot ∧
      b.bitmapSizeInBytes = sizeInBytes boot := by
  rw [initiatePmm] at h
  cases hc : chosenEntry boot with
  | none => rw [hc] at h; exact absurd h (by simp)
  | some c =>
    rw [hc] at h
    obtain rfl := Option.some.inj h
    refine ⟨c, rfl, ?_, ?_⟩
    · simp only [(markRegion_frame ..).1, (markEntries_frame ..).1]
      rfl
    · simp only [(markRegion_frame ..).2.1, (markEntries_frame ..).2.1]
      rfl

theorem initiatePmm_free_iff (m : MemoryMap) {mmTotal : Nat} (hmem : physical.memStart = 0)
    (hc : chosenEntry ⟨mmTotal, m.entries⟩ = some c)
    (h : initiatePmm ⟨mmTotal, m.entries⟩ physMem physical = some b) (hi : i < sizeInBlocks ⟨mmTotal, m.entries⟩) :
    bitmapGet b i = false ↔
      (∃ e ∈ m.entries, isUsable e = true ∧ e.HasBlock i) ∧ (∀ e ∈ m.entries, e.HasBlock i → isUsable e = true) ∧
      ¬ HoldsBitmap ⟨mmTotal, m.entries⟩ c i := by
  set boot : BootloaderInfo := ⟨mmTotal, m.entries⟩ with hboot
  have hpage : ∀ e ∈ boot.mmEntries, PageEntry e := fun e he => m.pageEntry he
  rw [initiatePmm, hc] at h
  obtain rfl := Option.some.inj h
  set b1 := markEntries isUsable false boot.mmEntries (freshBitmap boot physMem physical c) with hb1
  set b2 := markEntries (fun e => !isUsable e) true boot.mmEntries b1 with hb2
  have hmem1 : b1.memStart = 0 := (markEntries_frame ..).2.2.trans hmem
  have hmem2 : b2.memStart = 0 := (markEntries_frame ..).2.2.trans hmem1
  have hbytes : b2.bitmapSizeInBytes = sizeInBytes boot := (markEntries_frame ..).2.1.trans (markEntries_frame ..).2.1
  have hlast : bitmapGet (markRegion b2 c.base b2.bitmapSizeInBytes true) i = true ↔
      HoldsBitmap boot c i ∨ bitmapGet b2 i = true := by
    rw [hbytes]
    exact bitmapGet_markBitmap hmem2 (hpage c (chosenEntry_some hc).1) i
  have hget2 : bitmapGet b2 i =
      if ∃ e ∈ boot.mmEntries, (!isUsable e) = true ∧ e.HasBlock i then true else bitmapGet b1 i :=
    bitmapGet_markEntries _ _ _ _ _ hmem1 hpage
  have hget1 : bitmapGet b1 i =
      if ∃ e ∈ boot.mmEntries, isUsable e = true ∧ e.HasBlock i then false else true := by
    have hmem0 : (freshBitmap boot physMem physical c).memStart = 0 := hmem
    rw [hb1, bitmapGet_markEntries _ _ _ _ _ hmem0 hpage, bitmapGet_freshBitmap _ _ _ _ hi]
  have hfinal : bitmapGet (markRegion b2 c.base b2.bitmapSizeInBytes true) i = false ↔
      ¬ HoldsBitmap boot c i ∧ bitmapGet b2 i = false := by
    rw [← Bool.not_eq_true, hlast, not_or, Bool.not_eq_true]
  show bitmapGet (markRegion b2 c.base b2.bitmapSizeInBytes true) i = false ↔ _
  rw [hfinal, hget2]
  by_cases hother : ∃ e ∈ boot.mmEntries, (!isUsable e) = true ∧ e.HasBlock i
  · rw [if_pos hother]
    obtain ⟨e, he, hne, hblock⟩ := hother
    refine ⟨fun h => absurd h.2 (by simp), fun h => ?_⟩
    rw [h.2.1 e he hblock] at hne
    exact absurd hne (by simp)
  · rw [if_neg hother, hget1]
    have hall : ∀ e ∈ m.entries, e.HasBlock i → isUsable e = true := by
      intro e he hblock
      by_contra hne
      exact hother ⟨e, he, by simpa using hne, hblock⟩
    by_cases husable : ∃ e ∈ boot.mmEntries, isUsable e = true ∧ e.HasBlock i
    · rw [if_pos husable]
      exact ⟨fun h => ⟨husable, hall, h.1⟩, fun h => ⟨h.2.2, rfl⟩⟩
    · rw [if_neg husable]
      exact ⟨fun h => absurd h.2 (by simp), fun h => absurd h.1 husable⟩

end CoreX.Pmm

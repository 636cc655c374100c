import CoreX.Elf.Loaded

/-!
# The segments of one file

Segments that do not overlap keep their bytes whatever is loaded after them, also into their pages.
-/

namespace CoreX.Elf

open CoreX.PageMap List Option Word

theorem contentAt_of_disjoint {loads : List Load} {v : Nat}
    (hDisjoint : loads.Pairwise fun l l' => ¬ (l.Covers v ∧ l'.Covers v)) {l : Load} (hl : l ∈ loads)
    (hv : l.Covers v) : contentAt loads v = some (l.byte v) := by
  induction loads using reverseRecOn with
  | nil => simp at hl
  | append_singleton loads l' ih =>
    rw [pairwise_append] at hDisjoint
    obtain ⟨hBefore, -, hLast⟩ := hDisjoint
    rw [contentAt_append]
    rcases mem_append.1 hl with hl | hl
    · rw [if_neg fun hv' => hLast l hl l' (by simp) ⟨hv, hv'⟩]
      exact ih hBefore hl
    · rw [mem_singleton.1 hl] at hv ⊢
      rw [if_pos hv]

/-- As a number, without wrapping. -/
def Phdr.Covers (phdr : Phdr) (x : Nat) : Prop := phdr.pVaddr ≤ x ∧ x < phdr.pVaddr + phdr.pMemsz

section
variable {m m' m'' : Machine} {asked : Nat → Prop} {loads : List Load} {es : List Event}

theorem Loaded.mapped_of_unaligned (h : Loaded m m' asked loads) (hm : Ready m)
    (hBase : ∀ l ∈ loadsOf es, l.base % 4096 ≠ 0) (hRun : Elf.runEvents m' es = some m'') :
    m''.mapped = m'.mapped := by
  induction es generalizing m' asked loads with
  | nil => rw [Option.some.inj hRun]
  | cons e es ih =>
    cases e with
    | read size r =>
      have hRest := ih (h.read (m'.reads ++ [(size, r)])) hBase hRun
      exact hRest
    | load l =>
      obtain ⟨hFirst, hLater⟩ := forall_mem_cons.1 (show ∀ l' ∈ l :: loadsOf es, l'.base % 4096 ≠ 0 from hBase)
      obtain ⟨m₁, hRun₁, hRest⟩ := Option.bind_eq_some_iff.1 hRun
      obtain ⟨m₀, hMap, hCopy⟩ := Option.bind_eq_some_iff.1 hRun₁
      obtain rfl := mapPages_unaligned hFirst hMap
      rw [ih (h.run hm hRun₁).1 hLater hRest]
      exact (copied_of_copySegment h.supplied.separate hCopy).mapped

end

section
variable (image : Image) (base : Nat)

abbrev segment (phdr : Phdr) : Load := ⟨phdr, image, base⟩

def segments (phdrs : List Phdr) : List Event := phdrs.map fun phdr => .load (segment image base phdr)

variable {image base} {phdrs : List Phdr} {phdr : Phdr}

theorem loadsOf_segments (phdrs : List Phdr) : loadsOf (segments image base phdrs) = phdrs.map (segment image base) := by
  rw [loadsOf, segments, filterMap_map, ← filterMap_eq_map]
  rfl

theorem covers_segment_iff (hFilesz : phdr.pFilesz ≤ phdr.pMemsz)
    (hSpace : ∀ i < phdr.pMemsz, base + phdr.pVaddr + i < 2 ^ 64) (v : Nat) :
    (segment image base phdr).Covers v ↔ ∃ i < phdr.pMemsz, v = base + phdr.pVaddr + i := by
  rcases Nat.eq_zero_or_pos phdr.pMemsz with hZero | hPos
  · unfold Load.Covers Load.file Load.rest Range.Has
    simp only [hZero, Nat.not_lt_zero, false_and, exists_false, iff_false]
    omega
  · have hLast := hSpace (phdr.pMemsz - 1) (by omega)
    rw [Load.covers_iff hFilesz (show base + phdr.pVaddr + phdr.pMemsz ≤ 2 ^ 64 by omega)]
    change base + phdr.pVaddr ≤ v ∧ v < base + phdr.pVaddr + phdr.pMemsz ↔ _
    constructor
    · rintro ⟨hLow, hHigh⟩
      exact ⟨v - (base + phdr.pVaddr), by omega, by omega⟩
    · rintro ⟨i, hi, rfl⟩
      exact ⟨Nat.le_add_right _ i, Nat.add_lt_add_left hi _⟩

theorem runEvents_segments_exists_iff {m : Machine} (hm : Ready m) :
    (∃ m', runEvents m (segments image base phdrs) = some m') ↔
    ∀ pre phdr post, phdrs = pre ++ phdr :: post →
      (base % 4096 = 0 ∨ ∀ p, (segment image base phdr).Asks p →
        m.space.frameOf p ≠ 0 ∨ ∃ phdr' ∈ pre, (segment image base phdr').Asks p) ∧
      ∀ x, (segment image base phdr).Covers x →
        m.space.frameOf (x / 4096) ≠ 0 ∨ ∃ phdr' ∈ pre ++ [phdr], (segment image base phdr').Asks (x / 4096) := by
  rw [(loaded_refl hm).runEvents_iff hm, loadsOf_segments]
  constructor
  · rintro h pre phdr post rfl
    have hSplit := h (pre.map _) (segment image base phdr) (post.map _) (by rw [map_append, map_cons])
    simpa only [← map_singleton, ← map_append, List.mem_map, exists_exists_and_eq_and] using hSplit
  · intro h pre l post hEq
    obtain ⟨pre, rest, rfl, rfl, hRest⟩ := map_eq_append_iff.1 hEq
    obtain ⟨phdr, post, rfl, rfl, rfl⟩ := map_eq_cons_iff.1 hRest
    have hSplit := h pre phdr post rfl
    simpa only [← map_singleton, ← map_append, List.mem_map, exists_exists_and_eq_and] using hSplit

variable (hFilesz : ∀ phdr ∈ phdrs, phdr.pFilesz ≤ phdr.pMemsz)
  (hSpace : ∀ phdr ∈ phdrs, ∀ i < phdr.pMemsz, base + phdr.pVaddr + i < 2 ^ 64)
  (hDisjoint : phdrs.Pairwise fun a b => ∀ x, ¬ (a.Covers x ∧ b.Covers x))
include hFilesz hSpace hDisjoint

theorem segments_disjoint (v : Nat) :
    (phdrs.map (segment image base)).Pairwise fun l l' => ¬ (l.Covers v ∧ l'.Covers v) := by
  rw [pairwise_map]
  refine hDisjoint.imp_of_mem ?_
  rintro a b ha hb hab ⟨hva, hvb⟩
  obtain ⟨i, hi, rfl⟩ := (covers_segment_iff (hFilesz a ha) (hSpace a ha) v).1 hva
  obtain ⟨k, hk, hEq⟩ := (covers_segment_iff (hFilesz b hb) (hSpace b hb) _).1 hvb
  exact hab (a.pVaddr + i) ⟨⟨by omega, by omega⟩, ⟨by omega, by omega⟩⟩

theorem Loaded.read_segment {m m' : Machine} {asked : Nat → Prop} {i : Nat}
    (h : Loaded m m' asked (phdrs.map (segment image base))) (hPhdr : phdr ∈ phdrs) (hi : i < phdr.pMemsz)
    (hMapped : (base + phdr.pVaddr + i) / 4096 ∈ m'.mapped) : m'.space.read 4096 (base + phdr.pVaddr + i) =
      some (if i < phdr.pFilesz then image.bytes (phdr.pOffset + i) else 0) := by
  have hLast := hSpace phdr hPhdr (phdr.pMemsz - 1) (by omega)
  have hCovers : (segment image base phdr).Covers _ :=
    (covers_segment_iff (hFilesz phdr hPhdr) (hSpace phdr hPhdr) _).2 ⟨i, hi, rfl⟩
  rw [h.bytes _ hMapped, contentAt_of_disjoint (segments_disjoint hFilesz hSpace hDisjoint _) (mem_map_of_mem hPhdr)
    hCovers, Option.getD_some]
  exact congrArg some (Load.byte_eq (l := segment image base phdr)
    (show base + phdr.pVaddr + phdr.pMemsz ≤ 2 ^ 64 by omega) hi)

end

/-- **What loading a list of segments does.** For segments that do not overlap and lie in the file, in the end every
byte of every segment is the file's or zero, every page that has one was given to `VirtualMap` once, and only bytes of
the file were read, if and only if the base is on a page (or no segment has a byte, and no page must be mapped) and
every byte has an address of 64 bits in a page that was free, and that the loader looks up for this segment or one
before: the number of the pages may wrap. -/
theorem runEvents_segments_iff (m : Machine) (hm : Ready m) (image : Image) (base : Nat) (phdrs : List Phdr)
    (hFilesz : ∀ phdr ∈ phdrs, phdr.pFilesz ≤ phdr.pMemsz)
    (hFile : ∀ phdr ∈ phdrs, phdr.pOffset + phdr.pFilesz ≤ image.size)
    (hDisjoint : phdrs.Pairwise fun a b => ∀ x, ¬ (a.Covers x ∧ b.Covers x)) :
    (∃ m', runEvents m (segments image base phdrs) = some m' ∧ (∀ phdr ∈ phdrs,
        (∀ i, i < phdr.pFilesz → m'.space.read 4096 (base + phdr.pVaddr + i) =
          some (image.bytes (phdr.pOffset + i))) ∧
        (∀ i, phdr.pFilesz ≤ i → i < phdr.pMemsz → m'.space.read 4096 (base + phdr.pVaddr + i) = some 0) ∧
        ∀ i, i < phdr.pMemsz → m'.mapped.count ((base + phdr.pVaddr + i) / 4096) = 1) ∧
      ∀ r ∈ m'.reads, r ∈ m.reads ∨ r.2.first + r.2.length ≤ r.1) ↔
    (base % 4096 = 0 ∨ ∀ phdr ∈ phdrs, phdr.pMemsz = 0 ∧
      ∀ p, (segment image base phdr).Asks p → m.space.frameOf p ≠ 0) ∧
    ∀ pre phdr post, phdrs = pre ++ phdr :: post → ∀ i, i < phdr.pMemsz →
      base + phdr.pVaddr + i < 2 ^ 64 ∧ m.space.frameOf ((base + phdr.pVaddr + i) / 4096) = 0 ∧
        ∃ phdr' ∈ pre ++ [phdr], (segment image base phdr').Asks ((base + phdr.pVaddr + i) / 4096) := by
  constructor
  · rintro ⟨m', hRun, hBytes, -⟩
    obtain ⟨hLoaded, -, -⟩ := (loaded_refl hm).runEvents hm hRun
    rw [loadsOf_segments, nil_append] at hLoaded
    -- a page of a segment was mapped on the way, so its number was computed by some header
    have hMapped : ∀ phdr ∈ phdrs, ∀ i, i < phdr.pMemsz → (base + phdr.pVaddr + i) / 4096 ∈ m'.mapped := by
      intro phdr hPhdr i hi
      exact one_le_count_iff.1 (hBytes phdr hPhdr |>.2.2 i hi).ge
    have hSpace : ∀ phdr ∈ phdrs, ∀ i, i < phdr.pMemsz → base + phdr.pVaddr + i < 2 ^ 64 := by
      intro phdr hPhdr i hi
      obtain ⟨hAsked, -⟩ := (hLoaded.mem_mapped _).1 (hMapped phdr hPhdr i hi)
      obtain ⟨l, -, k, -, hk⟩ := hAsked.resolve_left id
      have hAddr : l.pageAddr k < 2 ^ 64 := add_lt _ _
      omega
    refine ⟨or_iff_not_imp_left.2 fun hBase phdr hPhdr => ?_, fun pre phdr post hEq i hi => ?_⟩
    · have hNone : m'.mapped = [] := by
        rw [(loaded_refl hm).mapped_of_unaligned hm (fun l hl => ?_) hRun, hm.mapped]
        rw [loadsOf_segments] at hl
        obtain ⟨phdr, -, rfl⟩ := mem_map.1 hl
        exact hBase
      refine ⟨Nat.eq_zero_of_not_pos fun hPos => ?_, fun p hp hZero => ?_⟩
      · simpa [hNone] using hMapped phdr hPhdr 0 hPos
      · have hMem := (hLoaded.mem_mapped p).2 ⟨Or.inr ⟨_, mem_map_of_mem hPhdr, hp⟩, hZero⟩
        simp [hNone] at hMem
    · have hPhdr : phdr ∈ phdrs := by simp [hEq]
      have hZero := ((hLoaded.mem_mapped _).1 (hMapped phdr hPhdr i hi)).2
      refine ⟨hSpace phdr hPhdr i hi, hZero, ?_⟩
      have hCovers : (segment image base phdr).Covers _ :=
        (covers_segment_iff (hFilesz phdr hPhdr) (hSpace phdr hPhdr) _).2 ⟨i, hi, rfl⟩
      have hSplit := (runEvents_segments_exists_iff hm).1 ⟨m', hRun⟩ pre phdr post hEq
      exact (hSplit.2 _ hCovers).resolve_left (not_not.2 hZero)
  · rintro ⟨hBase, hPages⟩
    have hPage : ∀ phdr ∈ phdrs, ∀ i, i < phdr.pMemsz → base + phdr.pVaddr + i < 2 ^ 64 ∧
        m.space.frameOf ((base + phdr.pVaddr + i) / 4096) = 0 ∧
        ∃ phdr' ∈ phdrs, (segment image base phdr').Asks ((base + phdr.pVaddr + i) / 4096) := by
      intro phdr hPhdr i hi
      obtain ⟨pre, post, rfl⟩ := append_of_mem hPhdr
      obtain ⟨hSpace, hZero, phdr', hMem, hAsks⟩ := hPages pre phdr post rfl i hi
      exact ⟨hSpace, hZero, phdr', by simp at hMem ⊢; tauto, hAsks⟩
    have hSpace : ∀ phdr ∈ phdrs, ∀ i < phdr.pMemsz, base + phdr.pVaddr + i < 2 ^ 64 := fun phdr hPhdr i hi =>
      (hPage phdr hPhdr i hi).1
    obtain ⟨m', hRun⟩ : ∃ m', runEvents m (segments image base phdrs) = some m' := by
      refine (runEvents_segments_exists_iff hm).2 fun pre phdr post hEq => ?_
      have hPhdr : phdr ∈ phdrs := by simp [hEq]
      refine ⟨hBase.imp_right fun hAll p hp => Or.inl ((hAll phdr hPhdr).2 p hp), fun x hx => Or.inr ?_⟩
      obtain ⟨i, hi, rfl⟩ := (covers_segment_iff (hFilesz phdr hPhdr) (hSpace phdr hPhdr) x).1 hx
      exact (hPages pre phdr post hEq i hi).2.2
    obtain ⟨hLoaded, hReads, -⟩ := (loaded_refl hm).runEvents hm hRun
    rw [loadsOf_segments, nil_append] at hLoaded
    have hMapped : ∀ phdr ∈ phdrs, ∀ i, i < phdr.pMemsz → (base + phdr.pVaddr + i) / 4096 ∈ m'.mapped := by
      intro phdr hPhdr i hi
      obtain ⟨-, hZero, phdr', hMem, hAsks⟩ := hPage phdr hPhdr i hi
      exact (hLoaded.mem_mapped _).2 ⟨Or.inr ⟨_, mem_map_of_mem hMem, hAsks⟩, hZero⟩
    have hByte : ∀ phdr ∈ phdrs, ∀ i, i < phdr.pMemsz → m'.space.read 4096 (base + phdr.pVaddr + i) =
        some (if i < phdr.pFilesz then image.bytes (phdr.pOffset + i) else 0) := fun phdr hPhdr i hi =>
      hLoaded.read_segment hFilesz hSpace hDisjoint hPhdr hi (hMapped phdr hPhdr i hi)
    refine ⟨m', hRun, fun phdr hPhdr => ⟨fun i hi => ?_, fun i hi hi' => ?_, fun i hi => ?_⟩, fun r hr => ?_⟩
    · have hle := hFilesz phdr hPhdr
      rw [hByte phdr hPhdr i (by omega), if_pos hi]
    · rw [hByte phdr hPhdr i hi', if_neg (by omega)]
    · exact count_eq_one_of_mem hLoaded.nodup (hMapped phdr hPhdr i hi)
    · rw [hReads, segments, List.map_map] at hr
      refine (mem_append.1 hr).imp_right fun hNew => ?_
      obtain ⟨phdr, hPhdr, rfl⟩ := mem_map.1 hNew
      exact hFile phdr hPhdr

def emptyMachine : Machine where
  space := ⟨fun _ => 0xAA, fun _ => 0⟩
  frames := fun j => j + 1
  taken := 0
  mapped := []
  reads := []
  writes := []

theorem emptyMachine_ready : Ready emptyMachine where
  separate _ _ hp _ := absurd rfl hp
  frame_ne_zero j _ := Nat.succ_ne_zero j
  frame_inj _ _ _ _ h := Nat.succ.inj h
  unused j _ _ := (Nat.succ_ne_zero j).symm
  mapped := rfl

def smallImage : Image := ⟨fun i => UInt8.ofNat (i + 1), 8⟩

def twoSegments : List Phdr := [⟨1, 0, 0x400010, 4, 8⟩, ⟨1, 4, 0x400000, 4, 4⟩]

theorem runEvents_segments_iff_two : ∃ m', runEvents emptyMachine (segments smallImage 0 twoSegments) = some m' ∧
      m'.space.read 4096 0x400012 = some 3 ∧ m'.space.read 4096 0x400016 = some 0 ∧
      m'.space.read 4096 0x400001 = some 6 ∧ m'.mapped.count 0x400 = 1 := by
  obtain ⟨m', hRun, hBytes, -⟩ := (runEvents_segments_iff emptyMachine emptyMachine_ready smallImage 0 twoSegments
    (by decide) (by decide)
    (by
      simp only [twoSegments, pairwise_cons, mem_singleton, forall_eq, Phdr.Covers]
      refine ⟨fun x hx => by omega, by simp, List.Pairwise.nil⟩)).2
    ⟨Or.inl rfl, by
      intro pre phdr post hEq i hi
      have hPhdr : phdr ∈ twoSegments := by simp [hEq]
      have hFits : (segment smallImage 0 phdr).Fits := by
        simp only [twoSegments, mem_cons, not_mem_nil, or_false] at hPhdr
        rcases hPhdr with rfl | rfl <;> exact ⟨rfl, by decide, by decide, by decide⟩
      refine ⟨Nat.lt_of_lt_of_le (Nat.add_lt_add_left hi _) hFits.space, rfl, phdr, by simp, ?_⟩
      apply Load.asks_of_covers hFits
      rw [Load.covers_iff hFits.filesz hFits.space]
      exact ⟨Nat.le_add_right _ i, Nat.add_lt_add_left hi _⟩⟩
  obtain ⟨hFile, hZero, hCount⟩ := hBytes ⟨1, 0, 0x400010, 4, 8⟩ (by simp [twoSegments])
  obtain ⟨hFile', -, -⟩ := hBytes ⟨1, 4, 0x400000, 4, 4⟩ (by simp [twoSegments])
  exact ⟨m', hRun, hFile 2 (by decide), hZero 6 (by decide) (by decide), hFile' 1 (by decide), hCount 0 (by decide)⟩

/-- A segment that says it takes the whole address space but one byte: no page is asked for. -/
theorem runEvents_wrapped_count : runEvents emptyMachine (segments smallImage 0 [⟨1, 0, 0, 0, 2 ^ 64 - 1⟩]) = none := by
  rw [Option.eq_none_iff_forall_ne_some]
  intro m' hRun
  have hCovers := ((loaded_refl emptyMachine_ready).runEvents_iff emptyMachine_ready _).1 ⟨m', hRun⟩ [] _ [] rfl
  obtain hMapped | ⟨l, hl, k, hk, -⟩ := hCovers.2 0 (by decide)
  · exact hMapped rfl
  · rw [nil_append, mem_singleton] at hl
    rw [hl, show pageCount (segment smallImage 0 ⟨1, 0, 0, 0, 2 ^ 64 - 1⟩).phdr = 0 by decide] at hk
    omega

end CoreX.Elf

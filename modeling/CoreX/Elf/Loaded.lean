import CoreX.Elf.Load
import Mathlib.Data.List.Induction
import Mathlib.Data.List.Nodup

/-!
# The machine while a program is loaded

Segments may share pages and overlap, so the invariant says what is at every address of a page that was mapped: the
byte of the last segment that has the address, or what the frame held before. It holds along every run without a fault,
whatever the headers say (`Loaded.runEvents`).
-/

namespace CoreX.Elf

open CoreX.PageMap List Space Word

/-! ## What the segments say about an address -/

def contentAt (loads : List Load) (v : Nat) : Option UInt8 :=
  loads.foldl (fun byte l => if l.Covers v then some (l.byte v) else byte) none

theorem contentAt_append (loads : List Load) (l : Load) (v : Nat) :
    contentAt (loads ++ [l]) v = if l.Covers v then some (l.byte v) else contentAt loads v := by
  rw [contentAt, foldl_append]
  rfl

variable {loads : List Load} {l : Load} {p v : Nat}

theorem contentAt_eq_none (h : ∀ l ∈ loads, ¬ l.Covers v) : contentAt loads v = none := by
  induction loads using reverseRecOn with
  | nil => rfl
  | append_singleton loads l ih =>
    rw [contentAt_append, if_neg (h l (by simp))]
    exact ih fun l' hl' => h l' (by simp [hl'])

theorem contentAt_isSome (hl : l ∈ loads) (hv : l.Covers v) : (contentAt loads v).isSome := by
  induction loads using reverseRecOn with
  | nil => simp at hl
  | append_singleton loads l' ih =>
    rw [contentAt_append]
    split
    · rfl
    · rename_i hNot
      rcases mem_append.1 hl with hl | hl
      · exact ih hl
      · exact absurd (mem_singleton.1 hl ▸ hv) hNot

/-! ## The invariant -/

/-- There are free frames, and nothing is mapped yet. -/
structure Ready (m : Machine) : Prop extends Supplied m where
  mapped : m.mapped = []

/-- The machine `m'` has come from `m` by asking for the pages of `asked` and loading `loads`. -/
structure Loaded (m m' : Machine) (asked : Nat → Prop) (loads : List Load) : Prop where
  supplied : Supplied m'
  frames : m'.frames = m.frames
  taken : m.taken ≤ m'.taken
  nodup : m'.mapped.Nodup
  mem_mapped : ∀ p, p ∈ m'.mapped ↔ asked p ∧ m.space.frameOf p = 0
  frame : ∀ p ∈ m'.mapped, ∃ j, m.taken ≤ j ∧ m'.space.frameOf p = m.frames j
  frame_of_not_mem : ∀ p, p ∉ m'.mapped → m'.space.frameOf p = m.space.frameOf p
  covered : ∀ l ∈ loads, ∀ v, l.Covers v → m'.space.frameOf (v / 4096) ≠ 0
  bytes : ∀ v, v / 4096 ∈ m'.mapped → m'.space.read 4096 v =
    some ((contentAt loads v).getD (m.space.phys (m'.space.place 4096 v)))
  phys : ∀ a, a / 4096 ≠ 0 → m'.space.Unused (a / 4096) → m'.space.phys a = m.space.phys a

theorem loaded_refl {m : Machine} (h : Ready m) : Loaded m m (fun _ => False) [] where
  supplied := h.toSupplied
  frames := rfl
  taken := le_refl _
  nodup := by rw [h.mapped]; exact nodup_nil
  mem_mapped := by simp [h.mapped]
  frame := by simp [h.mapped]
  frame_of_not_mem _ _ := rfl
  covered := by simp
  bytes := by simp [h.mapped]
  phys _ _ _ := rfl

section
variable {m m' m'' : Machine} {asked : Nat → Prop} (h : Loaded m m' asked loads)
include h

theorem Loaded.congr {asked' : Nat → Prop} (hAsked : ∀ p, asked p ↔ asked' p) : Loaded m m' asked' loads := by
  have hEq : asked = asked' := by
    funext p
    exact propext (hAsked p)
  exact hEq ▸ h

theorem Loaded.read (reads : List (Nat × Range)) : Loaded m { m' with reads } asked loads :=
  ⟨h.supplied.of_frameOf_eq rfl rfl rfl, h.frames, h.taken, h.nodup, h.mem_mapped, h.frame,
    h.frame_of_not_mem, h.covered, h.bytes, h.phys⟩

theorem Loaded.copied (hCopied : Copied l m' m'') : Loaded m m'' asked (loads ++ [l]) := by
  obtain ⟨hFrames, hTaken, hMapped, hFrame, hCovered, hRead, hPhys, -, -⟩ := hCopied
  refine ⟨h.supplied.of_frameOf_eq hFrame hFrames hTaken, hFrames.trans h.frames, ?_, ?_, ?_, ?_, ?_, ?_, ?_, ?_⟩
  · rw [hTaken]
    exact h.taken
  · rw [hMapped]
    exact h.nodup
  · rw [hMapped]
    exact h.mem_mapped
  · rw [hMapped, hFrame]
    exact h.frame
  · rw [hMapped, hFrame]
    exact h.frame_of_not_mem
  · intro l' hl' v hv
    rw [hFrame]
    rcases mem_append.1 hl' with hl' | hl'
    · exact h.covered l' hl' v hv
    · rw [mem_singleton.1 hl'] at hv
      exact hCovered v hv
  · intro v hv
    rw [hMapped] at hv
    rw [hRead, contentAt_append]
    split
    · rfl
    · rw [h.bytes v hv, place, place, hFrame]
  · intro a hNe ha
    have ha' : m'.space.Unused (a / 4096) := by
      rw [Space.Unused, ← hFrame]
      exact ha
    exact (hPhys a ha').trans (h.phys a hNe ha')

variable (hm : Ready m)
include hm

theorem Loaded.frameOf_ne_zero_iff (p : Nat) : m'.space.frameOf p ≠ 0 ↔ m.space.frameOf p ≠ 0 ∨ asked p := by
  by_cases hp : p ∈ m'.mapped
  · obtain ⟨j, hj, hFrame⟩ := h.frame p hp
    refine iff_of_true ?_ (Or.inr ((h.mem_mapped p).1 hp).1)
    rw [hFrame]
    exact hm.frame_ne_zero j hj
  · rw [h.frame_of_not_mem p hp]
    refine ⟨Or.inl, fun hOr hZero => hp ((h.mem_mapped p).2 ⟨?_, hZero⟩)⟩
    exact hOr.resolve_left (not_not.2 hZero)

theorem Loaded.grant (hp : m'.space.frameOf p = 0) : Loaded m (grant m' p) (fun q => asked q ∨ q = p) loads := by
  have hOld : m.space.frameOf p = 0 ∧ ¬ asked p := by
    have hNot := (not_congr (h.frameOf_ne_zero_iff hm p)).1 (not_not.2 hp)
    exact ⟨not_not.1 fun hNe => hNot (Or.inl hNe), fun hAsked => hNot (Or.inr hAsked)⟩
  have hNot : p ∉ m'.mapped := fun hMem => hOld.2 ((h.mem_mapped p).1 hMem).1
  have hFrameNe : m'.frames m'.taken ≠ 0 := h.supplied.frame_ne_zero _ (le_refl _)
  have hUnused := h.supplied.unused m'.taken (le_refl _)
  have hKeep : ∀ q, m'.space.frameOf q ≠ 0 → (Elf.grant m' p).space.frameOf q = m'.space.frameOf q := fun q hq =>
    mapPage_frameOf_of_ne fun hqp => hq (hqp ▸ hp)
  refine ⟨h.supplied.grant p, h.frames, Nat.le_succ_of_le h.taken, ?_, ?_, ?_, ?_, ?_, ?_, ?_⟩
  · rw [Elf.grant, nodup_append]
    refine ⟨h.nodup, nodup_singleton p, fun a ha b hb hab => ?_⟩
    rw [mem_singleton.1 hb] at hab
    exact hNot (hab ▸ ha)
  · intro q
    rw [mem_grant_mapped, h.mem_mapped, or_and_right]
    refine or_congr_right ⟨fun hq => ⟨hq, hq ▸ hOld.1⟩, And.left⟩
  · intro q hq
    by_cases hqp : q = p
    · refine ⟨m'.taken, h.taken, ?_⟩
      rw [hqp, ← h.frames]
      exact mapPage_frameOf_self _ _ _
    · obtain ⟨j, hj, hFrame⟩ := h.frame q ((mem_grant_mapped.1 hq).resolve_right hqp)
      exact ⟨j, hj, (mapPage_frameOf_of_ne hqp).trans hFrame⟩
  · intro q hq
    have hParts : q ∉ m'.mapped ∧ q ≠ p := by
      simpa [not_or] using hq
    exact (mapPage_frameOf_of_ne hParts.2).trans (h.frame_of_not_mem q hParts.1)
  · intro l hl v hv
    rw [hKeep _ (h.covered l hl v hv)]
    exact h.covered l hl v hv
  · intro v hv
    by_cases hvp : v / 4096 = p
    · -- no segment has written to this page, and nothing to its frame
      have hNone : contentAt loads v = none := contentAt_eq_none fun l hl hCovers =>
        h.covered l hl v hCovers (hvp ▸ hp)
      have hDiv : (4096 * m'.frames m'.taken + v % 4096) / 4096 = m'.frames m'.taken := by omega
      have hPhys := h.phys (4096 * m'.frames m'.taken + v % 4096) (by rw [hDiv]; exact hFrameNe)
        (by rw [hDiv]; exact hUnused)
      rw [Elf.grant, read_mapPage_self hFrameNe hvp, hNone, Option.getD_none, hPhys, place,
        hvp, mapPage_frameOf_self]
    · have hOld : v / 4096 ∈ m'.mapped := (mem_grant_mapped.1 hv).resolve_right hvp
      rw [Elf.grant, read_mapPage_of_ne hvp, h.bytes v hOld, place, place,
        mapPage_frameOf_of_ne hvp]
  · intro a hNe ha
    apply h.phys a hNe
    intro q hq
    exact ha q ((hKeep q (hq ▸ hNe)).trans hq)

theorem Loaded.mapUnmapped (hMap : mapUnmapped m' v = some m'') :
    Loaded m m'' (fun q => asked q ∨ q = v / 4096) loads ∧ m''.reads = m'.reads ∧ m''.writes = m'.writes := by
  rw [Elf.mapUnmapped] at hMap
  by_cases hp : m'.space.frameOf (v / 4096) = 0
  · rw [if_neg (not_not.2 hp), mapFresh] at hMap
    split_ifs at hMap
    obtain rfl := Option.some.inj hMap
    exact ⟨h.grant hm hp, rfl, rfl⟩
  · rw [if_pos hp] at hMap
    obtain rfl := Option.some.inj hMap
    refine ⟨⟨h.supplied, h.frames, h.taken, h.nodup, fun q => ?_, h.frame, h.frame_of_not_mem, h.covered, h.bytes,
      h.phys⟩, rfl, rfl⟩
    rw [h.mem_mapped]
    refine and_congr_left fun hZero => ⟨Or.inl, fun hq => hq.elim id ?_⟩
    rintro rfl
    exact ((h.frameOf_ne_zero_iff hm _).1 hp).resolve_left (not_not.2 hZero)

theorem Loaded.mapPages {base start n i : Nat} (hMap : mapPages base start n i m' = some m'') :
    Loaded m m'' (fun p => asked p ∨ ∃ k, i ≤ k ∧ k < i + n ∧ add base (add start (mul k 4096)) / 4096 = p) loads ∧
      m''.reads = m'.reads ∧ m''.writes = m'.writes := by
  induction n generalizing i m' asked with
  | zero =>
    obtain rfl := Option.some.inj hMap
    refine ⟨h.congr fun p => ⟨Or.inl, fun hp => hp.elim id ?_⟩, rfl, rfl⟩
    rintro ⟨k, hk, hk', -⟩
    omega
  | succ n ih =>
    obtain ⟨m₁, hFirst, hRest⟩ := Option.bind_eq_some_iff.1 hMap
    obtain ⟨h₁, hReads, hWrites⟩ := h.mapUnmapped hm hFirst
    obtain ⟨h₂, hReads', hWrites'⟩ := ih h₁ hRest
    refine ⟨h₂.congr fun p => ?_, hReads'.trans hReads, hWrites'.trans hWrites⟩
    rw [or_assoc]
    refine or_congr_right ⟨?_, ?_⟩
    · rintro (rfl | ⟨k, hk, hk', hp⟩)
      · exact ⟨i, le_refl i, by omega, rfl⟩
      · exact ⟨k, by omega, by omega, hp⟩
    · rintro ⟨k, hk, hk', rfl⟩
      rcases Nat.eq_or_lt_of_le hk with rfl | hlt
      · exact Or.inl rfl
      · exact Or.inr ⟨k, hlt, by omega, rfl⟩

/-- **One segment**, whatever its header says, if there is no fault. -/
theorem Loaded.run (hRun : l.run m' = some m'') : Loaded m m'' (fun p => asked p ∨ l.Asks p) (loads ++ [l]) ∧
    m''.reads = m'.reads ++ [(Event.load l).place] ∧ m''.writes = m'.writes ++ l.written := by
  obtain ⟨m₁, hMap, hCopy⟩ := Option.bind_eq_some_iff.1 hRun
  obtain ⟨h₁, hReads, hWrites⟩ := h.mapPages hm hMap
  have hCopied := copied_of_copySegment h₁.supplied.separate hCopy
  refine ⟨(h₁.copied hCopied).congr fun p => or_congr_right ?_, ?_, ?_⟩
  · constructor
    · rintro ⟨k, -, hk, rfl⟩
      exact ⟨k, by omega, rfl⟩
    · rintro ⟨k, hk, rfl⟩
      exact ⟨k, Nat.zero_le k, by omega, rfl⟩
  · rw [hCopied.reads, hReads, Event.place]
  · rw [hCopied.writes, hWrites]

end

theorem forall_split_cons {α : Type} {P : List α → α → Prop} {a : α} {as : List α} :
    (∀ pre x post, a :: as = pre ++ x :: post → P pre x) ↔
      P [] a ∧ ∀ pre x post, as = pre ++ x :: post → P (a :: pre) x := by
  constructor
  · intro hAll
    refine ⟨hAll [] a as rfl, fun pre x post hEq => hAll (a :: pre) x post ?_⟩
    rw [hEq, cons_append]
  · rintro ⟨hFirst, hRest⟩ pre x post hEq
    cases pre with
    | nil =>
      obtain ⟨rfl, -⟩ := cons.inj hEq
      exact hFirst
    | cons b pre =>
      obtain ⟨rfl, hTail⟩ := cons.inj hEq
      exact hRest pre x post hTail

section
variable {m m' m'' : Machine} {asked : Nat → Prop} {es : List Event}

theorem mapPages_exists (n i : Nat) (m' : Machine) (hBase : l.base % 4096 = 0 ∨
      ∀ k, i ≤ k → k < i + n → m'.space.frameOf (l.pageAddr k / 4096) ≠ 0) :
    ∃ m'', mapPages l.base (l.phdr.pVaddr / 4096 * 4096) n i m' = some m'' := by
  induction n generalizing i m' with
  | zero => exact ⟨m', rfl⟩
  | succ n ih =>
    rw [mapPages]
    change ∃ m'', (mapUnmapped m' (l.pageAddr i)).bind _ = some m''
    by_cases hp : m'.space.frameOf (l.pageAddr i / 4096) = 0
    · have hAligned : l.base % 4096 = 0 := hBase.resolve_right fun h => h i (le_refl i) (by omega) hp
      rw [mapUnmapped, if_neg (not_not.2 hp), mapFresh, if_neg (by rw [Load.pageAddr_mod, hAligned]; decide),
        Option.bind_some]
      exact ih _ _ (Or.inl hAligned)
    · rw [mapUnmapped, if_pos hp, Option.bind_some]
      exact ih _ _ (hBase.imp_right fun h k hk hk' => h k (by omega) (by omega))

theorem mapPages_unaligned {n i : Nat} (hBase : l.base % 4096 ≠ 0)
    (hMap : mapPages l.base (l.phdr.pVaddr / 4096 * 4096) n i m' = some m'') : m'' = m' := by
  induction n generalizing i with
  | zero => exact (Option.some.inj hMap).symm
  | succ n ih =>
    obtain ⟨m₁, hFirst, hRest⟩ := Option.bind_eq_some_iff.1 hMap
    change mapUnmapped m' (l.pageAddr i) = some m₁ at hFirst
    rw [mapUnmapped, mapFresh, if_pos (show l.pageAddr i % 4096 ≠ 0 by rwa [Load.pageAddr_mod])] at hFirst
    split_ifs at hFirst
    obtain rfl := Option.some.inj hFirst
    exact ih hRest

variable (hm : Ready m) (h : Loaded m m' asked loads)
include hm h

/-- When a segment is loaded without a fault. -/
theorem Loaded.run_iff : (∃ m'', l.run m' = some m'') ↔
    (l.base % 4096 = 0 ∨ ∀ p, l.Asks p → m'.space.frameOf p ≠ 0) ∧
      ∀ x, l.Covers x → m'.space.frameOf (x / 4096) ≠ 0 ∨ l.Asks (x / 4096) := by
  have hAsks : ∀ p, (∃ k, 0 ≤ k ∧ k < 0 + pageCount l.phdr ∧ l.pageAddr k / 4096 = p) ↔ l.Asks p := by
    simp [Load.Asks]
  constructor
  · rintro ⟨m'', hRun⟩
    obtain ⟨m₁, hMap, hCopy⟩ := Option.bind_eq_some_iff.1 hRun
    have h₁ := (h.mapPages hm hMap).1
    have hFrame : ∀ p, m₁.space.frameOf p ≠ 0 ↔ m'.space.frameOf p ≠ 0 ∨ l.Asks p := fun p => by
      rw [h₁.frameOf_ne_zero_iff hm, h.frameOf_ne_zero_iff hm, or_assoc]
      exact or_congr_right (or_congr_right (hAsks p))
    refine ⟨or_iff_not_imp_left.2 fun hBase p hp => ?_, fun x hx => ?_⟩
    · obtain rfl := mapPages_unaligned hBase hMap
      exact (hFrame p).2 (Or.inr hp)
    · exact (hFrame _).1 ((copied_of_copySegment h₁.supplied.separate hCopy).covered x hx)
  · rintro ⟨hBase, hCovers⟩
    obtain ⟨m₁, hMap⟩ := mapPages_exists (l := l) (pageCount l.phdr) 0 m' (hBase.imp_right fun hMapped k _ hk =>
      hMapped _ ⟨k, by omega, rfl⟩)
    obtain ⟨h₁, -, -⟩ := h.mapPages hm hMap
    obtain ⟨m₂, hCopy⟩ := copySegment_exists (l := l) h₁.supplied.separate fun x hx => by
      rw [h₁.frameOf_ne_zero_iff hm]
      rcases hCovers x hx with hOld | hNew
      · exact ((h.frameOf_ne_zero_iff hm _).1 hOld).imp_right Or.inl
      · exact Or.inr (Or.inr ((hAsks _).2 hNew))
    exact ⟨m₂, Option.bind_eq_some_iff.2 ⟨m₁, hMap, hCopy⟩⟩

/-- **A run without a fault**, whatever the headers say. -/
theorem Loaded.runEvents (hRun : runEvents m' es = some m'') :
    Loaded m m'' (fun p => asked p ∨ ∃ l ∈ loadsOf es, l.Asks p) (loads ++ loadsOf es) ∧
      m''.reads = m'.reads ++ es.map Event.place ∧ m''.writes = m'.writes ++ (loadsOf es).flatMap Load.written := by
  induction es generalizing m' asked loads with
  | nil =>
    obtain rfl := Option.some.inj hRun
    simp only [loadsOf, filterMap_nil, map_nil, flatMap_nil, append_nil, and_true]
    exact h.congr fun p => by simp
  | cons e es ih =>
    cases e with
    | read size r =>
      obtain ⟨h₁, hReads, hWrites⟩ := ih (h.read _) hRun
      refine ⟨h₁, ?_, hWrites⟩
      rw [hReads, map_cons, append_assoc, singleton_append, Event.place]
    | load l =>
      obtain ⟨m₁, hFirst, hRest⟩ := Option.bind_eq_some_iff.1 hRun
      obtain ⟨h₁, hReads, hWrites⟩ := h.run hm hFirst
      obtain ⟨h₂, hReads', hWrites'⟩ := ih h₁ hRest
      have hLoads : loadsOf (.load l :: es) = l :: loadsOf es := rfl
      rw [append_assoc, singleton_append] at h₂
      rw [hLoads]
      refine ⟨h₂.congr fun p => by simp [or_assoc], ?_, ?_⟩
      · rw [hReads', hReads, map_cons, append_assoc, singleton_append]
      · rw [hWrites', hWrites, flatMap_cons, append_assoc]

/-- **When a run has no fault**: every segment lies in pages that are mapped, or asked for up to it, and what is asked
for can be mapped. -/
theorem Loaded.runEvents_iff (es : List Event) : (∃ m'', Elf.runEvents m' es = some m'') ↔
    ∀ pre l post, loadsOf es = pre ++ l :: post →
      (l.base % 4096 = 0 ∨ ∀ p, l.Asks p → m'.space.frameOf p ≠ 0 ∨ ∃ l' ∈ pre, l'.Asks p) ∧
      ∀ x, l.Covers x → m'.space.frameOf (x / 4096) ≠ 0 ∨ ∃ l' ∈ pre ++ [l], l'.Asks (x / 4096) := by
  induction es generalizing m' asked loads with
  | nil => simp [Elf.runEvents, loadsOf]
  | cons e es ih =>
    cases e with
    | read size r => exact ih (h.read _)
    | load l =>
      have hLoads : loadsOf (.load l :: es) = l :: loadsOf es := rfl
      rw [hLoads, forall_split_cons]
      have hJoin : ∀ m₁, l.run m' = some m₁ → ∀ ls p, (m₁.space.frameOf p ≠ 0 ∨ ∃ l' ∈ ls, l'.Asks p) ↔
          (m'.space.frameOf p ≠ 0 ∨ ∃ l' ∈ l :: ls, l'.Asks p) := fun m₁ hRun ls p => by
        rw [(h.run hm hRun).1.frameOf_ne_zero_iff hm, h.frameOf_ne_zero_iff hm]
        simp only [mem_cons, or_and_right, exists_or, exists_eq_left, or_assoc]
      constructor
      · rintro ⟨m'', hRun⟩
        obtain ⟨m₁, hRun₁, hRest⟩ := Option.bind_eq_some_iff.1 hRun
        obtain ⟨hBase, hCovers⟩ := (h.run_iff hm).1 ⟨m₁, hRun₁⟩
        refine ⟨⟨hBase.imp_right fun hAll p hp => Or.inl (hAll p hp), fun x hx => ?_⟩, fun pre l' post hEq => ?_⟩
        · simpa using hCovers x hx
        obtain ⟨hBase', hCovers'⟩ := (ih (h.run hm hRun₁).1).1 ⟨m'', hRest⟩ pre l' post hEq
        exact ⟨hBase'.imp_right fun hAll p hp => (hJoin m₁ hRun₁ pre p).1 (hAll p hp),
          fun x hx => (hJoin m₁ hRun₁ (pre ++ [l']) _).1 (hCovers' x hx)⟩
      · rintro ⟨⟨hBase, hCovers⟩, hRest⟩
        obtain ⟨m₁, hRun₁⟩ := (h.run_iff hm (l := l)).2
          ⟨hBase.imp_right fun hAll p hp => by simpa using hAll p hp, fun x hx => by simpa using hCovers x hx⟩
        obtain ⟨m'', hRun⟩ := (ih (h.run hm hRun₁).1).2 fun pre l' post hEq =>
          ⟨(hRest pre l' post hEq).1.imp_right fun hAll p hp => (hJoin m₁ hRun₁ pre p).2 (hAll p hp),
            fun x hx => (hJoin m₁ hRun₁ (pre ++ [l']) _).2 ((hRest pre l' post hEq).2 x hx)⟩
        exact ⟨m'', Option.bind_eq_some_iff.2 ⟨m₁, hRun₁, hRun⟩⟩

end

end CoreX.Elf

import CoreX.Base.PageMap
import CoreX.Base.Word

/-!
# Loading a segment (`elf.rs`)

`elf_process_load` maps the pages of a segment that are not mapped yet, copies the segment's bytes from the file and
clears the rest. The machine carries the frames that `PhysicalAllocate` will return, and records the pages given to
`VirtualMap` and the ranges read and written. `none` is a page fault, or the panic of `VirtualMap` on an address
inside a page.
-/

namespace CoreX.Elf

open CoreX.PageMap Word Option

structure Phdr where
  (pType pOffset pVaddr pFilesz pMemsz : Nat)
  deriving DecidableEq

structure Image where
  bytes : Nat → UInt8
  size : Nat

structure Range where
  (first length : Nat)
  deriving DecidableEq

/-- The address is in the range. -/
def Range.Has (r : Range) (x : Nat) : Prop := r.first ≤ x ∧ x < r.first + r.length

instance (r : Range) (x : Nat) : Decidable (r.Has x) := inferInstanceAs (Decidable (_ ∧ _))

structure Machine where
  space : Space UInt8
  frames : Nat → Nat
  taken : Nat
  mapped : List Nat
  /-- With the size of the image. -/
  reads : List (Nat × Range)
  writes : List Range

def grant (m : Machine) (page : Nat) : Machine :=
  { m with
    space := m.space.mapPage page (m.frames m.taken)
    taken := m.taken + 1
    mapped := m.mapped ++ [page] }

variable {m : Machine}

@[simp] theorem mem_grant_mapped {page p : Nat} : p ∈ (grant m page).mapped ↔ p ∈ m.mapped ∨ p = page := by
  simp [grant]

def mapFresh (m : Machine) (v : Nat) : Option Machine :=
  if v % 4096 ≠ 0 then none else some (grant m (v / 4096))

def mapUnmapped (m : Machine) (v : Nat) : Option Machine :=
  if m.space.frameOf (v / 4096) ≠ 0 then some m else mapFresh m v

def mapPages (base start : Nat) : Nat → Nat → Machine → Option Machine
  | 0, _, m => some m
  | n + 1, i, m =>
    (mapUnmapped m (Word.add base (Word.add start (Word.mul i 4096)))).bind (mapPages base start n (i + 1))

section
variable (m)

def wrote (r : Range) (space : Space UInt8) : Machine :=
  { m with space := space, writes := m.writes ++ [r] }

def writeBytes (v : Nat) (src : Nat → UInt8) (n : Nat) : Option Machine :=
  (m.space.write 4096 v src n).map (wrote m ⟨v, n⟩)

def noteRead (image : Image) (off n : Nat) : Machine :=
  { m with reads := m.reads ++ [(image.size, ⟨off, n⟩)] }

def pageCount (phdr : Phdr) : Nat :=
  let start := phdr.pVaddr / 4096 * 4096
  Word.divRoundUp (Word.add (Word.sub phdr.pVaddr start) phdr.pMemsz) 4096

section
variable (phdr : Phdr) (image : Image) (base : Nat)

def copySegment (m : Machine) : Option Machine :=
  let m := noteRead m image phdr.pOffset phdr.pFilesz
  (writeBytes m (Word.add base phdr.pVaddr) (fun i => image.bytes (phdr.pOffset + i))
    phdr.pFilesz).bind fun m =>
  if phdr.pFilesz < phdr.pMemsz then
    writeBytes m (Word.add (Word.add base phdr.pVaddr) phdr.pFilesz) (fun _ => 0)
      (phdr.pMemsz - phdr.pFilesz)
  else some m

def elfProcessLoad : Option Machine :=
  let start := phdr.pVaddr / 4096 * 4096
  (mapPages base start (pageCount phdr) 0 m).bind (copySegment phdr image base)

end

structure Load where
  phdr : Phdr
  image : Image
  base : Nat

def Load.run (l : Load) : Option Machine := elfProcessLoad m l.phdr l.image l.base

end

/-- What the headers of a program make the loader do: read a part of a file of some size, or load a segment. -/
inductive Event where
  | read (size : Nat) (r : Range)
  | load (l : Load)

def runEvents (m : Machine) : List Event → Option Machine
  | [] => some m
  | .read size r :: es => runEvents { m with reads := m.reads ++ [(size, r)] } es
  | .load l :: es => (l.run m).bind fun m => runEvents m es

def Event.load? : Event → Option Load
  | .read .. => none
  | .load l => some l

def loadsOf (es : List Event) : List Load := es.filterMap Event.load?

def Event.place : Event → Nat × Range
  | .read size r => (size, r)
  | .load l => (l.image.size, ⟨l.phdr.pOffset, l.phdr.pFilesz⟩)

variable {l : Load}

namespace Load

section
variable (l : Load)

/-- The addresses wrap. -/
def first : Nat := Word.add l.base l.phdr.pVaddr

def file : Range := ⟨l.first, l.phdr.pFilesz⟩

def rest : Range := ⟨Word.add l.first l.phdr.pFilesz, l.phdr.pMemsz - l.phdr.pFilesz⟩

def written : List Range := l.file :: if l.phdr.pFilesz < l.phdr.pMemsz then [l.rest] else []

/-- An address of the segment. -/
def Covers (v : Nat) : Prop := l.file.Has v ∨ l.rest.Has v

instance (v : Nat) : Decidable (l.Covers v) := inferInstanceAs (Decidable (_ ∨ _))

def byte (v : Nat) : UInt8 := if l.rest.Has v then 0 else l.image.bytes (l.phdr.pOffset + (v - l.first))

def pageAddr (i : Nat) : Nat := Word.add l.base (Word.add (l.phdr.pVaddr / 4096 * 4096) (Word.mul i 4096))

/-- A page that the loader looks up, and maps if it is not mapped yet. -/
def Asks (p : Nat) : Prop := ∃ i < pageCount l.phdr, l.pageAddr i / 4096 = p

instance (p : Nat) : Decidable (l.Asks p) := inferInstanceAs (Decidable (∃ i < _, _))

end

theorem pageAddr_mod (l : Load) (i : Nat) : l.pageAddr i % 4096 = l.base % 4096 := by
  unfold pageAddr add mul
  omega

/-- In the address space, with a number of pages of 64 bits. -/
structure Fits (l : Load) : Prop where
  base : l.base % 4096 = 0
  filesz : l.phdr.pFilesz ≤ l.phdr.pMemsz
  space : l.base + l.phdr.pVaddr + l.phdr.pMemsz ≤ 2 ^ 64
  round : l.phdr.pVaddr % 4096 + l.phdr.pMemsz + 4095 < 2 ^ 64

theorem covers_iff (hFilesz : l.phdr.pFilesz ≤ l.phdr.pMemsz)
    (hSpace : l.base + l.phdr.pVaddr + l.phdr.pMemsz ≤ 2 ^ 64) (v : Nat) :
    l.Covers v ↔ l.base + l.phdr.pVaddr ≤ v ∧ v < l.base + l.phdr.pVaddr + l.phdr.pMemsz := by
  unfold Covers file rest Range.Has first add
  simp only
  omega

theorem byte_eq (hSpace : l.base + l.phdr.pVaddr + l.phdr.pMemsz ≤ 2 ^ 64) {i : Nat} (hi : i < l.phdr.pMemsz) :
    l.byte (l.base + l.phdr.pVaddr + i) = if i < l.phdr.pFilesz then l.image.bytes (l.phdr.pOffset + i) else 0 := by
  have hFirst : l.first = l.base + l.phdr.pVaddr := add_eq (by omega)
  have hRest : l.rest.Has (l.base + l.phdr.pVaddr + i) ↔ ¬ i < l.phdr.pFilesz := by
    unfold rest Range.Has
    rw [hFirst]
    unfold add
    simp only
    omega
  rw [byte, hFirst, Nat.add_sub_cancel_left]
  by_cases hFile : i < l.phdr.pFilesz
  · rw [if_pos hFile, if_neg fun h => hRest.1 h hFile]
  · rw [if_neg hFile, if_pos (hRest.2 hFile)]

theorem asks_iff (h : l.Fits) (p : Nat) : l.Asks p ↔
    (l.base + l.phdr.pVaddr) / 4096 ≤ p ∧ 4096 * p < l.base + l.phdr.pVaddr + l.phdr.pMemsz := by
  obtain ⟨hBase, -, hSpace, hRound⟩ := h
  have hOffset : sub l.phdr.pVaddr (l.phdr.pVaddr / 4096 * 4096) = l.phdr.pVaddr % 4096 := by
    rw [sub]
    omega
  have hCount : pageCount l.phdr = (l.phdr.pVaddr % 4096 + l.phdr.pMemsz + 4095) / 4096 := by
    rw [pageCount, hOffset, add_eq (by omega), divRoundUp_eq (by decide) (by omega)]
  have hAddr : ∀ i < pageCount l.phdr, l.pageAddr i / 4096 = (l.base + l.phdr.pVaddr) / 4096 + i := by
    intro i hi
    rw [hCount] at hi
    have hPage : l.pageAddr i = l.base + (l.phdr.pVaddr / 4096 * 4096 + i * 4096) := by
      rw [pageAddr, mul_eq (by omega), add_eq (a := l.phdr.pVaddr / 4096 * 4096) (by omega), add_eq (by omega)]
    rw [hPage]
    omega
  constructor
  · rintro ⟨i, hi, rfl⟩
    rw [hAddr i hi]
    omega
  · rintro ⟨hLow, hHigh⟩
    have hi : p - (l.base + l.phdr.pVaddr) / 4096 < pageCount l.phdr := by omega
    refine ⟨_, hi, ?_⟩
    rw [hAddr _ hi]
    omega

theorem asks_of_covers (h : l.Fits) {v : Nat} (hv : l.Covers v) : l.Asks (v / 4096) := by
  rw [covers_iff h.filesz h.space] at hv
  rw [asks_iff h]
  omega

end Load

/-! ## Frames to come -/

/-- The frames to come are different from each other and from those in use, and no two pages share
one. -/
structure Supplied (m : Machine) : Prop where
  separate : m.space.Separate
  frame_ne_zero : ∀ j, m.taken ≤ j → m.frames j ≠ 0
  frame_inj : ∀ j k, m.taken ≤ j → m.taken ≤ k → m.frames j = m.frames k → j = k
  unused : ∀ j, m.taken ≤ j → m.space.Unused (m.frames j)

theorem Supplied.grant (h : Supplied m) (page : Nat) : Supplied (grant m page) where
  separate := h.separate.mapPage (h.unused m.taken (Nat.le_refl _))
  frame_ne_zero j hj := h.frame_ne_zero j (Nat.le_of_succ_le hj)
  frame_inj j k hj hk := h.frame_inj j k (Nat.le_of_succ_le hj) (Nat.le_of_succ_le hk)
  unused j hj := by
    have hj : m.taken + 1 ≤ j := hj
    apply (h.unused j (by omega)).mapPage
    intro hEq
    have := h.frame_inj _ _ (Nat.le_refl _) (by omega) hEq
    omega

theorem Supplied.of_frameOf_eq {m' : Machine} (h : Supplied m) (hFrame : m'.space.frameOf = m.space.frameOf)
    (hFrames : m'.frames = m.frames) (hTaken : m'.taken = m.taken) : Supplied m' := by
  refine ⟨?_, ?_, ?_, ?_⟩
  · rw [Space.Separate, hFrame]
    exact h.separate
  · rw [hFrames, hTaken]
    exact h.frame_ne_zero
  · rw [hFrames, hTaken]
    exact h.frame_inj
  · simp only [Space.Unused, hFrames, hTaken, hFrame]
    exact h.unused

/-! ## The bytes of a segment -/

section
variable {v n : Nat} {src : Nat → UInt8}

theorem writeBytes_spec (hSep : m.space.Separate) (v : Nat) (src : Nat → UInt8) (n : Nat)
    (hMapped : ∀ x, (⟨v, n⟩ : Range).Has x → m.space.frameOf (x / 4096) ≠ 0) :
    ∃ space, writeBytes m v src n = some (wrote m ⟨v, n⟩ space) ∧ space.frameOf = m.space.frameOf ∧
      ∀ w, space.read 4096 w = if v ≤ w ∧ w < v + n then some (src (w - v)) else m.space.read 4096 w := by
  obtain ⟨space, hWrite, hFrame, hRead, -⟩ := Space.write_spec (by decide) hSep v src n fun i hi =>
    hMapped _ ⟨Nat.le_add_right v i, Nat.add_lt_add_left hi v⟩
  exact ⟨space, by rw [writeBytes, hWrite, map_some], hFrame, hRead⟩

theorem writeBytes_inv {m' : Machine} (hSep : m.space.Separate) (h : writeBytes m v src n = some m') :
    ∃ space, m' = wrote m ⟨v, n⟩ space ∧ space.frameOf = m.space.frameOf ∧
      (∀ x, (⟨v, n⟩ : Range).Has x → m.space.frameOf (x / 4096) ≠ 0) ∧
      (∀ w, space.read 4096 w = if (⟨v, n⟩ : Range).Has w then some (src (w - v)) else m.space.read 4096 w) ∧
      ∀ a, m.space.Unused (a / 4096) → space.phys a = m.space.phys a := by
  obtain ⟨space, hWrite, rfl⟩ := map_eq_some_iff.1 h
  have hMapped : ∀ i < n, m.space.frameOf ((v + i) / 4096) ≠ 0 := fun i hi => Space.mapped_of_write hWrite hi
  obtain ⟨space', hWrite', hFrame, hRead, hPhys⟩ := Space.write_spec (by decide) hSep v src n hMapped
  obtain rfl := some.inj (hWrite.symm.trans hWrite')
  refine ⟨space, rfl, hFrame, fun x hx => ?_, hRead, hPhys⟩
  obtain ⟨hLow, hHigh⟩ := hx
  simp only at hLow hHigh
  have hOffset := hMapped (x - v) (by omega)
  rwa [Nat.add_sub_cancel' hLow] at hOffset

end

structure Copied (l : Load) (m m' : Machine) : Prop where
  frames : m'.frames = m.frames
  taken : m'.taken = m.taken
  mapped : m'.mapped = m.mapped
  frameOf : m'.space.frameOf = m.space.frameOf
  covered : ∀ x, l.Covers x → m.space.frameOf (x / 4096) ≠ 0
  read : ∀ w, m'.space.read 4096 w = if l.Covers w then some (l.byte w) else m.space.read 4096 w
  phys : ∀ a, m.space.Unused (a / 4096) → m'.space.phys a = m.space.phys a
  reads : m'.reads = m.reads ++ [(l.image.size, ⟨l.phdr.pOffset, l.phdr.pFilesz⟩)]
  writes : m'.writes = m.writes ++ l.written

theorem Load.rest_empty (h : ¬ l.phdr.pFilesz < l.phdr.pMemsz) (x : Nat) : ¬ l.rest.Has x := by
  unfold rest Range.Has
  simp only
  omega

theorem copied_of_copySegment {m' : Machine} (hSep : m.space.Separate)
    (h : copySegment l.phdr l.image l.base m = some m') : Copied l m m' := by
  obtain ⟨m₁, hFile, hRest⟩ := bind_eq_some_iff.1 h
  obtain ⟨space, rfl, hFrame, hMapped, hRead, hPhys⟩ :=
    writeBytes_inv (m := noteRead m l.image l.phdr.pOffset l.phdr.pFilesz) hSep hFile
  by_cases hMore : l.phdr.pFilesz < l.phdr.pMemsz
  · rw [if_pos hMore] at hRest
    have hSep' : space.Separate := by
      rw [Space.Separate, hFrame]
      exact hSep
    obtain ⟨space', rfl, hFrame', hMapped', hRead', hPhys'⟩ := writeBytes_inv (m := wrote _ _ space) hSep' hRest
    refine ⟨rfl, rfl, rfl, hFrame'.trans hFrame, fun x hx => ?_, fun w => ?_, fun a ha => ?_, rfl, ?_⟩
    · rcases hx with hx | hx
      · exact hMapped x hx
      · have hLater : space.frameOf (x / 4096) ≠ 0 := hMapped' x hx
        rwa [hFrame] at hLater
    · change space'.read 4096 w = _
      rw [hRead' w]
      change (if l.rest.Has w then some 0 else space.read 4096 w) = _
      rw [hRead w]
      change (if l.rest.Has w then some 0 else if l.file.Has w then _ else _) = _
      by_cases hw : l.rest.Has w
      · rw [if_pos hw, if_pos (show l.Covers w from Or.inr hw), Load.byte, if_pos hw]
      · rw [if_neg hw, Load.byte, if_neg hw]
        by_cases hw' : l.file.Has w
        · rw [if_pos hw', if_pos (show l.Covers w from Or.inl hw')]
          rfl
        · rw [if_neg hw', if_neg (show ¬ l.Covers w from fun h => h.elim hw' hw)]
          rfl
    · have hUnused : space.Unused (a / 4096) := by
        rw [Space.Unused, hFrame]
        exact ha
      exact (hPhys' a hUnused).trans (hPhys a ha)
    · rw [Load.written, if_pos hMore]
      simp [wrote, noteRead, Load.file, Load.rest, Load.first]
  · rw [if_neg hMore] at hRest
    obtain rfl := some.inj hRest
    have hNone := Load.rest_empty hMore
    refine ⟨rfl, rfl, rfl, hFrame, fun x hx => hMapped x (hx.resolve_right (hNone x)), fun w => ?_, hPhys, rfl, ?_⟩
    · change space.read 4096 w = _
      rw [hRead w, Load.byte, if_neg (hNone w)]
      change (if l.file.Has w then _ else _) = _
      by_cases hw : l.file.Has w
      · rw [if_pos hw, if_pos (show l.Covers w from Or.inl hw)]
        rfl
      · rw [if_neg hw, if_neg (show ¬ l.Covers w from fun h => h.elim hw (hNone w))]
        rfl
    · rw [Load.written, if_neg hMore]
      rfl

theorem copySegment_exists (hSep : m.space.Separate) (hMapped : ∀ x, l.Covers x → m.space.frameOf (x / 4096) ≠ 0) :
    ∃ m', copySegment l.phdr l.image l.base m = some m' := by
  obtain ⟨space, hFile, hFrame, -⟩ := writeBytes_spec (m := noteRead m l.image l.phdr.pOffset l.phdr.pFilesz) hSep
    l.first (fun i => l.image.bytes (l.phdr.pOffset + i)) l.phdr.pFilesz fun x hx => hMapped x (Or.inl hx)
  have hSep' : space.Separate := by
    rw [Space.Separate, hFrame]
    exact hSep
  obtain ⟨space', hRest, -⟩ := writeBytes_spec
    (m := wrote (noteRead m l.image l.phdr.pOffset l.phdr.pFilesz) l.file space) hSep' l.rest.first (fun _ => 0)
    l.rest.length fun x hx => by
      change space.frameOf (x / 4096) ≠ 0
      rw [hFrame]
      exact hMapped x (Or.inr hx)
  have hEq : copySegment l.phdr l.image l.base m = if l.phdr.pFilesz < l.phdr.pMemsz then
      writeBytes (wrote (noteRead m l.image l.phdr.pOffset l.phdr.pFilesz) l.file space) l.rest.first (fun _ => 0)
        l.rest.length
      else some (wrote (noteRead m l.image l.phdr.pOffset l.phdr.pFilesz) l.file space) := by
    change Option.bind (writeBytes _ l.first _ _) _ = _
    rw [hFile]
    rfl
  rw [hEq]
  split_ifs
  · exact ⟨_, hRest⟩
  · exact ⟨_, rfl⟩

end CoreX.Elf

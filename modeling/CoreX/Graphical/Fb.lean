import CoreX.Mem.Ranges

/-!
# Mapping the framebuffer (`fb.rs`)

A user maps the framebuffer with the `mmap` of its device. `syscall_mmap` rounds the length up to pages and hands it
to `fbUserMmap`, which maps as many physical pages from the start of the framebuffer on.
-/

namespace CoreX.Mem

abbrev MmapHandler := Task → Nat → Nat → Nat → Nat → Nat → Nat × Task

/-- The call comes to the handler of its file. -/
def MmapCall.FileBacked (call : MmapCall) : Prop :=
  ¬(call.length = 0 ∨ (call.addr ≠ 0 ∧ call.addr % 4096 ≠ 0)) ∧
    (call.fixed && call.anonymous) = false ∧ call.fd ≠ -1

instance (call : MmapCall) : Decidable call.FileBacked :=
  inferInstanceAs (Decidable (_ ∧ _ ∧ _))

section
variable (env : Env) (files : Int → Option (Option MmapHandler)) (task : Task) (call : MmapCall)

/-- `syscall_mmap` with handlers that change the task. -/
def syscallMmapFiles : Except Errno Nat × Task :=
  if call.FileBacked then
    match files call.fd with
    | none => (.error .ebadf, task)
    | some none => (.error .enosys, task)
    | some (some handler) =>
      let (res, task) :=
        handler task call.addr (4096 * pageCount call.length) call.prot call.flags call.pgoffset
      (.ok res, task)
  else syscallMmap env task call

end

end CoreX.Mem

namespace CoreX.Fb

open CoreX.Mem

structure Framebuffer where
  (phys width height : Nat)

section
variable (fb : Framebuffer)

def Framebuffer.size : Nat := fb.width * fb.height * 4

structure MapArgs where
  (virt phys flags : Nat)
  deriving DecidableEq

def pfRw : Nat := 2

def pfUser : Nat := 4

def pfCacheWc : Nat := 128

def userBase : Nat := 0x150000000000

def fbMapCalls (length : Nat) : List MapArgs :=
  let length := if length = 0 then Word.mul (Word.mul fb.width fb.height) 4 else length
  (List.range (pageCount length)).map fun i =>
    ⟨pageAt userBase i, Word.add fb.phys (4096 * i), pfRw ||| pfUser ||| pfCacheWc⟩

section
variable (pages : Nat → Nat) (calls : List MapArgs)

def mapAll : Nat → Nat :=
  calls.foldl (fun pages call => virtualMap pages call.virt call.phys) pages

def fbUserMmap : MmapHandler :=
  fun task _ length _ _ _ =>
    (userBase, { task with pages := mapAll task.pages (fbMapCalls fb length) })

/-! ## What becomes accessible -/

def physPage (phys : Nat) : Nat := phys % 2 ^ 52 / 4096

def Framebuffer.Overlaps (page : Nat) : Prop :=
  4096 * page < fb.phys + fb.size ∧ fb.phys < 4096 * page + 4096

instance (fb : Framebuffer) (page : Nat) : Decidable (fb.Overlaps page) :=
  inferInstanceAs (Decidable (_ ∧ _))

/-- Every physical page that the calls make accessible has a byte of the framebuffer. A call for the
address zero clears the entry. -/
def Framebuffer.Confines : Prop :=
  ∀ call ∈ calls, call.phys ≠ 0 → fb.Overlaps (physPage call.phys)

/-- The framebuffer starts at a page and is below 2^52. -/
structure Framebuffer.InMemory (fb : Framebuffer) : Prop where
  pos : 0 < fb.phys
  aligned : fb.phys % 4096 = 0
  fits : fb.phys + fb.size ≤ 2 ^ 52

end

theorem mem_fbMapCalls {length : Nat} (hLength : length ≠ 0) {call : MapArgs} :
    call ∈ fbMapCalls fb length ↔ ∃ i < pageCount length,
      (⟨pageAt userBase i, Word.add fb.phys (4096 * i), pfRw ||| pfUser ||| pfCacheWc⟩ : MapArgs) = call := by
  simp only [fbMapCalls, if_neg hLength, List.mem_map, List.mem_range]

end

variable {fb : Framebuffer} {length : Nat}

theorem Framebuffer.InMemory.overlaps_iff (h : fb.InMemory) {i : Nat} (hi : 4096 * i < fb.size + 4096) :
    Word.add fb.phys (4096 * i) ≠ 0 ∧
      (fb.Overlaps (physPage (Word.add fb.phys (4096 * i))) ↔ 4096 * i < fb.size) := by
  obtain ⟨hPos, hAligned, hFits⟩ := h
  rw [Framebuffer.Overlaps, physPage, Word.add]
  generalize fb.phys = phys at *
  have hSum : (phys + 4096 * i) % 2 ^ 64 = phys + 4096 * i := Nat.mod_eq_of_lt (by omega)
  rw [hSum]
  refine ⟨by omega, ?_⟩
  omega

theorem Framebuffer.InMemory.confines_iff (h : fb.InMemory) (hLength : length ≠ 0) :
    fb.Confines (fbMapCalls fb length) ↔ pageCount length ≤ (fb.size + 4095) / 4096 := by
  constructor
  · intro hConfines
    by_contra hMore
    -- the first page behind the framebuffer
    obtain ⟨hMapped, hIff⟩ := h.overlaps_iff (i := (fb.size + 4095) / 4096) (by omega)
    have hMem := (mem_fbMapCalls fb hLength).2 ⟨(fb.size + 4095) / 4096, by omega, rfl⟩
    have hOverlaps := hIff.1 (hConfines _ hMem hMapped)
    omega
  · intro hPages call hCall _
    obtain ⟨i, hi, rfl⟩ := (mem_fbMapCalls fb hLength).1 hCall
    have hInside : 4096 * i < fb.size := by omega
    exact (h.overlaps_iff (by omega)).2.2 hInside

theorem Framebuffer.InMemory.confines_zero (h : fb.InMemory) : fb.Confines (fbMapCalls fb 0) := by
  have hFits := h.fits
  have hSize : Word.mul (Word.mul fb.width fb.height) 4 = fb.size := by
    rw [Word.mul, Word.mul, Nat.mod_mul_mod, Framebuffer.size]
    exact Nat.mod_eq_of_lt (by rw [Framebuffer.size] at hFits; omega)
  have hCalls : fbMapCalls fb 0 = (List.range (pageCount fb.size)).map fun i =>
      ⟨pageAt userBase i, Word.add fb.phys (4096 * i), pfRw ||| pfUser ||| pfCacheWc⟩ := by
    rw [fbMapCalls, if_pos rfl, hSize]
  intro call hCall _
  rw [hCalls, List.mem_map] at hCall
  obtain ⟨i, hi, rfl⟩ := hCall
  rw [List.mem_range, pageCount_eq (by omega)] at hi
  exact (h.overlaps_iff (by omega)).2.2 (by omega)

theorem pageCount_mul (hLength : length < 2 ^ 64) (hFits : length + 4095 < 2 ^ 64) :
    pageCount (4096 * pageCount length) = pageCount length := by
  rw [pageCount_eq hFits, pageCount_eq (by omega)]
  omega

/-- **A user's `mmap` of the framebuffer makes pages of the framebuffer accessible and no others,
exactly if it asks for no more pages than the framebuffer has**, or for so many that rounding its
length up wraps to zero. -/
theorem fbUserMmap_confined_iff (fb : Framebuffer) (h : fb.InMemory) (env : Env)
    (files : Int → Option (Option MmapHandler)) (task : Task) (call : MmapCall)
    (hLength : call.length < 2 ^ 64) (hFile : call.FileBacked)
    (hDevice : files call.fd = some (some (fbUserMmap fb))) : syscallMmapFiles env files task call =
        (.ok userBase, { task with pages := mapAll task.pages (fbMapCalls fb (4096 * pageCount call.length)) }) ∧
      (fb.Confines (fbMapCalls fb (4096 * pageCount call.length)) ↔
        2 ^ 64 ≤ call.length + 4095 ∨ (call.length + 4095) / 4096 ≤ (fb.size + 4095) / 4096) := by
  constructor
  · rw [syscallMmapFiles, if_pos hFile, hDevice]
    rfl
  rcases Nat.lt_or_ge (call.length + 4095) (2 ^ 64) with hFits | hWraps
  · have hPages := pageCount_eq hFits
    have hNonzero : call.length ≠ 0 := fun hZero => hFile.1 (.inl hZero)
    rw [h.confines_iff (by omega), pageCount_mul hLength hFits, hPages]
    omega
  · rw [pageCount_wrapped hLength hWraps]
    exact ⟨fun _ => .inl hWraps, fun _ => h.confines_zero⟩

def sampleFb : Framebuffer := ⟨0xE0000000, 1024, 768⟩

def sampleFiles : Int → Option (Option MmapHandler) :=
  fun fd => if fd = 3 then some (some (fbUserMmap sampleFb)) else none

theorem sampleFb_inMemory : sampleFb.InMemory := ⟨by decide, by decide, by decide⟩

/-- All of the screen is mapped, and nothing else. -/
theorem fbUserMmap_confined_iff_screen :
    (syscallMmapFiles plainEnv sampleFiles freshTask ⟨0, 3145728, 3, 1, 3, 0⟩).1 = .ok userBase ∧
      sampleFb.Confines (fbMapCalls sampleFb (4096 * pageCount 3145728)) := by
  obtain ⟨hCall, hIff⟩ := fbUserMmap_confined_iff sampleFb sampleFb_inMemory plainEnv sampleFiles freshTask
    ⟨0, 3145728, 3, 1, 3, 0⟩ (by decide) (by decide) rfl
  exact ⟨by rw [hCall], hIff.2 (.inr (by decide))⟩

/-- One byte more than the screen has maps the physical page behind it. -/
theorem fbUserMmap_next_page : syscallMmapFiles plainEnv sampleFiles freshTask ⟨0, 3145729, 3, 1, 3, 0⟩ =
        (.ok userBase, { freshTask with
          pages := mapAll freshTask.pages (fbMapCalls sampleFb (4096 * pageCount 3145729)) }) ∧
      (⟨0x150000300000, 0xE0300000, 134⟩ : MapArgs) ∈ fbMapCalls sampleFb (4096 * pageCount 3145729) ∧
      ¬ sampleFb.Overlaps (physPage 0xE0300000) := by
  refine ⟨rfl, ?_, by decide⟩
  rw [mem_fbMapCalls _ (by decide)]
  exact ⟨768, by decide, rfl⟩

end CoreX.Fb

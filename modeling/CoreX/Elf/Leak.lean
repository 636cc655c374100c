import CoreX.Elf.Segments
import CoreX.Elf.StackUser

/-!
# What a new program sees of old frames

`PhysicalAllocate` does not clear the frames it returns. `elf_process_load` writes the bytes of the segment and not
the rest of its pages, so the program finds there what the frame held before.
-/

namespace CoreX.Elf

open CoreX.PageMap Option Space

section
variable (adjust : Machine → Nat → Nat → Machine) (rand : Nat → UInt32)
  (open? : Bytes → Option Image) (image : Image) (argv envv : List CString)

def finishTask (st : ExecState) : Option Task :=
  (stackGenerateUser adjust rand image (if st.interpEntry ≠ 0 then UInt64.ofNat interpBase else 0)
    (UInt64.ofNat st.execBase) argv envv (newTask st.machine)).map Prod.snd

def startProgram (m : Machine) : Except Stop Task :=
  (elfExecute open? image m).bind fun st => orFault (finishTask adjust rand image argv envv st)

end

/-- The machines differ in the contents of frames that are still to be handed out, and in nothing else. -/
structure DifferInFree (m₁ m₂ : Machine) : Prop where
  frameOf : m₂.space.frameOf = m₁.space.frameOf
  frames : m₂.frames = m₁.frames
  taken : m₂.taken = m₁.taken
  mapped : m₂.mapped = m₁.mapped
  reads : m₂.reads = m₁.reads
  writes : m₂.writes = m₁.writes
  phys : ∀ a, (∀ j, m₁.taken ≤ j → m₁.frames j ≠ a / 4096) → m₂.space.phys a = m₁.space.phys a

theorem DifferInFree.ready {m₁ m₂ : Machine} (h : DifferInFree m₁ m₂) (hm : Ready m₁) : Ready m₂ where
  toSupplied := hm.toSupplied.of_frameOf_eq h.frameOf h.frames h.taken
  mapped := h.mapped.trans hm.mapped

/-! ## What is seen -/

theorem length_flatMap_wordBytes (words : List Nat) : (words.flatMap wordBytes).length = 8 * words.length := by
  induction words with
  | nil => rfl
  | cons w words ih =>
    rw [List.flatMap_cons, List.length_append, length_wordBytes, ih, List.length_cons]
    omega

section
variable {adjust : Machine → Nat → Nat → Machine} {m₁ m₂ : Machine} {words : List Nat} {bytes : Bytes}
  {heapEnd v : Nat} {t₁ t₂ : Task}

/-- On the stack, and in what was stored on the heap. -/
theorem Laid.read_eq (h₁ : Laid adjust m₁ words bytes heapEnd t₁) (h₂ : Laid adjust m₂ words bytes heapEnd t₂)
    (hv : OnStack v ∨ userHeapStart ≤ v ∧ v < userHeapStart + bytes.length) :
    t₁.machine.space.read 4096 v = t₂.machine.space.read 4096 v := by
  rcases hv with hv | ⟨hLow, hHigh⟩
  · have hRsp : t₂.rsp = t₁.rsp := Nat.add_right_cancel (h₂.rsp.trans h₁.rsp.symm)
    by_cases hBelow : v < t₁.rsp
    · rw [h₁.below v hv hBelow, h₂.below v hv (hRsp ▸ hBelow)]
    · have hWords := h₂.words
      rw [hRsp] at hWords
      apply h₁.words.read_eq hWords (Nat.le_of_not_lt hBelow)
      rw [length_flatMap_wordBytes, h₁.rsp]
      exact hv.2
  · exact h₁.stored.read_eq h₂.stored hLow hHigh

end

section
variable {adjust : Machine → Nat → Nat → Machine} {rand : Nat → UInt32} {open? : Bytes → Option Image}
  {image : Image} {argv envv : List CString}

theorem heapTop_eq (rand : Nat → UInt32) :
    heapTop argv envv = userHeapStart + (heapBytes rand argv envv).length := by
  rw [heapTop, argStart, heapBytes, List.length_append, List.length_append, length_randomBytes, length_flatMap_stored,
    length_flatMap_stored]
  omega

/-- A file that is loaded starts on every machine with the same pages, with the same words on its stack. -/
theorem startProgram_laid (hAdjust : GrowsHeap adjust) (rand : Nat → UInt32)
    (hFits : argv.length + envv.length + 25 ≤ 4096) (hLengths : ∀ s ∈ argv ++ envv, s.bytes.length < 2 ^ 32)
    {m : Machine} (hm : Ready m) {st : ExecState} (hExec : elfExecute open? image m = .ok st) :
    ∃ words, ∀ m₂, Ready m₂ → m₂.space.frameOf = m.space.frameOf →
      ∃ m' t₂, startProgram adjust rand open? image argv envv m₂ = .ok t₂ ∧
        Loaded m₂ m' (fun p => ∃ l ∈ elfLoads open? image, l.Asks p) (elfLoads open? image) ∧
        Laid adjust m' words (heapBytes rand argv envv) (heapTop argv envv) t₂ := by
  refine ⟨stackWords image (if st.interpEntry ≠ 0 then UInt64.ofNat interpBase else 0) (UInt64.ofNat st.execBase)
    argv envv, fun m₂ hm₂ hFrame => ?_⟩
  obtain ⟨m', hRun, hLoaded⟩ := elfExecute_loaded hm hExec hm₂ hFrame
  obtain ⟨⟨⟩, t₂, hFinish, hLaid⟩ := total_stackGenerateUser hAdjust rand image
    (if st.interpEntry ≠ 0 then UInt64.ofNat interpBase else 0) (UInt64.ofNat st.execBase) hFits hLengths
    hLoaded.supplied (newTask m') rfl
  have hTask : finishTask adjust rand image argv envv ⟨m', st.interpEntry, st.execBase⟩ = some t₂ := by
    rw [finishTask, hFinish, map_some]
  refine ⟨m', t₂, ?_, hLoaded, hLaid⟩
  rw [startProgram, hRun, Except.bind, hTask, orFault]

/-- A byte of a page with a part of a segment that nothing was written to is the frame's. -/
theorem Laid.read_old {m m' : Machine} {words : List Nat} {v : Nat} {t : Task} (hClears : ClearsHeap adjust)
    (hPage : m.space.frameOf (v / 4096) = 0)
    (hLaid : Laid adjust m' words (heapBytes rand argv envv) (heapTop argv envv) t)
    (hLoaded : Loaded m m' (fun p => ∃ l ∈ elfLoads open? image, l.Asks p) (elfLoads open? image))
    (hAsks : ∃ l ∈ elfLoads open? image, l.Asks (v / 4096))
    (hNot : ¬ (OnStack v ∨ (userHeapStart ≤ v ∧ v < heapTop argv envv) ∨ ∃ l ∈ elfLoads open? image, l.Covers v)) :
    ∃ j, m.taken ≤ j ∧ t.machine.space.read 4096 v = some (m.space.phys (4096 * m.frames j + v % 4096)) := by
  obtain ⟨hStack, hHeap, hCovers⟩ : ¬ OnStack v ∧ ¬ (userHeapStart ≤ v ∧ v < heapTop argv envv) ∧
      ¬ ∃ l ∈ elfLoads open? image, l.Covers v := by simpa only [not_or] using hNot
  have hMapped := (hLoaded.mem_mapped _).2 ⟨hAsks, hPage⟩
  obtain ⟨j, hj, hFrame⟩ := hLoaded.frame _ hMapped
  refine ⟨j, hj, ?_⟩
  rw [heapTop_eq rand] at hHeap
  rw [hLaid.rest hClears v hStack hHeap, hLoaded.bytes v hMapped, some_or,
    contentAt_eq_none fun l hl hv => hCovers ⟨l, hl, hv⟩, getD_none, place, hFrame]

end

def oldFrames (byte : UInt8) : Machine where
  space := ⟨fun a => if a / 4096 = 0 then 0 else byte, fun _ => 0⟩
  frames := fun j => j + 1
  taken := 0
  mapped := []
  reads := []
  writes := []

theorem oldFrames_ready (byte : UInt8) : Ready (oldFrames byte) :=
  ⟨emptyMachine_ready.toSupplied.of_frameOf_eq rfl rfl rfl, rfl⟩

theorem oldFrames_differ (b₁ b₂ : UInt8) : DifferInFree (oldFrames b₁) (oldFrames b₂) where
  frameOf := rfl
  frames := rfl
  taken := rfl
  mapped := rfl
  reads := rfl
  writes := rfl
  phys a ha := by
    have hFirst : a / 4096 = 0 := by
      by_contra hNe
      apply ha (a / 4096 - 1) (Nat.zero_le _)
      show a / 4096 - 1 + 1 = a / 4096
      omega
    simp only [oldFrames, hFirst, if_true]

def pageImage : Image :=
  imageOf (sampleEhdr 64 1 ++ (leBytes 4 1 ++ leBytes 4 6 ++ leBytes 8 0 ++ leBytes 8 0x400000 ++
    leBytes 8 0 ++ leBytes 8 8 ++ leBytes 8 4096 ++ leBytes 8 4096))

theorem startProgram_shows_old (byte : UInt8) :
    ∃ t, startProgram growHeap (fun _ => 1) (fun _ => none) goodImage [] [] (oldFrames byte) = .ok t ∧
      t.machine.space.read 4096 0x400010 = some byte := by
  have hNum : (readEhdr goodImage).ePhnum = 1 := by decide +kernel
  have hType : (phdrAt goodImage 0).pType = ptLoad := by decide +kernel
  have hLoads := @elfLoads_single goodImage hNum hType fun _ => none
  obtain ⟨st, hExec⟩ := elfExecute_single hNum hType (by decide +kernel)
    ⟨by decide +kernel, by decide +kernel, by decide +kernel, by decide +kernel⟩ (oldFrames_ready byte)
  obtain ⟨words, hStart⟩ := @startProgram_laid growHeap (fun _ => none) _ [] [] growHeap_grows (fun _ => 1) (by decide)
    (by simp) _ (oldFrames_ready byte) _ hExec
  obtain ⟨m', t, hRun, hLoaded, hLaid⟩ := hStart _ (oldFrames_ready byte) rfl
  obtain ⟨j, -, hRead⟩ := hLaid.read_old growHeap_clears (v := 0x400010) rfl hLoaded
    (by
      rw [hLoads]
      refine ⟨_, List.mem_singleton_self _, ?_⟩
      decide +kernel)
    (by
      rw [hLoads]
      simp only [List.mem_singleton, exists_eq_left]
      decide +kernel)
  refine ⟨t, hRun, hRead.trans (congrArg some (if_neg ?_))⟩
  change ¬ (4096 * (j + 1) + 0x400010 % 4096) / 4096 = 0
  omega

end CoreX.Elf

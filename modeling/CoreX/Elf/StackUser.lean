import CoreX.Elf.StackLayout

/-!
# The stack of a new program

The rules for the loops of `stack.rs`, and what `stack_generate_user` leaves in memory. The strings are stored from
the first to the last while their pointers are pushed from the last to the first, so the induction is from the end of
the list.
-/

namespace CoreX.Elf

open CoreX.PageMap CoreX.Memory CoreX.Hoare List Word Nat Option

variable {ss : List CString} {s : CString}

section
variable {adjust : Machine → Nat → Nat → Machine} {m : Machine} {words : List Nat} {bytes : Bytes}
  {heapEnd start : Nat}

theorem strlength_of_lt (hs : s.bytes.length < 2 ^ 32) : strlength s = some s.bytes.length := by
  rw [strlength_eq, if_pos hs]

/-! ## Storing the strings -/

theorem argSpace_eq (ss : List CString) : ∀ {space : Nat}, (∀ s ∈ ss, s.bytes.length < 2 ^ 32) →
    space + storedLength ss < 2 ^ 64 → argSpace ss space = some (space + storedLength ss) := by
  induction ss with
  | nil =>
    intro space _ _
    rfl
  | cons s ss ih =>
    intro space hLengths hBound
    rw [storedLength] at hBound ⊢
    rw [argSpace, strlength_of_lt (hLengths s (by simp)), bind_some, add_eq (by omega),
      ih (fun s' hs' => hLengths s' (by simp [hs'])) (by omega), add_assoc]

theorem argSpace_eq_none (hs : s ∈ ss) (hLength : 2 ^ 32 ≤ s.bytes.length) : ∀ space, argSpace ss space = none := by
  induction ss with
  | nil => simp at hs
  | cons s' ss ih =>
    intro space
    rw [argSpace]
    rcases mem_cons.1 hs with rfl | hs
    · rw [strlength_eq, if_neg (by omega), bind_none]
    · cases strlength s' with
      | none => rfl
      | some len => exact ih hs _

theorem total_copyStrings (ss : List CString) : ∀ (bytes : Bytes) (ellapsed : Nat),
    (∀ s ∈ ss, s.bytes.length < 2 ^ 32) → start + ellapsed = userHeapStart + bytes.length →
      start + ellapsed + storedLength ss ≤ heapEnd → heapEnd ≤ stackPage 0 →
      Total (Laid adjust m words bytes heapEnd) (copyStrings start ss ellapsed)
        fun e t => e = ellapsed + storedLength ss ∧
          Laid adjust m words (bytes ++ ss.flatMap CString.stored) heapEnd t := by
  induction ss with
  | nil =>
    intro bytes ellapsed _ _ _ _
    refine total_pure fun t h => ⟨rfl, ?_⟩
    rw [flatMap_nil, append_nil]
    exact h
  | cons s ss ih =>
    intro bytes ellapsed hLengths hStart hBound hEnd
    have hLength := hLengths s (by simp)
    rw [storedLength] at hBound
    rw [stackPage_eq] at hEnd
    have hPlace : add start ellapsed = start + ellapsed := add_eq (by omega)
    have hNext : add ellapsed (s.bytes.length + 1) = ellapsed + (s.bytes.length + 1) := add_eq (by omega)
    refine (total_lift (strlength_of_lt hLength)).bind fun len => total_of_and ?_
    rintro rfl
    rw [hPlace, hNext]
    refine (total_poke hStart s.length_stored (fun i hi => ?_) (by omega)).bind fun _ => ?_
    · rw [CString.get, getD_eq_getElem?_getD, getElem?_eq_getElem hi, getD_some]
    refine (ih (bytes ++ s.stored) (ellapsed + (s.bytes.length + 1)) (fun s' hs' => hLengths s' (by simp [hs']))
      (by rw [length_append, CString.length_stored]; omega) (by omega) (by rw [stackPage_eq]; omega)).weaken
      fun e t h => ?_
    rw [flatMap_cons, ← append_assoc, storedLength, ← add_assoc]
    exact h

theorem total_stackStorePtrStyle (hAdjust : GrowsHeap adjust) (hLengths : ∀ s ∈ ss, s.bytes.length < 2 ^ 32)
    (hEnd : heapEnd = userHeapStart + bytes.length) (hBound : heapEnd + storedLength ss ≤ stackPage 0) :
    Total (Laid adjust m words bytes heapEnd) (stackStorePtrStyle adjust ss)
      fun r t => r = ⟨heapEnd, storedLength ss⟩ ∧
        Laid adjust m words (bytes ++ ss.flatMap CString.stored) (heapEnd + storedLength ss) t := by
  have hSmall := hBound
  rw [stackPage_eq] at hSmall
  have hSpace : argSpace ss 0 = some (storedLength ss) := by
    rw [argSpace_eq ss hLengths (by omega), zero_add]
  refine (total_lift hSpace).bind fun space => total_of_and ?_
  rintro rfl
  refine total_heapEnd.bind fun start => total_of_and ?_
  rintro rfl
  rw [add_eq (by omega)]
  refine (total_taskAdjustHeap hAdjust (le_add_right _ _) hBound).bind fun _ => ?_
  refine (total_copyStrings ss bytes 0 hLengths hEnd (le_refl _) hBound).bind fun e => total_of_and ?_
  rintro rfl
  refine total_pure fun t h => ⟨?_, h⟩
  rw [zero_add]

def randomBytes (rand : Nat → UInt32) : Nat → Nat → Bytes
  | 0, _ => []
  | n + 1, i => (range 4).map (digit (rand i).toNat) ++ randomBytes rand n (i + 1)

@[simp] theorem length_randomBytes (rand : Nat → UInt32) (n i : Nat) : (randomBytes rand n i).length = 4 * n := by
  induction n generalizing i with
  | zero => rfl
  | succ n ih =>
    rw [randomBytes, length_append, length_map, length_range, ih]
    omega

theorem total_storeRandom {rand : Nat → UInt32} (n : Nat) : ∀ (bytes : Bytes) (i : Nat),
    start + 4 * i = userHeapStart + bytes.length → start + 4 * (i + n) ≤ heapEnd → heapEnd ≤ stackPage 0 →
      Total (Laid adjust m words bytes heapEnd) (storeRandom rand start n i)
        fun _ => Laid adjust m words (bytes ++ randomBytes rand n i) heapEnd := by
  induction n with
  | zero =>
    intro bytes i _ _ _
    refine total_pure fun t h => ?_
    rw [randomBytes, append_nil]
    exact h
  | succ n ih =>
    intro bytes i hStart hBound hEnd
    rw [stackPage_eq] at hEnd
    have hPlace : add start (4 * i) = start + 4 * i := add_eq (by omega)
    rw [storeRandom, hPlace, randomBytes, ← append_assoc]
    have hStored : ∀ k (hk : k < ((range 4).map (digit (rand i).toNat)).length),
        digit (rand i).toNat k = ((range 4).map (digit (rand i).toNat))[k] := by
      intro k hk
      rw [getElem_map, getElem_range]
    refine (total_poke hStart (by simp) hStored (by omega)).bind fun _ => ?_
    refine ih _ (i + 1) ?_ (by omega) (by rw [stackPage_eq]; omega)
    rw [length_append, length_map, length_range]
    omega

/-! ## Pushing the pointers -/

/-- The pointers are pushed from the last to the first. With `used` bytes behind the strings that are
left, the sums of the loop give the addresses at which the strings were stored. -/
theorem total_pushPointers {ellapsed : Nat} (hBound : start + ellapsed < 2 ^ 64) (ss : List CString) :
    ∀ {words : List Nat} {used : Nat}, (∀ s ∈ ss, s.bytes.length < 2 ^ 32) →
      ellapsed = storedLength ss + used → words.length + ss.length ≤ 4096 →
      Total (Laid adjust m words bytes heapEnd) (pushPointers ⟨start, ellapsed⟩ ss.reverse used)
        fun _ => Laid adjust m (pointers start ss ++ words) bytes heapEnd := by
  induction ss using reverseRecOn with
  | nil =>
    intro words used _ _ _
    exact total_pure fun t h => h
  | append_singleton ss s ih =>
    intro words used hLengths hUsed hRoom
    rw [storedLength_append, storedLength, storedLength] at hUsed
    rw [length_append, length_singleton] at hRoom
    have hAdd : add start ellapsed = start + ellapsed := add_eq hBound
    have hNext : add used (s.bytes.length + 1) = used + (s.bytes.length + 1) := add_eq (by omega)
    have hPointer : sub (start + ellapsed) (used + (s.bytes.length + 1)) =
        start + storedLength ss := by
      rw [sub_eq (by omega) hBound]
      omega
    have hSingle : pointers (start + storedLength ss) [s] = [start + storedLength ss] := rfl
    rw [reverse_append, reverse_singleton, singleton_append, pointers_append, hSingle, append_assoc, singleton_append]
    refine (total_lift (strlength_of_lt (hLengths s (by simp)))).bind fun len => total_of_and ?_
    rintro rfl
    rw [hAdd, hNext, hPointer]
    refine (total_pushToStack _ (by omega)).bind fun _ => ?_
    exact ih (fun s' hs' => hLengths s' (by simp [hs'])) (by omega) (by rw [length_cons]; omega)

/-! ## The whole function -/

variable (adjust) in
theorem total_stackGenerateMutual (hm : Supplied m) : Total (· = newTask m) (onMachine stackGenerateMutual)
    fun _ => Laid adjust m [] [] userHeapStart := by
  rintro _ rfl
  obtain ⟨m', hRun, hm', hRead⟩ := stackGenerateMutual_spec hm
  refine ⟨(), { newTask m with machine := m' }, ?_, ?_⟩
  · rw [onMachine]
    change (stackGenerateMutual m).map _ = _
    rw [hRun, map_some]
  refine ⟨hm', rfl, zero_le _, trivial, fun v hv _ => ?_, trivial, fun v hv hv' => absurd hv' (not_lt.2 hv), rfl,
    le_refl _, by decide, fun _ v hv _ => ?_⟩
  · rw [hRead v, if_pos hv]
  · rw [hRead v, if_neg hv, heapZero, if_neg (by rw [userHeapStart]; omega), or_none]

section
variable (image : Image) (atBase executableBase : UInt64) (randomStart : Nat)

def auxv : List (Nat × Nat) :=
  let elf := readEhdr image
  let phdrBase := if elf.eType = 3 then 0 else lowestVaddr image
  [(3, Word.add (Word.add executableBase.toNat phdrBase) elf.ePhoff), (16, 0), (8, 0),
    (7, atBase.toNat), (9, Word.add executableBase.toNat elf.eEntry), (4, elf.ePhentsize),
    (5, elf.ePhnum), (23, 0), (6, 4096), (25, randomStart), (0, 0)]

def auxWords : List Nat :=
  (auxv image atBase executableBase randomStart).flatMap fun a => [a.1, a.2]

theorem auxPushes_reverse :
    (auxPushes image atBase executableBase randomStart).reverse = auxWords image atBase executableBase randomStart :=
  rfl

def argStart : Nat := userHeapStart + 16

def stackWords (argv envv : List CString) : List Nat :=
  argv.length :: (pointers argStart argv ++ 0 :: (pointers (argStart + storedLength argv) envv ++
    0 :: auxWords image atBase executableBase userHeapStart))

end

/-- On the heap: the random bytes, and the strings. -/
def heapBytes (rand : Nat → UInt32) (argv envv : List CString) : Bytes :=
  randomBytes rand 4 0 ++ argv.flatMap CString.stored ++ envv.flatMap CString.stored

def heapTop (argv envv : List CString) : Nat := argStart + storedLength argv + storedLength envv

variable (hAdjust : GrowsHeap adjust) (rand : Nat → UInt32)
  (image : Image) (atBase executableBase : UInt64) {argv envv : List CString}
  (hFits : argv.length + envv.length + 25 ≤ 4096)
  (hLengths : ∀ s ∈ argv ++ envv, s.bytes.length < 2 ^ 32)
include hFits hLengths in
theorem heapTop_le : heapTop argv envv ≤ stackPage 0 := by
  have hStrings := storedLength_le hLengths
  rw [storedLength_append, length_append] at hStrings
  rw [stackPage_eq, heapTop, argStart, userHeapStart]
  omega

include hAdjust hLengths in
theorem total_storeEnv (hEnd : heapEnd = userHeapStart + bytes.length)
    (hBound : heapEnd + storedLength envv ≤ stackPage 0) : Total (Laid adjust m words bytes heapEnd)
      (if 0 < envv.length then stackStorePtrStyle adjust envv else pure ⟨0, 0⟩)
      fun r t => (r.ellapsed = storedLength envv ∧ (0 < r.ellapsed → r.start = heapEnd)) ∧
        Laid adjust m words (bytes ++ envv.flatMap CString.stored) (heapEnd + storedLength envv) t := by
  by_cases hEnv : 0 < envv.length
  · rw [if_pos hEnv]
    refine (total_stackStorePtrStyle hAdjust (fun s hs => hLengths s (by simp [hs])) hEnd hBound).weaken
      fun r t h => ?_
    rw [h.1]
    exact ⟨⟨rfl, fun _ => rfl⟩, h.2⟩
  · have hNil : envv = [] := eq_nil_of_length_eq_zero (by omega)
    rw [if_neg hEnv, hNil]
    refine total_pure fun t h => ⟨⟨rfl, fun hPos => absurd hPos (by simp)⟩, ?_⟩
    rw [flatMap_nil, append_nil]
    exact h

include hLengths in
theorem total_pushEnv {envs : StackStorePtrStyle} (hEllapsed : envs.ellapsed = storedLength envv)
    (hStart : 0 < envs.ellapsed → envs.start = start) (hBound : start + storedLength envv < 2 ^ 64)
    (hRoom : words.length + envv.length ≤ 4096) : Total (Laid adjust m words bytes heapEnd)
      (if 0 < envs.ellapsed then pushPointers envs envv.reverse 0 else pure ())
      fun _ => Laid adjust m (pointers start envv ++ words) bytes heapEnd := by
  by_cases hEnv : 0 < envs.ellapsed
  · have hEnvs : envs = ⟨start, storedLength envv⟩ := by
      rw [← hStart hEnv, ← hEllapsed]
    rw [if_pos hEnv, hEnvs]
    exact total_pushPointers hBound envv (fun s hs => hLengths s (by simp [hs])) rfl hRoom
  · have hNil : envv = [] := by
      cases envv with
      | nil => rfl
      | cons s ss =>
        rw [storedLength] at hEllapsed
        omega
    rw [if_neg hEnv, hNil]
    exact total_pure fun t h => h

include hAdjust hFits hLengths in
theorem total_stackGenerateUser (hm : Supplied m) : Total (· = newTask m)
    (stackGenerateUser adjust rand image atBase executableBase argv envv)
    fun _ => Laid adjust m (stackWords image atBase executableBase argv envv) (heapBytes rand argv envv)
      (heapTop argv envv) := by
  have hBelow := heapTop_le hFits hLengths
  have hSmall := hBelow
  rw [heapTop, stackPage_eq] at hSmall
  have hAux : (auxWords image atBase executableBase userHeapStart).length = 22 := rfl
  have hArgs : argStart + storedLength argv < 2 ^ 64 := by omega
  have hRandom : argStart = userHeapStart + (randomBytes rand 4 0).length := by rw [length_randomBytes, argStart]
  have hStored : argStart + storedLength argv =
      userHeapStart + (randomBytes rand 4 0 ++ argv.flatMap CString.stored).length := by
    rw [length_append, length_flatMap_stored, ← add_assoc, ← hRandom]
  have hFree : argStart + storedLength argv ≤ stackPage 0 := le_trans (le_add_right _ _) hBelow
  refine (total_stackGenerateMutual adjust hm).bind fun _ => ?_
  refine total_heapEnd.bind fun randomStart => total_of_and ?_
  rintro rfl
  rw [show add userHeapStart 16 = argStart from rfl]
  refine (total_taskAdjustHeap hAdjust (by decide) (by decide)).bind fun _ => ?_
  refine (total_storeRandom 4 [] 0 rfl (show userHeapStart + 4 * (0 + 4) ≤ argStart from le_refl _)
    (by decide)).bind fun _ => ?_
  have hAuxRoom : ([] : List Nat).length +
      (auxPushes image atBase executableBase userHeapStart).length ≤ 4096 := by
    show 0 + 22 ≤ 4096
    decide
  refine (total_pushAll _ hAuxRoom).bind fun _ => ?_
  rw [auxPushes_reverse, append_nil, nil_append]
  refine (total_stackStorePtrStyle hAdjust (fun s hs => hLengths s (by simp [hs])) hRandom hFree).bind
    fun args => total_of_and ?_
  rintro rfl
  refine (total_storeEnv hAdjust hLengths hStored hBelow).bind fun envs => total_of_and ?_
  rintro ⟨hEllapsed, hStart⟩
  refine (total_pushToStack 0 (by omega)).bind fun _ => ?_
  refine (total_pushEnv hLengths hEllapsed hStart (by omega) (by rw [length_cons]; omega)).bind
    fun _ => ?_
  refine (total_pushToStack 0 (by simp; omega)).bind fun _ => ?_
  refine (total_pushPointers hArgs argv (fun s hs => hLengths s (by simp [hs])) rfl
    (by simp; omega)).bind fun _ => ?_
  exact total_pushToStack _ (by simp; omega)

end

section
variable (image : Image) (atBase executableBase : UInt64)

theorem auxWords_lt : ∀ w ∈ auxWords image atBase executableBase userHeapStart, w < 2 ^ 64 := by
  have hEntsize : (readEhdr image).ePhentsize < 2 ^ 64 := lt_trans (load_lt image.bytes 54 2) (by decide)
  have hNum : (readEhdr image).ePhnum < 2 ^ 64 := lt_trans (load_lt image.bytes 56 2) (by decide)
  have hAdd : ∀ a b, add a b < 2 ^ 64 := add_lt
  have hBase : atBase.toNat < 2 ^ 64 := atBase.toNat_lt
  simp only [auxWords, auxv, flatMap_cons, flatMap_nil, cons_append, nil_append,
    forall_mem_cons, hEntsize, hNum, hAdd, hBase, userHeapStart, not_mem_nil]
  simp

theorem pointers_lt {a : Nat} (hBound : a + storedLength ss < 2 ^ 64) : ∀ w ∈ pointers a ss, w < 2 ^ 64 := by
  intro w hw
  obtain ⟨x, hx, rfl⟩ := mem_map.1 hw
  have := (storedAt_bounds hx).2
  omega

theorem length_stackWords (argv envv : List CString) :
    (stackWords image atBase executableBase argv envv).length = argv.length + envv.length + 25 := by
  have hAux : (auxWords image atBase executableBase userHeapStart).length = 22 := rfl
  simp only [stackWords, length_cons, length_append, length_pointers, hAux]
  omega

theorem stackWords_lt {argv envv : List CString} (hFits : argv.length + envv.length + 25 ≤ 4096)
    (hLengths : ∀ s ∈ argv ++ envv, s.bytes.length < 2 ^ 32) :
    ∀ w ∈ stackWords image atBase executableBase argv envv, w < 2 ^ 64 := by
  have hEnd := heapTop_le hFits hLengths
  rw [heapTop, stackPage_eq] at hEnd
  intro w hw
  simp only [stackWords, mem_cons, mem_append] at hw
  rcases hw with rfl | hw | rfl | hw | rfl | hw
  · omega
  · exact pointers_lt (by omega) w hw
  · decide
  · exact pointers_lt (by omega) w hw
  · decide
  · exact auxWords_lt image atBase executableBase w hw

end

/-- A string that is too long for `strlength`, among the arguments or in the environment. -/
theorem stackGenerateUser_eq_none (adjust : Machine → Nat → Nat → Machine) (rand : Nat → UInt32) (image : Image)
    (atBase executableBase : UInt64) {argv envv : List CString} (hs : s ∈ argv ++ envv)
    (hLength : 2 ^ 32 ≤ s.bytes.length) (t : Task) :
    stackGenerateUser adjust rand image atBase executableBase argv envv t = none := by
  have hStore {ss : List CString} (hs : s ∈ ss) (t : Task) : stackStorePtrStyle adjust ss t = none := by
    rw [stackStorePtrStyle, bind_eq, argSpace_eq_none hs hLength, lift_eq]
    rfl
  refine bind_eq_none (fun _ => bind_eq_none fun _ => bind_eq_none fun _ => bind_eq_none fun _ =>
    bind_eq_none fun _ t => ?_) t
  rcases mem_append.1 hs with hs | hs
  · rw [bind_eq, hStore hs, bind_none]
  · refine bind_eq_none (fun _ t => ?_) t
    rw [bind_eq, if_pos (length_pos_of_mem hs), hStore hs, bind_none]

/-- **The stack of a new program.** For arguments and environments that fit, `stack_generate_user` returns and leaves
the stack as it should be exactly if `strlength` comes to the end of each string. The words upward from the stack
pointer are the number of the arguments, their pointers, a zero, the pointers of the environment, a zero and the
auxiliary vector. Every pointer leads to its string, and no string overlaps another. -/
theorem stackGenerateUser_layout_iff (adjust : Machine → Nat → Nat → Machine) (hAdjust : GrowsHeap adjust)
    (rand : Nat → UInt32) (image : Image) (atBase executableBase : UInt64) (m : Machine)
    (hm : Supplied m) (argv envv : List CString)
    (hFits : 8 * (argv.length + envv.length + 25) ≤ userStackPages * 4096) : (∃ t args envs,
      stackGenerateUser adjust rand image atBase executableBase argv envv (newTask m) = some ((), t) ∧
      args.length = argv.length ∧ envs.length = envv.length ∧
      readWords t.machine t.rsp (argv.length + envv.length + 25) = some (argv.length :: (args ++ 0 :: (envs ++
          0 :: (auxv image atBase executableBase userHeapStart).flatMap fun a => [a.1, a.2]))) ∧
      (auxv image atBase executableBase userHeapStart).getLast? = some (0, 0) ∧
      (∀ x ∈ (args ++ envs).zip (argv ++ envv),
        t.machine.space.readList 4096 x.1 (x.2.bytes.length + 1) = some (x.2.bytes ++ [0])) ∧
      ((args ++ envs).zip (argv ++ envv)).Pairwise fun x y => x.1 + (x.2.bytes.length + 1) ≤ y.1) ↔
      ∀ s ∈ argv ++ envv, s.bytes.length < 2 ^ 32 := by
  constructor
  · rintro ⟨t, args, envs, hRun, -⟩ s hs
    by_contra hLength
    rw [stackGenerateUser_eq_none _ _ _ _ _ hs (by omega)] at hRun
    cases hRun
  intro hLengths
  have hRoom : argv.length + envv.length + 25 ≤ 4096 := by
    rw [userStackPages] at hFits
    omega
  obtain ⟨⟨⟩, t, hRun, hLaid⟩ := total_stackGenerateUser hAdjust rand image atBase executableBase hRoom hLengths hm
    (newTask m) rfl
  have hWords := readWords_of_holds (stackWords_lt image atBase executableBase hRoom hLengths) hLaid.words
  rw [length_stackWords] at hWords
  have hZip : (pointers argStart argv ++ pointers (argStart + storedLength argv) envv).zip
      (argv ++ envv) = storedAt argStart (argv ++ envv) := by
    rw [← pointers_append, zip_pointers]
  refine ⟨t, pointers argStart argv, pointers (argStart + storedLength argv) envv, hRun,
    length_pointers _ _, length_pointers _ _, hWords, rfl, ?_, ?_⟩
  · intro x hx
    rw [hZip] at hx
    have hBytes := hLaid.stored
    rw [heapBytes, append_assoc, ← flatMap_append, Space.holds_append, length_randomBytes] at hBytes
    have hString := (holds_stored hBytes.2 hx).readList
    rw [CString.length_stored] at hString
    exact hString
  · rw [hZip]
    exact storedAt_pairwise _ _

def sampleArg : CString := ⟨[0x61, 0x62], by decide⟩

def sampleEnv : CString := ⟨[0x63], by decide⟩

theorem stackGenerateUser_layout_iff_sample :
    ∃ t args envs, stackGenerateUser growHeap (fun _ => 1) goodImage 0 0 [sampleArg] [sampleEnv]
        (newTask kernelMachine) = some ((), t) ∧ args.length = 1 ∧ envs.length = 1 ∧
      readWords t.machine t.rsp 27 = some (1 :: (args ++ 0 :: (envs ++
        0 :: (auxv goodImage 0 0 userHeapStart).flatMap fun a => [a.1, a.2]))) := by
  obtain ⟨t, args, envs, hRun, hArgs, hEnvs, hWords, -⟩ := (stackGenerateUser_layout_iff growHeap growHeap_grows
    (fun _ => 1) goodImage 0 0 kernelMachine kernelMachine_ready.toSupplied [sampleArg] [sampleEnv]
    (by decide)).2 (by decide)
  exact ⟨t, args, envs, hRun, hArgs, hEnvs, hWords⟩

def hugeArg : CString := ⟨List.replicate (2 ^ 32) 1, fun h => absurd (List.eq_of_mem_replicate h) (by decide)⟩

theorem stackGenerateUser_hugeArg :
    stackGenerateUser growHeap (fun _ => 1) goodImage 0 0 [hugeArg] [] (newTask kernelMachine) = none :=
  stackGenerateUser_eq_none _ _ _ _ _ (mem_singleton_self _) (by rw [hugeArg, length_replicate]) _

end CoreX.Elf

import CoreX.Elf.Execute
import CoreX.Base.Hoare

/-!
# The first stack of a program (`stack.rs`)

`stack_generate_user` maps and clears the pages of the stack, puts sixteen random bytes, the arguments and the
environment behind the heap, and pushes the auxiliary vector and the pointers to the strings, from the last to the
first.

`taskAdjustHeap` is not part of the repository: it is a parameter, and `GrowsHeap` is what is asked of it. So are the
results of `rand` other than zero. `none` is a page fault, or a string so long that `strlength` does not come to its
end.
-/

namespace CoreX.Elf

open CoreX.PageMap CoreX.Memory Nat Space Option

def userStackPages : Nat := 8

def userStackBottom : Nat := 0x7ffffffff000

def userHeapStart : Nat := 0x40000000

structure CString where
  bytes : Bytes
  zero_notMem : 0 ∉ bytes

namespace CString

def stored (s : CString) : Bytes := s.bytes ++ [0]

def get (s : CString) (i : Nat) : UInt8 := s.stored.getD i 0

end CString

def strlengthFrom (s : Buf) (len : Nat) : Nat → Option Nat
  | 0 => none
  | n + 1 => if s len = 0 then some len else strlengthFrom s (len + 1) n

def strlength (s : CString) : Option Nat := strlengthFrom s.get 0 (2 ^ 32)

structure Task where
  machine : Machine
  rsp : Nat
  heapEnd : Nat

def newTask (m : Machine) : Task := ⟨m, userStackBottom, userHeapStart⟩

def stackPage (i : Nat) : Nat := userStackBottom - userStackPages * 4096 + i * 4096

def stackPagesFrom : Nat → Nat → Machine → Option Machine
  | 0, _, m => some m
  | n + 1, i, m =>
    (mapFresh m (stackPage i)).bind fun m =>
    (writeBytes m (stackPage i) (fun _ => 0) 4096).bind (stackPagesFrom n (i + 1))

def stackGenerateMutual (m : Machine) : Option Machine := stackPagesFrom userStackPages 0 m

def onMachine (f : Machine → Option Machine) : StateT Task Option Unit := fun t =>
  (f t.machine).map fun m => ((), { t with machine := m })

def poke (v : Nat) (src : Buf) (n : Nat) : StateT Task Option Unit := onMachine fun m => writeBytes m v src n

def digit (w i : Nat) : UInt8 := UInt8.ofNat (w / 256 ^ i)

def pushToStack (w : Nat) : StateT Task Option Unit := fun t =>
  (writeBytes t.machine (Word.sub t.rsp 8) (digit w) 8).map fun m =>
    ((), { t with machine := m, rsp := Word.sub t.rsp 8 })

def heapEnd : StateT Task Option Nat := fun t =>
  some (t.heapEnd, t)

section
variable (adjust : Machine → Nat → Nat → Machine)

def taskAdjustHeap (newEnd : Nat) : StateT Task Option Unit := fun t =>
  some ((), { t with machine := adjust t.machine t.heapEnd newEnd, heapEnd := newEnd })

structure StackStorePtrStyle where
  start : Nat
  ellapsed : Nat
  deriving DecidableEq

def argSpace : List CString → Nat → Option Nat
  | [], space => some space
  | s :: ss, space => (strlength s).bind fun len => argSpace ss (Word.add space (len + 1))

def copyStrings (start : Nat) : List CString → Nat → StateT Task Option Nat
  | [], ellapsed => pure ellapsed
  | s :: ss, ellapsed => do
    let len ← strlength s
    poke (Word.add start ellapsed) s.get (len + 1)
    copyStrings start ss (Word.add ellapsed (len + 1))

def stackStorePtrStyle (ptrv : List CString) : StateT Task Option StackStorePtrStyle := do
  let space ← argSpace ptrv 0
  let start ← heapEnd
  taskAdjustHeap adjust (Word.add start space)
  let ellapsed ← copyStrings start ptrv 0
  pure ⟨start, ellapsed⟩

def storeRandom (rand : Nat → UInt32) (start : Nat) : Nat → Nat → StateT Task Option Unit
  | 0, _ => pure ()
  | n + 1, i => do
    poke (Word.add start (4 * i)) (digit (rand i).toNat) 4
    storeRandom rand start n (i + 1)

def lowestVaddr (image : Image) : Nat :=
  (List.range (readEhdr image).ePhnum).foldl (fun lowest i =>
    let phdr := phdrAt image i
    if phdr.pType ≠ ptLoad then lowest
    else if lowest = 0 ∨ phdr.pVaddr < lowest then phdr.pVaddr
    else lowest) 0

def auxPushes (image : Image) (atBase executableBase : UInt64) (randomStart : Nat) : List Nat :=
  let elf := readEhdr image
  let phdrBase := if elf.eType = 3 then 0 else lowestVaddr image
  [0, 0, randomStart, 25, 4096, 6, 0, 23, elf.ePhnum, 5, elf.ePhentsize, 4,
    Word.add executableBase.toNat elf.eEntry, 9, atBase.toNat, 7, 0, 8, 0, 16,
    Word.add (Word.add executableBase.toNat phdrBase) elf.ePhoff, 3]

def pushPointers (strings : StackStorePtrStyle) : List CString → Nat → StateT Task Option Unit
  | [], _ => pure ()
  | s :: ss, used => do
    let len ← strlength s
    pushToStack (Word.sub (Word.add strings.start strings.ellapsed) (Word.add used (len + 1)))
    pushPointers strings ss (Word.add used (len + 1))

def stackGenerateUser (rand : Nat → UInt32) (image : Image) (atBase executableBase : UInt64)
    (argv envv : List CString) : StateT Task Option Unit := do
  onMachine stackGenerateMutual
  let randomStart ← heapEnd
  taskAdjustHeap adjust (Word.add randomStart 16)
  storeRandom rand randomStart 4 0
  (auxPushes image atBase executableBase randomStart).forM pushToStack
  let args ← stackStorePtrStyle adjust argv
  let envs ← (if 0 < envv.length then stackStorePtrStyle adjust envv else pure ⟨0, 0⟩)
  pushToStack 0
  (if 0 < envs.ellapsed then pushPointers envs envv.reverse 0 else pure ())
  pushToStack 0
  pushPointers args argv.reverse 0
  pushToStack argv.length

end

namespace CString

theorem get_of_lt {s : CString} {i : Nat} (hi : i < s.bytes.length) : s.get i ≠ 0 := by
  have hMem : s.get i ∈ s.bytes := by
    rw [get, stored, List.getD_eq_getElem?_getD, List.getElem?_append_left hi,
      List.getElem?_eq_getElem hi, getD_some]
    exact List.getElem_mem hi
  intro hZero
  exact s.zero_notMem (hZero ▸ hMem)

@[simp] theorem length_stored (s : CString) : s.stored.length = s.bytes.length + 1 := by
  simp [stored]

end CString

theorem strlengthFrom_eq {s : Buf} (n : Nat) : ∀ (len k : Nat), (∀ i, i < k → s (len + i) ≠ 0) →
    s (len + k) = 0 → strlengthFrom s len n = if k < n then some (len + k) else none := by
  induction n with
  | zero =>
    intro len k _ _
    rw [strlengthFrom, if_neg (by omega)]
  | succ n ih =>
    intro len k hNonzero hZero
    cases k with
    | zero =>
      have hFirst : s len = 0 := hZero
      rw [strlengthFrom, if_pos hFirst, if_pos (by omega), add_zero]
    | succ k =>
      have hFirst : s len ≠ 0 := hNonzero 0 (by omega)
      have hRest := ih (len + 1) k
        (fun i hi => by
          have hByte := hNonzero (i + 1) (by omega)
          rwa [add_assoc, add_comm 1 i])
        (by rwa [add_assoc, add_comm 1 k])
      rw [strlengthFrom, if_neg hFirst, hRest, add_assoc, add_comm 1 k]
      simp only [add_lt_add_iff_right]

theorem strlength_eq (s : CString) : strlength s = if s.bytes.length < 2 ^ 32 then some s.bytes.length else none := by
  have hLoop := strlengthFrom_eq (s := s.get) (2 ^ 32) 0 s.bytes.length
    (fun i hi => by
      rw [zero_add]
      exact CString.get_of_lt hi)
    (by
      rw [zero_add]
      simp [CString.get, CString.stored])
  rw [zero_add] at hLoop
  exact hLoop

/-! ## The pages of the stack -/

/-- An address in the pages of the stack. -/
def OnStack (v : Nat) : Prop := stackPage 0 ≤ v ∧ v < userStackBottom

instance (v : Nat) : Decidable (OnStack v) :=
  inferInstanceAs (Decidable (_ ∧ _))

theorem stackPage_eq (i : Nat) : stackPage i = 4096 * (0x7fffffff7 + i) := by
  simp only [stackPage, userStackBottom, userStackPages]
  omega

variable {m : Machine}

theorem Supplied.wrote (h : Supplied m) {space : Space UInt8} {r : Range} (hFrame : space.frameOf = m.space.frameOf) :
    Supplied (wrote m r space) :=
  h.of_frameOf_eq hFrame rfl rfl

/-- A page is mapped anew and cleared. -/
theorem clearPage_spec (hm : Supplied m) (p : Nat) : ∃ m',
    writeBytes (grant m p) (4096 * p) (fun _ => 0) 4096 = some m' ∧ Supplied m' ∧
      ∀ v, m'.space.read 4096 v = if v / 4096 = p then some 0 else m.space.read 4096 v := by
  have hm₁ := hm.grant p
  obtain ⟨space, hWrite, hFrame, hRead⟩ := writeBytes_spec hm₁.separate (4096 * p) (fun _ => 0) 4096
    (by
      rintro x ⟨hLow, hHigh⟩
      simp only at hLow hHigh
      have hPage : x / 4096 = p := by omega
      rw [hPage, grant, mapPage_frameOf_self]
      exact hm.frame_ne_zero _ (le_refl _))
  refine ⟨_, hWrite, hm₁.wrote hFrame, fun v => ?_⟩
  rw [wrote, hRead v]
  by_cases hv : v / 4096 = p
  · rw [if_pos hv, if_pos (by omega)]
  · rw [if_neg hv, if_neg (by omega), grant, read_mapPage_of_ne hv]

theorem stackPagesFrom_spec (n : Nat) : ∀ (i : Nat) (m : Machine), Supplied m →
    ∃ m', stackPagesFrom n i m = some m' ∧ Supplied m' ∧ ∀ v, m'.space.read 4096 v =
      if stackPage i ≤ v ∧ v < stackPage (i + n) then some 0 else m.space.read 4096 v := by
  induction n with
  | zero =>
    intro i m hm
    refine ⟨m, rfl, hm, fun v => ?_⟩
    rw [if_neg (by rw [add_zero]; omega)]
  | succ n ih =>
    intro i m hm
    have hMap : mapFresh m (stackPage i) = some (grant m (0x7fffffff7 + i)) := by
      rw [mapFresh, stackPage_eq, if_neg (by omega), mul_div_cancel_left₀ _ (by decide)]
    obtain ⟨m₁, hClear, hm₁, hRead⟩ := clearPage_spec hm (0x7fffffff7 + i)
    obtain ⟨m', hRest, hm', hRead'⟩ := ih (i + 1) m₁ hm₁
    refine ⟨m', ?_, hm', fun v => ?_⟩
    · rw [stackPagesFrom, hMap, bind_some, stackPage_eq, hClear, bind_some, hRest]
    rw [hRead' v, hRead v]
    simp only [stackPage_eq]
    by_cases hFirst : v / 4096 = 0x7fffffff7 + i
    · rw [if_neg (by omega), if_pos hFirst, if_pos (by omega)]
    · rw [if_neg hFirst]
      by_cases hLater : 4096 * (0x7fffffff7 + (i + 1)) ≤ v ∧ v < 4096 * (0x7fffffff7 + (i + 1 + n))
      · rw [if_pos hLater, if_pos (by omega)]
      · rw [if_neg hLater, if_neg (by omega)]

theorem stackGenerateMutual_spec (hm : Supplied m) : ∃ m', stackGenerateMutual m = some m' ∧ Supplied m' ∧
      ∀ v, m'.space.read 4096 v = if OnStack v then some 0 else m.space.read 4096 v :=
  stackPagesFrom_spec userStackPages 0 m hm

/-! ## The heap -/

/-- What is asked of `taskAdjustHeap`: it maps what the heap gains, and leaves what is mapped alone. -/
structure GrowsHeap (adjust : Machine → Nat → Nat → Machine) : Prop where
  supplied : ∀ {m} (old new : Nat), Supplied m → Supplied (adjust m old new)
  read : ∀ {m} (old new : Nat) {v : Nat}, Supplied m → m.space.frameOf (v / 4096) ≠ 0 →
    (adjust m old new).space.read 4096 v = m.space.read 4096 v
  mapped : ∀ {m} (old new : Nat) {v : Nat}, Supplied m → old ≤ v → v < new →
    (adjust m old new).space.frameOf (v / 4096) ≠ 0

def heapZero (old new v : Nat) : Option UInt8 :=
  if old / 4096 ≤ v / 4096 ∧ 4096 * (v / 4096) < new then some 0 else none

/-- The heap shows nothing of old frames: of the pages up to the new end the missing ones are mapped, and cleared. -/
def ClearsHeap (adjust : Machine → Nat → Nat → Machine) : Prop :=
  ∀ {m} (old new v : Nat), Supplied m →
    (adjust m old new).space.read 4096 v = (m.space.read 4096 v).or (heapZero old new v)

def growPage (m : Machine) (p : Nat) : Machine :=
  if m.space.frameOf p = 0 then (writeBytes (grant m p) (4096 * p) (fun _ => 0) 4096).getD m else m

def growPages : Nat → Nat → Machine → Machine
  | 0, _, m => m
  | n + 1, p, m => growPages n (p + 1) (growPage m p)

def growHeap (m : Machine) (old new : Nat) : Machine := growPages ((new + 4095) / 4096 - old / 4096) (old / 4096) m

theorem growPage_spec (hm : Supplied m) (p : Nat) : Supplied (growPage m p) ∧
    ∀ v, (growPage m p).space.read 4096 v = (m.space.read 4096 v).or (if v / 4096 = p then some 0 else none) := by
  rw [growPage]
  by_cases hp : m.space.frameOf p = 0
  · obtain ⟨m', hClear, hm', hRead⟩ := clearPage_spec hm p
    rw [if_pos hp, hClear, getD_some]
    refine ⟨hm', fun v => ?_⟩
    rw [hRead]
    by_cases hv : v / 4096 = p
    · rw [if_pos hv, Space.read, if_pos (hv ▸ hp), if_pos hv, none_or]
    · rw [if_neg hv, if_neg hv, or_none]
  · rw [if_neg hp]
    refine ⟨hm, fun v => ?_⟩
    by_cases hv : v / 4096 = p
    · rw [read_of_mapped (hv ▸ hp), some_or]
    · rw [if_neg hv, or_none]

theorem growPages_spec (n : Nat) : ∀ (p : Nat) (m : Machine), Supplied m → Supplied (growPages n p m) ∧
    ∀ v, (growPages n p m).space.read 4096 v =
      (m.space.read 4096 v).or (if p ≤ v / 4096 ∧ v / 4096 < p + n then some 0 else none) := by
  induction n with
  | zero =>
    intro p m hm
    refine ⟨hm, fun v => ?_⟩
    rw [if_neg (by omega), or_none, growPages]
  | succ n ih =>
    intro p m hm
    obtain ⟨hm₁, hRead⟩ := growPage_spec hm p
    obtain ⟨hm', hRead'⟩ := ih (p + 1) _ hm₁
    refine ⟨hm', fun v => ?_⟩
    rw [growPages, hRead' v, hRead v, Option.or_assoc]
    by_cases hv : v / 4096 = p
    · rw [if_pos hv, some_or, if_pos (by omega)]
    · rw [if_neg hv, none_or]
      congr 1
      simp only [show p + 1 ≤ v / 4096 ∧ v / 4096 < p + 1 + n ↔ p ≤ v / 4096 ∧ v / 4096 < p + (n + 1) by omega]

theorem growHeap_clears : ClearsHeap growHeap := by
  intro m old new v hm
  rw [growHeap, (growPages_spec _ _ _ hm).2, heapZero]
  simp only [show old / 4096 ≤ v / 4096 ∧ v / 4096 < old / 4096 + ((new + 4095) / 4096 - old / 4096) ↔
    old / 4096 ≤ v / 4096 ∧ 4096 * (v / 4096) < new by omega]

theorem growHeap_grows : GrowsHeap growHeap where
  supplied old new hm := (growPages_spec _ _ _ hm).1
  read old new v hm hv := by rw [growHeap_clears _ _ _ hm, read_of_mapped hv, some_or]
  mapped old new v hm hv hv' := by
    have hRead := growHeap_clears old new v hm
    rw [heapZero, if_pos (by omega), Option.or_some] at hRead
    exact mapped_of_read hRead

end CoreX.Elf

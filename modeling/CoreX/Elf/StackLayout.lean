import CoreX.Elf.Stack

/-!
# What lies on the first stack

`Laid` describes a task while its stack is being built: the words above the stack pointer, the bytes that have been
stored on the heap, and what is seen elsewhere. Each function of the source has one rule.
-/

namespace CoreX.Elf

open CoreX.PageMap CoreX.Memory CoreX.Hoare List Option

def wordBytes (w : Nat) : Bytes := (List.range 8).map (digit w)

def readWord (m : Machine) (v : Nat) : Option Nat :=
  (m.space.readList 4096 v 8).map fun bytes => load (fun i => bytes.getD i 0) 0 8

def readWords (m : Machine) (v : Nat) : Nat → Option (List Nat)
  | 0 => some []
  | n + 1 => (readWord m v).bind fun w => (readWords m (v + 8) n).map (w :: ·)

@[simp] theorem length_wordBytes (w : Nat) : (wordBytes w).length = 8 := by
  simp [wordBytes]

theorem readWord_of_holds {m : Machine} {v w : Nat} (hw : w < 2 ^ 64)
    (h : m.space.Holds 4096 v (wordBytes w)) : readWord m v = some w := by
  have hList := h.readList
  rw [length_wordBytes] at hList
  have hLoad : load (fun i => (wordBytes w).getD i 0) 0 8 = w % 256 ^ 8 := by
    apply load_digits
    intro i hi
    rw [Nat.zero_add, wordBytes, getD_eq_getElem?_getD, getElem?_map, getElem?_range hi]
    rfl
  rw [readWord, hList, map_some, hLoad, Nat.mod_eq_of_lt (by omega)]

theorem readWords_of_holds {m : Machine} {words : List Nat} : ∀ {v : Nat}, (∀ w ∈ words, w < 2 ^ 64) →
    m.space.Holds 4096 v (words.flatMap wordBytes) → readWords m v words.length = some words := by
  induction words with
  | nil =>
    intro v _ _
    rfl
  | cons w words ih =>
    intro v hWords h
    rw [flatMap_cons, Space.holds_append, length_wordBytes] at h
    rw [length_cons, readWords, readWord_of_holds (hWords w (by simp)) h.1, bind_some,
      ih (fun w' hw' => hWords w' (by simp [hw'])) h.2, map_some]

def storedAt : Nat → List CString → List (Nat × CString)
  | _, [] => []
  | a, s :: ss => (a, s) :: storedAt (a + (s.bytes.length + 1)) ss

def storedLength : List CString → Nat
  | [] => 0
  | s :: ss => s.bytes.length + 1 + storedLength ss

def pointers (a : Nat) (ss : List CString) : List Nat := (storedAt a ss).map Prod.fst

section
variable (a : Nat) (ss rest : List CString)

theorem storedAt_append : storedAt a (ss ++ rest) = storedAt a ss ++ storedAt (a + storedLength ss) rest := by
  induction ss generalizing a with
  | nil => rfl
  | cons s ss ih =>
    rw [cons_append, storedAt, ih, storedAt, cons_append, storedLength, Nat.add_assoc]

theorem length_flatMap_stored : (ss.flatMap CString.stored).length = storedLength ss := by
  induction ss with
  | nil => rfl
  | cons s ss ih => rw [flatMap_cons, length_append, CString.length_stored, ih, storedLength]

theorem storedLength_append : storedLength (ss ++ rest) = storedLength ss + storedLength rest := by
  induction ss with
  | nil => rw [nil_append, storedLength, Nat.zero_add]
  | cons s ss ih =>
    rw [cons_append, storedLength, storedLength, ih]
    omega

theorem storedLength_le {ss : List CString} (h : ∀ s ∈ ss, s.bytes.length < 2 ^ 32) :
    storedLength ss ≤ 2 ^ 32 * ss.length := by
  induction ss with
  | nil => exact Nat.le_refl _
  | cons s ss ih =>
    have hFirst := h s (by simp)
    have hRest := ih fun s' hs' => h s' (by simp [hs'])
    rw [storedLength, length_cons]
    omega

@[simp] theorem length_pointers : (pointers a ss).length = ss.length := by
  rw [pointers, length_map]
  induction ss generalizing a with
  | nil => rfl
  | cons s ss ih => rw [storedAt, length_cons, ih, length_cons]

theorem zip_pointers : (pointers a ss).zip ss = storedAt a ss := by
  induction ss generalizing a with
  | nil => rfl
  | cons s ss ih => exact congrArg ((a, s) :: ·) (ih _)

theorem pointers_append : pointers a (ss ++ rest) = pointers a ss ++ pointers (a + storedLength ss) rest := by
  rw [pointers, storedAt_append, map_append]
  rfl

theorem storedAt_bounds {a : Nat} {ss : List CString} {x : Nat × CString} (hx : x ∈ storedAt a ss) :
    a ≤ x.1 ∧ x.1 + (x.2.bytes.length + 1) ≤ a + storedLength ss := by
  induction ss generalizing a with
  | nil => simp [storedAt] at hx
  | cons s ss ih =>
    rw [storedLength]
    rcases mem_cons.1 hx with rfl | hx
    · simp only
      omega
    · have := ih hx
      omega

theorem holds_stored {space : Space UInt8} {a : Nat} {ss : List CString} {x : Nat × CString}
    (h : space.Holds 4096 a (ss.flatMap CString.stored)) (hx : x ∈ storedAt a ss) :
    space.Holds 4096 x.1 x.2.stored := by
  induction ss generalizing a with
  | nil => simp [storedAt] at hx
  | cons s ss ih =>
    rw [flatMap_cons, Space.holds_append, CString.length_stored] at h
    rcases mem_cons.1 hx with rfl | hx
    · exact h.1
    · exact ih h.2 hx

theorem storedAt_pairwise : (storedAt a ss).Pairwise fun x y => x.1 + (x.2.bytes.length + 1) ≤ y.1 := by
  induction ss generalizing a with
  | nil => exact List.Pairwise.nil
  | cons s ss ih =>
    refine List.Pairwise.cons (fun y hy => ?_) (ih _)
    exact (storedAt_bounds hy).1

end

/-! ## The invariant -/

/-- The words lie at the end of the stack, below them it is clear, and the bytes lie at the start of the heap, which is
mapped up to its end, below the stack. The rest is as in the machine `m` before, but for new pages of the heap. -/
structure Laid (adjust : Machine → Nat → Nat → Machine) (m : Machine) (words : List Nat) (bytes : Bytes)
    (heapEnd : Nat) (t : Task) : Prop where
  supplied : Supplied t.machine
  rsp : t.rsp + 8 * words.length = userStackBottom
  onStack : words.length ≤ 4096
  words : t.machine.space.Holds 4096 t.rsp (words.flatMap wordBytes)
  below : ∀ v, OnStack v → v < t.rsp → t.machine.space.read 4096 v = some 0
  stored : t.machine.space.Holds 4096 userHeapStart bytes
  heap : ∀ v, userHeapStart + bytes.length ≤ v → v < heapEnd → t.machine.space.frameOf (v / 4096) ≠ 0
  end_eq : t.heapEnd = heapEnd
  top_le : userHeapStart + bytes.length ≤ heapEnd
  end_le : heapEnd ≤ stackPage 0
  rest : ClearsHeap adjust → ∀ v, ¬ OnStack v → ¬ (userHeapStart ≤ v ∧ v < userHeapStart + bytes.length) →
    t.machine.space.read 4096 v = (m.space.read 4096 v).or (heapZero userHeapStart heapEnd v)

section
variable {adjust : Machine → Nat → Nat → Machine} {m : Machine} {words : List Nat} {bytes : Bytes} {heapEnd : Nat}

theorem total_pushToStack (w : Nat) (hRoom : words.length < 4096) : Total (Laid adjust m words bytes heapEnd)
    (pushToStack w) fun _ => Laid adjust m (w :: words) bytes heapEnd := by
  intro t h
  have hRsp := h.rsp
  have hTop := h.top_le
  have hEnd := h.end_le
  simp only [userStackBottom] at hRsp
  rw [stackPage_eq] at hEnd
  have hSub : Word.sub t.rsp 8 = t.rsp - 8 := Word.sub_eq (by omega) (by omega)
  have hPlace : ∀ v, t.rsp - 8 ≤ v → v < t.rsp → OnStack v := fun v hv hv' => by
    rw [OnStack, stackPage_eq, userStackBottom]
    omega
  obtain ⟨space, hWrite, hFrame, hRead⟩ := writeBytes_spec h.supplied.separate (t.rsp - 8) (digit w) 8
    (by
      rintro v ⟨hv, hv'⟩
      simp only at hv hv'
      exact Space.mapped_of_read (h.below v (hPlace v hv (by omega)) (by omega)))
  refine ⟨(), ⟨Elf.wrote t.machine ⟨t.rsp - 8, 8⟩ space, t.rsp - 8, t.heapEnd⟩, ?_, ?_⟩
  · rw [pushToStack, hSub, hWrite, map_some]
  refine ⟨h.supplied.wrote hFrame, ?_, ?_, ?_, ?_, h.stored.of_write hRead (by omega), ?_, h.end_eq, h.top_le,
    h.end_le, ?_⟩
  · rw [length_cons, userStackBottom]
    simp only
    omega
  · rw [length_cons]
    omega
  · rw [flatMap_cons, Space.holds_append, length_wordBytes]
    refine ⟨Space.holds_write hRead (length_wordBytes w) fun i hi => ?_, ?_⟩
    · simp [wordBytes]
    · have hBack : t.rsp - 8 + 8 = t.rsp := by omega
      simp only [hBack]
      exact h.words.of_write hRead (by omega)
  · intro v hv hv'
    simp only at hv'
    rw [Elf.wrote, hRead, if_neg (by omega)]
    exact h.below v hv (by omega)
  · intro v hv hv'
    rw [Elf.wrote, hFrame]
    exact h.heap v hv hv'
  · intro hClears v hv hv'
    rw [Elf.wrote, hRead, if_neg fun hIn => hv (hPlace v hIn.1 (by omega))]
    exact h.rest hClears v hv hv'

theorem total_pushAll (ws : List Nat) : ∀ {words : List Nat}, words.length + ws.length ≤ 4096 →
    Total (Laid adjust m words bytes heapEnd) (ws.forM pushToStack)
      fun _ => Laid adjust m (ws.reverse ++ words) bytes heapEnd := by
  induction ws with
  | nil =>
    intro words _
    exact total_pure fun t h => h
  | cons w ws ih =>
    intro words hRoom
    rw [length_cons] at hRoom
    refine (total_pushToStack w (by omega)).bind fun _ => ?_
    rw [reverse_cons, append_assoc]
    exact ih (by rw [length_cons]; omega)

theorem total_poke {v n : Nat} {src : Buf} {new : Bytes} (hv : v = userHeapStart + bytes.length)
    (hLength : new.length = n) (hBytes : ∀ i (hi : i < new.length), src i = new[i]) (hRoom : v + n ≤ heapEnd) :
    Total (Laid adjust m words bytes heapEnd) (poke v src n) fun _ => Laid adjust m words (bytes ++ new) heapEnd := by
  intro t h
  have hRsp := h.rsp
  have hStack := h.onStack
  have hEnd := h.end_le
  simp only [userStackBottom] at hRsp
  rw [stackPage_eq] at hEnd
  obtain ⟨space, hWrite, hFrame, hRead⟩ := writeBytes_spec h.supplied.separate v src n
    (by
      rintro x ⟨hx, hx'⟩
      simp only at hx hx'
      exact h.heap x (by omega) (by omega))
  have hKeep : ∀ x, OnStack x ∨ ¬ (userHeapStart ≤ x ∧ x < userHeapStart + (bytes ++ new).length) →
      space.read 4096 x = t.machine.space.read 4096 x := by
    intro x hx
    rw [OnStack, stackPage_eq, length_append] at hx
    rw [hRead, if_neg (by omega)]
  refine ⟨(), { t with machine := Elf.wrote t.machine ⟨v, n⟩ space }, ?_, ?_⟩
  · rw [poke, onMachine, hWrite, map_some]
  refine ⟨h.supplied.wrote hFrame, h.rsp, h.onStack, h.words.of_write hRead (by omega), ?_, ?_, ?_, h.end_eq, ?_,
    h.end_le, ?_⟩
  · intro x hx hx'
    rw [Elf.wrote, hKeep x (Or.inl hx)]
    exact h.below x hx hx'
  · rw [Space.holds_append, ← hv]
    exact ⟨h.stored.of_write hRead (by omega), Space.holds_write hRead hLength hBytes⟩
  · intro x hx hx'
    rw [length_append] at hx
    rw [Elf.wrote, hFrame]
    exact h.heap x (by omega) hx'
  · rw [length_append]
    omega
  · intro hClears x hx hx'
    rw [Elf.wrote, hKeep x (Or.inr hx')]
    rw [length_append] at hx'
    exact h.rest hClears x hx (by omega)

theorem total_heapEnd : Total (Laid adjust m words bytes heapEnd) Elf.heapEnd
    fun e t => e = heapEnd ∧ Laid adjust m words bytes heapEnd t := by
  intro t h
  exact ⟨t.heapEnd, t, rfl, h.end_eq, h⟩

theorem total_taskAdjustHeap (hAdjust : GrowsHeap adjust) {newEnd : Nat} (hGrow : heapEnd ≤ newEnd)
    (hBelow : newEnd ≤ stackPage 0) : Total (Laid adjust m words bytes heapEnd) (taskAdjustHeap adjust newEnd)
      fun _ => Laid adjust m words bytes newEnd := by
  intro t h
  have hTop := h.top_le
  have hRead : ∀ {v : Nat}, t.machine.space.frameOf (v / 4096) ≠ 0 →
      (adjust t.machine t.heapEnd newEnd).space.read 4096 v = t.machine.space.read 4096 v :=
    hAdjust.read t.heapEnd newEnd h.supplied
  have hHolds : ∀ {v : Nat} {bytes : Bytes}, t.machine.space.Holds 4096 v bytes →
      (adjust t.machine t.heapEnd newEnd).space.Holds 4096 v bytes := by
    intro v bytes hv
    apply hv.congr
    intro w hw hw'
    exact hRead (hv.mapped hw hw')
  refine ⟨(), ⟨adjust t.machine t.heapEnd newEnd, t.rsp, newEnd⟩, rfl, ?_⟩
  refine ⟨hAdjust.supplied _ _ h.supplied, h.rsp, h.onStack, hHolds h.words, fun v hv hv' => ?_, hHolds h.stored,
    fun v hv hv' => ?_, rfl, Nat.le_trans h.top_le hGrow, hBelow, fun hClears v hv hv' => ?_⟩
  · rw [hRead (Space.mapped_of_read (h.below v hv hv'))]
    exact h.below v hv hv'
  · by_cases hOld : v < heapEnd
    · have hMapped := h.heap v hv hOld
      exact Space.mapped_of_read ((hRead hMapped).trans (Space.read_of_mapped hMapped))
    · exact hAdjust.mapped _ _ h.supplied (by rw [h.end_eq]; omega) hv'
  · rw [hClears _ _ _ h.supplied, h.end_eq, h.rest hClears v hv hv', Option.or_assoc]
    congr 1
    -- the pages up to the old end, and those from there on
    unfold heapZero
    by_cases hOld : userHeapStart / 4096 ≤ v / 4096 ∧ 4096 * (v / 4096) < heapEnd
    · rw [if_pos hOld, some_or, if_pos ⟨hOld.1, by omega⟩]
    · rw [if_neg hOld, none_or]
      simp only [show heapEnd / 4096 ≤ v / 4096 ∧ 4096 * (v / 4096) < newEnd ↔
        userHeapStart / 4096 ≤ v / 4096 ∧ 4096 * (v / 4096) < newEnd by omega]

end

end CoreX.Elf

import CoreX.Circular.Fifo

/-!
# Calls that run alone

`Circular` copies in two blocks, `CircularInt` byte by byte with an index that wraps. A call of `CircularInt` that no
other one interrupts does what the call of `Circular` does on the same buffer and pointers.
-/

namespace CoreX.Circ

open List CoreX.Ring Memory Function

variable (circ : Circular)

/-- `CircularIntRead`, with the fields of `CircularInt` that are those of `Circular`. -/
def circularIntRead (out : Buf) (length : Nat) : Option ((Nat × Buf) × Circular) :=
  if length = 0 then none
  else if circ.writePtr = circ.readPtr then some ((0, out), circ)
  else
    let toCopy := min (circReadable circ.writePtr circ.readPtr circ.buffSize) length
    let copied := (List.range toCopy).foldl (fun (p : Buf × Nat) i =>
      (update p.1 i (circ.buff p.2), (p.2 + 1) % circ.buffSize)) (out, circ.readPtr)
    if toCopy > 0 then some ((toCopy, copied.1), { circ with readPtr := copied.2 }) else none

def circularIntWrite (src : Buf) (length : Nat) : Option (Nat × Circular) :=
  if length = 0 then none
  else if length > circWritable circ.writePtr circ.readPtr circ.buffSize then some (0, circ)
  else
    let stored := (List.range length).foldl (fun (p : Buf × Nat) i =>
      (update p.1 p.2 (src i), (p.2 + 1) % circ.buffSize)) (circ.buff, circ.writePtr)
    some (length, { circ with buff := stored.1, writePtr := stored.2 })

variable {circ} {buff src out : Buf} {size start n : Nat}

theorem foldl_copy (hstart : start < size) : (List.range n).foldl (fun (p : Buf × Nat) i =>
    (update p.1 i (buff p.2), (p.2 + 1) % size)) (out, start) =
      (fun i => ((window buff size start n)[i]?).getD (out i), (start + n) % size) := by
  induction n with
  | zero => simp [Nat.mod_eq_of_lt hstart]
  | succ n ih =>
    rw [List.range_succ, foldl_append, ih, foldl_cons, foldl_nil, ← add_add_mod]
    refine congrArg (·, _) (funext fun i => ?_)
    dsimp only
    rcases Nat.lt_trichotomy i n with hi | rfl | hi
    · rw [update_of_ne (by omega), getElem?_window hi, getElem?_window (by omega)]
    · rw [update_self, getElem?_window (by omega), Option.getD_some]
    · rw [update_of_ne (by omega), getElem?_eq_none (by rw [length_window]; omega),
        getElem?_eq_none (by rw [length_window]; omega)]

theorem foldl_store (hstart : start < size) (hn : n ≤ size) :
    (List.range n).foldl (fun (p : Buf × Nat) i =>
      (update p.1 p.2 (src i), (p.2 + 1) % size)) (buff, start) =
      (memcpy (memcpy buff start src (min n (size - start))) 0 (fun i => src (min n (size - start) + i))
        (n - min n (size - start)), (start + n) % size) := by
  induction n with
  | zero =>
    refine congrArg₂ Prod.mk (funext fun i => ?_) (Nat.mod_eq_of_lt hstart).symm
    rw [memcpy_of_notMem (by omega), memcpy_of_notMem (by omega)]
  | succ n ih =>
    rw [List.range_succ, foldl_append, ih (by omega), foldl_cons, foldl_nil, ← add_add_mod]
    refine congrArg (·, _) (funext fun i => ?_)
    simp only [update_apply, add_mod_of_lt hstart (show n ≤ size by omega), memcpy]
    split_ifs <;> first | rfl | omega | exact congrArg src (by omega)

/-- **The two buffers agree**: with equal contents and pointers, reads and writes return the same counts and bytes and
leave the same contents and pointers. -/
theorem circularInt_eq (hread : circ.readPtr < circ.buffSize) (hwrite : circ.writePtr < circ.buffSize)
    (out src : Buf) {length : Nat} (hlength : 1 ≤ length) :
    circularIntRead circ out length = circularRead circ out length ∧ (circularRead circ out length).isSome ∧
      circularIntWrite circ src length = circularWrite circ src length ∧ (circularWrite circ src length).isSome := by
  have hholds : Holds circ.buffSize circ _ := ⟨rfl, hread, hwrite, rfl⟩
  have hne : length ≠ 0 := by omega
  refine ⟨?_, ?_, ?_, ?_⟩
  · have hlt := circReadable_lt hread hwrite
    rw [circularIntRead, circularRead]
    simp only [memcpy_if_ne_zero]
    rw [foldl_copy hread, memcpy_wrap_out hread (by omega)]
  · obtain ⟨circ', hcall, -⟩ := circularRead_spec hholds out hne
    exact Option.isSome_of_eq_some hcall
  · rw [circularIntWrite, circularWrite]
    by_cases hfull : length > circWritable circ.writePtr circ.readPtr circ.buffSize
    · simp only [if_pos hfull]
    · simp only [if_neg hfull, memcpy_if_ne_zero]
      rw [foldl_store hwrite (by unfold circWritable at hfull; omega)]
  · rw [circularWrite, if_neg hne]
    split_ifs <;> rfl

theorem circularInt_eq_wraps : ∃ circ : Circular, circ.readPtr = 2 ∧ circ.writePtr = 1 ∧ circ.buffSize = 3 ∧
    circularIntRead circ (fun _ => 0) 2 = circularRead circ (fun _ => 0) 2 := by
  exact ⟨⟨fun _ => 7, 3, 2, 1⟩, rfl, rfl, rfl,
    (circularInt_eq (by decide) (by decide) (fun _ => 0) (fun _ => 0) (by decide)).1⟩

end CoreX.Circ

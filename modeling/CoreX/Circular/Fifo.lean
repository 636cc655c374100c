import CoreX.Base.Ring
import CoreX.Circular.Model

/-!
# The circular buffer is a queue

The queue that a buffer holds is the window of `CIRC_READABLE` cells from `readPtr` on. One cell stays
empty, so that equal pointers mean an empty queue.
-/

namespace CoreX.Circ

open Option Nat CoreX.Ring Prod

variable {write read size k : Nat} {queue : Bytes} {length : Nat}

section
variable (hread : read < size)
include hread

theorem circReadable_lt (hwrite : write < size) : circReadable write read size < size := by
  rw [circReadable]
  split_ifs <;> omega

theorem add_circReadable (hwrite : write < size) : (read + circReadable write read size) % size = write := by
  rw [add_mod_of_lt hread (circReadable_lt hread hwrite).le, circReadable]
  split_ifs <;> omega

theorem circReadable_add {n : Nat} (hn : n < size) : circReadable ((read + n) % size) read size = n := by
  rw [add_mod_of_lt hread hn.le, circReadable]
  split_ifs <;> omega

theorem circReadable_read (hwrite : write < size) (hk : k ≤ circReadable write read size) :
    circReadable write ((read + k) % size) size = circReadable write read size - k := by
  have hlt := circReadable_lt hread hwrite
  have hpos : (read + k) % size < size := mod_lt _ (by omega)
  have hwrite' : write = ((read + k) % size + (circReadable write read size - k)) % size := by
    rw [← Ring.add_add_mod, Nat.add_sub_cancel' hk, add_circReadable hread hwrite]
  have hadd := circReadable_add hpos (show circReadable write read size - k < size by omega)
  rwa [← hwrite'] at hadd

theorem circReadable_write (hwrite : write < size) (hk : circReadable write read size + k < size) :
    circReadable ((write + k) % size) read size = circReadable write read size + k := by
  have hwrite' : (write + k) % size = (read + (circReadable write read size + k)) % size := by
    rw [add_add_mod, add_circReadable hread hwrite]
  rw [hwrite', circReadable_add hread hk]

end

def Circular.contents (circ : Circular) : Bytes :=
  Ring.window circ.buff circ.buffSize circ.readPtr
    (circReadable circ.writePtr circ.readPtr circ.buffSize)

structure Holds (size : Nat) (circ : Circular) (queue : Bytes) : Prop where
  size_eq : circ.buffSize = size
  read_lt : circ.readPtr < size
  write_lt : circ.writePtr < size
  contents_eq : circ.contents = queue

variable {circ : Circular}

section
variable (h : Holds size circ queue)
include h

theorem Holds.length_eq : circReadable circ.writePtr circ.readPtr size = queue.length := by
  rw [← h.contents_eq, Circular.contents, length_window, h.size_eq]

theorem circularRead_spec (out : Buf) (hlength : length ≠ 0) :
    ∃ circ', circularRead circ out length = some ((min length queue.length,
        fun i => ((queue.take length)[i]?).getD (out i)), circ') ∧ Holds size circ' (queue.drop length) := by
  have hlen := h.length_eq
  obtain ⟨buff, bsize, read, write⟩ := circ
  obtain ⟨rfl, hread, hwrite, hqueue⟩ := h
  simp only [Circular.contents] at hread hwrite hqueue hlen
  rw [circularRead, if_neg hlength]
  by_cases hempty : write = read
  · have hnil : queue = [] := by
      rw [← hqueue, hempty, circReadable, if_pos (Nat.le_refl _), Nat.sub_self, Ring.window_zero]
    subst hnil
    exact ⟨_, by simp [hempty], rfl, hread, hwrite, by rw [List.drop_nil]; exact hqueue⟩
  · have hpos : 0 < circReadable write read bsize := by
      refine Nat.pos_of_ne_zero (fun hzero => hempty ?_)
      rw [← add_circReadable hread hwrite, hzero, Nat.add_zero, Nat.mod_eq_of_lt hread]
    have hlt := circReadable_lt hread hwrite
    set n := circReadable write read bsize with hn
    have hcopy : min n length = min length queue.length := by rw [← hlen, min_comm]
    rw [if_neg hempty]
    simp only [Memory.memcpy_if_ne_zero]
    rw [memcpy_wrap_out hread (by omega), if_pos (by omega), hcopy]
    have hsize : 0 < bsize := by omega
    refine ⟨_, by rw [← hqueue, take_window, length_window], rfl, mod_lt _ hsize, hwrite, ?_⟩
    have hmove : circReadable write ((read + min length n) % bsize) bsize = n - min length n :=
      circReadable_read hread hwrite (by omega)
    rw [Circular.contents, ← hqueue, drop_window]
    simp only [hmove]
    rw [show n - min length n = n - length by omega]

theorem circularWrite_of_le (src : Buf) (hlength : length ≠ 0) (hfits : queue.length + length ≤ size - 1) :
    ∃ circ', circularWrite circ src length = some (length, circ') ∧
      Holds size circ' (queue ++ (List.range length).map src) := by
  have hlen := h.length_eq
  obtain ⟨buff, bsize, read, write⟩ := circ
  obtain ⟨rfl, hread, hwrite, hqueue⟩ := h
  simp only [Circular.contents] at hread hwrite hqueue hlen hfits
  generalize hn : queue.length = n at *
  rw [hlen] at hqueue
  have hsize : 0 < bsize := by omega
  rw [circularWrite, if_neg hlength, circWritable, hlen, if_neg (by simp only; omega)]
  simp only [Memory.memcpy_if_ne_zero]
  refine ⟨_, rfl, rfl, hread, mod_lt _ hsize, ?_⟩
  have hmove : circReadable ((write + length) % bsize) read bsize = n + length := by
    rw [circReadable_write hread hwrite (by omega), hlen]
  have hahead : (read + n) % bsize = write := by rw [← hlen, add_circReadable hread hwrite]
  rw [Circular.contents]
  simp only [hmove]
  rw [window_add, hahead, ← hqueue]
  refine congrArg₂ (· ++ ·) (window_congr fun k hk => ?_) (List.map_congr_left fun k hk => ?_)
  · -- seen from the write pointer, a cell of the queue comes after the writable ones
    have hcell : (read + k) % bsize = (write + (bsize - n + k)) % bsize := by
      rw [← hahead, ← add_add_mod, show n + (bsize - n + k) = k + bsize by omega, ← add_assoc,
        add_mod_right]
    rw [hcell, memcpy_wrap_in hwrite (by omega) (by omega), if_neg (by omega)]
  · have hk := List.mem_range.1 hk
    rw [memcpy_wrap_in hwrite (by omega) (by omega), if_pos hk]

end

/-! ## Runs -/

theorem circularStep_simulates (circ : Circular) (queue : Bytes) (op : CircularOp)
    (response : Response) (queue' : Bytes) (h : Holds size circ queue)
    (hstep : fifoStep (size - 1) queue op = some (response, queue')) :
    ∃ circ', circularStep circ op = some (response, circ') ∧ Holds size circ' queue' := by
  cases op with
  | read out length =>
    rw [fifoStep] at hstep
    split_ifs at hstep with hlength
    obtain ⟨rfl, rfl⟩ := mk.inj (some.inj hstep)
    obtain ⟨circ', hread, hholds⟩ := circularRead_spec h out hlength
    exact ⟨circ', by rw [circularStep, hread, map_some], hholds⟩
  | write src length =>
    rw [fifoStep] at hstep
    split_ifs at hstep with hlength hfits
    · obtain ⟨rfl, rfl⟩ := mk.inj (some.inj hstep)
      obtain ⟨circ', hwrite, hholds⟩ := circularWrite_of_le h src hlength hfits
      exact ⟨circ', by rw [circularStep, hwrite, map_some], hholds⟩
    · obtain ⟨rfl, rfl⟩ := mk.inj (some.inj hstep)
      refine ⟨circ, ?_, h⟩
      rw [circularStep, circularWrite, if_neg hlength, circWritable, h.size_eq, h.length_eq, if_pos (by omega), map_some]
  | readPoll =>
    obtain ⟨rfl, rfl⟩ := mk.inj (some.inj hstep)
    exact ⟨circ, by rw [circularStep, circularReadPoll, h.size_eq, h.length_eq], h⟩
  | writePoll =>
    obtain ⟨rfl, rfl⟩ := mk.inj (some.inj hstep)
    refine ⟨circ, ?_, h⟩
    rw [circularStep, circularWritePoll, circWritable, h.size_eq, h.length_eq, Nat.sub_right_comm]

theorem holds_circularAllocate (buff : Buf) (hsize : 1 ≤ size) :
    Holds size (circularAllocate buff size) [] := by
  refine ⟨rfl, hsize, hsize, ?_⟩
  rw [Circular.contents, circularAllocate, circReadable, if_pos (le_refl _)]
  exact window_zero

/-- **Refinement.** Over every sequence of reads, writes and polls with nonzero lengths, a new buffer answers every
call as a queue of capacity `size - 1` does, and then holds what the queue holds. -/
theorem circularRun_refines (hsize : 1 ≤ size) (buff : Buf) {ops : List CircularOp}
    {responses : List Response} {queue : Bytes}
    (hrun : Run.run (Run.logged (fifoStep (size - 1))) ([], []) ops = some (responses, queue)) :
    ∃ circ, Run.run (Run.logged circularStep) ([], circularAllocate buff size) ops = some (responses, circ) ∧
      circ.contents = queue ∧ circ.readPtr < size ∧ circ.writePtr < size := by
  obtain ⟨circ, hcirc, hholds⟩ :=
    Run.logged_simulation circularStep_simulates (holds_circularAllocate buff hsize) hrun
  exact ⟨circ, hcirc, hholds.contents_eq, hholds.read_lt, hholds.write_lt⟩

def wrappingOps : List CircularOp :=
  [.write (fun i => UInt8.ofNat i) 3, .write (fun _ => 9) 1, .read (fun _ => 0) 2,
    .write (fun _ => 7) 2, .writePoll]

theorem circularRun_refines_wrappingOps :
    ∃ circ responses, Run.run (Run.logged circularStep) ([], circularAllocate (fun _ => 0) 4) wrappingOps =
        some (responses, circ) ∧ circ.contents = [2, 7, 7] := by
  have hsome : (Run.run (Run.logged (fifoStep (4 - 1))) ([], []) wrappingOps).isSome = true := by decide
  obtain ⟨⟨responses, queue⟩, hrun⟩ := isSome_iff_exists.1 hsome
  obtain ⟨circ, hcirc, hcontents, -⟩ := circularRun_refines (by decide) (fun _ => 0) hrun
  have hqueue : queue = [2, 7, 7] := (congrArg snd (some.inj hrun)).symm
  exact ⟨circ, responses, hcirc, hcontents.trans hqueue⟩

end CoreX.Circ

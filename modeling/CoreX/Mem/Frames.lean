import CoreX.Mem.Ranges

/-!
# The frames behind fixed mappings

A fixed anonymous `syscall_mmap` takes a frame for each of its pages and overwrites the entries. `syscall_munmap`
clears the entries and calls no `physical_free`. So the free frames only ever become fewer, and what was mapped comes
back to nobody.
-/

namespace CoreX.Mem

open List

/-- The pages of a fixed anonymous call. Nothing is mapped if the call is refused. -/
def MmapCall.pages (call : MmapCall) : Nat :=
  if call.length = 0 ∨ (call.addr ≠ 0 ∧ call.addr % 4096 ≠ 0) then 0 else pageCount call.length

section
variable (env : Env) (task : Task)

def syscallMmaps (calls : List MmapCall) : Task :=
  calls.foldl (fun task call => (syscallMmap env task call).2) task

theorem mapFixed_frames (addr n : Nat) : ∀ (i : Nat) (task : Task),
    (mapFixed addr n i task).2.frames = task.frames.drop n := by
  induction n with
  | zero => exact fun i task => rfl
  | succ n ih =>
    intro i task
    unfold mapFixed
    split
    case h_1 hnone => rw [hnone, drop_nil]
    case h_2 phys rest hsome => rw [ih, hsome, drop_succ_cons]

theorem mmapFixed_frames (addr length : Nat) :
    (mmapFixed task addr length).2.frames = task.frames.drop (pageCount length) := by
  have hloop := mapFixed_frames addr (pageCount length) 0
    { task with mmapEnd := max task.mmapEnd (Word.add addr (4096 * pageCount length)) }
  unfold mmapFixed
  dsimp only
  split
  case h_1 e task' h =>
    rw [h] at hloop
    exact hloop
  case h_2 task' h =>
    rw [h] at hloop
    exact hloop

theorem syscallMmap_frames {call : MmapCall} (hFixed : call.fixed = true) (hAnon : call.anonymous = true) :
    (syscallMmap env task call).2.frames = task.frames.drop call.pages := by
  unfold MmapCall.pages
  split_ifs with hRefused
  · rw [syscallMmap, if_pos hRefused, drop_zero]
  · rw [syscallMmap_fixed env task hFixed hAnon (by omega) (by omega), mmapFixed_frames]

theorem syscallMmaps_frames {calls : List MmapCall} :
    ∀ (task : Task), (∀ call ∈ calls, call.fixed = true ∧ call.anonymous = true) →
      (syscallMmaps env task calls).frames = task.frames.drop (calls.map MmapCall.pages).sum := by
  induction calls with
  | nil => exact fun task _ => rfl
  | cons call calls ih =>
    intro task hCalls
    obtain ⟨⟨hFixed, hAnon⟩, hRest⟩ := forall_mem_cons.1 hCalls
    rw [map_cons, sum_cons, ← drop_drop, ← syscallMmap_frames env task hFixed hAnon]
    exact ih _ hRest

theorem syscallMunmap_frames (addr len : Nat) : (syscallMunmap task addr len).2.frames = task.frames := by
  unfold syscallMunmap
  split_ifs <;> rfl

end

theorem mem_drop_iff_mem {xs : List Nat} (h : xs.Nodup) (n : Nat) :
    (∀ x, x ∈ xs.drop n ↔ x ∈ xs) ↔ xs = [] ∨ n = 0 := by
  constructor
  · intro hsame
    cases xs with
    | nil => exact .inl rfl
    | cons x xs =>
      cases n with
      | zero => exact .inr rfl
      | succ n =>
        have hmem : x ∈ xs := mem_of_mem_drop ((hsame x).2 mem_cons_self)
        exact absurd hmem (nodup_cons.1 h).1
  · rintro (rfl | rfl)
    · simp
    · simp

/-- **Unmapping frees nothing.** Whatever `syscall_munmap` comes after the calls, the free frames lack one for each
page that was mapped; they are the same ones exactly if no page was mapped, or there was no free frame to begin with.
-/
theorem free_frames_same_iff (env : Env) (task : Task) (hNodup : task.frames.Nodup) (calls : List MmapCall)
    (hCalls : ∀ call ∈ calls, call.fixed = true ∧ call.anonymous = true) (addr len : Nat) :
    (syscallMunmap (syscallMmaps env task calls) addr len).2.frames =
        task.frames.drop (calls.map MmapCall.pages).sum ∧
      ((∀ f, f ∈ (syscallMunmap (syscallMmaps env task calls) addr len).2.frames ↔ f ∈ task.frames) ↔
        task.frames = [] ∨ ∀ call ∈ calls, call.pages = 0) := by
  have hframes : (syscallMunmap (syscallMmaps env task calls) addr len).2.frames =
      task.frames.drop (calls.map MmapCall.pages).sum := by
    rw [syscallMunmap_frames, syscallMmaps_frames env task hCalls]
  refine ⟨hframes, ?_⟩
  rw [hframes, mem_drop_iff_mem hNodup, List.sum_eq_zero_iff_forall_eq_nat, forall_mem_map]

def twoFrames : Task := { freshTask with frames := [0x1000, 0x2000] }

def fixedCall (length : Nat) : MmapCall := ⟨0x60000000, length, 3, 0x32, -1, 0⟩

/-- A call of length 0 is refused, and takes no frame. -/
theorem free_frames_same_iff_refused : (fixedCall 0).pages = 0 ∧
    ∀ f, f ∈ (syscallMunmap (syscallMmaps plainEnv twoFrames [fixedCall 0]) 0x60000000 4096).2.frames ↔
      f ∈ twoFrames.frames := by
  refine ⟨rfl, (free_frames_same_iff plainEnv twoFrames (by decide) [fixedCall 0] ?_ 0x60000000 4096).2.2 (.inr ?_)⟩
  · decide
  · decide

/-- Two mappings of one page, the second in the place of the first, and `syscall_munmap` of that page: the page is
mapped no more, and no frame is free. -/
theorem frames_lost :
    let unmapped := syscallMunmap (syscallMmaps plainEnv twoFrames [fixedCall 4096, fixedCall 4096]) 0x60000000 4096
    unmapped.1 = .ok () ∧ unmapped.2.pages (pageOf 0x60000000) = 0 ∧ unmapped.2.frames = [] := by
  decide +kernel

end CoreX.Mem

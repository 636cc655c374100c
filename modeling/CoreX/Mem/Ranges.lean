import CoreX.Mem.Mmap

/-!
# Which pages the memory system calls touch

Both loops change pages of an argument range only. Whether such a page lies where it should is then arithmetic:
`syscall_munmap` compares the wrapped end of the range with the end of the mappings, and a fixed `syscall_mmap`
compares its range with nothing.
-/

namespace CoreX.Mem

open Word

section
variable (addr i n p : Nat) {length : Nat}

def InPages : Prop := ∃ j, i ≤ j ∧ j < i + n ∧ p = pageOf (pageAt addr j)

theorem not_inPages_zero : ¬ InPages addr i 0 p := by
  rintro ⟨j, hj, hlt, -⟩
  omega

theorem inPages_succ {addr i n p : Nat} :
    InPages addr i (n + 1) p ↔ p = pageOf (pageAt addr i) ∨ InPages addr (i + 1) n p := by
  constructor
  · rintro ⟨j, hj, hlt, rfl⟩
    by_cases hji : j = i
    · exact Or.inl (by rw [hji])
    · exact Or.inr ⟨j, by omega, by omega, rfl⟩
  · rintro (hp | ⟨j, hj, hlt, hp⟩)
    · exact ⟨i, le_refl i, by omega, hp⟩
    · exact ⟨j, by omega, by omega, hp⟩

theorem mapFixed_changed : ∀ (i : Nat) (task : Task) (p : Nat),
    (mapFixed addr n i task).2.pages p ≠ task.pages p → InPages addr i n p := by
  induction n with
  | zero => intro i task p h; exact absurd rfl h
  | succ n ih =>
    intro i task p h
    rw [inPages_succ]
    rw [mapFixed] at h
    split at h
    · exact absurd rfl h
    by_cases hp : p = pageOf (pageAt addr i)
    · exact Or.inl hp
    rename_i phys rest _
    have hSame : virtualMap task.pages (pageAt addr i) phys p = task.pages p := virtualMap_of_ne hp
    rw [← hSame] at h
    exact Or.inr (ih _ _ p h)

theorem mapFixed_mapped {addr n : Nat} : ∀ (i : Nat) (task : Task) (p : Nat),
    n ≤ task.frames.length → (∀ f ∈ task.frames, f = 4096) →
    (task.pages p = 4096 ∨ InPages addr i n p) → (mapFixed addr n i task).2.pages p = 4096 := by
  induction n with
  | zero =>
    intro i task p _ _ h
    exact h.resolve_right (not_inPages_zero addr i p)
  | succ n ih =>
    intro i task p hLen hFrames h
    obtain ⟨phys, rest, hCons⟩ := List.exists_cons_of_length_pos (show 0 < task.frames.length by omega)
    rw [hCons, List.length_cons] at hLen
    obtain rfl := hFrames phys (by simp [hCons])
    rw [mapFixed, hCons]
    refine ih (i + 1) _ p (by simpa using hLen) (fun f hf => hFrames f (by simp [hCons, hf])) ?_
    rw [inPages_succ] at h
    by_cases hp : p = pageOf (pageAt addr i)
    · left
      rw [hp]
      exact virtualMap_self _ _ _
    · rcases h with h | h
      · exact Or.inl ((virtualMap_of_ne hp).trans h)
      · exact Or.inr (h.resolve_left hp)

theorem unmapPages_changed : ∀ (i : Nat) (pages : Nat → Nat) (p : Nat),
    unmapPages addr n i pages p ≠ pages p → InPages addr i n p := by
  induction n with
  | zero => intro i pages p h; exact absurd rfl h
  | succ n ih =>
    intro i pages p h
    rw [inPages_succ]
    by_cases hp : p = pageOf (pageAt addr i)
    · exact Or.inl hp
    have hSame : (if virtualToPhysical pages (pageAt addr i) ≠ 0 then virtualMap pages (pageAt addr i) 0
        else pages) p = pages p := by
      split
      · exact virtualMap_of_ne hp
      · rfl
    rw [← hSame] at h
    exact Or.inr (ih _ _ p h)

theorem unmapPages_cleared {addr n : Nat} : ∀ (i : Nat) (pages : Nat → Nat) (p : Nat),
    (pages p = 0 ∨ InPages addr i n p) → unmapPages addr n i pages p = 0 := by
  induction n with
  | zero =>
    intro i pages p h
    exact h.resolve_right (not_inPages_zero addr i p)
  | succ n ih =>
    intro i pages p h
    rw [unmapPages]
    apply ih
    rw [inPages_succ] at h
    by_cases hp : p = pageOf (pageAt addr i)
    · left
      rw [hp]
      split
      · simp [virtualMap_self]
      · rename_i hZero
        rw [virtualToPhysical] at hZero
        split at hZero
        · assumption
        · omega
    · rcases h with h | h
      · left
        split
        · exact (virtualMap_of_ne hp).trans h
        · exact h
      · exact Or.inr (h.resolve_left hp)

/-! ## The arithmetic of a range -/

theorem pageCount_eq (h : length + 4095 < 2 ^ 64) : pageCount length = (length + 4095) / 4096 :=
  divRoundUp_eq (by decide) h

theorem pageCount_wrapped (hLength : length < 2 ^ 64) (h : 2 ^ 64 ≤ length + 4095) : pageCount length = 0 := by
  rw [pageCount, divRoundUp, sub, add]
  omega

/-- The pages of a task end on a page, in the user half of the address space. -/
structure Task.Ranged (task : Task) : Prop where
  aligned : task.mmapEnd % 4096 = 0
  user : task.mmapEnd ≤ 2 ^ 47

/-- The range of a `munmap` wraps, and its length does not. -/
def Wraps (len : Nat) : Prop := 2 ^ 64 ≤ addr + len ∧ len + 4095 < 2 ^ 64

end

/-- The call is not refused. -/
def Task.Unmaps (task : Task) (addr len : Nat) : Prop :=
  addr % 4096 = 0 ∧ len ≠ 0 ∧ task.mmapStart ≤ addr ∧ Word.add addr len ≤ task.mmapEnd

variable (task : Task) (addr len : Nat) {p : Nat}

theorem syscallMunmap_pages (h : task.Unmaps addr len) :
    (syscallMunmap task addr len).2.pages = unmapPages addr (pageCount len) 0 task.pages := by
  obtain ⟨hAddr, hLen, hStart, hEnd⟩ := h
  rw [syscallMunmap, if_neg (by omega), if_neg (by simp [Task.insideBounds, hStart, hEnd])]

theorem syscallMunmap_refused (h : ¬ task.Unmaps addr len) : (syscallMunmap task addr len).2 = task := by
  rw [syscallMunmap]
  split
  · rfl
  split
  · rfl
  rename_i hArgs hInside
  simp only [Task.insideBounds, Bool.not_eq_true', Bool.and_eq_false_iff, decide_eq_false_iff_not,
    not_or, not_not] at hInside
  refine absurd ⟨by omega, by omega, hInside.1, hInside.2⟩ h

theorem syscallMunmap_inside (hTask : task.Ranged) {addr len : Nat} (hLen : len < 2 ^ 64)
    (hWraps : task.Unmaps addr len → ¬ Wraps addr len) (h : (syscallMunmap task addr len).2.pages p ≠ task.pages p) :
    task.mmapStart ≤ 4096 * p ∧ 4096 * p < task.mmapEnd := by
  have hUser := hTask.user
  by_cases hUnmaps : task.Unmaps addr len
  · rw [syscallMunmap_pages task addr len hUnmaps] at h
    obtain ⟨j, -, hj, rfl⟩ := unmapPages_changed addr _ 0 task.pages p h
    have hNoWrap := hWraps hUnmaps
    obtain ⟨hAligned, -, hStart, hEnd⟩ := hUnmaps
    have hRound : len + 4095 < 2 ^ 64 := by
      by_contra hBig
      rw [pageCount_wrapped hLen (by omega)] at hj
      omega
    rw [pageCount_eq hRound] at hj
    have hSum : addr + len < 2 ^ 64 := by
      rw [Wraps] at hNoWrap
      omega
    rw [add_eq hSum] at hEnd
    rw [pageOf, pageAt, add]
    omega
  · rw [syscallMunmap_refused task addr len hUnmaps] at h
    exact absurd rfl h

theorem syscallMunmap_wrapped {addr len : Nat} (hAddr : addr < 2 ^ 64) (hUnmaps : task.Unmaps addr len)
    (hWraps : Wraps addr len) : (syscallMunmap task addr len).2.pages (pageOf (2 ^ 64 - 4096)) = 0 := by
  rw [syscallMunmap_pages task addr len hUnmaps]
  obtain ⟨hAligned, -, -, -⟩ := hUnmaps
  obtain ⟨hSum, hRound⟩ := hWraps
  apply unmapPages_cleared
  right
  refine ⟨(2 ^ 64 - 4096 - addr) / 4096, Nat.zero_le _, ?_, ?_⟩
  · rw [pageCount_eq hRound]
    omega
  · congr 1
    rw [pageAt, add]
    omega

theorem syscallMmap_fixed (env : Env) (task : Task) {call : MmapCall} (hFixed : call.fixed = true)
    (hAnon : call.anonymous = true) (hLength : call.length ≠ 0) (hAddr : call.addr % 4096 = 0) :
    syscallMmap env task call = mmapFixed task call.addr call.length := by
  rw [syscallMmap, if_neg (by omega)]
  simp [hFixed, hAnon]

theorem mmapFixed_pages (length : Nat) : (mmapFixed task addr length).2.pages =
      (mapFixed addr (pageCount length) 0
        { task with mmapEnd := max task.mmapEnd (add addr (4096 * pageCount length)) }).2.pages := by
  rw [mmapFixed]
  split <;> rename_i hMap <;> rw [hMap]

theorem mmapFixed_user {task : Task} {addr length : Nat} (hAddr : addr % 4096 = 0)
    (hRange : pageCount length = 0 ∨ addr % 2 ^ 48 + 4096 * pageCount length ≤ 2 ^ 47)
    (h : (mmapFixed task addr length).2.pages p ≠ task.pages p) : 4096 * p < 2 ^ 47 := by
  rw [mmapFixed_pages] at h
  obtain ⟨j, -, hj, rfl⟩ := mapFixed_changed addr _ 0 { task with mmapEnd := _ } p h
  rw [pageOf, pageAt, add]
  omega

theorem mmapFixed_kernel {addr length : Nat} (hAddr : addr % 4096 = 0)
    (hRange : ¬ (pageCount length = 0 ∨ addr % 2 ^ 48 + 4096 * pageCount length ≤ 2 ^ 47))
    (task : Task) : ∃ p, 2 ^ 47 ≤ 4096 * p ∧
      (mmapFixed { task with pages := fun _ => 0, frames := List.replicate (pageCount length) 4096 }
        addr length).2.pages p = 4096 := by
  -- the page in question is the first one, or the one at the border of the halves
  refine ⟨pageOf (pageAt addr ((2 ^ 47 - addr % 2 ^ 48) / 4096)), ?_, ?_⟩
  · rw [pageOf, pageAt, add]
    omega
  rw [mmapFixed_pages]
  apply mapFixed_mapped
  · simp
  · intro f hf
    exact List.eq_of_mem_replicate hf
  · right
    exact ⟨_, Nat.zero_le _, by omega, rfl⟩

/-- **What the two calls change.** `syscall_munmap` changes pages of the mappings only exactly if it does not accept a
range that wraps around the address space. A fixed anonymous `syscall_mmap` changes pages of the user half only
exactly if its range, in the 48 bits that are translated, ends there. -/
theorem changed_pages_iff (env : Env) (task : Task) (hTask : task.Ranged) (addr length : Nat)
    (hAddr : addr < 2 ^ 64) (hLength : length < 2 ^ 64) :
    ((∀ pages p, (syscallMunmap { task with pages := pages } addr length).2.pages p ≠ pages p →
        task.mmapStart ≤ 4096 * p ∧ 4096 * p < task.mmapEnd) ↔ ¬ (task.Unmaps addr length ∧ Wraps addr length)) ∧
    ∀ call : MmapCall, call.addr = addr → call.length = length → call.fixed = true → call.anonymous = true →
      ((∀ pages frames p, (syscallMmap env { task with pages := pages, frames := frames } call).2.pages p ≠ pages p →
          4096 * p < 2 ^ 47) ↔
        (addr % 4096 = 0 → pageCount length = 0 ∨ addr % 2 ^ 48 + 4096 * pageCount length ≤ 2 ^ 47)) := by
  constructor
  · constructor
    · rintro hInside ⟨hUnmaps, hWraps⟩
      have hClear := syscallMunmap_wrapped { task with pages := fun _ => 4096 } hAddr hUnmaps hWraps
      have hLast := (hInside (fun _ => 4096) (pageOf (2 ^ 64 - 4096)) (by rw [hClear]; decide)).2
      have hUser := hTask.user
      rw [pageOf] at hLast
      omega
    · intro hNot pages p hChanged
      exact syscallMunmap_inside { task with pages := pages } ⟨hTask.aligned, hTask.user⟩ hLength
        (fun hUnmaps hWraps => hNot ⟨hUnmaps, hWraps⟩) hChanged
  · rintro call rfl rfl hFixed hAnon
    constructor
    · intro hInside hAligned
      by_contra hRange
      have hPos : call.length ≠ 0 := by
        intro hZero
        rw [hZero] at hRange
        exact hRange (Or.inl (by decide))
      obtain ⟨p, hp, hMapped⟩ := mmapFixed_kernel hAligned hRange task
      rw [← syscallMmap_fixed env _ hFixed hAnon hPos hAligned] at hMapped
      have := hInside _ _ p (by rw [hMapped]; decide)
      omega
    · intro hRange pages frames p hChanged
      by_cases hValid : call.length = 0 ∨ (call.addr ≠ 0 ∧ call.addr % 4096 ≠ 0)
      · rw [syscallMmap, if_pos hValid] at hChanged
        exact absurd rfl hChanged
      · have hAligned : call.addr % 4096 = 0 := by omega
        rw [syscallMmap_fixed env _ hFixed hAnon (by omega) hAligned] at hChanged
        exact mmapFixed_user hAligned (hRange hAligned) hChanged

def mappedTask : Task := { freshTask with mmapEnd := 0x60002000, pages := fun _ => 4096, frames := [8192] }

theorem mappedTask_ranged : mappedTask.Ranged := ⟨by decide, by decide⟩

theorem changed_pages_iff_two_pages : mappedTask.Ranged ∧ ∀ pages p,
      (syscallMunmap { mappedTask with pages := pages } 0x60000000 5000).2.pages p ≠ pages p →
        0x60000000 ≤ 4096 * p ∧ 4096 * p < 0x60002000 := by
  refine ⟨mappedTask_ranged, ?_⟩
  apply (changed_pages_iff plainEnv mappedTask mappedTask_ranged 0x60000000 5000 (by decide)
    (by decide)).1.2
  intro h
  exact absurd h.2.1 (by decide)

/-- A length that reaches the end of the address space wraps to a range that ends at zero, and clears
the kernel's last page. A fixed mapping at the start of the kernel's half replaces its first page. -/
theorem changed_pages_kernel : mappedTask.pages (pageOf (2 ^ 64 - 4096)) = 4096 ∧
      (syscallMunmap mappedTask 0x60000000 (2 ^ 64 - 0x60000000)).2.pages (pageOf (2 ^ 64 - 4096)) = 0 ∧
      mappedTask.mmapEnd ≤ 4096 * pageOf (2 ^ 64 - 4096) ∧ mappedTask.pages (pageOf 0xFFFF800000000000) = 4096 ∧
      (syscallMmap plainEnv mappedTask ⟨0xFFFF800000000000, 4096, 3, 0x32, -1, 0⟩).2.pages
        (pageOf 0xFFFF800000000000) = 8192 ∧ 2 ^ 47 ≤ 4096 * pageOf 0xFFFF800000000000 := by
  have hUnmaps : mappedTask.Unmaps 0x60000000 (2 ^ 64 - 0x60000000) := by
    refine ⟨by decide, by decide, by decide, by decide⟩
  refine ⟨rfl, ?_, by decide, rfl, by decide +kernel, by decide⟩
  exact syscallMunmap_wrapped mappedTask (by decide) hUnmaps ⟨by decide, by decide⟩

end CoreX.Mem

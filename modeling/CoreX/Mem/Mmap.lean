import CoreX.Base.Word
import CoreX.Base.Memory

/-!
# The memory system calls (`syscalls_mem.rs`)

A task has the range of its mappings, the end of its heap, its memory and the translation of its pages. A page is
named by the address bits that `virtual_map` uses, the low 48. All arithmetic on arguments wraps. `task_adjust_heap`
and the `mmap` handlers of files are parameters.
-/

namespace CoreX.Mem

open CoreX.Memory

inductive Errno where
  | einval | ebadf | enosys | allocation
  deriving DecidableEq

/-- The task, with the fields of its `info_pd` and the frames that will be handed out. -/
structure Task where
  (mmapStart mmapEnd heapEnd : Nat)
  pages : Nat → Nat
  frames : List Nat
  mem : Buf

/-- The page of an address, after `virtual_map` has dropped the bits above the 48th. -/
def pageOf (virt : Nat) : Nat := virt % 2 ^ 48 / 4096

section
variable (pages : Nat → Nat) (virt phys : Nat)

def virtualMap : Nat → Nat :=
  Function.update pages (pageOf virt) (phys % 2 ^ 52 / 4096 * 4096)

theorem virtualMap_of_ne {pages : Nat → Nat} {virt phys p : Nat} (h : p ≠ pageOf virt) :
    virtualMap pages virt phys p = pages p :=
  Function.update_of_ne h _ _

theorem virtualMap_self : virtualMap pages virt phys (pageOf virt) = phys % 2 ^ 52 / 4096 * 4096 :=
  Function.update_self _ _ _

def virtualToPhysical : Nat :=
  if pages (pageOf virt) = 0 then 0 else pages (pageOf virt) + virt % 4096

end

structure Env where
  taskAdjustHeap : Task → Nat → Task
  getFile : Int → Option (Option (Nat → Nat → Nat → Nat → Nat → Nat))

structure MmapCall where
  (addr length prot flags : Nat)
  fd : Int
  pgoffset : Nat

def mapFixedFlag : Nat := 0x10

def mapAnonymousFlag : Nat := 0x20

def MmapCall.fixed (call : MmapCall) : Bool := call.flags &&& mapFixedFlag = mapFixedFlag

def MmapCall.anonymous (call : MmapCall) : Bool := call.flags &&& mapAnonymousFlag = mapAnonymousFlag

def pageCount (length : Nat) : Nat := Word.divRoundUp length 4096

def pageAt (addr i : Nat) : Nat := Word.add addr (4096 * i)

/-- The loop over the pages of a fixed mapping, from the `i`-th on. A failed allocation leaves the
pages before it mapped. -/
def mapFixed (addr : Nat) : Nat → Nat → Task → Option Errno × Task
  | 0, _, task => (none, task)
  | n + 1, i, task =>
    match task.frames with
    | [] => (some .allocation, task)
    | phys :: rest =>
      mapFixed addr n (i + 1)
        { task with frames := rest, pages := virtualMap task.pages (pageAt addr i) phys }

def mmapFixed (task : Task) (addr length : Nat) : Except Errno Nat × Task :=
  let pages := pageCount length
  let last := Word.add addr (4096 * pages)
  let task := { task with mmapEnd := max task.mmapEnd last }
  match mapFixed addr pages 0 task with
  | (some e, task) => (.error e, task)
  | (none, task) => (.ok addr, { task with mem := memset task.mem addr 0 (4096 * pages) })

section
variable (env : Env) (task : Task) (call : MmapCall)

def syscallMmap : Except Errno Nat × Task :=
  if call.length = 0 ∨ (call.addr ≠ 0 ∧ call.addr % 4096 ≠ 0) then (.error .einval, task)
  else
    let lengthAligned := 4096 * pageCount call.length
    if call.fixed && call.anonymous then mmapFixed task call.addr call.length
    else if call.fd = -1 && ! call.fixed && call.anonymous then
      let curr := task.mmapEnd
      let task := env.taskAdjustHeap task (Word.add task.mmapEnd lengthAligned)
      (.ok curr, { task with mem := memset task.mem curr 0 lengthAligned })
    else if call.fd ≠ -1 then
      match env.getFile call.fd with
      | none => (.error .ebadf, task)
      | some none => (.error .enosys, task)
      | some (some handler) =>
        (.ok (handler call.addr lengthAligned call.prot call.flags call.pgoffset), task)
    else (.error .enosys, task)

def unmapPages (addr : Nat) : Nat → Nat → (Nat → Nat) → (Nat → Nat)
  | 0, _, pages => pages
  | n + 1, i, pages =>
    unmapPages addr n (i + 1)
      (if virtualToPhysical pages (pageAt addr i) ≠ 0 then virtualMap pages (pageAt addr i) 0 else pages)

def Task.insideBounds (addr len : Nat) : Bool :=
  task.mmapStart ≤ addr && Word.add addr len ≤ task.mmapEnd

def syscallMunmap (addr len : Nat) : Except Errno Unit × Task :=
  if addr % 4096 ≠ 0 ∨ len = 0 then (.error .einval, task)
  else if ! task.insideBounds addr len then (.error .einval, task)
  else (.ok (), { task with pages := unmapPages addr (pageCount len) 0 task.pages })

/-! ## Anonymous mappings -/

/-- The kernel chooses the address. -/
def MmapCall.Unplaced : Prop := call.fd = -1 ∧ call.fixed = false ∧ call.anonymous = true

structure Region where
  (first last : Nat)
  deriving DecidableEq

/-- No address is in both. -/
def Region.Disjoint (a b : Region) : Prop := ∀ x, ¬ (a.first ≤ x ∧ x < a.last ∧ b.first ≤ x ∧ x < b.last)

def roundedLength (length : Nat) : Nat := 4096 * ((length + 4095) / 4096)

def mmapRegions (env : Env) : Task → List MmapCall → Option (List Region)
  | _, [] => some []
  | task, call :: calls =>
    match syscallMmap env task call with
    | (.error _, _) => none
    | (.ok ret, task) =>
      (mmapRegions env task calls).map (⟨ret, ret + roundedLength call.length⟩ :: ·)

/-- Adjusting the heap leaves the bounds of the mappings. -/
def Env.AdjustsHeap : Prop :=
  ∀ task e, (env.taskAdjustHeap task e).mmapStart = task.mmapStart ∧
    (env.taskAdjustHeap task e).mmapEnd = task.mmapEnd

end

theorem syscallMmap_unplaced {env : Env} (hEnv : env.AdjustsHeap) {task task' : Task}
    {call : MmapCall} (hCall : call.Unplaced) {ret : Nat} (h : syscallMmap env task call = (.ok ret, task')) :
    ret = task.mmapEnd ∧ task'.mmapEnd = task.mmapEnd ∧ 0 < call.length := by
  obtain ⟨hFd, hFixed, hAnon⟩ := hCall
  rw [syscallMmap] at h
  split at h
  · simp at h
  rename_i hValid
  simp only [hFixed, hAnon, hFd, Bool.not_false, Bool.and_true, decide_true,
    Bool.false_eq_true, if_false, if_true, Prod.mk.injEq, Except.ok.injEq] at h
  obtain ⟨hRet, hTask⟩ := h
  refine ⟨hRet.symm, ?_, by omega⟩
  rw [← hTask]
  exact (hEnv task _).2

theorem mmapRegions_unplaced {env : Env} (hEnv : env.AdjustsHeap) (calls : List MmapCall)
    (hCalls : ∀ call ∈ calls, call.Unplaced) :
    ∀ (task : Task) (regions : List Region), mmapRegions env task calls = some regions →
      regions.length = calls.length ∧ ∀ r ∈ regions, r.first = task.mmapEnd ∧ task.mmapEnd < r.last := by
  induction calls with
  | nil =>
    intro task regions h
    obtain rfl := Option.some.inj h
    simp
  | cons call calls ih =>
    intro task regions h
    rw [mmapRegions] at h
    split at h
    · exact absurd h (by simp)
    rename_i ret task' hMmap
    obtain ⟨hRet, hEnd, hPos⟩ := syscallMmap_unplaced hEnv (hCalls call (by simp)) hMmap
    obtain ⟨rest, hRest, rfl⟩ := Option.map_eq_some_iff.1 h
    obtain ⟨hLength, hFirst⟩ := ih (fun c hc => hCalls c (by simp [hc])) task' rest hRest
    rw [hEnd] at hFirst
    refine ⟨by simp [hLength], fun r hr => ?_⟩
    rcases List.mem_cons.1 hr with rfl | hr
    · refine ⟨hRet, ?_⟩
      show task.mmapEnd < ret + roundedLength call.length
      rw [hRet, roundedLength]
      omega
    · exact hFirst r hr

/-- **Anonymous mappings are disjoint only as long as there is one of them.** Every call returns the
end of the mappings, which none of them moves: any two regions start at the same byte, and the
second call clears what was stored in the first. -/
theorem mmapRegions_disjoint_iff (env : Env) (hEnv : env.AdjustsHeap) (task : Task)
    (calls : List MmapCall) (hCalls : ∀ call ∈ calls, call.Unplaced) (regions : List Region)
    (hRun : mmapRegions env task calls = some regions) : (∀ r ∈ regions, r.first = task.mmapEnd) ∧
      (regions.Pairwise Region.Disjoint ↔ calls.length ≤ 1) := by
  obtain ⟨hLength, hFirst⟩ := mmapRegions_unplaced hEnv calls hCalls task regions hRun
  refine ⟨fun r hr => (hFirst r hr).1, ?_⟩
  rw [← hLength]
  rcases regions with _ | ⟨r, _ | ⟨r', rest⟩⟩
  · simp
  · simp
  · obtain ⟨hr, hrLast⟩ := hFirst r (by simp)
    obtain ⟨hr', hrLast'⟩ := hFirst r' (by simp)
    have hNot : ¬ (r :: r' :: rest).Pairwise Region.Disjoint := by
      intro hPairwise
      have hDisjoint := (List.pairwise_cons.1 hPairwise).1 r' (by simp)
      exact hDisjoint task.mmapEnd ⟨by omega, hrLast, by omega, hrLast'⟩
    simp only [hNot, List.length_cons, false_iff]
    omega

def freshTask : Task where
  mmapStart := 0x60000000
  mmapEnd := 0x60000000
  heapEnd := 0x40000000
  pages := fun _ => 0
  frames := []
  mem := fun _ => 0

def plainEnv : Env where
  taskAdjustHeap task e := { task with heapEnd := e }
  getFile _ := none

def anonymousCall (length : Nat) : MmapCall := ⟨0, length, 3, 0x22, -1, 0⟩

theorem mmapRegions_disjoint_iff_one :
    mmapRegions plainEnv freshTask [anonymousCall 5000] = some [⟨0x60000000, 0x60002000⟩] ∧
      [(⟨0x60000000, 0x60002000⟩ : Region)].Pairwise Region.Disjoint := by
  have hRun : mmapRegions plainEnv freshTask [anonymousCall 5000] =
      some [⟨0x60000000, 0x60002000⟩] := by decide +kernel
  refine ⟨hRun, ?_⟩
  have hCalls : ∀ call ∈ [anonymousCall 5000], call.Unplaced := List.forall_mem_singleton.2 ⟨rfl, rfl, rfl⟩
  exact (mmapRegions_disjoint_iff plainEnv (fun _ _ => ⟨rfl, rfl⟩) freshTask _ hCalls _ hRun).2.2
    (by decide)

/-- Two mappings get the same bytes, and what the task stored in the first is gone. -/
theorem mmapRegions_same_bytes : mmapRegions plainEnv freshTask [anonymousCall 4096, anonymousCall 4096] =
        some [⟨0x60000000, 0x60001000⟩, ⟨0x60000000, 0x60001000⟩] ∧
      (syscallMmap plainEnv { freshTask with mem := Function.update freshTask.mem 0x60000000 7 }
        (anonymousCall 4096)).2.mem 0x60000000 = 0 := by
  constructor <;> decide +kernel

end CoreX.Mem

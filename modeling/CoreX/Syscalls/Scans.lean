import CoreX.Base.Loop
import Mathlib.Algebra.Group.Nat.Defs

/-!
# The scans of the task list in `wait4` and `exit_group` (`syscalls_proc.rs`)

Both functions start a loop at the first task that goes on as long as there is a task, and nothing in the loop takes
it to the next one (`scans_return_iff`).
-/

namespace CoreX.Scans

section Stays
variable {π σ ρ : Type}

/-- A loop that ends where there is no task, and stays at the task that it looks at. -/
structure Stays (turn : Option π × σ → Option (ρ ⊕ Option π × σ)) : Prop where
  ends : ∀ x, ∃ r, turn (none, x) = some (.inl r)
  stays : ∀ p x, turn (some p, x) = none ∨ ∃ y, turn (some p, x) = some (.inr (some p, y))

variable {turn : Option π × σ → Option (ρ ⊕ Option π × σ)}

theorem Stays.browse (h : Stays turn) {t u : Option π × σ} (hturn : turn t = some (.inr u)) : u.1 = t.1 := by
  obtain ⟨browse, x⟩ := t
  cases browse with
  | none =>
    obtain ⟨r, hr⟩ := h.ends x
    rw [hr] at hturn
    cases hturn
  | some p =>
    rcases h.stays p x with hnone | ⟨y, hy⟩
    · rw [hnone] at hturn
      cases hturn
    · rw [hy] at hturn
      cases hturn
      rfl

theorem Stays.visits (h : Stays turn) {s t : Option π × σ} (ht : Loop.Visits turn s t) : t.1 = s.1 :=
  ht.invariant (fun u => u.1 = s.1) (fun _ _ hu hturn => (h.browse hturn).trans hu) rfl

theorem Stays.returns_iff (h : Stays turn) (browse : Option π) (x : σ) :
    Loop.Returns turn (browse, x) ↔ browse = none := by
  rw [Loop.returns_iff_exists]
  constructor
  · rintro ⟨⟨b, y⟩, ht, r, hr⟩
    obtain rfl : b = browse := h.visits ht
    cases b with
    | none => rfl
    | some p => rcases h.stays p y with hy | ⟨z, hy⟩ <;> rw [hy] at hr <;> cases hr
  · rintro rfl
    exact ⟨_, .refl _, h.ends x⟩

end Stays

inductive TaskState where
  | ready
  | other
  deriving DecidableEq

structure Task (π : Type) where
  id : Nat
  tgid : Nat
  state : TaskState
  parent : Option π
  childrenTerminatedAmnt : Nat
  sigPendingList : Nat → Bool

structure Tasks (π : Type) where
  list : List π
  task : π → Task π
  currentTask : π

inductive Errno where
  | echild
  deriving DecidableEq

def sigkill : Nat := 9

variable {π : Type} [DecidableEq π]

section
variable (s : Tasks π)

def Tasks.firstTask : Option π := s.list.head?

def wait4Turn : Option π × Nat → Option (Nat ⊕ Option π × Nat)
  | (none, amnt) => some (.inl amnt)
  | (some p, amnt) =>
    if (s.task p).state = .ready ∧ (s.task p).parent = some s.currentTask then
      if amnt + 1 < 2 ^ 31 then some (.inr (some p, amnt + 1)) else none
    else some (.inr (some p, amnt))

def syscallWait4 (fuel : Nat) : Option (Except Errno Nat) :=
  if (s.task s.currentTask).childrenTerminatedAmnt = 0 then
    (Loop.exec (wait4Turn s) fuel (s.firstTask, 0)).map fun amnt => if amnt = 0 then .error .echild else .ok 0
  else some (.ok 0)

def exitGroupTurn : Option π × Tasks π → Option (Tasks π ⊕ Option π × Tasks π)
  | (none, s) => some (.inl s)
  | (some p, s) =>
    if (s.task p).tgid = (s.task s.currentTask).tgid ∧ (s.task p).id ≠ (s.task s.currentTask).id then
      let sigPendingList := Function.update (s.task p).sigPendingList sigkill true
      some (.inr (some p, { s with task := Function.update s.task p { s.task p with sigPendingList } }))
    else some (.inr (some p, s))

def syscallExitGroup (fuel : Nat) : Option (Tasks π) := Loop.exec exitGroupTurn fuel (s.firstTask, s)

theorem wait4Turn_stays : Stays (wait4Turn s) := by
  refine ⟨fun amnt => ⟨amnt, rfl⟩, fun p amnt => ?_⟩
  simp only [wait4Turn]
  split_ifs
  · exact .inr ⟨_, rfl⟩
  · exact .inl rfl
  · exact .inr ⟨_, rfl⟩

end

theorem exitGroupTurn_stays : Stays (exitGroupTurn : Option π × Tasks π → _) := by
  refine ⟨fun s => ⟨s, rfl⟩, fun p s => .inr ?_⟩
  simp only [exitGroupTurn]
  split_ifs <;> exact ⟨_, rfl⟩

/-- **The scans come to an end** only where there is no task at all, which is never so as the current task is in the
list, or where `wait4` needs no scan. They never look at another task than the first one. -/
theorem scans_return_iff (s : Tasks π) : ((∃ fuel r, syscallWait4 s fuel = some r) ↔
      s.list = [] ∨ (s.task s.currentTask).childrenTerminatedAmnt ≠ 0) ∧
    ((∃ fuel r, syscallExitGroup s fuel = some r) ↔ s.list = []) ∧
    (∀ t, Loop.Visits (wait4Turn s) (s.firstTask, 0) t → t.1 = s.firstTask) ∧
    ∀ t, Loop.Visits exitGroupTurn (s.firstTask, s) t → t.1 = s.firstTask := by
  have hempty : s.firstTask = none ↔ s.list = [] := List.head?_eq_none_iff
  refine ⟨?_, (exitGroupTurn_stays.returns_iff _ s).trans hempty, fun t ht => (wait4Turn_stays s).visits ht,
    fun t ht => exitGroupTurn_stays.visits ht⟩
  unfold syscallWait4
  by_cases hamnt : (s.task s.currentTask).childrenTerminatedAmnt = 0
  · have hloop := ((wait4Turn_stays s).returns_iff s.firstTask 0).trans hempty
    simpa [hamnt, Option.map_eq_some_iff, Loop.Returns] using hloop
  · simp [hamnt]

def aloneTask : Tasks Unit := ⟨[()], fun _ => ⟨1, 1, .ready, none, 0, fun _ => false⟩, ()⟩

theorem scans_aloneTask : aloneTask.currentTask ∈ aloneTask.list ∧ (∀ fuel, syscallWait4 aloneTask fuel = none) ∧
    ∀ fuel, syscallExitGroup aloneTask fuel = none := by
  have hwait : ∀ fuel, Loop.exec (wait4Turn aloneTask) fuel (some (), 0) = none :=
    Loop.exec_of_endless (Loop.endless_of_self rfl)
  refine ⟨List.mem_singleton_self _, fun fuel => congrArg (Option.map _) (hwait fuel), ?_⟩
  exact Loop.exec_of_endless (Loop.endless_of_self rfl)

end CoreX.Scans

import CoreX.Base.Run
import Mathlib.Logic.Function.Basic
import Mathlib.Tactic.SplitIfs

/-!
# Waiting for an event counter (`eventfd.rs`)

`eventfd_read` and `eventfd_write` lock the `EventFd` and call `read` and `write` with the guard. Where those have to
wait, they call `hand_control` in a loop, and the guard lives on (`waits_without_mutex_iff`). A step takes the mutex,
tests the condition of a loop and goes as far as the result says, or comes back from `hand_control`.
-/

namespace CoreX.Eventfd

open Function Option

inductive Errno where
  | eintr
  | ewouldblock
  | einval
  deriving DecidableEq

def maxCounter : UInt64 := 0xFFFFFFFFFFFFFFFF

inductive Call where
  | read (nonblock : Bool)
  | write (value : UInt64) (nonblock : Bool)
  deriving DecidableEq

variable {τ : Type}

def signalsPendingQuick (_task : τ) : Bool := false

/-- What `read` and `write` do at the test of their loops: return with a new counter, or call `hand_control`. -/
def turn (task : τ) (counter : UInt64) : Call → Option (Except Errno UInt64 × UInt64)
  | .read nonblock =>
    if counter = 0 then
      if signalsPendingQuick task then some (.error .eintr, counter)
      else if nonblock then some (.error .ewouldblock, counter)
      else none
    else some (.ok counter, 0)
  | .write value nonblock =>
    if value = maxCounter then some (.error .einval, counter)
    else if value > maxCounter - counter then
      if signalsPendingQuick task then some (.error .eintr, counter)
      else if nonblock then some (.error .ewouldblock, counter)
      else none
    else some (.ok 0, counter + value)

inductive Pc where
  | user (result : Option (Except Errno UInt64))
  /-- about to lock the mutex -/
  | lock (call : Call)
  /-- at the test of the loop -/
  | test (call : Call)
  /-- in `hand_control` -/
  | waiting (call : Call)

structure State (τ : Type) where
  counter : UInt64
  owner : Option τ
  pc : τ → Pc

def start (init : UInt64) : State τ := ⟨init, none, fun _ => .user none⟩

inductive Action (τ : Type) where
  | call (t : τ) (call : Call)
  | run (t : τ)

variable [DecidableEq τ]

section
variable (s : State τ) (t : τ)

def State.goto (pc : Pc) : State τ := { s with pc := Function.update s.pc t pc }

/-- The wrapper's guard is dropped when the method returns. -/
def step : Action τ → Option (State τ)
  | .call t call =>
    match s.pc t with
    | .user _ => some (s.goto t (.lock call))
    | _ => none
  | .run t =>
    match s.pc t with
    | .user _ => none
    | .lock call => if s.owner = none then some { s.goto t (.test call) with owner := some t } else none
    | .test call =>
      match turn t s.counter call with
      | some (result, counter) => some { s.goto t (.user (some result)) with counter, owner := none }
      | none => some (s.goto t (.waiting call))
    | .waiting call => some (s.goto t (.test call))

/-- The task waits for the condition. -/
def State.Waits : Prop := ∃ call, s.pc t = .waiting call

def Pc.Inside : Pc → Prop
  | .user _ | .lock _ => False
  | .test _ | .waiting _ => True

def Guarded : Prop := ∀ t, (s.pc t).Inside → s.owner = some t

theorem Guarded.goto {s : State τ} (h : Guarded s) {t : τ} {pc : Pc} {counter : UInt64} {owner : Option τ}
    (ht : pc.Inside → owner = some t) (hother : ∀ u, u ≠ t → s.owner = some u → owner = some u) :
    Guarded { s.goto t pc with counter, owner } := by
  intro u hu
  by_cases hut : u = t
  · rw [hut] at hu ⊢
    change Pc.Inside (update s.pc t pc t) at hu
    rw [update_self] at hu
    exact ht hu
  · change Pc.Inside (update s.pc t pc u) at hu
    rw [update_of_ne hut] at hu
    exact hother u hut (h u hu)

theorem guarded_step (a : Action τ) (s' : State τ) (h : Guarded s) (hstep : step s a = some s') : Guarded s' := by
  cases a with
  | call t call =>
    simp only [step] at hstep
    split at hstep
    · obtain rfl := some.inj hstep
      exact h.goto False.elim fun _ _ => id
    · cases hstep
  | run t =>
    simp only [step] at hstep
    cases hpc : s.pc t with
    | user result =>
      rw [hpc] at hstep
      cases hstep
    | lock call =>
      simp only [hpc] at hstep
      split_ifs at hstep with hfree
      obtain rfl := some.inj hstep
      refine h.goto (fun _ => rfl) fun u _ howner => ?_
      rw [hfree] at howner
      cases howner
    | test call =>
      have howner : s.owner = some t := h t (by rw [hpc]; trivial)
      simp only [hpc] at hstep
      split at hstep
      · obtain rfl := some.inj hstep
        refine h.goto False.elim fun u hu howner' => ?_
        exact absurd (some.inj (howner'.symm.trans howner)) hu
      · obtain rfl := some.inj hstep
        exact h.goto (fun _ => howner) fun _ _ => id
    | waiting call =>
      rw [hpc] at hstep
      obtain rfl := some.inj hstep
      exact h.goto (fun _ => h t (by rw [hpc]; trivial)) fun _ _ => id

end

/-- **No task waits with the mutex** only where no task waits. Where one does, no other task gets the mutex, neither a
reader nor the writer whose write would end the wait. -/
theorem waits_without_mutex_iff {init : UInt64} {actions : List (Action τ)} {s : State τ}
    (hrun : Run.run step (start init) actions = some s) : ((∀ t, s.Waits t → s.owner ≠ some t) ↔ ∀ t, ¬ s.Waits t) ∧
      ∀ t, s.Waits t → ∀ u call, s.pc u = .lock call → step s (.run u) = none := by
  have hguarded : Guarded s := Run.run_invariant guarded_step (fun _ => False.elim) hrun
  have howner : ∀ t, s.Waits t → s.owner = some t := by
    rintro t ⟨call, hpc⟩
    exact hguarded t (by rw [hpc]; trivial)
  refine ⟨⟨fun h t ht => h t ht (howner t ht), fun h t ht => absurd ht (h t)⟩, fun t ht u call hpc => ?_⟩
  simp only [step, hpc, howner t ht]
  rfl

theorem waits_without_mutex_read : ∃ s, Run.run step (start 1 : State (Fin 2))
    [.call 0 (.read false), .run 0, .run 0] = some s ∧ s.pc 0 = .user (some (.ok 1)) ∧
      ∀ t, s.Waits t → s.owner ≠ some t := by
  have hrun : Run.run step (start 1 : State (Fin 2)) [.call 0 (.read false), .run 0, .run 0] = some _ := rfl
  refine ⟨_, hrun, rfl, (waits_without_mutex_iff hrun).1.2 ?_⟩
  rintro t ⟨call, hpc⟩
  match t with
  | 0 | 1 => cases hpc

/-- A reader waits for the counter, and the writer for the mutex that the reader has. -/
theorem reader_waits_with_mutex : ∃ s, Run.run step (start 0 : State (Fin 2))
    [.call 0 (.read false), .call 1 (.write 1 false), .run 0, .run 0] = some s ∧
      s.Waits 0 ∧ s.owner = some 0 ∧ step s (.run 1) = none :=
  ⟨_, rfl, ⟨_, rfl⟩, rfl, rfl⟩

end CoreX.Eventfd

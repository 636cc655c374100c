import CoreX.Pipe.Model
import Mathlib.Data.List.Basic

/-!
# The ends of a pipe and its counters

`PipeEnd` derives `Clone`, which copies the handle and leaves `read_fds` and `write_fds` as they are, while every
`close` takes one off. The state here is that of the pipe together with the number of handles of each end that are
open and that have been closed; `true` is the write end, as in `PipeEnd`.
-/

namespace CoreX.Pipe

open Option

variable {τ : Type} {data : Bytes}

section
variable (pipe : PipeInfo)

def PipeInfo.fds (write : Bool) : Nat :=
  if write then pipe.writeFds else pipe.readFds

structure HandleState (τ : Type) where
  sys : PipeState τ
  opened : Bool → Nat
  closed : Bool → Nat

def HandleState.init (τ : Type) : HandleState τ := ⟨PipeState.init τ, fun _ => 1, fun _ => 0⟩

inductive HandleAction (τ : Type) where
  | clone (write : Bool)
  | act (action : Action τ)

def Action.handle : Action τ → Option Bool
  | .read _ _ => some false
  | .write _ _ => some true
  | .close w => some w
  | .resume _ => none
  | .spurious _ => none

def Action.closes : Action τ → Bool → Nat
  | .close w, side => if side = w then 1 else 0
  | _, _ => 0

/-- Clones and calls are made on handles that are open, so that every handle is closed at most once. -/
def handleStep [DecidableEq τ] (s : HandleState τ) : HandleAction τ → Option (HandleState τ)
  | .clone write =>
    if s.opened write = 0 then none
    else some { s with opened := Function.update s.opened write (s.opened write + 1) }
  | .act action =>
    if action.handle.any (fun write => s.opened write = 0) then none
    else (actionStep s.sys action).map fun sys =>
      { sys := sys
        opened := fun side => s.opened side - action.closes side
        closed := fun side => s.closed side + action.closes side }

theorem writeLoop_keeps (fuel : Nat) : ∀ (pipe pipe' : PipeInfo)
    (written written' : Nat) (notify notify' : Bool) (ending : WriteEnd),
    writeLoop data fuel pipe written notify = some (ending, pipe', written', notify') →
    (∀ write, pipe'.fds write = pipe.fds write) ∧ written ≤ written' := by
  induction fuel with
  | zero => intro pipe pipe' written written' notify notify' ending h; simp [writeLoop] at h
  | succ fuel ih =>
    intro pipe pipe' written written' notify notify' ending h
    rw [writeLoop] at h
    split at h
    · split at h
      · obtain ⟨-, rfl, rfl, -⟩ := h
        exact ⟨fun _ => rfl, Nat.le_refl _⟩
      · obtain ⟨hFds, hLe⟩ := ih _ _ _ _ _ _ _ h
        exact ⟨hFds, Nat.le_trans (Nat.le_add_right _ _) hLe⟩
    · obtain ⟨-, rfl, rfl, -⟩ := h
      exact ⟨fun _ => rfl, Nat.le_refl _⟩

theorem enterRead_fds [DecidableEq τ] (s : PipeState τ) (t : τ) (len : Nat) (write : Bool) :
    (enterRead s t len).pipe.fds write = s.pipe.fds write := by
  rw [enterRead, readBody]
  split_ifs <;> rfl

theorem enterWrite_fds [DecidableEq τ] {s s' : PipeState τ} {t : τ} {call written : Nat}
    (h : enterWrite s t call data written = some s') (write : Bool) : s'.pipe.fds write = s.pipe.fds write := by
  obtain ⟨⟨ending, pipe', written', notify⟩, hLoop, rfl⟩ := map_eq_some_iff.1 h
  exact (writeLoop_keeps _ _ _ _ _ _ _ _ hLoop).1 write

theorem actionStep_fds [DecidableEq τ] {s s' : PipeState τ} {action : Action τ}
    (h : actionStep s action = some s') (write : Bool) :
    s'.pipe.fds write = s.pipe.fds write - action.closes write := by
  cases action with
  | read t len =>
    rw [actionStep] at h
    split at h
    · obtain rfl := some.inj h
      exact enterRead_fds s t len write
    · exact absurd h (by simp)
  | write t data =>
    rw [actionStep] at h
    split at h
    · exact enterWrite_fds h write
    · exact absurd h (by simp)
  | close w =>
    obtain rfl := some.inj h
    cases w <;> cases write <;> rfl
  | resume t =>
    rw [actionStep] at h
    split at h
    · obtain rfl := some.inj h
      exact enterRead_fds s t _ write
    · exact enterWrite_fds h write
    · exact absurd h (by simp)
  | spurious t =>
    rw [actionStep] at h
    split at h
    · obtain rfl := some.inj h
      rfl
    · obtain rfl := some.inj h
      rfl
    · exact absurd h (by simp)

/-- A counter is one until the first handle of its end is closed and zero from then on, however many
handles there are. -/
structure HandleState.Counted (s : HandleState τ) : Prop where
  fds : ∀ write, s.sys.pipe.fds write = 1 - s.closed write
  live : ∀ write, s.closed write = 0 → s.opened write ≠ 0

theorem counted_init : (HandleState.init τ).Counted where
  fds write := by cases write <;> rfl
  live _ _ := Nat.one_ne_zero

theorem handleStep_counted [DecidableEq τ] (s : HandleState τ) (action : HandleAction τ)
    (s' : HandleState τ) (hs : s.Counted) (h : handleStep s action = some s') : s'.Counted := by
  cases action with
  | clone write =>
    rw [handleStep] at h
    split at h
    · exact absurd h (by simp)
    obtain rfl := some.inj h
    refine ⟨hs.fds, fun w hw => ?_⟩
    by_cases hEnd : w = write
    · subst hEnd
      simp
    · simpa [Function.update_of_ne hEnd] using hs.live w hw
  | act action =>
    rw [handleStep] at h
    split at h
    · exact absurd h (by simp)
    obtain ⟨sys, hSys, rfl⟩ := map_eq_some_iff.1 h
    refine ⟨fun write => ?_, fun write hNone => ?_⟩
    · rw [actionStep_fds hSys write, hs.fds write, Nat.sub_sub]
    · have hZero : s.closed write + action.closes write = 0 := hNone
      have hOpen := hs.live write (by omega)
      show s.opened write - action.closes write ≠ 0
      omega

/-! ## Reads and writes -/

/-- A read returns 0. -/
def ReadsZero (len : Nat) : Prop :=
  match readBody pipe len with
  | .wait => False
  | .eof => True
  | .data bytes _ => bytes = []

theorem readsZero_iff {len : Nat} (hLen : 0 < len) : ReadsZero pipe len ↔ pipe.buf = [] ∧ pipe.writeFds = 0 := by
  rw [ReadsZero, readBody]
  split_ifs with hEmpty hFds
  · simp [hEmpty, hFds]
  · simp [hFds]
  · simp [hEmpty]
    omega

/-- A write that has appended nothing yet returns `BrokenPipe`. -/
def BreaksEmpty (data : Bytes) : Prop :=
  ∃ pipe' notify, writeLoop data (data.length + 1) pipe 0 false = some (.brokenPipe, pipe', 0, notify)

theorem breaksEmpty_iff (hData : data ≠ []) :
    BreaksEmpty pipe data ↔ pipeBuff ≤ pipe.buf.length ∧ pipe.readFds = 0 := by
  have hPos : 0 < data.length := List.length_pos_iff.2 hData
  rw [BreaksEmpty, writeLoop, if_pos hPos]
  by_cases hFull : pipeBuff ≤ pipe.buf.length
  · by_cases hFds : pipe.readFds = 0
    · simp [hFull, hFds]
    · simp [hFull, hFds]
  · -- there is room: the first iteration appends something, which the end of the loop still counts
    rw [if_neg hFull]
    refine ⟨fun ⟨pipe', notify, h⟩ => ?_, fun h => absurd h.1 hFull⟩
    have hLe := (writeLoop_keeps _ _ _ _ _ _ _ _ h).2
    omega

end

/-- **When the counters are right.** A read returns `Ok(0)` only with all handles of the write end closed, unless the
pipe is empty and some of these handles are closed and some open. A write of a byte returns `BrokenPipe` with nothing
appended exactly with all handles of the read end closed, if the pipe is full and none or all of them are closed, or
if it has room and one is open. -/
theorem handles_reads_writes_iff [DecidableEq τ] (actions : List (HandleAction τ)) (s : HandleState τ)
    (hRun : Run.run handleStep (HandleState.init τ) actions = some s) :
    ((∀ len, 0 < len → ReadsZero s.sys.pipe len → s.opened true = 0 ∧ s.sys.pipe.buf = []) ↔
        (s.sys.pipe.buf = [] → s.closed true = 0 ∨ s.opened true = 0)) ∧
      ((∀ data, data ≠ [] → (BreaksEmpty s.sys.pipe data ↔ s.opened false = 0)) ↔
        if pipeBuff ≤ s.sys.pipe.buf.length then s.closed false = 0 ∨ s.opened false = 0
        else s.opened false ≠ 0) := by
  have hCounted := Run.run_invariant handleStep_counted counted_init hRun
  have hWrite : s.sys.pipe.writeFds = 1 - s.closed true := hCounted.fds true
  have hRead : s.sys.pipe.readFds = 1 - s.closed false := hCounted.fds false
  have hLive := hCounted.live false
  constructor
  · constructor
    · intro hZero hEmpty
      by_cases hClosed : s.closed true = 0
      · exact Or.inl hClosed
      · right
        have hEof := (readsZero_iff s.sys.pipe Nat.one_pos).2 ⟨hEmpty, by omega⟩
        exact (hZero 1 Nat.one_pos hEof).1
    · intro h len hLen hZero
      obtain ⟨hEmpty, hFds⟩ := (readsZero_iff s.sys.pipe hLen).1 hZero
      rcases h hEmpty with hNone | hAll
      · omega
      · exact ⟨hAll, hEmpty⟩
  · have hBreaks : (∀ data, data ≠ [] → (BreaksEmpty s.sys.pipe data ↔ s.opened false = 0)) ↔
        (pipeBuff ≤ s.sys.pipe.buf.length ∧ s.sys.pipe.readFds = 0 ↔ s.opened false = 0) := by
      constructor
      · intro h
        rw [← breaksEmpty_iff s.sys.pipe (List.cons_ne_nil 0 [])]
        exact h [0] (List.cons_ne_nil 0 [])
      · intro h data hData
        rw [breaksEmpty_iff s.sys.pipe hData]
        exact h
    rw [hBreaks, hRead]
    split_ifs with hFull
    · simp only [hFull, true_and]
      by_cases hClosed : s.closed false = 0
      · simp [hClosed, hLive hClosed]
      · have hZero : 1 - s.closed false = 0 := by omega
        simp [hClosed, hZero]
    · simp [hFull]

/-- Both ends are cloned, two bytes are written and read, and both handles of the write end and one of the read end
are closed: both halves hold. -/
theorem handles_reads_writes_iff_cloned : ∃ s, Run.run handleStep (HandleState.init Unit)
        [.clone true, .clone false, .act (.write () [1, 2]), .act (.close true), .act (.read () 2),
          .act (.close false), .act (.close true)] = some s ∧
      s.sys.pipe = ⟨[], 0, 0⟩ ∧ s.opened true = 0 ∧ s.opened false = 1 ∧
      (∀ len, 0 < len → ReadsZero s.sys.pipe len → s.opened true = 0 ∧ s.sys.pipe.buf = []) ∧
      ∀ data, data ≠ [] → (BreaksEmpty s.sys.pipe data ↔ s.opened false = 0) := by
  refine ⟨_, rfl, rfl, rfl, rfl, ?_⟩
  have hBoth := handles_reads_writes_iff [.clone true, .clone false, .act (.write () [1, 2]), .act (.close true),
    .act (.read () 2), .act (.close false), .act (.close true)] _ rfl
  exact ⟨hBoth.1.2 fun _ => Or.inr rfl, hBoth.2.2 (by decide)⟩

/-- A clone of the write end is closed and the other is open: a read says that the file has ended.
The read end is closed: a write goes into a pipe that nobody can read. -/
theorem handles_counted_wrong :
    (∃ s, Run.run handleStep (HandleState.init Unit) [.clone true, .act (.close true)] = some s ∧
      s.opened true = 1 ∧ ReadsZero s.sys.pipe 1) ∧
    (∃ s, Run.run handleStep (HandleState.init Unit) [.act (.close false)] = some s ∧
      s.opened false = 0 ∧ ¬ BreaksEmpty s.sys.pipe [7]) := by
  constructor
  · refine ⟨_, rfl, ?_, ?_⟩
    · rfl
    · rw [readsZero_iff _ Nat.one_pos]
      exact ⟨rfl, rfl⟩
  · refine ⟨_, rfl, ?_, ?_⟩
    · rfl
    rw [breaksEmpty_iff _ (List.cons_ne_nil 7 [])]
    decide

end CoreX.Pipe

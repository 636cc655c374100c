import CoreX.Base.Run
import Mathlib.Data.Fintype.Defs

/-!
# Futexes (`syscalls/flutex.rs`)

`futex_syscall` as the steps of its callers. A step takes one lock, or does what its task does next up to where it
needs another lock. A lock that somebody has is not taken again, not even by its holder.

The types `Wait` and `Sweep` are the arguments of a call, and the `Pc` of a task is where it is in the call.
`FUTEX_WAKE` and `FUTEX_REQUEUE` share their steps. An address without a futex is one with an empty list; nobody takes
a futex away during a call, so the address stands for it.
-/

namespace CoreX.Futex

open Function Option

inductive TaskState where
  | ready
  | futex
  | waitingInput
  deriving DecidableEq

structure Task where
  state : TaskState
  forcefulWakeupTime : Option Nat

inductive Errno where
  | einval
  | eagain
  | etimedout
  | enosys
  deriving DecidableEq

/-- A pointer to a `FutexAsleep`: the task that created it, which is its field `task` for good, and how many
the task had created before. -/
structure FutexAsleep (τ : Type) where
  task : τ
  serial : Nat
  deriving DecidableEq

structure Wait where
  addr : Nat
  value : UInt32
  utime : Option Nat

structure Sweep where
  addr : Nat
  value : UInt32
  requeue : Option (Nat × UInt32)

structure Cursor where
  i : Nat
  awokenCount : Nat
  movedCount : Nat

inductive WaitPc (τ : Type) where
  /-- about to read the value at the address -/
  | read
  /-- about to lock the map of the futexes, which `found` has locked -/
  | find
  | found
  /-- about to lock the futex, which `push` has locked -/
  | lock
  | push
  /-- about to lock its task, which `set` has locked -/
  | task (asleep : FutexAsleep τ)
  | set (asleep : FutexAsleep τ)
  /-- in the loop: about to lock its task, which `check` has locked -/
  | loop (asleep : FutexAsleep τ)
  | check (asleep : FutexAsleep τ)
  /-- behind the loop: about to lock the futex again, and then the entry, and then with both of them -/
  | relock (asleep : FutexAsleep τ)
  | asleep (asleep : FutexAsleep τ)
  | decide (asleep : FutexAsleep τ)

inductive SweepPc (τ : Type) where
  | find
  | found
  | find2
  | found2
  /-- about to lock the futex -/
  | lock
  /-- about to lock the second futex -/
  | lock2
  /-- at the head of the loop -/
  | next (c : Cursor)
  /-- about to lock an entry, which `decide` has locked -/
  | entry (c : Cursor) (asleep : FutexAsleep τ)
  | decide (c : Cursor) (asleep : FutexAsleep τ)
  /-- about to lock the entry's task, which `mark` has locked -/
  | task (c : Cursor) (asleep : FutexAsleep τ)
  | mark (c : Cursor) (asleep : FutexAsleep τ)

inductive Pc (τ : Type) where
  | user (result : Option (Except Errno Nat))
  | wait (w : Wait) (p : WaitPc τ)
  | sweep (k : Sweep) (p : SweepPc τ)

inductive UserOp where
  | store (addr : Nat) (value : UInt32)
  | futex (addr : Nat) (op value : UInt32) (utime : Option Nat) (addr2 : Option Nat) (value3 : UInt32)

def futexWait : UInt32 := 0

def futexWake : UInt32 := 1

def futexRequeue : UInt32 := 2

def futexSyscall {τ : Type} (addr : Nat) (op value : UInt32) (utime : Option Nat) (addr2 : Option Nat)
    (value3 : UInt32) : Pc τ :=
  if addr = 0 ∨ addr % 4 ≠ 0 then .user (some (.error .einval))
  else if op = futexWait then .wait ⟨addr, value, utime⟩ .read
  else if op = futexWake then .sweep ⟨addr, value, none⟩ .find
  else if op = futexRequeue then
    match addr2 with
    | none => .user (some (.error .einval))
    | some addr2 => .sweep ⟨addr, value, some (addr2, value3)⟩ .find
  else .user (some (.error .enosys))

theorem futexSyscall_cases {τ : Type} (addr : Nat) (op value : UInt32) (utime addr2 : Option Nat) (value3 : UInt32) :
    (∃ result, (futexSyscall addr op value utime addr2 value3 : Pc τ) = .user result) ∨
      (∃ w, (futexSyscall addr op value utime addr2 value3 : Pc τ) = .wait w .read) ∨
      ∃ k, (futexSyscall addr op value utime addr2 value3 : Pc τ) = .sweep k .find ∧ k.addr = addr ∧
        ∀ r ∈ k.requeue, op = futexRequeue ∧ addr2 = some r.1 := by
  unfold futexSyscall
  split_ifs with haddr hwait hwake hrequeue
  · exact .inl ⟨_, rfl⟩
  · exact .inr (.inl ⟨_, rfl⟩)
  · exact .inr (.inr ⟨_, rfl, rfl, fun r hr => nomatch hr⟩)
  · cases addr2 with
    | none => exact .inl ⟨_, rfl⟩
    | some b =>
      refine .inr (.inr ⟨_, rfl, rfl, fun r hr => ⟨hrequeue, ?_⟩⟩)
      obtain rfl := some.inj hr
      rfl
  · exact .inl ⟨_, rfl⟩

/-! ## Locks -/

inductive Lock (τ : Type) where
  | futexes
  | futex (addr : Nat)
  | asleep (asleep : FutexAsleep τ)
  | task (t : τ)
  deriving DecidableEq

variable {τ : Type}

def Sweep.locks (k : Sweep) : List (Lock τ) := .futex k.addr :: (k.requeue.map fun r => .futex r.1).toList

def Pc.held (t : τ) : Pc τ → List (Lock τ)
  | .user _ => []
  | .wait w p =>
    match p with
    | .found => [.futexes]
    | .push | .asleep _ => [.futex w.addr]
    | .set _ | .check _ => [.task t]
    | .decide asleep => [.futex w.addr, .asleep asleep]
    | .read | .find | .lock | .task _ | .loop _ | .relock _ => []
  | .sweep k p =>
    match p with
    | .found | .found2 => [.futexes]
    | .lock2 => [.futex k.addr]
    | .next _ | .entry _ _ => k.locks
    | .decide _ asleep | .task _ asleep => .asleep asleep :: k.locks
    | .mark _ asleep => .task asleep.task :: .asleep asleep :: k.locks
    | .find | .find2 | .lock => []

def Pc.wanted (t : τ) : Pc τ → Option (Lock τ)
  | .user _ => none
  | .wait w p =>
    match p with
    | .find => some .futexes
    | .lock | .relock _ => some (.futex w.addr)
    | .task _ | .loop _ => some (.task t)
    | .asleep asleep => some (.asleep asleep)
    | .read | .found | .push | .set _ | .check _ | .decide _ => none
  | .sweep k p =>
    match p with
    | .find | .find2 => some .futexes
    | .lock => some (.futex k.addr)
    | .lock2 => k.requeue.map fun r => .futex r.1
    | .entry _ asleep => some (.asleep asleep)
    | .task _ asleep => some (.task asleep.task)
    | .found | .found2 | .next _ | .decide _ _ | .mark _ _ => none

/-! ## Steps -/

/-- The memory, the futexes and the tasks. `returned` is not in the code: it records what the `FUTEX_WAIT`
that made an entry has returned. -/
structure State (τ : Type) where
  mem : Nat → UInt32
  asleepList : Nat → List (FutexAsleep τ)
  awoken : FutexAsleep τ → Bool
  created : τ → Nat
  task : τ → Task
  now : Nat
  pc : τ → Pc τ
  todo : τ → List UserOp
  returned : FutexAsleep τ → Option (Except Errno Nat)

def moveEntry (asleepList : Nat → List (FutexAsleep τ)) (addr i addr2 : Nat) (moved : FutexAsleep τ) :
    Nat → List (FutexAsleep τ) :=
  let removed := Function.update asleepList addr ((asleepList addr).eraseIdx i)
  Function.update removed addr2 (removed addr2 ++ [moved])

variable [DecidableEq τ]

def State.goto (s : State τ) (t : τ) (pc : Pc τ) : State τ := { s with pc := Function.update s.pc t pc }

theorem goto_pc (s : State τ) (t : τ) (pc : Pc τ) : (s.goto t pc).pc t = pc := update_self ..

def waitStep (s : State τ) (t : τ) (w : Wait) : WaitPc τ → State τ
  | .read =>
    if s.mem w.addr ≠ w.value then s.goto t (.user (some (.error .eagain))) else s.goto t (.wait w .find)
  | .find => s.goto t (.wait w .found)
  | .found => s.goto t (.wait w .lock)
  | .lock => s.goto t (.wait w .push)
  | .push =>
    let asleep := ⟨t, s.created t⟩
    { s.goto t (.wait w (.task asleep)) with
      asleepList := Function.update s.asleepList w.addr (s.asleepList w.addr ++ [asleep])
      awoken := Function.update s.awoken asleep false
      created := Function.update s.created t (s.created t + 1) }
  | .task asleep => s.goto t (.wait w (.set asleep))
  | .set asleep =>
    { s.goto t (.wait w (.loop asleep)) with
      task := Function.update s.task t
        { state := .futex
          forcefulWakeupTime := match w.utime with
            | some timeout => some (s.now + timeout)
            | none => (s.task t).forcefulWakeupTime } }
  | .loop asleep => s.goto t (.wait w (.check asleep))
  | .check asleep =>
    if (s.task t).state = .ready then s.goto t (.wait w (.relock asleep))
    else if (s.task t).forcefulWakeupTime.any (· ≤ s.now) then s.goto t (.wait w (.relock asleep))
    else s.goto t (.wait w (.loop asleep))
  | .relock asleep => s.goto t (.wait w (.asleep asleep))
  | .asleep asleep => s.goto t (.wait w (.decide asleep))
  | .decide asleep =>
    if s.awoken asleep then
      { s.goto t (.user (some (.ok 0))) with
        asleepList := Function.update s.asleepList w.addr ((s.asleepList w.addr).filter (· ≠ asleep))
        returned := Function.update s.returned asleep (some (.ok 0)) }
    else
      { s.goto t (.user (some (.error .etimedout))) with
        returned := Function.update s.returned asleep (some (.error .etimedout)) }

def sweepStep (s : State τ) (t : τ) (k : Sweep) : SweepPc τ → State τ
  | .find => s.goto t (.sweep k .found)
  | .found => s.goto t (.sweep k (if k.requeue.isSome then .find2 else .lock))
  | .find2 => s.goto t (.sweep k .found2)
  | .found2 => s.goto t (.sweep k .lock)
  | .lock => s.goto t (.sweep k (if k.requeue.isSome then .lock2 else .next ⟨0, 0, 0⟩))
  | .lock2 => s.goto t (.sweep k (.next ⟨0, 0, 0⟩))
  | .next c =>
    match (s.asleepList k.addr)[c.i]? with
    | none => s.goto t (.user (some (.ok (c.awokenCount + c.movedCount))))
    | some asleep => s.goto t (.sweep k (.entry c asleep))
  | .entry c asleep => s.goto t (.sweep k (.decide c asleep))
  | .decide c asleep =>
    if s.awoken asleep = false ∧ UInt32.ofNat c.awokenCount < k.value then
      s.goto t (.sweep k (.task c asleep))
    else
      match k.requeue with
      | some (addr2, value3) =>
        if s.awoken asleep = false ∧ UInt32.ofNat c.movedCount < value3 then
          { s.goto t (.sweep k (.next { c with movedCount := c.movedCount + 1 })) with
            asleepList := moveEntry s.asleepList k.addr c.i addr2 asleep }
        else s.goto t (.sweep k (.next { c with i := c.i + 1 }))
      | none => s.goto t (.sweep k (.next { c with i := c.i + 1 }))
  | .task c asleep => s.goto t (.sweep k (.mark c asleep))
  | .mark c asleep =>
    { s.goto t (.sweep k (.next { c with i := c.i + 1, awokenCount := c.awokenCount + 1 })) with
      task := Function.update s.task asleep.task
        { state := .ready
          -- only `FUTEX_WAKE` clears the time
          forcefulWakeupTime := if k.requeue.isSome then (s.task asleep.task).forcefulWakeupTime else none }
      awoken := Function.update s.awoken asleep true }

theorem waitStep_todo (s : State τ) (t : τ) (w : Wait) (p : WaitPc τ) : (waitStep s t w p).todo = s.todo := by
  cases p with
  | read | check | decide =>
    rw [waitStep]
    split_ifs <;> rfl
  | find | found | lock | push | task | set | loop | relock | asleep => rfl

theorem sweepStep_todo (s : State τ) (t : τ) (k : Sweep) (p : SweepPc τ) : (sweepStep s t k p).todo = s.todo := by
  cases p with
  | next c =>
    rw [sweepStep]
    split <;> rfl
  | decide c asleep =>
    rw [sweepStep]
    split_ifs
    · rfl
    · split
      · split_ifs <;> rfl
      · rfl
  | find | found | find2 | found2 | lock | lock2 | entry | task | mark => rfl

def advance (s : State τ) (t : τ) : Option (State τ) :=
  match s.pc t with
  | .user _ =>
    match s.todo t with
    | [] => none
    | .store addr value :: ops =>
      some { s with mem := Function.update s.mem addr value, todo := Function.update s.todo t ops }
    | .futex addr op value utime addr2 value3 :: ops =>
      some { s.goto t (futexSyscall addr op value utime addr2 value3) with todo := Function.update s.todo t ops }
  | .wait w p => some (waitStep s t w p)
  | .sweep k p => some (sweepStep s t k p)

theorem advance_todo_of_ne {s s' : State τ} {t u : τ} (h : advance s t = some s') (hu : u ≠ t) :
    s'.todo u = s.todo u := by
  unfold advance at h
  split at h
  case h_1 =>
    split at h
    case h_1 => cases h
    case h_2 =>
      obtain rfl := some.inj h
      exact update_of_ne hu ..
    case h_3 =>
      obtain rfl := some.inj h
      exact update_of_ne hu ..
  case h_2 w p hpc =>
    obtain rfl := some.inj h
    rw [waitStep_todo]
  case h_3 k p hpc =>
    obtain rfl := some.inj h
    rw [sweepStep_todo]

def State.held (s : State τ) (t : τ) : List (Lock τ) := (s.pc t).held t

def State.wanted (s : State τ) (t : τ) : Option (Lock τ) := (s.pc t).wanted t

inductive Action (τ : Type) where
  | run (t : τ)
  | tick

/-- A task that wants a lock takes a step only if nobody has the lock. -/
def step [Fintype τ] (s : State τ) : Action τ → Option (State τ)
  | .run t => if ∀ l ∈ s.wanted t, ∀ u, l ∉ s.held u then advance s t else none
  | .tick => some { s with now := s.now + 1 }

def start (todo : τ → List UserOp) : State τ where
  mem _ := 0
  asleepList _ := []
  awoken _ := false
  created _ := 0
  task _ := ⟨.ready, none⟩
  now := 0
  pc _ := .user none
  todo := todo
  returned _ := none

end CoreX.Futex

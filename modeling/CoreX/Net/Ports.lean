import Mathlib.Data.List.Nodup
import Mathlib.Data.List.Range
import CoreX.Base.Run

/-!
# Ports (`netports.rs`)

A bit per port, and a cursor from which `gen` looks for a free one: first upwards to the last port, then from the
first ephemeral port up to the cursor (`NetPorts.scan_eq_none`).

Every call takes the lock. A panic with the lock held poisons it, and every later call panics when it takes it; so a
call gives a result, `none` for a panic, and the state it leaves in either case.
-/

namespace CoreX.Net

open Option Function

def netportsEphStart : Nat := 1024

def netportsAvailablePorts : Nat := 65535

structure NetPorts where
  /-- `ports.map`, which has `netportsAvailablePorts` entries. -/
  ports : Nat → Bool
  /-- The lock was held at a panic. -/
  poisoned : Bool
  lastEphPort : Nat

namespace NetPorts

def set (s : NetPorts) (idx : Nat) (val : Bool) : NetPorts := { s with ports := Function.update s.ports idx val }

def new (random : Nat) : NetPorts where
  ports := fun _ => false
  poisoned := false
  lastEphPort := netportsEphStart + random % 128

def locked {α : Type} (body : NetPorts → Option α × NetPorts) (s : NetPorts) : Option α × NetPorts :=
  if s.poisoned then (none, s)
  else
    match body s with
    | (some a, s) => (some a, s)
    | (none, s) => (none, { s with poisoned := true })

def get (s : NetPorts) (idx : Nat) : Option Bool :=
  if idx < netportsAvailablePorts then some (s.ports idx) else none

section
variable (port : Nat) (s : NetPorts)

def isAllocated : Option Bool × NetPorts :=
  if port < 8 then (some false, s)
  else locked (fun s => (s.get port, s)) s

def free : Option Unit × NetPorts :=
  if port = 0 then (none, s)
  else
    locked (fun s =>
      match s.get port with
      | some true => (some (), s.set port false)
      | _ => (none, s)) s

def genInner : NetPorts := { s.set port true with lastEphPort := port }

def scan (start stop : Nat) : Option Nat :=
  (List.range' start (stop - start)).find? fun i => ! s.ports i

def advance (random : Nat) (lastEphPort : Nat) : Nat :=
  let next := (lastEphPort + 1) % 65536
  if next < netportsEphStart then netportsEphStart + random % 128 else next

def genLocked (random : Nat) (s : NetPorts) : Option Nat × NetPorts :=
  let s := { s with lastEphPort := advance random s.lastEphPort }
  match s.scan s.lastEphPort netportsAvailablePorts with
  | some i => (some i, genInner i s)
  | none =>
    match s.scan netportsEphStart s.lastEphPort with
    | some i => (some i, genInner i s)
    | none => (none, s)

def gen (random : Nat) (s : NetPorts) : Option Nat × NetPorts := locked (genLocked random) s

def markSafe : Option Bool × NetPorts :=
  locked (fun s =>
    match s.get port with
    | some true => (some false, s)
    | some false => (some true, s.set port true)
    | none => (none, s)) s

end

/-! ## `gen` -/

variable {s : NetPorts} {s' : NetPorts} {port random start : Nat}

theorem scan_eq_some {stop i : Nat} (h : s.scan start stop = some i) : start ≤ i ∧ i < stop ∧ s.ports i = false := by
  have hMem := List.mem_of_find?_eq_some h
  rw [List.mem_range'_1] at hMem
  have hFree := List.find?_some h
  exact ⟨hMem.1, by omega, by simpa using hFree⟩

theorem scan_eq_none {stop i : Nat} (h : s.scan start stop = none) (hStart : start ≤ i) (hStop : i < stop) :
    s.ports i = true := by
  have hTaken := List.find?_eq_none.1 h i (List.mem_range'_1.2 ⟨hStart, by omega⟩)
  simpa using hTaken

theorem advance_bounds (random lastEphPort : Nat) : netportsEphStart ≤ advance random lastEphPort ∧
      advance random lastEphPort ≤ netportsAvailablePorts := by
  rw [advance, netportsEphStart, netportsAvailablePorts]
  split <;> omega

/-- The port is ephemeral and free, and becomes allocated. No other port changes. -/
structure Takes (s : NetPorts) (port : Nat) (s' : NetPorts) : Prop where
  start : netportsEphStart ≤ port
  stop : port < netportsAvailablePorts
  free : s.ports port = false
  ports : s'.ports = Function.update s.ports port true

def Full (s : NetPorts) : Prop :=
  ∀ port, netportsEphStart ≤ port → port < netportsAvailablePorts → s.ports port = true

theorem genLocked_spec (random : Nat) (s : NetPorts) :
    (∃ port s', genLocked random s = (some port, s') ∧ s.Takes port s' ∧ s'.poisoned = s.poisoned) ∨
    (∃ s', genLocked random s = (none, s') ∧ s.Full ∧ s'.ports = s.ports) := by
  obtain ⟨hLow, hHigh⟩ := advance_bounds random s.lastEphPort
  rw [genLocked]
  cases hUp : scan { s with lastEphPort := advance random s.lastEphPort }
      (advance random s.lastEphPort) netportsAvailablePorts with
  | some i =>
    obtain ⟨hStart, hStop, hFree⟩ := scan_eq_some hUp
    exact .inl ⟨i, _, rfl, ⟨hLow.trans hStart, hStop, hFree, rfl⟩, rfl⟩
  | none =>
    cases hDown : scan { s with lastEphPort := advance random s.lastEphPort } netportsEphStart
        (advance random s.lastEphPort) with
    | some i =>
      obtain ⟨hStart, hStop, hFree⟩ := scan_eq_some hDown
      exact .inl ⟨i, _, rfl, ⟨hStart, by omega, hFree, rfl⟩, rfl⟩
    | none =>
      refine .inr ⟨_, rfl, fun port hStart hStop => ?_, rfl⟩
      rcases Nat.lt_or_ge port (advance random s.lastEphPort) with hLt | hGe
      · exact scan_eq_none hDown hStart hLt
      · exact scan_eq_none hUp hGe hStop

theorem gen_eq_some (h : gen random s = (some port, s')) :
    s.Takes port s' ∧ s.poisoned = false ∧ s'.poisoned = false := by
  rw [gen, locked] at h
  cases hBad : s.poisoned with
  | true => simp [hBad] at h
  | false =>
    rw [hBad] at h
    rcases genLocked_spec random s with ⟨port', s₁, hBody, hTakes, hLock⟩ | ⟨s₁, hBody, -, -⟩
    · rw [hBody] at h
      obtain ⟨hPort, hState⟩ := Prod.mk.inj h
      obtain rfl := some.inj hPort
      obtain rfl := hState
      exact ⟨hTakes, rfl, hLock.trans hBad⟩
    · rw [hBody] at h
      simp at h

/-! ## Sequences of calls -/

inductive PortOp where
  | gen (random : Nat)
  | markSafe (port : Nat)
  | free (port : Nat)

/-- The ports, and who holds one: every call that got a port holds it until it frees it. -/
structure Owned where
  state : NetPorts
  held : List Nat

def PortOp.Allowed (s : NetPorts) : PortOp → Prop
  | .gen _ => True
  | .markSafe port => port < netportsAvailablePorts
  | .free port => port < netportsAvailablePorts ∧ s.ports port = true

instance (s : NetPorts) (op : PortOp) : Decidable (op.Allowed s) :=
  match op with
  | .gen _ => inferInstanceAs (Decidable True)
  | .markSafe port => inferInstanceAs (Decidable (port < netportsAvailablePorts))
  | .free _ => inferInstanceAs (Decidable (_ ∧ _))

/-- One call. After a panic the state is the one it left, and the calls go on. -/
def portStep (o : Owned) (op : PortOp) : Option Owned :=
  if op.Allowed o.state then
    match op with
    | .gen random =>
      match gen random o.state with
      | (some port, s) => some ⟨s, port :: o.held⟩
      | (none, s) => some ⟨s, o.held⟩
    | .markSafe port =>
      match markSafe port o.state with
      | (some true, s) => some ⟨s, port :: o.held⟩
      | (_, s) => some ⟨s, o.held⟩
    | .free port =>
      match free port o.state with
      | (some (), s) => some ⟨s, o.held.erase port⟩
      | (none, s) => some ⟨s, o.held⟩
  else none

/-- Every allocated port has one owner, and the lock is poisoned only by a full table. -/
structure Owned.Valid (o : Owned) : Prop where
  nodup : o.held.Nodup
  mem_iff : ∀ port, port ∈ o.held ↔ o.state.ports port = true
  poisoned : o.state.poisoned = true → o.state.Full

variable {o o' : Owned} {α : Type}

theorem Owned.Valid.take (h : o.Valid) (hFree : o.state.ports port = false)
    (hPorts : s'.ports = update o.state.ports port true) (hLock : s'.poisoned = false) :
    Owned.Valid ⟨s', port :: o.held⟩ := by
  refine ⟨List.nodup_cons.2 ⟨fun hMem => ?_, h.nodup⟩, fun q => ?_, fun hBad => ?_⟩
  · rw [h.mem_iff, hFree] at hMem
    exact absurd hMem (by simp)
  · rw [List.mem_cons, h.mem_iff]
    show _ ↔ s'.ports q = true
    rw [hPorts]
    by_cases hq : q = port
    · simp [hq]
    · simp [hq]
  · rw [hLock] at hBad
    exact absurd hBad (by simp)

theorem Owned.Valid.release (h : o.Valid) (hPorts : s'.ports = update o.state.ports port false)
    (hLock : s'.poisoned = false) : Owned.Valid ⟨s', o.held.erase port⟩ := by
  refine ⟨h.nodup.erase port, fun q => ?_, fun hBad => ?_⟩
  · rw [h.nodup.mem_erase_iff, h.mem_iff]
    show _ ↔ s'.ports q = true
    rw [hPorts]
    by_cases hq : q = port
    · simp [hq]
    · simp [hq]
  · rw [hLock] at hBad
    exact absurd hBad (by simp)

theorem locked_of_poisoned (body : NetPorts → Option α × NetPorts) (h : s.poisoned = true) :
    locked body s = (none, s) := by
  rw [locked, if_pos h]

theorem locked_of_some {body : NetPorts → Option α × NetPorts} (a : α) (s' : NetPorts) (h : s.poisoned = false)
    (hBody : body s = (some a, s')) : locked body s = (some a, s') := by
  rw [locked, if_neg (by simp [h]), hBody]

theorem gen_eq_none (hFull : s.poisoned = true → s.Full) (h : gen random s = (none, s')) :
    s.Full ∧ s'.ports = s.ports := by
  cases hBad : s.poisoned with
  | true =>
    rw [gen, locked_of_poisoned _ hBad] at h
    obtain ⟨-, rfl⟩ := Prod.mk.inj h
    exact ⟨hFull hBad, rfl⟩
  | false =>
    rcases genLocked_spec random s with ⟨port, s₁, hBody, -, -⟩ | ⟨s₁, hBody, hAll, hPorts⟩
    · rw [gen, locked_of_some _ _ hBad hBody] at h
      simp at h
    · rw [gen, locked, if_neg (by simp [hBad]), hBody] at h
      obtain ⟨-, rfl⟩ := Prod.mk.inj h
      exact ⟨hAll, hPorts⟩

theorem Owned.Valid.gen (h : o.Valid) (hStep : portStep o (.gen random) = some o') : o'.Valid := by
  rw [portStep, if_pos (show PortOp.Allowed o.state (.gen random) from trivial)] at hStep
  cases hCall : NetPorts.gen random o.state with
  | mk answer s' =>
    rw [hCall] at hStep
    cases answer with
    | some port =>
      obtain rfl := some.inj hStep
      obtain ⟨hTakes, -, hLock⟩ := gen_eq_some hCall
      exact h.take hTakes.free hTakes.ports hLock
    | none =>
      obtain rfl := some.inj hStep
      obtain ⟨hFull, hPorts⟩ := gen_eq_none h.poisoned hCall
      refine ⟨h.nodup, fun port => ?_, fun _ port hStart hStop => ?_⟩
      · rw [hPorts]
        exact h.mem_iff port
      · rw [hPorts]
        exact hFull port hStart hStop

theorem Owned.Valid.markSafe (h : o.Valid) (hStep : portStep o (.markSafe port) = some o') : o'.Valid := by
  rw [portStep] at hStep
  split_ifs at hStep with hAllowed
  have hGet : o.state.get port = some (o.state.ports port) := if_pos hAllowed
  cases hBad : o.state.poisoned with
  | true =>
    rw [NetPorts.markSafe, locked_of_poisoned _ hBad] at hStep
    exact some.inj hStep ▸ h
  | false =>
    cases hPort : o.state.ports port with
    | true =>
      rw [NetPorts.markSafe, locked_of_some false o.state hBad
        (by rw [hGet, hPort])] at hStep
      exact some.inj hStep ▸ h
    | false =>
      rw [NetPorts.markSafe, locked_of_some true (o.state.set port true) hBad
        (by rw [hGet, hPort])] at hStep
      exact some.inj hStep ▸ h.take hPort rfl hBad

theorem Owned.Valid.free (h : o.Valid) (hStep : portStep o (.free port) = some o') : o'.Valid := by
  rw [portStep] at hStep
  split_ifs at hStep with hAllowed
  obtain ⟨hLt, hPort⟩ := hAllowed
  have hGet : o.state.get port = some true := by rw [NetPorts.get, if_pos hLt, hPort]
  by_cases hZero : port = 0
  · rw [NetPorts.free, if_pos hZero] at hStep
    exact some.inj hStep ▸ h
  rw [NetPorts.free, if_neg hZero] at hStep
  cases hBad : o.state.poisoned with
  | true =>
    rw [locked_of_poisoned _ hBad] at hStep
    exact some.inj hStep ▸ h
  | false =>
    rw [locked_of_some () (o.state.set port false) hBad (by rw [hGet])] at hStep
    exact some.inj hStep ▸ h.release rfl hBad

theorem portStep_valid (o : Owned) (op : PortOp) (o' : Owned) (h : o.Valid)
    (hStep : portStep o op = some o') : o'.Valid := by
  cases op with
  | gen random => exact h.gen hStep
  | markSafe port => exact h.markSafe hStep
  | free port => exact h.free hStep

/-- **After any calls, whatever the random source gives**: `gen` returns an ephemeral port that was
free and has no owner, allocates it and changes no other one. It panics only if all ephemeral ports
are allocated. No port has two owners. -/
theorem netPorts_gen (random : Nat) (ops : List PortOp) (o : Owned)
    (hRun : Run.run portStep ⟨new random, []⟩ ops = some o) (random' : Nat) :
    o.held.Nodup ∧ (∀ port, port ∈ o.held ↔ o.state.ports port = true) ∧
    (∀ port s', gen random' o.state = (some port, s') →
      1024 ≤ port ∧ port ≤ 65534 ∧ o.state.ports port = false ∧ port ∉ o.held ∧
      s'.ports port = true ∧ isAllocated port s' = (some true, s') ∧
      ∀ other, other ≠ port → s'.ports other = o.state.ports other) ∧
    ((gen random' o.state).1 = none → ∀ port, 1024 ≤ port → port ≤ 65534 → o.state.ports port = true) := by
  have h : o.Valid := Run.run_invariant portStep_valid
    ⟨List.nodup_nil, fun _ => by simp [new], fun h => absurd h (by simp [new])⟩ hRun
  refine ⟨h.nodup, h.mem_iff, fun port s' hGen => ?_, fun hPanic port hStart hStop => ?_⟩
  · obtain ⟨hTakes, -, hLock⟩ := gen_eq_some hGen
    have hStart : 1024 ≤ port := hTakes.start
    have hStop : port < 65535 := hTakes.stop
    have hTaken : s'.ports port = true := by rw [hTakes.ports, update_self]
    refine ⟨hStart, by omega, hTakes.free, ?_, hTaken, ?_, fun other hOther => ?_⟩
    · rw [h.mem_iff, hTakes.free]
      simp
    · rw [isAllocated, if_neg (by omega)]
      exact locked_of_some _ _ hLock (by rw [NetPorts.get, if_pos hTakes.stop, hTaken])
    · rw [hTakes.ports, update_of_ne hOther]
  · have hGen : gen random' o.state = (none, (gen random' o.state).2) := Prod.ext hPanic rfl
    exact (gen_eq_none h.poisoned hGen).1 port hStart (show port < 65535 by omega)

/-- A port that `mark_safe` takes from under the cursor, and frees after a call of `gen`. -/
theorem netPorts_gen_marked : ∃ o, Run.run portStep ⟨new 0, []⟩ [.markSafe 1025, .gen 5, .free 1025] = some o ∧
      o.held.Nodup ∧ (∀ port, port ∈ o.held ↔ o.state.ports port = true) := by
  refine ⟨_, rfl, ?_⟩
  obtain ⟨hNodup, hHeld, -⟩ := netPorts_gen 0 [.markSafe 1025, .gen 5, .free 1025] _ rfl 0
  exact ⟨hNodup, hHeld⟩

end NetPorts

end CoreX.Net

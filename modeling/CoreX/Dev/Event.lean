import CoreX.Circular.Interleave

/-!
# Input event devices (`filesystems/dev/dev_event.rs`)

A driver reports an event from an interrupt handler, and programs read the events through the ring of the device. The
handler is one step, between any two steps of the reads in progress, which are named by `ι`. Each call of
`CircularIntRead` by `devInputEventRead` is a call of its own here.

`inputGenerateEvent` panics if the ring does not take the event.
-/

namespace CoreX.Dev

open Circ Run Option

/-! ## Writing to the ring from a handler -/

section Write
variable {ι : Type} {bytes : Bytes}

def storeLoop (size : Nat) (buff : Buf) (write : Nat) : Bytes → (Buf) × Nat
  | [] => (buff, write)
  | b :: bytes => storeLoop size (Function.update buff write b) ((write + 1) % size) bytes

def circularIntWrite (circ : CircularInt ι) (bytes : Bytes) : Option (Nat × CircularInt ι) :=
  if bytes = [] then none
  else if bytes.length > circWritable circ.writePtr circ.readPtr circ.buffSize then some (0, circ)
  else
    let (buff, write) := storeLoop circ.buffSize circ.buff circ.writePtr bytes
    some (bytes.length, { circ with buff := buff, writePtr := write, accepted := circ.accepted ++ bytes })

variable [DecidableEq ι]

theorem run_store (circ : CircularInt ι) (bytes rest : Bytes) (write : Nat)
    (hwriter : circ.writer = .store bytes rest write) :
    run actionStep circ (List.replicate (rest.length + 1) .writer) = some { circ with
        buff := (storeLoop circ.buffSize circ.buff write rest).1
        writePtr := (storeLoop circ.buffSize circ.buff write rest).2
        writer := .idle
        accepted := circ.accepted ++ bytes } := by
  induction rest generalizing circ write with
  | nil => simp [run, actionStep, writerStep, hwriter, storeLoop]
  | cons b rest ih =>
    have hstep : actionStep circ .writer = some { circ with
        buff := Function.update circ.buff write b
        writer := .store bytes rest ((write + 1) % circ.buffSize) } := by
      simp only [actionStep, writerStep, hwriter]
    rw [List.length_cons, List.replicate_succ, run, hstep, bind_some]
    exact ih _ _ rfl

theorem circularIntWrite_run {circ circ' : CircularInt ι} {n : Nat} (hidle : circ.writer = .idle)
    (h : circularIntWrite circ bytes = some (n, circ')) : ∃ actions, run actionStep circ actions = some circ' := by
  unfold circularIntWrite at h
  split at h
  · cases h
  next hne =>
  split at h
  · obtain ⟨-, rfl⟩ := Prod.mk.inj (some.inj h)
    exact ⟨[], rfl⟩
  next hfits =>
  obtain ⟨-, rfl⟩ := Prod.mk.inj (some.inj h)
  have hstore := run_store { circ with writer := .store bytes bytes circ.writePtr } bytes bytes circ.writePtr rfl
  refine ⟨.callWrite bytes :: .writer :: .writer :: .writer :: List.replicate (bytes.length + 1) .writer, ?_⟩
  simp only [run, actionStep, writerStep, hidle, hne, hfits, if_false, bind_some]
  exact hstore

end Write

/-! ## The device -/

structure InputEvent where
  sec : UInt64
  usec : UInt64
  type_ : UInt16
  code : UInt16
  value : UInt32

def leBytes (w v : Nat) : Bytes := (List.range w).map fun i => UInt8.ofNat (v / 256 ^ i)

def InputEvent.bytes (ev : InputEvent) : Bytes :=
  leBytes 8 ev.sec.toNat ++ leBytes 8 ev.usec.toNat ++ leBytes 2 ev.type_.toNat ++ leBytes 2 ev.code.toNat ++
    leBytes 4 ev.value.toNat

theorem InputEvent.length_bytes (ev : InputEvent) : ev.bytes.length = 24 := by
  simp [InputEvent.bytes, leBytes]

structure DevInputEvent (ι : Type) where
  timesOpened : UInt64
  deviceEvents : CircularInt ι

section Device
variable {ι : Type} {i : ι}

def devInputEventSetup (buff : Buf) : DevInputEvent ι := ⟨0, circularIntAllocate buff 4096⟩

def inputGenerateEvent (item : DevInputEvent ι) (timerTicks : UInt64) (type_ code : UInt16) (value : UInt32) :
    Option (DevInputEvent ι) :=
  if item.timesOpened = 0 then some item
  else
    let ev : InputEvent := ⟨timerTicks / 1000, timerTicks % 1000 * 1000, type_, code, value⟩
    match circularIntWrite item.deviceEvents ev.bytes with
    | some (24, circ) => some { item with deviceEvents := circ }
    | _ => none

inductive DevOp (ι : Type) where
  | generate (timerTicks : UInt64) (type_ code : UInt16) (value : UInt32)
  | opens
  | duplicate
  | close
  /-- A program calls `CircularIntRead`. -/
  | read (i : ι) (limit : Nat)
  /-- The next step of the call. -/
  | reader (i : ι)

def devStep [DecidableEq ι] (item : DevInputEvent ι) : DevOp ι → Option (DevInputEvent ι)
  | .generate timerTicks type_ code value => inputGenerateEvent item timerTicks type_ code value
  | .opens => some { item with timesOpened := item.timesOpened + 1 }
  | .duplicate => some { item with timesOpened := item.timesOpened + 1 }
  | .close => some { item with timesOpened := item.timesOpened - 1 }
  | .read i limit =>
    (actionStep item.deviceEvents (.callRead i limit)).map fun circ => { item with deviceEvents := circ }
  | .reader i => (actionStep item.deviceEvents (.reader i)).map fun circ => { item with deviceEvents := circ }

def DevInputEvent.unread (item : DevInputEvent ι) : Nat :=
  item.deviceEvents.accepted.length - (item.deviceEvents.returned ++ item.deviceEvents.returning).length

structure DevInputEvent.Valid (item : DevInputEvent ι) : Prop where
  ring : item.deviceEvents.Valid 4096
  idle : item.deviceEvents.writer = .idle

variable {item item' : DevInputEvent ι}

theorem DevInputEvent.Valid.readable_eq (h : item.Valid) :
    circReadable item.deviceEvents.writePtr item.deviceEvents.readPtr 4096 = item.unread := by
  have hlength := congrArg List.length h.ring.accepted_eq
  rw [List.length_append, CircularInt.contents, Ring.length_window, h.ring.size_eq] at hlength
  unfold DevInputEvent.unread
  omega

theorem circularIntWrite_event (h : item.Valid) (ev : InputEvent) :
    (4095 < item.unread + 24 ∧ circularIntWrite item.deviceEvents ev.bytes = some (0, item.deviceEvents)) ∨
    (item.unread + 24 ≤ 4095 ∧
      ∃ circ, circularIntWrite item.deviceEvents ev.bytes = some (24, circ) ∧ circ.writer = .idle) := by
  have hne : ev.bytes ≠ [] := by
    intro hnil
    have hlength := ev.length_bytes
    rw [hnil] at hlength
    cases hlength
  have hlt := circReadable_lt h.ring.read_lt h.ring.write_lt
  simp only [circularIntWrite, if_neg hne, ev.length_bytes, circWritable, h.ring.size_eq]
  rw [h.readable_eq] at hlt ⊢
  by_cases hfull : 24 > 4096 - item.unread - 1
  · rw [if_pos hfull]
    exact .inl ⟨by omega, rfl⟩
  · rw [if_neg hfull]
    exact .inr ⟨by omega, _, rfl, h.idle⟩

theorem inputGenerateEvent_eq_none_iff (h : item.Valid) (timerTicks : UInt64) (type_ code : UInt16) (value : UInt32) :
    inputGenerateEvent item timerTicks type_ code value = none ↔ item.timesOpened ≠ 0 ∧ 4095 < item.unread + 24 := by
  unfold inputGenerateEvent
  by_cases hopen : item.timesOpened = 0
  · rw [if_pos hopen]
    exact iff_of_false (by simp) fun hpanic => hpanic.1 hopen
  rw [if_neg hopen]
  rcases circularIntWrite_event h ⟨timerTicks / 1000, timerTicks % 1000 * 1000, type_, code, value⟩ with
    ⟨hfull, hwrite⟩ | ⟨hfits, circ, hwrite, -⟩
  · simp only [hwrite]
    exact iff_of_true trivial ⟨hopen, hfull⟩
  · simp only [hwrite]
    exact iff_of_false (by simp) fun hpanic => by omega

variable [DecidableEq ι]

theorem inputGenerateEvent_valid (h : item.Valid) {timerTicks : UInt64} {type_ code : UInt16} {value : UInt32}
    (hstep : inputGenerateEvent item timerTicks type_ code value = some item') : item'.Valid := by
  unfold inputGenerateEvent at hstep
  by_cases hopen : item.timesOpened = 0
  · rw [if_pos hopen] at hstep
    exact some.inj hstep ▸ h
  rw [if_neg hopen] at hstep
  rcases circularIntWrite_event h ⟨timerTicks / 1000, timerTicks % 1000 * 1000, type_, code, value⟩ with
    ⟨-, hwrite⟩ | ⟨-, circ, hwrite, hidle⟩
  · simp only [hwrite] at hstep
    cases hstep
  · simp only [hwrite] at hstep
    obtain rfl := some.inj hstep
    obtain ⟨actions, hrun⟩ := circularIntWrite_run h.idle hwrite
    exact ⟨run_invariant (fun _ action _ h hstep => actionStep_valid action h hstep) h.ring hrun, hidle⟩

theorem readerStep_writer {circ circ' : CircularInt ι} (h : readerStep circ i = some circ') :
    circ'.writer = circ.writer := by
  unfold readerStep at h
  cases hphase : circ.readers i with
  | idle =>
    rw [hphase] at h
    cases h
  | acquire length =>
    rw [hphase] at h
    cases hlock : circ.lockRead with
    | none =>
      simp only [hlock] at h
      exact some.inj h ▸ rfl
    | some j =>
      simp only [hlock] at h
      cases h
  | check length write read =>
    simp only [hphase] at h
    split at h <;> exact some.inj h ▸ rfl
  | copy toCopy read out =>
    simp only [hphase] at h
    split at h
    · exact some.inj h ▸ rfl
    · split at h
      · exact some.inj h ▸ rfl
      · cases h
  | _ =>
    rw [hphase] at h
    exact some.inj h ▸ rfl

theorem callRead_writer {circ circ' : CircularInt ι} {limit : Nat}
    (h : actionStep circ (.callRead i limit) = some circ') : circ'.writer = circ.writer := by
  simp only [actionStep] at h
  split at h
  · split at h
    · cases h
    · exact some.inj h ▸ rfl
  · cases h

theorem devStep_valid (h : item.Valid) {op : DevOp ι} (hstep : devStep item op = some item') : item'.Valid := by
  cases op with
  | generate timerTicks type_ code value => exact inputGenerateEvent_valid h hstep
  | opens | duplicate | close => exact some.inj hstep ▸ ⟨h.ring, h.idle⟩
  | read i limit =>
    obtain ⟨circ, hcirc, rfl⟩ := map_eq_some_iff.1 hstep
    exact ⟨actionStep_valid _ h.ring hcirc, (callRead_writer hcirc).trans h.idle⟩
  | reader i =>
    obtain ⟨circ, hcirc, rfl⟩ := map_eq_some_iff.1 hstep
    exact ⟨actionStep_valid _ h.ring hcirc, (readerStep_writer hcirc).trans h.idle⟩

/-- **When an event panics the kernel.** After any events, opens, reads and closes, `inputGenerateEvent` panics if
and only if the device is open and the unread bytes leave no room for an event. -/
theorem inputGenerateEvent_panics_iff (buff : Buf) {ops : List (DevOp ι)} {item : DevInputEvent ι}
    (hrun : run devStep (devInputEventSetup buff) ops = some item) (timerTicks : UInt64) (type_ code : UInt16)
    (value : UInt32) : inputGenerateEvent item timerTicks type_ code value = none ↔
      item.timesOpened ≠ 0 ∧ 4095 < item.unread + 24 := by
  have hsetup : (devInputEventSetup buff : DevInputEvent ι).Valid := ⟨valid_circularIntAllocate buff (by decide), rfl⟩
  have hvalid : item.Valid := run_invariant (fun _ _ _ h hstep => devStep_valid h hstep) hsetup hrun
  exact inputGenerateEvent_eq_none_iff hvalid timerTicks type_ code value

end Device

def ignoredEvents (n : Nat) : List (DevOp Unit) := .opens :: List.replicate n (.generate 0 2 0 1)

/-- With one event in the ring the next one does not panic. -/
theorem inputGenerateEvent_panics_iff_one :
    ∃ item, run devStep (devInputEventSetup fun _ => 0) (ignoredEvents 1) = some item ∧
      item.timesOpened = 1 ∧ item.unread = 24 ∧ inputGenerateEvent item 0 2 0 1 ≠ none := by
  refine (exists_of_any (p := fun item => item.timesOpened = 1 ∧ item.unread = 24) (by decide)).imp fun item h =>
    ⟨h.1, h.2.1, h.2.2, ?_⟩
  rw [Ne, inputGenerateEvent_panics_iff (fun _ => 0) h.1, h.2.2]
  omega

/-- After 170 events the next one does. -/
theorem inputGenerateEvent_panics :
    ((run devStep (devInputEventSetup fun _ => 0) (ignoredEvents 170)).any fun item =>
      (inputGenerateEvent item 0 2 0 1).isNone) = true := by
  decide +kernel

end CoreX.Dev

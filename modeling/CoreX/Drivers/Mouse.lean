import Mathlib.Algebra.Ring.Nat
import Mathlib.Data.List.Forall2

/-!
# The mouse (`drivers/mouse.rs`)

The handler gets one byte at a time. Three bytes are a packet, of which the first has bit 3 set; a byte without it is
skipped where a packet may begin. Each packet moves the pointer and is reported with the changes of its two buttons
(`mouseRun_reports`). Sums of the `i32` wrap; one that does is negative, and becomes 0.
-/

namespace CoreX.Mouse

open List

inductive Button where
  | left
  | right
  deriving DecidableEq

inductive Event where
  | key (button : Button) (pressed : Bool)
  | relX (x : Int)
  | relY (y : Int)
  | syn

structure Framebuffer where
  width : Int
  height : Int

/-- The variables of the driver; `clicked` has `CLICKED_LEFT` and `CLICKED_RIGHT`. -/
structure State where
  mouseCycle : Nat := 0
  mouse1 : UInt8 := 0
  mouse2 : UInt8 := 0
  gx : Int := 0
  gy : Int := 0
  clicked : Button → Bool := fun _ => false

def signed (b : UInt8) : Int := b.toBitVec.toInt

def clamp (v limit : Int) : Int := if limit ≤ max v 0 then limit - 1 else max v 0

def keyChange (button : Button) (was now : Bool) : List Event :=
  (if was && !now then [.key button false] else []) ++ if !was && now then [.key button true] else []

def pressed (mouse1 : UInt8) : Button → Bool
  | .left => mouse1 &&& 0x01 != 0
  | .right => mouse1 &&& 0x02 != 0

/-- The third byte of a packet. -/
def mousePacket (fb : Framebuffer) (s : State) (mouse3 : UInt8) : State × List Event :=
  let x := signed s.mouse2
  let y := signed mouse3
  let now := pressed s.mouse1
  ({ s with
      gx := clamp ((s.gx + x).bmod (2 ^ 32)) fb.width
      gy := clamp ((s.gy - y).bmod (2 ^ 32)) fb.height
      clicked := now
      mouseCycle := (s.mouseCycle + 1) % 3 },
    keyChange .left (s.clicked .left) (now .left) ++ keyChange .right (s.clicked .right) (now .right) ++
      [.relX x, .relY (-y), .syn])

def mouseIrq (fb : Framebuffer) (s : State) (byte : UInt8) : State × List Event :=
  match s.mouseCycle with
  | 0 =>
    if byte &&& 0x08 = 0 then ({ s with mouseCycle := 0 }, [])
    else ({ s with mouse1 := byte, mouseCycle := (s.mouseCycle + 1) % 3 }, [])
  | 1 => ({ s with mouse2 := byte, mouseCycle := (s.mouseCycle + 1) % 3 }, [])
  | _ => mousePacket fb s byte

/-- The state after some bytes and the events they made. -/
def mouseRun (fb : Framebuffer) (s : State) : List UInt8 → State × List Event
  | [] => (s, [])
  | byte :: bytes =>
    let (s, events) := mouseIrq fb s byte
    let (s, later) := mouseRun fb s bytes
    (s, events ++ later)

/-- The complete packets of a stream, where some bytes of the first one are already there. -/
def packets : (begun bytes : List UInt8) → List (UInt8 × UInt8 × UInt8)
  | _, [] => []
  | [b1, b2], b3 :: bytes => (b1, b2, b3) :: packets [] bytes
  | [b1], b2 :: bytes => packets [b1, b2] bytes
  | _, b1 :: bytes => if b1 &&& 0x08 = 0 then packets [] bytes else packets [b1] bytes

def State.begun (s : State) : List UInt8 :=
  if s.mouseCycle = 0 then [] else if s.mouseCycle = 1 then [s.mouse1] else [s.mouse1, s.mouse2]

/-- The cursor is on the screen. -/
def OnScreen (fb : Framebuffer) (s : State) : Prop := 0 ≤ s.gx ∧ s.gx < fb.width ∧ 0 ≤ s.gy ∧ s.gy < fb.height

/-- Key changes, and one of each of the other events. -/
def IsReport (p : UInt8 × UInt8 × UInt8) (events : List Event) : Prop :=
  ∃ keys, events = keys ++ [.relX (signed p.2.1), .relY (-signed p.2.2), .syn] ∧ ∀ e ∈ keys, ∃ b v, e = .key b v

def keysOf (button : Button) (events : List Event) : List Bool :=
  events.filterMap fun
    | .key b v => if b = button then some v else none
    | _ => none

/-- Presses and releases in turn, of a button that is pressed or not. -/
def Alternates : (pressed : Bool) → List Bool → Prop
  | _, [] => True
  | pressed, v :: vs => v = !pressed ∧ Alternates v vs

variable {fb : Framebuffer} {s : State}

theorem clamp_mem (v : Int) {limit : Int} (h : 0 < limit) : 0 ≤ clamp v limit ∧ clamp v limit < limit := by
  unfold clamp
  split_ifs <;> omega

theorem alternates_keyChange (button : Button) (was now : Bool) (vs : List Bool) :
    Alternates was (keysOf button (keyChange button was now) ++ vs) ↔ Alternates now vs := by
  cases was <;> cases now <;> simp [keyChange, keysOf, Alternates]

theorem keysOf_keyChange {button other : Button} (h : other ≠ button) (was now : Bool) :
    keysOf button (keyChange other was now) = [] := by
  cases was <;> cases now <;> simp [keyChange, keysOf, h]

theorem exists_key_of_mem {button : Button} {was now : Bool} {e : Event} (h : e ∈ keyChange button was now) :
    ∃ b v, e = .key b v := by
  cases was <;> cases now <;> simp_all [keyChange]

theorem keysOf_append (button : Button) (es es' : List Event) :
    keysOf button (es ++ es') = keysOf button es ++ keysOf button es' := filterMap_append

theorem keysOf_mousePacket (fb : Framebuffer) (s : State) (b : UInt8) (button : Button) :
    keysOf button (mousePacket fb s b).2 =
      keysOf button (keyChange button (s.clicked button) (pressed s.mouse1 button)) := by
  have hrest : keysOf button [.relX (signed s.mouse2), .relY (-signed b), .syn] = [] := rfl
  simp only [mousePacket, keysOf_append, hrest, append_nil]
  cases button with
  | left => rw [keysOf_keyChange (show Button.right ≠ .left by decide), append_nil]
  | right => rw [keysOf_keyChange (show Button.left ≠ .right by decide), nil_append]

theorem mousePacket_isReport (fb : Framebuffer) (s : State) (b : UInt8) :
    IsReport (s.mouse1, s.mouse2, b) (mousePacket fb s b).2 := by
  refine ⟨_, rfl, fun e he => ?_⟩
  rcases mem_append.1 he with he | he
  · exact exists_key_of_mem he
  · exact exists_key_of_mem he

theorem mouseRun_from (hwidth : 0 < fb.width) (hheight : 0 < fb.height) (bytes : List UInt8) (s : State)
    (hcycle : s.mouseCycle < 3) (hs : OnScreen fb s) :
    OnScreen fb (mouseRun fb s bytes).1 ∧
      (∀ button, Alternates (s.clicked button) (keysOf button (mouseRun fb s bytes).2)) ∧
      ∃ reports, (mouseRun fb s bytes).2 = reports.flatten ∧ Forall₂ IsReport (packets s.begun bytes) reports := by
  induction bytes generalizing s with
  | nil => exact ⟨hs, fun _ => trivial, [], rfl, by simp [packets]⟩
  | cons b bytes ih =>
    obtain hzero | hone | htwo : s.mouseCycle = 0 ∨ s.mouseCycle = 1 ∨ s.mouseCycle = 2 := by omega
    · by_cases hb : b &&& 0x08 = 0
      · simpa [mouseRun, mouseIrq, packets, State.begun, hzero, hb] using
          ih { s with mouseCycle := 0 } (by decide : 0 < 3) hs
      · simpa [mouseRun, mouseIrq, packets, State.begun, hzero, hb] using
          ih { s with mouse1 := b, mouseCycle := 1 } (by decide : 1 < 3) hs
    · simpa [mouseRun, mouseIrq, packets, State.begun, hone] using
        ih { s with mouse2 := b, mouseCycle := 2 } (by decide : 2 < 3) hs
    · -- the packet is complete
      have hgx := clamp_mem ((s.gx + signed s.mouse2).bmod (2 ^ 32)) hwidth
      have hgy := clamp_mem ((s.gy - signed b).bmod (2 ^ 32)) hheight
      have hend : (mousePacket fb s b).1.mouseCycle = 0 := by rw [mousePacket, htwo]
      obtain ⟨hscreen, halt, reports, hreports, hall⟩ :=
        ih (mousePacket fb s b).1 (by omega) ⟨hgx.1, hgx.2, hgy.1, hgy.2⟩
      have hrun : mouseRun fb s (b :: bytes) = ((mouseRun fb (mousePacket fb s b).1 bytes).1,
          (mousePacket fb s b).2 ++ (mouseRun fb (mousePacket fb s b).1 bytes).2) := by
        simp [mouseRun, mouseIrq, htwo]
      rw [hrun]
      refine ⟨hscreen, fun button => ?_, (mousePacket fb s b).2 :: reports, by rw [hreports, flatten_cons], ?_⟩
      · rw [keysOf_append, keysOf_mousePacket, alternates_keyChange]
        exact halt button
      · simp only [State.begun, htwo]
        exact .cons (mousePacket_isReport fb s b) (by simpa [State.begun, hend] using hall)

/-- **The handler** keeps the pointer on the screen, reports presses and releases of a button in turn, and makes one
report of each packet. -/
theorem mouseRun_reports (fb : Framebuffer) (hwidth : 0 < fb.width) (hheight : 0 < fb.height) (bytes : List UInt8) :
    OnScreen fb (mouseRun fb {} bytes).1 ∧ (∀ button, Alternates false (keysOf button (mouseRun fb {} bytes).2)) ∧
      ∃ reports, (mouseRun fb {} bytes).2 = reports.flatten ∧ Forall₂ IsReport (packets [] bytes) reports :=
  mouseRun_from hwidth hheight bytes {} (by decide) ⟨Int.le_refl _, hwidth, Int.le_refl _, hheight⟩

theorem mouseRun_click : (0 : Int) < 640 ∧ OnScreen ⟨640, 480⟩ (mouseRun ⟨640, 480⟩ {} [0, 9, 5, 251, 8, 0, 0]).1 :=
  ⟨by decide, (mouseRun_reports ⟨640, 480⟩ (by decide) (by decide) _).1⟩

end CoreX.Mouse

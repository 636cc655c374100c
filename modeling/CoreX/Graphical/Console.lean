import Mathlib.Data.List.Basic
import Mathlib.Tactic.Ring
import CoreX.Base.Run

/-!
# The console (`graphical/console.rs`, `graphical/ansi.rs`)

Characters are drawn at a cursor, which is counted in pixels and moves over cells of 8 by `CHAR_HEIGHT()` pixels. An
escape sequence goes through a parser that moves the same cursor.

Both modules declare `width` and `height`, `console.rs` as `u32` and `ansi.rs` as `i64`. The model has one `u32`; a
value of `ansi.rs` that does not fit counts as an overflow. What is drawn is kept in a list.
-/

namespace CoreX.Graphical

inductive Fault
  | overflow
  | bounds
  deriving DecidableEq

structure Screen where
  (width height charHeight ttyCharacterHeight : Nat)

abbrev Color := Nat × Nat × Nat

inductive Drawing
  | rect (x y w h : Nat) (color : Color)
  | glyph (ch : Int) (x y : Nat) (color : Color)
  | row (dest src : Nat)
  deriving DecidableEq

/-- Nothing is drawn outside of the screen. -/
def Drawing.Inside (fb : Screen) : Drawing → Prop
  | .rect x y w h _ => x + w ≤ fb.width ∧ y + h ≤ fb.height
  | .glyph _ x y _ => x + 8 ≤ fb.width ∧ y + fb.charHeight ≤ fb.height
  | .row dest src => dest < fb.height ∧ src < fb.height

structure Ansi where
  (questionmark escaping inside firstDone : Bool)
  (char1 char2 : Nat)
  deriving DecidableEq

structure Console where
  (width height : Nat)
  (bgColor textcolor : Color)
  (cursorHidden consoleDisabled : Bool)
  ansi : Ansi
  drawn : List Drawing

def boot : Console where
  width := 0
  height := 0
  bgColor := (0, 0, 0)
  textcolor := (255, 255, 255)
  cursorHidden := false
  consoleDisabled := false
  ansi := ⟨true, false, false, false, 0, 0⟩
  drawn := []

def initiateConsole (c : Console) : Console := { c with width := 0, height := 0 }

def Console.moved (c : Console) (w h : Nat) (ds : List Drawing) : Console :=
  { c with width := w, height := h, drawn := c.drawn ++ ds }

def Console.draw (c : Console) (d : Drawing) : Console := { c with drawn := c.drawn ++ [d] }

def addU32 (a b : Nat) : Except Fault Nat := if a + b < 2 ^ 32 then .ok (a + b) else .error .overflow

def subU32 (a b : Nat) : Except Fault Nat := if b ≤ a then .ok (a - b) else .error .overflow

section Bull
variable (fb : Screen)

def scrollRows : List Drawing := (List.range (fb.height - fb.charHeight)).map fun i => .row i (i + fb.charHeight)

section
variable (check : Bool) (c : Console)

def scrollConsole : Except Fault (Bool × Console) := do
  let bottom ← subU32 fb.height fb.charHeight
  if check = true ∧ ¬ bottom ≤ c.height then .ok (false, c)
  else do
    let height ← subU32 c.height fb.charHeight
    .ok (true, c.moved c.width height (scrollRows fb ++ [.rect 0 bottom fb.width fb.charHeight c.bgColor]))

def eraseBull : Console :=
  if c.cursorHidden then c else c.draw (.rect c.width c.height 8 fb.charHeight c.bgColor)

/-- The first part of `updateBull`: the cursor goes to the next line if it is behind the end of its own. -/
def nextLine : Except Fault Console :=
  if fb.width ≤ c.width then do
    let scrolled ← scrollConsole fb true c
    let height ← if scrolled.1 then .ok scrolled.2.height else addU32 scrolled.2.height fb.charHeight
    .ok (scrolled.2.moved 0 height [])
  else .ok c

def updateBull : Except Fault Console :=
  if c.cursorHidden then .ok c
  else do
    let c ← nextLine fb c
    .ok (c.draw (.rect c.width c.height 8 fb.charHeight c.textcolor))

def clearScreen : Except Fault Console :=
  updateBull fb ({ c with width := 0, height := 0 }.draw (.rect 0 0 fb.width fb.height c.bgColor))

end

end Bull

def ansiColors : List Color :=
  [(0, 0, 0), (170, 0, 0), (0, 170, 0), (170, 85, 0), (0, 0, 170), (170, 0, 170), (0, 170, 170), (170, 170, 170),
    (69, 69, 69), (69, 69, 69), (85, 85, 85), (255, 85, 85), (85, 255, 85), (255, 255, 85), (85, 85, 255),
    (255, 85, 255), (85, 255, 255), (255, 255, 255)]

def selectedColor (char1 char2 : Nat) : Option (Bool × Nat) :=
  let extended := 100 ≤ char1
  let first := if extended then 1 else char1
  let second := if extended then char1 - (100 - 40) else char2
  let controlling := if 30 ≤ second then second else first
  if 30 ≤ controlling then
    some (decide (40 ≤ controlling),
      controlling - 30 - (if 40 ≤ controlling then 10 else 0) + (if first = 1 then 10 else 0))
  else none

def selectColor (c : Console) : Except Fault Console :=
  if c.ansi.char1 = 0 ∧ c.ansi.char2 = 0 then .ok { c with bgColor := (0, 0, 0), textcolor := (255, 255, 255) }
  else match selectedColor c.ansi.char1 c.ansi.char2 with
    | none => .ok c
    | some (bg, index) =>
      match ansiColors[index]? with
      | none => .error .bounds
      | some color => .ok (if bg then { c with bgColor := color } else { c with textcolor := color })

/-- A value of `ansi.rs` becomes a coordinate. One that leaves the type `i64` on the way leaves the type of the
coordinate, too. -/
def toCoordinate (v : Int) : Except Fault Nat := if 0 ≤ v ∧ v < 2 ^ 32 then .ok v.toNat else .error .overflow

def moveTo (w h : Int) (c : Console) : Except Fault Console := do
  let height ← toCoordinate h
  let width ← toCoordinate w
  .ok (c.moved width height [])

/-- `TTY_CHARACTER_WIDTH` of `include/console.h`. -/
def ttyCharacterWidth : Int := 8

def orOne (n : Nat) : Int := if n = 0 then 1 else n

section Escapes
variable (fb : Screen)

def eraseRest (c : Console) : Except Fault Console := do
  let c := if c.width < fb.width then
      c.draw (.rect c.width c.height (fb.width - c.width) fb.ttyCharacterHeight c.bgColor) else c
  let c := if c.height + fb.ttyCharacterHeight < fb.height then
      c.draw (.rect 0 (c.height + fb.ttyCharacterHeight) fb.width fb.height c.bgColor) else c
  updateBull fb c

def asciiCommand (command : Char) (c : Console) : Except Fault Console :=
  match command with
  | 'l' => .ok (if c.ansi.char1 = 25 ∧ c.ansi.questionmark = true then { c with cursorHidden := true } else c)
  | 'h' =>
    if c.ansi.char1 = 25 ∧ c.ansi.questionmark = true then updateBull fb { c with cursorHidden := false } else .ok c
  | 'm' => selectColor c
  | 'H' => moveTo ((orOne c.ansi.char2 - 1) * ttyCharacterWidth) ((orOne c.ansi.char1 - 1) * fb.ttyCharacterHeight) c
  | 'C' => moveTo (c.width + (orOne c.ansi.char1 - 1) * ttyCharacterWidth) c.height c
  | 'd' => moveTo c.width ((orOne c.ansi.char1 - 1) * fb.ttyCharacterHeight) c
  | 'G' => moveTo ((orOne c.ansi.char1 - 1) * ttyCharacterWidth) c.height c
  | 'A' => do
    let c ← moveTo c.width (c.height - (orOne c.ansi.char1 - 2) * fb.ttyCharacterHeight) c
    .ok (if fb.height < c.height then { c with height := 0 } else c)
  | 'J' =>
    if c.ansi.char1 = 0 then eraseRest fb c
    else if c.ansi.char1 = 2 ∨ c.ansi.char1 = 3 then clearScreen fb c
    else .ok c
  | _ => .ok c

section
variable (n : Nat) (charnum : Int)

def appendDigit : Except Fault Nat :=
  if n * 10 + (charnum - 48).toNat < 2 ^ 63 then .ok (n * 10 + (charnum - 48).toNat) else .error .overflow

def isValidNumber : Prop := 48 ≤ charnum ∧ charnum ≤ 57

instance (charnum : Int) : Decidable (isValidNumber charnum) := inferInstanceAs (Decidable (_ ∧ _))

def asciiProcess (c : Console) : Except Fault (Bool × Console) :=
  if c.ansi.firstDone = false ∧ charnum = 63 then .ok (false, { c with ansi := { c.ansi with questionmark := true } })
  else if isValidNumber charnum then
    if c.ansi.firstDone = false then do
      let char1 ← appendDigit c.ansi.char1 charnum
      .ok (false, { c with ansi := { c.ansi with char1 := char1 } })
    else do
      let char2 ← appendDigit c.ansi.char2 charnum
      .ok (false, { c with ansi := { c.ansi with char2 := char2 } })
  else if charnum = 59 then
    if c.ansi.firstDone then .ok (true, c) else .ok (false, { c with ansi := { c.ansi with firstDone := true } })
  else do
    -- `charnum as u8 as char`
    let c ← asciiCommand fb (Char.ofNat (charnum % 256).toNat) (eraseBull fb c)
    let c ← updateBull fb c
    .ok (true, c)

def ansiReset (c : Console) : Console := { c with ansi := ⟨false, false, false, false, 0, 0⟩ }

def ansiHandle (c : Console) : Except Fault (Bool × Console) :=
  if charnum = 0x1B then .ok (true, { ansiReset c with ansi := ⟨false, true, false, false, 0, 0⟩ })
  else if c.ansi.escaping = true ∧ charnum = 91 then
    .ok (true, { ansiReset c with ansi := ⟨false, true, true, false, 0, 0⟩ })
  else if c.ansi.escaping = true ∧ c.ansi.inside = true then do
    let processed ← asciiProcess fb charnum c
    .ok (true, if processed.1 then ansiReset processed.2 else processed.2)
  else .ok (false, c)

end

end Escapes

/-! ## Characters -/

section Characters
variable (fb : Screen)

def wrapLine (c : Console) : Except Fault Console := do
  let edge ← subU32 fb.width 8
  if edge < c.width then do
    let height ← addU32 c.height fb.charHeight
    .ok (c.moved 0 height [])
  else .ok c

section
variable (tab : Console → Except Fault Console) (charnum : Int) (c : Console)

/-- The `match` of `drawCharacter`, with what a tab does. -/
def drawControl : Except Fault Console :=
  if charnum = -1 then do
    let width ← addU32 c.width 8
    .ok (c.moved width c.height [.rect c.width c.height 8 fb.charHeight c.bgColor])
  else if charnum = 10 then do
    let c := eraseBull fb c
    let height ← addU32 c.height fb.charHeight
    .ok (c.moved 0 height [])
  else if charnum = 0x0d then .ok ((eraseBull fb c).moved 0 c.height [])
  else if charnum = 0x0f then .ok c
  else if charnum = 8 then do
    let c := eraseBull fb c
    let width ← subU32 c.width 8
    .ok (c.moved width c.height [.rect width c.height 8 fb.charHeight c.bgColor])
  else if charnum = 9 then tab c
  else do
    let c := eraseBull fb c
    let width ← addU32 c.width 8
    .ok (c.moved width c.height [.glyph charnum c.width c.height c.textcolor])

def echo : Except Fault Console := do
  let c ← wrapLine fb c
  let c ← (scrollConsole fb true c).map Prod.snd
  let c ← drawControl fb tab charnum c
  updateBull fb c

def drawWith : Except Fault Console :=
  if charnum = 0 ∨ c.consoleDisabled = true then .ok c
  else do
    let handled ← ansiHandle fb charnum c
    if handled.1 then .ok handled.2 else echo fb tab charnum handled.2

/-- `drawCharacter(b' ')`, which does not come to a tab again. -/
def drawSpace : Except Fault Console := drawWith fb .ok 32 c

def drawTab : Except Fault Console := do
  let c ← drawSpace fb c
  let c ← drawSpace fb c
  let c ← drawSpace fb c
  drawSpace fb c

def drawCharacter : Except Fault Console := drawWith fb (drawTab fb) charnum c

def drawStep (charnum : Int) : Option Console := (drawCharacter fb charnum c).toOption

end

end Characters

end CoreX.Graphical

import CoreX.Graphical.Plain

/-!
# Streams with escape sequences

The parameters of an escape sequence are numbers of any length, and nothing bounds them. `Allowed` says for which
characters all goes well, in the state in which they come; all goes well with a stream if and only if all of its
characters are allowed (`drawCharacter_safe_iff`).
-/

namespace CoreX.Graphical

open Run Nat Option

/-- The cursor is on the screen. -/
def CursorInside (fb : Screen) (c : Console) : Prop := c.width < fb.width ∧ c.height < fb.height

instance (fb : Screen) (c : Console) : Decidable (CursorInside fb c) := inferInstanceAs (Decidable (_ ∧ _))

/-- The place is a cell; or, where the bull takes the cursor to the next line, behind the end of a row, or of the
first one below the framebuffer. -/
def Reaches (fb : Screen) (hidden : Bool) (w h : Int) : Prop :=
  0 ≤ w ∧ 0 ≤ h ∧
    (w + 8 ≤ fb.width ∧ h + fb.charHeight ≤ fb.height ∨
      hidden = false ∧ fb.width ≤ w ∧ w < 2 ^ 32 ∧ h ≤ fb.height)

section
variable (fb : Screen) (command : Char) (c : Console)

def target : Option (Int × Int) :=
  match command with
  | 'H' => some ((orOne c.ansi.char2 - 1) * ttyCharacterWidth, (orOne c.ansi.char1 - 1) * fb.ttyCharacterHeight)
  | 'C' => some (c.width + (orOne c.ansi.char1 - 1) * ttyCharacterWidth, c.height)
  | 'd' => some (c.width, (orOne c.ansi.char1 - 1) * fb.ttyCharacterHeight)
  | 'G' => some ((orOne c.ansi.char1 - 1) * ttyCharacterWidth, c.height)
  | 'A' => some (c.width, c.height - (orOne c.ansi.char1 - 2) * fb.ttyCharacterHeight)
  | _ => none

def ColorAllowed : Prop :=
  ∀ bg index, selectedColor c.ansi.char1 c.ansi.char2 = some (bg, index) → index < 18

/-- A place that the cursor is moved to can be reached, and a colour is in the table. -/
def CommandAllowed : Prop :=
  (∀ w h, target fb command c = some (w, h) → Reaches fb c.cursorHidden w h) ∧ (command = 'm' → ColorAllowed c)

/-- A digit is the last one that fits, or the command is allowed. -/
def ProcessAllowed (charnum : Int) (c : Console) : Prop :=
  if c.ansi.firstDone = false ∧ charnum = 63 then True
  else if isValidNumber charnum then
    (if c.ansi.firstDone = false then c.ansi.char1 else c.ansi.char2) * 10 + (charnum - 48).toNat < 2 ^ 63
  else if charnum = 59 then True
  else CommandAllowed fb (Char.ofNat (charnum % 256).toNat) c

/-- A backspace is not in the first column, and a cursor that is not shown does not stay at the end of its line. -/
def EchoAllowed (charnum : Int) (c : Console) : Prop :=
  (charnum = 8 → 8 ≤ c.width) ∧ (c.cursorHidden = true → landing fb charnum c.width ≠ fb.width)

/-- The character is harmless where the cursor is. -/
def Allowed (charnum : Int) : Prop :=
  if (charnum = 0 ∨ c.consoleDisabled = true) ∨ charnum = 0x1B ∨ c.ansi.escaping = true ∧ charnum = 91 then True
  else if c.ansi.escaping = true ∧ c.ansi.inside = true then ProcessAllowed fb charnum c
  else EchoAllowed fb charnum c

def Stays (result : Except Fault Console) : Prop := ∃ c, result = .ok c ∧ OnScreen fb c.width c.height

end

/-- The call goes well exactly if the condition holds. -/
structure Guards (fb : Screen) (ok : Prop) (result : Except Fault Console) : Prop where
  stays : ok → Stays fb result
  ok_of_inside : ∀ c, result = .ok c → CursorInside fb c → ok

section Guards
variable {fb : Screen} {c : Console} {result : Except Fault Console} {ok : Prop} {command : Char}

theorem Stays.guards (h : Stays fb result) (hok : ok) : Guards fb ok result := ⟨fun _ => h, fun _ _ _ => hok⟩

theorem guards_of_eq {w h : Nat} {ds : List Drawing} (hresult : result = .ok (c.moved w h ds))
    (hiff : ok ↔ OnScreen fb w h) (hon : w < fb.width → h < fb.height → OnScreen fb w h) : Guards fb ok result := by
  constructor
  · intro hok
    exact ⟨_, hresult, hiff.1 hok⟩
  · intro c' hc' hinside
    obtain rfl := Except.ok.inj (hresult.symm.trans hc')
    exact hiff.2 (hon hinside.1 hinside.2)

theorem guards_of_error {fault : Fault} (hresult : result = .error fault) (hnot : ¬ ok) : Guards fb ok result :=
  ⟨fun hok => absurd hok hnot, fun c hc => by rw [hresult] at hc; cases hc⟩

theorem Guards.congr {ok' : Prop} (h : Guards fb ok result) (hiff : ok ↔ ok') : Guards fb ok' result :=
  ⟨fun hok => h.stays (hiff.2 hok), fun c hc hinside => hiff.1 (h.ok_of_inside c hc hinside)⟩

theorem Moves.stays {w h : Nat} (hmoves : Moves fb result c w h) (hon : OnScreen fb w h) : Stays fb result := by
  obtain ⟨ds, -, rfl⟩ := hmoves
  exact ⟨_, rfl, hon⟩

theorem Stays.bull (h : Stays fb result) : Stays fb (result >>= updateBull fb) := by
  obtain ⟨c, rfl, hon⟩ := h
  exact (updateBull_moves hon).stays hon

theorem updateBull_guards (hfb : fb.Whole) (hvisible : c.cursorHidden = false) (hwidth : fb.width ≤ c.width)
    (hrow : fb.charHeight ∣ c.height) : Guards fb (c.height ≤ fb.height) (updateBull fb c) := by
  have hcolumns := hfb.columns
  have hrows := hfb.rows
  rcases lt_or_ge (c.height + fb.charHeight) fb.height with hup | hdown
  · have hbelow : OnScreen fb 0 (c.height + fb.charHeight) :=
      .of_lt hfb (Nat.dvd_zero 8) (Nat.dvd_add hrow (Nat.dvd_refl _)) (by omega) hup
    exact ((updateBull_moves_edge hfb hvisible hwidth hbelow).stays hbelow).guards (by omega)
  obtain ⟨ds, -, hscroll⟩ := scrollConsole_of_le (by omega) (by omega) hdown
  have hrow' : fb.charHeight ∣ c.height - fb.charHeight := dvd_sub hrow (dvd_refl _)
  have hresult : updateBull fb c = .ok (c.moved 0 (c.height - fb.charHeight)
      (ds ++ [.rect 0 (c.height - fb.charHeight) 8 fb.charHeight c.textcolor])) := by
    rw [updateBull, if_neg (ne_true_of_eq_false hvisible), nextLine, if_pos hwidth, hscroll, ok_bind]
    simp only [if_true, ok_bind, draw_eq, moved_moved, moved_width, moved_height, List.append_nil]
    rfl
  refine guards_of_eq hresult ⟨fun hle => ⟨dvd_zero 8, by omega, hrow', by omega⟩, fun hon => ?_⟩ fun _ hh => ?_
  · have hbottom := hon.bottom
    omega
  · exact .of_lt hfb (dvd_zero 8) hrow' (by omega) hh

theorem moveTo_of_fits {w h : Nat} (hw : w < 2 ^ 32) (hh : h < 2 ^ 32) (c : Console) :
    moveTo w h c = .ok (c.moved w h []) := by
  rw [moveTo, toCoordinate, if_pos (by omega), ok_bind, toCoordinate, if_pos (by omega), ok_bind]
  rfl

theorem moveTo_of_not_fits {w h : Int} (hnot : ¬ (0 ≤ w ∧ w < 2 ^ 32 ∧ 0 ≤ h ∧ h < 2 ^ 32)) (c : Console) :
    moveTo w h c = .error .overflow := by
  rw [moveTo, toCoordinate]
  by_cases hh : 0 ≤ h ∧ h < 2 ^ 32
  · rw [if_pos hh, ok_bind, toCoordinate, if_neg (by omega)]
    rfl
  · rw [if_neg hh]
    rfl

theorem reaches_iff_onScreen {hidden : Bool} {w h : Nat} (hcolumn : 8 ∣ w) (hrow : fb.charHeight ∣ h)
    (hplace : hidden = true ∨ w < fb.width) : Reaches fb hidden w h ↔ OnScreen fb w h := by
  constructor
  · rintro ⟨-, -, ⟨hright, hbottom⟩ | ⟨hvisible, hbehind, -⟩⟩
    · exact ⟨hcolumn, by omega, hrow, by omega⟩
    · rw [hvisible] at hplace
      simp only [Bool.false_eq_true, false_or] at hplace
      omega
  · intro hon
    have hright := hon.right
    have hbottom := hon.bottom
    exact ⟨Int.natCast_nonneg w, Int.natCast_nonneg h, .inl ⟨by omega, by omega⟩⟩

theorem moveTo_guards (hfb : fb.Whole) {w h : Int} (hcolumn : (8 : Int) ∣ w) (hrow : (fb.charHeight : Int) ∣ h)
    (c : Console) : Guards fb (Reaches fb c.cursorHidden w h) (moveTo w h c >>= updateBull fb) := by
  have hwidth := hfb.width_lt
  have hheight := hfb.height_lt
  by_cases hfits : 0 ≤ w ∧ w < 2 ^ 32 ∧ 0 ≤ h ∧ h < 2 ^ 32
  swap
  · have herror : (moveTo w h c >>= updateBull fb) = .error .overflow := by
      rw [moveTo_of_not_fits hfits]
      rfl
    refine guards_of_error herror ?_
    rw [Reaches]
    omega
  obtain ⟨hw, hw', hh, hh'⟩ := hfits
  obtain ⟨w, rfl⟩ := Int.eq_ofNat_of_zero_le hw
  obtain ⟨h, rfl⟩ := Int.eq_ofNat_of_zero_le hh
  have hcolumn' : 8 ∣ w := by omega
  have hrow' : fb.charHeight ∣ h := Int.natCast_dvd_natCast.1 hrow
  rw [moveTo_of_fits (by omega) (by omega), ok_bind]
  cases hhidden : c.cursorHidden with
  | true =>
    rw [← hhidden]
    exact guards_of_eq (updateBull_hidden hhidden) (reaches_iff_onScreen hcolumn' hrow' (.inl hhidden))
      (.of_lt hfb hcolumn' hrow')
  | false =>
    rcases lt_or_ge w fb.width with hlt | hge
    · rw [← hhidden]
      exact guards_of_eq (updateBull_of_lt (c := c.moved w h []) hhidden hlt)
        (reaches_iff_onScreen hcolumn' hrow' (.inr hlt)) (.of_lt hfb hcolumn' hrow')
    · have hreaches : h ≤ fb.height ↔ Reaches fb false w h := by
        rw [Reaches]
        simp only [true_and]
        omega
      exact (updateBull_guards (c := c.moved w h []) hfb hhidden hge hrow').congr hreaches

/-! ## Commands -/

theorem orOne_pos (n : Nat) : 1 ≤ orOne n := by
  rw [orOne]
  split
  · exact Int.le_refl 1
  · omega

section
variable (htty : fb.ttyCharacterHeight = fb.charHeight) (hon : OnScreen fb c.width c.height)
include htty hon

theorem asciiCommand_up :
    asciiCommand fb 'A' c = moveTo c.width (c.height - (orOne c.ansi.char1 - 2) * fb.charHeight) c := by
  have hbottom := hon.bottom
  have hle : (c.height : Int) - (orOne c.ansi.char1 - 2) * fb.charHeight ≤ fb.height := by
    have hmul : (-1 : Int) * fb.charHeight ≤ (orOne c.ansi.char1 - 2) * fb.charHeight := by
      have hpos := orOne_pos c.ansi.char1
      exact Int.mul_le_mul_of_nonneg_right (by omega) (by omega)
    omega
  have hunfold : asciiCommand fb 'A' c =
      moveTo c.width (c.height - (orOne c.ansi.char1 - 2) * fb.ttyCharacterHeight) c >>= fun c =>
        .ok (if fb.height < c.height then { c with height := 0 } else c) := rfl
  rw [hunfold, htty]
  generalize (c.height : Int) - (orOne c.ansi.char1 - 2) * fb.charHeight = h at hle
  by_cases hfits : 0 ≤ (c.width : Int) ∧ (c.width : Int) < 2 ^ 32 ∧ 0 ≤ h ∧ h < 2 ^ 32
  · obtain ⟨-, hw, hh, hh'⟩ := hfits
    obtain ⟨h, rfl⟩ := Int.eq_ofNat_of_zero_le hh
    rw [moveTo_of_fits (by omega) (by omega), ok_bind, moved_height, if_neg (by omega)]
  · rw [moveTo_of_not_fits hfits]
    rfl

theorem asciiCommand_of_target {w h : Int} (htarget : target fb command c = some (w, h)) :
    asciiCommand fb command c = moveTo w h c ∧ command ≠ 'm' ∧ (8 : Int) ∣ w ∧ (fb.charHeight : Int) ∣ h := by
  have hcolumn : (8 : Int) ∣ c.width := Int.natCast_dvd_natCast.2 hon.column
  have hrow : (fb.charHeight : Int) ∣ c.height := Int.natCast_dvd_natCast.2 hon.row
  have hcells (n : Int) : (8 : Int) ∣ n * ttyCharacterWidth := Int.dvd_mul_left n 8
  have hrows (n : Int) : (fb.charHeight : Int) ∣ n * fb.charHeight := Int.dvd_mul_left n _
  unfold target at htarget
  split at htarget <;>
    simp only [some.injEq, Prod.mk.injEq, reduceCtorEq, htty] at htarget <;>
    obtain ⟨rfl, rfl⟩ := htarget
  · exact ⟨by rw [← htty]; rfl, by decide, hcells _, hrows _⟩
  · exact ⟨rfl, by decide, Int.dvd_add hcolumn (hcells _), hrow⟩
  · exact ⟨by rw [← htty]; rfl, by decide, hcolumn, hrows _⟩
  · exact ⟨rfl, by decide, hcells _, hrow⟩
  · exact ⟨asciiCommand_up htty hon, by decide, hcolumn, Int.dvd_sub hrow (hrows _)⟩

end

theorem selectColor_of_allowed (hcolor : ColorAllowed c) :
    ∃ c', selectColor c = .ok c' ∧ c'.width = c.width ∧ c'.height = c.height := by
  rw [selectColor]
  split
  · exact ⟨_, rfl, rfl, rfl⟩
  cases hsel : selectedColor c.ansi.char1 c.ansi.char2 with
  | none => exact ⟨c, rfl, rfl, rfl⟩
  | some selected =>
    obtain ⟨bg, index⟩ := selected
    have hlt : index < ansiColors.length := hcolor bg index hsel
    simp only [List.getElem?_eq_getElem hlt]
    cases bg with
    | true | false => exact ⟨_, rfl, rfl, rfl⟩

theorem selectColor_of_not_allowed (hcolor : ¬ ColorAllowed c) : selectColor c = .error .bounds := by
  obtain ⟨bg, hcolor⟩ := Classical.not_forall.1 hcolor
  obtain ⟨index, hcolor⟩ := Classical.not_forall.1 hcolor
  obtain ⟨hsel, hle⟩ := Classical.not_imp.1 hcolor
  have hnone : ansiColors[index]? = none := List.getElem?_eq_none (Nat.le_of_not_lt hle)
  have hreset : ¬ (c.ansi.char1 = 0 ∧ c.ansi.char2 = 0) := by
    rintro ⟨hfirst, hsecond⟩
    rw [hfirst, hsecond] at hsel
    cases hsel
  rw [selectColor, if_neg hreset, hsel]
  simp only [hnone]

theorem asciiCommand_stays (hfb : fb.Whole) (hon : OnScreen fb c.width c.height)
    (htarget : target fb command c = none) (hcolor : command ≠ 'm') : Stays fb (asciiCommand fb command c) := by
  have hrows := hfb.rows
  have hfirst : OnScreen fb 0 0 := ⟨dvd_zero 8, by have := hfb.columns; omega, dvd_zero _, by omega⟩
  have hbull {c' : Console} (hon' : OnScreen fb c'.width c'.height) : Stays fb (updateBull fb c') :=
    (updateBull_moves hon').stays hon'
  unfold asciiCommand
  split
  · split <;> exact ⟨_, rfl, hon⟩
  · split
    · exact hbull hon
    · exact ⟨_, rfl, hon⟩
  · exact absurd rfl hcolor
  iterate 5
    · cases htarget
  · split
    · rw [eraseRest]
      apply hbull
      split <;> split <;> exact hon
    · split
      · exact hbull hfirst
      · exact ⟨_, rfl, hon⟩
  · exact ⟨_, rfl, hon⟩

theorem asciiCommand_guards (hfb : fb.Whole) (htty : fb.ttyCharacterHeight = fb.charHeight)
    (hon : OnScreen fb c.width c.height) (command : Char) :
    Guards fb (CommandAllowed fb command c) (asciiCommand fb command c >>= updateBull fb) := by
  cases htarget : target fb command c with
  | some place =>
    obtain ⟨w, h⟩ := place
    obtain ⟨hcommand, hne, hcolumn, hrow⟩ := asciiCommand_of_target htty hon htarget
    rw [hcommand]
    refine (moveTo_guards hfb hcolumn hrow c).congr ⟨fun hreaches => ⟨?_, fun heq => absurd heq hne⟩, fun h => ?_⟩
    · intro w' h' htarget'
      obtain ⟨rfl, rfl⟩ := Prod.mk.inj (some.inj (htarget.symm.trans htarget'))
      exact hreaches
    · exact h.1 w _ htarget
  | none =>
    have hmoves : ∀ w h, target fb command c = some (w, h) → Reaches fb c.cursorHidden w h := by
      intro w h hsome
      rw [htarget] at hsome
      cases hsome
    by_cases hcommand : command = 'm'
    · subst hcommand
      have hunfold : asciiCommand fb 'm' c = selectColor c := rfl
      rw [hunfold]
      by_cases hcolor : ColorAllowed c
      · obtain ⟨c', hselect, hwidth, hheight⟩ := selectColor_of_allowed hcolor
        have hstays : Stays fb (selectColor c) := ⟨c', hselect, by rw [hwidth, hheight]; exact hon⟩
        exact hstays.bull.guards ⟨hmoves, fun _ => hcolor⟩
      · have herror : (selectColor c >>= updateBull fb) = .error .bounds := by
          rw [selectColor_of_not_allowed hcolor]
          rfl
        exact guards_of_error herror fun hallowed => hcolor (hallowed.2 rfl)
    · exact (asciiCommand_stays hfb hon htarget hcommand).bull.guards ⟨hmoves, fun heq => absurd heq hcommand⟩

/-! ## The parser -/

def processed (p : Bool × Console) : Console := if p.1 then ansiReset p.2 else p.2

theorem Guards.map {f : Console → Console} (hwidth : ∀ c, (f c).width = c.width) (hheight : ∀ c, (f c).height = c.height)
    (h : Guards fb ok result) : Guards fb ok (result.map f) := by
  cases result with
  | error fault =>
    refine guards_of_error rfl fun hok => ?_
    obtain ⟨c, hc, -⟩ := h.stays hok
    cases hc
  | ok c =>
    constructor
    · intro hok
      obtain ⟨c', hc', hon⟩ := h.stays hok
      obtain rfl := Except.ok.inj hc'
      exact ⟨f c, rfl, by rw [hwidth, hheight]; exact hon⟩
    · intro c' hc' hinside
      obtain rfl := Except.ok.inj hc'
      rw [CursorInside, hwidth, hheight] at hinside
      exact h.ok_of_inside c rfl hinside

theorem appendDigit_guards {n : Nat} {charnum : Int} {f : Nat → Console}
    (hon : ∀ k, OnScreen fb (f k).width (f k).height) : Guards fb (n * 10 + (charnum - 48).toNat < 2 ^ 63)
      ((appendDigit n charnum >>= fun k => .ok (false, f k)).map processed) := by
  rw [appendDigit]
  by_cases hfits : n * 10 + (charnum - 48).toNat < 2 ^ 63
  · have hstays : Stays fb (Except.map processed (.ok (false, f (n * 10 + (charnum - 48).toNat)))) := ⟨_, rfl, hon _⟩
    rw [if_pos hfits, ok_bind]
    exact hstays.guards hfits
  · rw [if_neg hfits]
    exact guards_of_error rfl hfits

theorem asciiProcess_guards (hfb : fb.Whole) (htty : fb.ttyCharacterHeight = fb.charHeight)
    (hon : OnScreen fb c.width c.height) (charnum : Int) :
    Guards fb (ProcessAllowed fb charnum c) ((asciiProcess fb charnum c).map processed) := by
  rw [asciiProcess, ProcessAllowed]
  by_cases hquestion : c.ansi.firstDone = false ∧ charnum = 63
  · rw [if_pos hquestion, if_pos hquestion]
    exact Stays.guards ⟨_, rfl, hon⟩ trivial
  rw [if_neg hquestion, if_neg hquestion]
  by_cases hdigit : isValidNumber charnum
  · rw [if_pos hdigit, if_pos hdigit]
    by_cases hfirst : c.ansi.firstDone = false
    · rw [if_pos hfirst, if_pos hfirst]
      exact appendDigit_guards fun _ => hon
    · rw [if_neg hfirst, if_neg hfirst]
      exact appendDigit_guards fun _ => hon
  rw [if_neg hdigit, if_neg hdigit]
  by_cases hsemicolon : charnum = 59
  · rw [if_pos hsemicolon, if_pos hsemicolon]
    split <;> exact Stays.guards ⟨_, rfl, hon⟩ trivial
  rw [if_neg hsemicolon, if_neg hsemicolon]
  obtain ⟨ds, -, herase⟩ := eraseBull_moves hon
  rw [Except.ok.inj herase]
  have hcommand := asciiCommand_guards (c := c.moved c.width c.height ds) hfb htty hon
    (Char.ofNat (charnum % 256).toNat)
  have hmap : Except.map processed (do
      let c ← asciiCommand fb (Char.ofNat (charnum % 256).toNat) (c.moved c.width c.height ds)
      let c ← updateBull fb c
      .ok (true, c)) =
      (asciiCommand fb (Char.ofNat (charnum % 256).toNat) (c.moved c.width c.height ds) >>= updateBull fb).map
        ansiReset := by
    cases asciiCommand fb (Char.ofNat (charnum % 256).toNat) (c.moved c.width c.height ds) with
    | error fault => rfl
    | ok c' =>
      rw [ok_bind, ok_bind]
      cases updateBull fb c' with
      | error | ok => rfl
  rw [hmap]
  exact hcommand.map (fun _ => rfl) fun _ => rfl

/-! ## Characters -/

theorem echo_guards (hfb : fb.Whole) (hechoes : Echoes c) (hon : OnScreen fb c.width c.height) (charnum : Int) :
    Guards fb (EchoAllowed fb charnum c) (echo fb (drawTab fb) charnum c) := by
  by_cases hback : charnum = 8 → 8 ≤ c.width
  · obtain ⟨w, h, ⟨ds, -, hecho⟩, hcursor, hvisible, hhidden⟩ := echo_landing hfb hechoes hon hback
    have hcell (hne : w ≠ fb.width) : OnScreen fb w h := hcursor.resolve_right fun hedge => hne hedge.1
    refine guards_of_eq hecho ⟨?_, fun hon' => ⟨hback, fun hc heq => ?_⟩⟩ fun hlt _ => hcell (by omega)
    · rintro ⟨-, hne⟩
      cases hc : c.cursorHidden with
      | false => exact hvisible hc
      | true => exact hcell (hhidden hc ▸ hne hc)
    · have hright := hon'.right
      have hcolumn := hhidden hc
      omega
  · obtain ⟨rfl, hlt⟩ := Classical.not_imp.1 hback
    refine guards_of_error (echo_backspace_first hfb _ hon (by omega)) fun hallowed => ?_
    exact hlt (hallowed.1 rfl)

theorem drawCharacter_guards (hfb : fb.Whole) (htty : fb.ttyCharacterHeight = fb.charHeight)
    (hon : OnScreen fb c.width c.height) (charnum : Int) :
    Guards fb (Allowed fb c charnum) (drawCharacter fb charnum c) := by
  rw [Allowed, drawCharacter]
  by_cases hnone : charnum = 0 ∨ c.consoleDisabled = true
  · rw [if_pos (.inl hnone), drawWith, if_pos hnone]
    exact Stays.guards ⟨_, rfl, hon⟩ trivial
  by_cases hescape : charnum = 0x1B
  · rw [if_pos (.inr (.inl hescape)), drawWith, if_neg hnone, ansiHandle, if_pos hescape]
    exact Stays.guards ⟨_, rfl, hon⟩ trivial
  by_cases hbracket : c.ansi.escaping = true ∧ charnum = 91
  · rw [if_pos (.inr (.inr hbracket)), drawWith, if_neg hnone, ansiHandle, if_neg hescape, if_pos hbracket]
    exact Stays.guards ⟨_, rfl, hon⟩ trivial
  rw [if_neg (not_or.2 ⟨hnone, not_or.2 ⟨hescape, hbracket⟩⟩)]
  by_cases hinside : c.ansi.escaping = true ∧ c.ansi.inside = true
  · have hprocess : drawWith fb (drawTab fb) charnum c = (asciiProcess fb charnum c).map processed := by
      rw [drawWith, if_neg hnone, ansiHandle, if_neg hescape, if_neg hbracket, if_pos hinside]
      cases asciiProcess fb charnum c with
      | error | ok => rfl
    rw [if_pos hinside, hprocess]
    exact asciiProcess_guards hfb htty hon charnum
  · rw [not_or] at hnone
    have hechoes : Echoes c := ⟨Bool.not_eq_true _ ▸ hnone.2, hinside⟩
    rw [if_neg hinside, drawWith_echo _ hechoes hnone.1 hescape fun hescaping heq => hbracket ⟨hescaping, heq⟩]
    exact echo_guards hfb hechoes hon charnum

end Guards

/-- **Streams with escape sequences.** On a screen of whole cells whose rows have the height that the parser takes, no
character of a stream indexes outside of the colours, overflows a number or leaves the cursor outside of the
framebuffer, if and only if all of them are allowed. -/
theorem drawCharacter_safe_iff (fb : Screen) (hfb : fb.Whole) (htty : fb.ttyCharacterHeight = fb.charHeight)
    (stream : List Int) :
    (∀ k, ∃ c, run (drawStep fb) (initiateConsole boot) (stream.take k) = some c ∧ CursorInside fb c) ↔
      Along (drawStep fb) (Allowed fb) (initiateConsole boot) stream := by
  have hpos := hfb.pos
  have hcell {c : Console} (hon : OnScreen fb c.width c.height) : CursorInside fb c := by
    have hright := hon.right
    have hbottom := hon.bottom
    exact ⟨by omega, by omega⟩
  refine forall_take_iff_along (fun c (hon : OnScreen fb c.width c.height) => hcell hon)
    (fun c charnum hon (_ : True) hallowed => ?_) ?_ (placed_initiate hfb).onScreen fun _ _ => trivial
  · obtain ⟨c', hc', hon'⟩ := (drawCharacter_guards hfb htty hon charnum).stays hallowed
    exact ⟨c', toOption_eq_some.2 hc', hon'⟩
  · intro c charnum c' hon _ hstep hinside
    exact (drawCharacter_guards hfb htty hon charnum).ok_of_inside c' (toOption_eq_some.1 hstep) hinside

theorem vga_whole : vga.Whole := ⟨by decide, by decide, by decide, by decide, by decide, by decide, by decide⟩

/-- The cursor goes to the second row, and a letter is drawn. -/
theorem drawCharacter_safe_iff_vga :
    ∃ c, run (drawStep vga) (initiateConsole boot) [0x1B, 91, 50, 100, 97] = some c ∧ CursorInside vga c := by
  have hallowed : Along (drawStep vga) (Allowed vga) (initiateConsole boot) [0x1B, 91, 50, 100, 97] := by
    refine along_cons trivial rfl (along_cons trivial rfl (along_cons ?_ rfl (along_cons ?_ rfl (along_cons ?_ rfl trivial))))
    · exact (by decide : 0 * 10 + ((50 : Int) - 48).toNat < 2 ^ 63)
    · show CommandAllowed vga 'd' _
      refine ⟨fun w h htarget => ?_, fun heq => absurd heq (by decide)⟩
      obtain ⟨rfl, rfl⟩ := Prod.mk.inj (some.inj htarget)
      exact ⟨by decide, by decide, .inl ⟨by decide, by decide⟩⟩
    · show EchoAllowed vga 97 _
      exact ⟨fun heq => absurd heq (by decide), fun hhidden => absurd hhidden Bool.false_ne_true⟩
  exact (drawCharacter_safe_iff vga vga_whole rfl [0x1B, 91, 50, 100, 97]).2 hallowed 5

/-- The sequence `ESC [ 1 ; 4 8 m` selects colour 18 of 18, a parameter of 19 nines does not fit, and
`ESC [ 3 1 ; 1 H` puts the cursor below a framebuffer of 30 rows. -/
theorem drawCharacter_unsafe : (run (drawStep vga) (initiateConsole boot) [0x1B, 91, 49, 59, 52, 56]).map
        (fun c => (drawCharacter vga 109 c).map Console.width) = some (.error .bounds) ∧
      (run (drawStep vga) (initiateConsole boot) (0x1B :: 91 :: List.replicate 18 57)).map
        (fun c => (drawCharacter vga 57 c).map Console.width) = some (.error .overflow) ∧
      (run (drawStep vga) (initiateConsole boot) [0x1B, 91, 51, 49, 59, 49, 72]).map
        (fun c => (c.height, decide (CursorInside vga c))) = some (480, false) := by
  decide +kernel

end CoreX.Graphical

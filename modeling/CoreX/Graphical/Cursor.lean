import CoreX.Graphical.Console

/-!
# Where the cursor goes

On a screen of whole cells, a character that is drawn at a cell moves the cursor to a cell, and everything is drawn
inside of the framebuffer. A cursor that is not shown can also stand behind the end of its line (`Cursor`).
-/

namespace CoreX.Graphical

open List Nat Except

/-- The framebuffer has whole cells only, at least two rows of them and one column. -/
structure Screen.Whole (fb : Screen) : Prop where
  pos : 0 < fb.charHeight
  columns : 8 ≤ fb.width
  rows : 2 * fb.charHeight ≤ fb.height
  width_dvd : 8 ∣ fb.width
  height_dvd : fb.charHeight ∣ fb.height
  width_lt : fb.width < 2 ^ 32
  height_lt : fb.height < 2 ^ 32

structure OnScreen (fb : Screen) (w h : Nat) : Prop where
  column : 8 ∣ w
  right : w + 8 ≤ fb.width
  row : fb.charHeight ∣ h
  bottom : h + fb.charHeight ≤ fb.height

def Cursor (fb : Screen) (w h : Nat) : Prop := OnScreen fb w h ∨ w = fb.width ∧ OnScreen fb 0 (h + fb.charHeight)

/-- The call returns with the cursor at the place, everything else unchanged, and has drawn inside of the framebuffer
only. -/
def Moves (fb : Screen) (result : Except Fault Console) (c : Console) (w h : Nat) : Prop :=
  ∃ ds, (∀ d ∈ ds, d.Inside fb) ∧ result = .ok (c.moved w h ds)

section Moves
variable {fb : Screen} {c : Console} {w h w' h' : Nat} {ds ds' : List Drawing}

@[simp] theorem moved_width : (c.moved w h ds).width = w := rfl

@[simp] theorem moved_height : (c.moved w h ds).height = h := rfl

@[simp] theorem moved_moved : (c.moved w h ds).moved w' h' ds' = c.moved w' h' (ds ++ ds') := by
  simp [Console.moved]

theorem draw_eq (c : Console) (d : Drawing) : c.draw d = c.moved c.width c.height [d] := rfl

theorem moves_ok (hds : ∀ d ∈ ds, d.Inside fb) : Moves fb (.ok (c.moved w h ds)) c w h := ⟨ds, hds, rfl⟩

theorem moves_self (fb : Screen) (c : Console) : Moves fb (.ok c) c c.width c.height :=
  ⟨[], forall_mem_nil _, by simp [Console.moved]⟩

theorem Moves.of_moved {r : Except Fault Console} (hds : ∀ d ∈ ds, d.Inside fb)
    (hr : Moves fb r (c.moved w h ds) w' h') : Moves fb r c w' h' := by
  obtain ⟨ds', hds', hresult⟩ := hr
  rw [moved_moved] at hresult
  exact ⟨ds ++ ds', forall_mem_append.2 ⟨hds, hds'⟩, hresult⟩

end Moves

/-! ## Scrolling and the bull -/

section Bull
variable {fb : Screen} {c : Console} {w h : Nat}

theorem OnScreen.inside (hon : OnScreen fb w h) (color : Color) :
    (Drawing.rect w h 8 fb.charHeight color).Inside fb := ⟨hon.right, hon.bottom⟩

theorem eraseBull_moves (hon : OnScreen fb c.width c.height) :
    Moves fb (.ok (eraseBull fb c)) c c.width c.height := by
  rw [eraseBull]
  split
  · exact moves_self fb c
  · rw [draw_eq]
    exact moves_ok (forall_mem_singleton.2 (hon.inside _))

theorem scrollRows_inside (fb : Screen) : ∀ d ∈ scrollRows fb, d.Inside fb := by
  intro d hd
  obtain ⟨i, hi, rfl⟩ := mem_map.1 hd
  have hlt := mem_range.1 hi
  exact ⟨by omega, by omega⟩

theorem scrollConsole_of_lt (h : c.height + fb.charHeight < fb.height) : scrollConsole fb true c = .ok (false, c) := by
  rw [scrollConsole, subU32, if_pos (by omega), ok_bind, if_pos ⟨rfl, by omega⟩]

theorem scrollConsole_of_le (hfits : fb.charHeight ≤ fb.height) (hrow : fb.charHeight ≤ c.height)
    (h : fb.height ≤ c.height + fb.charHeight) : ∃ ds, (∀ d ∈ ds, d.Inside fb) ∧
      scrollConsole fb true c = .ok (true, c.moved c.width (c.height - fb.charHeight) ds) := by
  refine ⟨scrollRows fb ++ [.rect 0 (fb.height - fb.charHeight) fb.width fb.charHeight c.bgColor], ?_, ?_⟩
  · refine forall_mem_append.2 ⟨scrollRows_inside fb, forall_mem_singleton.2 ⟨?_, ?_⟩⟩
    · exact le_of_eq (zero_add _)
    · exact Nat.le_of_eq (Nat.sub_add_cancel hfits)
  · rw [scrollConsole, subU32, if_pos hfits, ok_bind, if_neg (by omega), subU32, if_pos hrow, ok_bind]

theorem OnScreen.of_lt (hfb : fb.Whole) (hcolumn : 8 ∣ w) (hrow : fb.charHeight ∣ h) (hw : w < fb.width)
    (hh : h < fb.height) : OnScreen fb w h := by
  refine ⟨hcolumn, ?_, hrow, ?_⟩
  · exact Nat.le_of_lt_add_of_dvd (by omega) (Nat.dvd_add hcolumn (Nat.dvd_refl 8)) hfb.width_dvd
  · exact Nat.le_of_lt_add_of_dvd (by omega) (Nat.dvd_add hrow (Nat.dvd_refl _)) hfb.height_dvd

theorem scrollConsole_moves (hfb : fb.Whole) (hon : OnScreen fb c.width c.height) :
    ∃ h, Moves fb ((scrollConsole fb true c).map Prod.snd) c c.width h ∧ OnScreen fb c.width h ∧
      OnScreen fb 0 (h + fb.charHeight) := by
  have hrows := hfb.rows
  have hbottom := hon.bottom
  have hright := hon.right
  rcases lt_or_ge (c.height + fb.charHeight) fb.height with hlt | hge
  · rw [scrollConsole_of_lt hlt]
    refine ⟨c.height, moves_self fb c, hon, ?_⟩
    exact .of_lt hfb (Nat.dvd_zero 8) (Nat.dvd_add hon.row (Nat.dvd_refl _)) (by omega) hlt
  have hup : fb.charHeight ≤ c.height := by omega
  obtain ⟨ds, hds, hscroll⟩ := scrollConsole_of_le (by omega) hup hge
  have hrow : fb.charHeight ∣ c.height - fb.charHeight := dvd_sub hon.row (dvd_refl _)
  refine ⟨c.height - fb.charHeight, ⟨ds, hds, by rw [hscroll]; rfl⟩, ?_, ?_⟩
  · exact ⟨hon.column, hright, hrow, by omega⟩
  · rw [Nat.sub_add_cancel hup]
    exact ⟨dvd_zero 8, by omega, hon.row, hbottom⟩

theorem updateBull_hidden (hhidden : c.cursorHidden = true) : updateBull fb c = .ok c := by
  rw [updateBull, if_pos hhidden]

theorem updateBull_of_lt (hvisible : c.cursorHidden = false) (hwidth : c.width < fb.width) :
    updateBull fb c = .ok (c.moved c.width c.height [.rect c.width c.height 8 fb.charHeight c.textcolor]) := by
  rw [updateBull, if_neg (ne_true_of_eq_false hvisible), nextLine, if_neg (by omega), ok_bind, draw_eq]

theorem updateBull_moves (hon : OnScreen fb c.width c.height) : Moves fb (updateBull fb c) c c.width c.height := by
  have hright := hon.right
  cases hhidden : c.cursorHidden with
  | true =>
    rw [updateBull_hidden hhidden]
    exact moves_self fb c
  | false =>
    rw [updateBull_of_lt hhidden (by omega)]
    exact moves_ok (forall_mem_singleton.2 (hon.inside _))

theorem updateBull_moves_edge (hfb : fb.Whole) (hvisible : c.cursorHidden = false) (hwidth : fb.width ≤ c.width)
    (hbelow : OnScreen fb 0 (c.height + fb.charHeight)) :
    Moves fb (updateBull fb c) c 0 (c.height + fb.charHeight) := by
  have hbottom := hbelow.bottom
  have hlt := hfb.height_lt
  have hpos := hfb.pos
  rw [updateBull, if_neg (ne_true_of_eq_false hvisible), nextLine, if_pos hwidth, scrollConsole_of_lt (by omega), ok_bind]
  simp only [Bool.false_eq_true, if_false]
  rw [addU32, if_pos (by omega), ok_bind, ok_bind, draw_eq, moved_moved]
  exact moves_ok (forall_mem_singleton.2 (hbelow.inside _))

end Bull

/-! ## Characters -/

/-- The call returns with the cursor at a cell if it is shown, and else in the column. -/
def Lands (fb : Screen) (result : Except Fault Console) (c : Console) (column : Nat) : Prop :=
  ∃ w h, Moves fb result c w h ∧ Cursor fb w h ∧ (c.cursorHidden = false → OnScreen fb w h) ∧
    (c.cursorHidden = true → w = column)

/-- The column of the next character: at the right edge it is the first one of the next line. -/
def wrapped (fb : Screen) (w : Nat) : Nat := if w = fb.width then 0 else w

def advance (fb : Screen) (w : Nat) : Nat := wrapped fb w + 8

section Lands
variable {fb : Screen} {c : Console} {column column' : Nat} {r : Except Fault Console}
  (hfb : fb.Whole) (tab : Console → Except Fault Console) {charnum : Int}

theorem Lands.of_moved {w h : Nat} {ds : List Drawing} (hds : ∀ d ∈ ds, d.Inside fb)
    (hr : Lands fb r (c.moved w h ds) column) : Lands fb r c column := by
  obtain ⟨w', h', hmoves, hrest⟩ := hr
  exact ⟨w', h', hmoves.of_moved hds, hrest⟩

theorem Lands.bind {f : Console → Except Fault Console} (hr : Lands fb r c column)
    (hf : ∀ w h ds, Cursor fb w h → (c.cursorHidden = false → OnScreen fb w h) →
      (c.cursorHidden = true → w = column) → Lands fb (f (c.moved w h ds)) (c.moved w h ds) column') :
    Lands fb (r >>= f) c column' := by
  obtain ⟨w, h, ⟨ds, hds, rfl⟩, hcursor, hvisible, hhidden⟩ := hr
  exact (hf w h ds hcursor hvisible hhidden).of_moved hds

theorem Lands.congr (hr : Lands fb r c column)
    (h : c.cursorHidden = true → column = column') : Lands fb r c column' := by
  obtain ⟨w, h', hmoves, hcursor, hvisible, hhidden⟩ := hr
  exact ⟨w, h', hmoves, hcursor, hvisible, fun hc => (hhidden hc).trans (h hc)⟩

theorem wrapLine_of_le (h : c.width + 8 ≤ fb.width) : wrapLine fb c = .ok c := by
  rw [wrapLine, subU32, if_pos (by omega), ok_bind, if_neg (by omega)]

theorem echo_eq (charnum : Int) :
    echo fb tab charnum c = (wrapLine fb c >>= fun c => (scrollConsole fb true c).map Prod.snd) >>=
      fun c => drawControl fb tab charnum c >>= updateBull fb := (bind_assoc ..).symm

def Printed (charnum : Int) : Prop := charnum ≠ 10 ∧ charnum ≠ 0x0d ∧ charnum ≠ 0x0f ∧ charnum ≠ 8 ∧ charnum ≠ 9

instance (charnum : Int) : Decidable (Printed charnum) := inferInstanceAs (Decidable (_ ∧ _))

theorem drawControl_return (hon : OnScreen fb c.width c.height) :
    Moves fb (drawControl fb tab 0x0d c) c 0 c.height := by
  obtain ⟨ds, hds, herase⟩ := eraseBull_moves hon
  rw [drawControl, if_neg (by decide), if_neg (by decide), if_pos rfl, ok.inj herase]
  exact (moves_ok (forall_mem_nil _)).of_moved hds

theorem drawControl_backspace (hon : OnScreen fb c.width c.height) :
    (8 ≤ c.width → Moves fb (drawControl fb tab 8 c) c (c.width - 8) c.height) ∧
      (c.width < 8 → drawControl fb tab 8 c = .error .overflow) := by
  have hright := hon.right
  obtain ⟨ds, hds, herase⟩ := eraseBull_moves hon
  rw [drawControl, if_neg (by decide), if_neg (by decide), if_neg (by decide), if_neg (by decide), if_pos rfl,
    ok.inj herase]
  dsimp only
  rw [moved_width, moved_height]
  constructor
  · intro hwidth
    have hsub : subU32 c.width 8 = .ok (c.width - 8) := if_pos hwidth
    rw [hsub, ok_bind]
    refine (moves_ok ?_).of_moved hds
    exact forall_mem_singleton.2 ⟨by omega, hon.bottom⟩
  · intro hwidth
    have hsub : subU32 c.width 8 = .error .overflow := if_neg (by omega)
    rw [hsub]
    rfl

def Echoes (c : Console) : Prop := c.consoleDisabled = false ∧ ¬ (c.ansi.escaping = true ∧ c.ansi.inside = true)

theorem drawWith_echo (hechoes : Echoes c) (hzero : charnum ≠ 0) (hescape : charnum ≠ 0x1B)
    (hbracket : c.ansi.escaping = true → charnum ≠ 91) : drawWith fb tab charnum c = echo fb tab charnum c := by
  obtain ⟨hon, hinside⟩ := hechoes
  rw [drawWith, if_neg (by simp [hzero, hon]), ansiHandle, if_neg hescape, if_neg fun h => hbracket h.1 h.2,
    if_neg hinside, ok_bind]
  rfl

include hfb

section
variable (hcursor : Cursor fb c.width c.height)
include hcursor

theorem updateBull_lands : Lands fb (updateBull fb c) c c.width := by
  rcases hcursor with hon | ⟨hwidth, hbelow⟩
  · exact ⟨c.width, c.height, updateBull_moves hon, .inl hon, fun _ => hon, fun _ => rfl⟩
  cases hhidden : c.cursorHidden with
  | false =>
    exact ⟨0, c.height + fb.charHeight, updateBull_moves_edge hfb hhidden (le_of_eq hwidth.symm) hbelow, .inl hbelow,
      fun _ => hbelow, fun htrue => absurd htrue (ne_true_of_eq_false hhidden)⟩
  | true =>
    rw [updateBull_hidden hhidden]
    exact ⟨c.width, c.height, moves_self fb c, .inr ⟨hwidth, hbelow⟩,
      fun hfalse => absurd hhidden (ne_true_of_eq_false hfalse), fun _ => rfl⟩

theorem wrap_scroll : ∃ h, Moves fb (wrapLine fb c >>= fun c => (scrollConsole fb true c).map Prod.snd) c
        (wrapped fb c.width) h ∧ OnScreen fb (wrapped fb c.width) h ∧ OnScreen fb 0 (h + fb.charHeight) := by
  have hcolumns := hfb.columns
  have hlt := hfb.height_lt
  rcases hcursor with hon | ⟨hwidth, hbelow⟩
  · have hright := hon.right
    obtain ⟨h, hmoves, hon', hbelow⟩ := scrollConsole_moves hfb hon
    rw [wrapped, if_neg (by omega), wrapLine_of_le hright, ok_bind]
    exact ⟨h, hmoves, hon', hbelow⟩
  · have hbottom := hbelow.bottom
    have hwrap : wrapLine fb c = .ok (c.moved 0 (c.height + fb.charHeight) []) := by
      rw [wrapLine, subU32, if_pos hcolumns, ok_bind, if_pos (by omega), addU32, if_pos (by omega), ok_bind]
    obtain ⟨h, hmoves, hon', hbelow'⟩ := scrollConsole_moves hfb (c := c.moved 0 (c.height + fb.charHeight) []) hbelow
    rw [wrapped, if_pos hwidth, hwrap, ok_bind]
    exact ⟨h, hmoves.of_moved (forall_mem_nil _), hon', hbelow'⟩

theorem echo_lands {tab : Console → Except Fault Console}
    (hcontrol : ∀ h ds, OnScreen fb (wrapped fb c.width) h → OnScreen fb 0 (h + fb.charHeight) →
      Lands fb (drawControl fb tab charnum (c.moved (wrapped fb c.width) h ds) >>= updateBull fb)
        (c.moved (wrapped fb c.width) h ds) column) : Lands fb (echo fb tab charnum c) c column := by
  obtain ⟨h, ⟨ds, hds, hfirst⟩, hon, hbelow⟩ := wrap_scroll hfb hcursor
  rw [echo_eq, hfirst, ok_bind]
  exact (hcontrol h ds hon hbelow).of_moved hds

end

theorem Moves.bull {w h : Nat} (hr : Moves fb r c w h)
    (hcursor : Cursor fb w h) : Lands fb (r >>= updateBull fb) c w := by
  obtain ⟨ds, hds, rfl⟩ := hr
  exact (updateBull_lands hfb (c := c.moved w h ds) hcursor).of_moved hds

theorem drawControl_printed (hprinted : Printed charnum) (hon : OnScreen fb c.width c.height) :
    Moves fb (drawControl fb tab charnum c) c (c.width + 8) c.height := by
  obtain ⟨hnewline, hreturn, hshift, hbackspace, htab⟩ := hprinted
  have hlt := hfb.width_lt
  have hright := hon.right
  have hadd : addU32 c.width 8 = .ok (c.width + 8) := if_pos (by omega)
  rw [drawControl]
  by_cases hfiller : charnum = -1
  · rw [if_pos hfiller, hadd, ok_bind]
    exact moves_ok (forall_mem_singleton.2 (hon.inside _))
  rw [if_neg hfiller, if_neg hnewline, if_neg hreturn, if_neg hshift, if_neg hbackspace, if_neg htab]
  obtain ⟨ds, hds, herase⟩ := eraseBull_moves hon
  rw [ok.inj herase]
  simp only [moved_width, moved_height, hadd, ok_bind]
  refine (moves_ok ?_).of_moved hds
  exact forall_mem_singleton.2 ⟨hon.right, hon.bottom⟩

theorem drawControl_newline (hon : OnScreen fb c.width c.height) (hbelow : OnScreen fb 0 (c.height + fb.charHeight)) :
    Moves fb (drawControl fb tab 10 c) c 0 (c.height + fb.charHeight) := by
  have hlt := hfb.height_lt
  have hbottom := hbelow.bottom
  have hadd : addU32 c.height fb.charHeight = .ok (c.height + fb.charHeight) := if_pos (by omega)
  obtain ⟨ds, hds, herase⟩ := eraseBull_moves hon
  rw [drawControl, if_neg (by decide), if_pos rfl, ok.inj herase]
  simp only [moved_height, hadd, ok_bind]
  exact (moves_ok (forall_mem_nil _)).of_moved hds

theorem cursor_advance {w h : Nat} (hon : OnScreen fb w h) (hbelow : OnScreen fb 0 (h + fb.charHeight)) :
    Cursor fb (w + 8) h := by
  have hpos := hfb.pos
  have hright := hon.right
  have hbottom := hbelow.bottom
  rcases lt_or_ge (w + 8) fb.width with hlt | hge
  · exact .inl (.of_lt hfb (Nat.dvd_add hon.column (Nat.dvd_refl 8)) hon.row hlt (by omega))
  · exact .inr ⟨by omega, hbelow⟩

theorem echo_printed (hprinted : Printed charnum) (hcursor : Cursor fb c.width c.height) :
    Lands fb (echo fb tab charnum c) c (advance fb c.width) := by
  apply echo_lands hfb hcursor
  intro h ds hon hbelow
  exact (drawControl_printed hfb tab hprinted hon).bull hfb (cursor_advance hfb hon hbelow)

theorem drawSpace_lands (hechoes : Echoes c) (hcursor : Cursor fb c.width c.height) :
    Lands fb (drawSpace fb c) c (advance fb c.width) := by
  rw [drawSpace, drawWith_echo _ hechoes (by decide) (by decide) fun _ => by decide]
  exact echo_printed hfb _ (by decide) hcursor

theorem Lands.space (hechoes : Echoes c) (hr : Lands fb r c column) :
    Lands fb (r >>= drawSpace fb) c (advance fb column) := by
  refine hr.bind fun w h ds hcursor _ hcolumn => ?_
  have hspace : Lands fb (drawSpace fb (c.moved w h ds)) (c.moved w h ds) (advance fb w) :=
    drawSpace_lands hfb hechoes hcursor
  exact hspace.congr fun hhidden => congrArg (advance fb) (hcolumn hhidden)

theorem drawTab_lands (hechoes : Echoes c) (hcursor : Cursor fb c.width c.height) :
    Lands fb (drawTab fb c) c ((advance fb)^[4] c.width) := by
  have htab : drawTab fb c = drawSpace fb c >>= drawSpace fb >>= drawSpace fb >>= drawSpace fb := by
    rw [bind_assoc, bind_assoc]
    rfl
  rw [htab]
  exact (((drawSpace_lands hfb hechoes hcursor).space hfb hechoes).space hfb hechoes).space hfb hechoes

theorem Lands.bull (hr : Lands fb r c column) : Lands fb (r >>= updateBull fb) c column := by
  refine hr.bind fun w h ds hcursor _ hcolumn => ?_
  have hbull : Lands fb (updateBull fb (c.moved w h ds)) (c.moved w h ds) w := updateBull_lands hfb hcursor
  exact hbull.congr hcolumn

theorem echo_tab (hechoes : Echoes c) (hon : OnScreen fb c.width c.height) :
    Lands fb (echo fb (drawTab fb) 9 c) c ((advance fb)^[4] c.width) := by
  have hright := hon.right
  apply echo_lands hfb (.inl hon)
  intro h ds hon' _
  rw [wrapped, if_neg (by omega)] at hon' ⊢
  have htab : Lands fb (drawTab fb (c.moved c.width h ds)) (c.moved c.width h ds) ((advance fb)^[4] c.width) :=
    drawTab_lands hfb hechoes (.inl hon')
  exact htab.bull hfb

theorem echo_newline (hcursor : Cursor fb c.width c.height) : Lands fb (echo fb tab 10 c) c 0 := by
  apply echo_lands hfb hcursor
  intro h ds hon hbelow
  exact (drawControl_newline hfb tab hon hbelow).bull hfb (.inl hbelow)

theorem echo_return (hcursor : Cursor fb c.width c.height) : Lands fb (echo fb tab 0x0d c) c 0 := by
  have hcolumns := hfb.columns
  apply echo_lands hfb hcursor
  intro h ds hon _
  exact (drawControl_return tab hon).bull hfb (.inl ⟨dvd_zero 8, by omega, hon.row, hon.bottom⟩)

section
variable (hon : OnScreen fb c.width c.height)
include hon

theorem echo_shift : Lands fb (echo fb tab 0x0f c) c c.width := by
  have hright := hon.right
  apply echo_lands hfb (.inl hon)
  intro h ds hon' _
  rw [wrapped, if_neg (by omega)] at hon' ⊢
  exact (moves_self fb (c.moved c.width h ds)).bull hfb (.inl hon')

theorem echo_backspace (hwidth : 8 ≤ c.width) : Lands fb (echo fb tab 8 c) c (c.width - 8) := by
  have hright := hon.right
  apply echo_lands hfb (.inl hon)
  intro h ds hon' _
  rw [wrapped, if_neg (by omega)] at hon' ⊢
  have hleft : OnScreen fb (c.width - 8) h :=
    ⟨dvd_sub hon.column (dvd_refl 8), by omega, hon'.row, hon'.bottom⟩
  exact ((drawControl_backspace (c := c.moved c.width h ds) tab hon').1 hwidth).bull hfb (.inl hleft)

theorem echo_backspace_first (hwidth : c.width < 8) : echo fb tab 8 c = .error .overflow := by
  have hright := hon.right
  obtain ⟨h, ⟨ds, -, hfirst⟩, hon', -⟩ := wrap_scroll hfb (.inl hon)
  rw [wrapped, if_neg (by omega)] at hfirst hon'
  rw [echo_eq, hfirst, ok_bind, (drawControl_backspace (c := c.moved c.width h ds) tab hon').2 hwidth]
  rfl

end

def landing (fb : Screen) (charnum : Int) (w : Nat) : Nat :=
  if charnum = 10 ∨ charnum = 0x0d then 0
  else if charnum = 0x0f then w
  else if charnum = 8 then w - 8
  else if charnum = 9 then (advance fb)^[4] w
  else advance fb w

theorem echo_landing (hechoes : Echoes c) (hon : OnScreen fb c.width c.height) (hback : charnum = 8 → 8 ≤ c.width) :
    Lands fb (echo fb (drawTab fb) charnum c) c (landing fb charnum c.width) := by
  rw [landing]
  split_ifs with hline hshift hbackspace htab
  · rcases hline with rfl | rfl
    · exact echo_newline hfb _ (.inl hon)
    · exact echo_return hfb _ (.inl hon)
  · rw [hshift]
    exact echo_shift hfb _ hon
  · rw [hbackspace]
    exact echo_backspace hfb _ hon (hback hbackspace)
  · rw [htab]
    exact echo_tab hfb hechoes hon
  · have hprinted : Printed charnum := by
      rw [not_or] at hline
      exact ⟨hline.1, hline.2, hshift, hbackspace, htab⟩
    exact echo_printed hfb _ hprinted (.inl hon)

end Lands

end CoreX.Graphical

import CoreX.Graphical.Cursor

/-!
# Streams without escape sequences

On a screen of whole cells everything is drawn inside of the framebuffer, for every stream in which no backspace comes
in the first column. On any other screen some stream of letters or of line ends draws outside of it
(`drawCharacter_inside_iff`).
-/

namespace CoreX.Graphical

open Run List Nat

structure Plain (c : Console) : Prop where
  enabled : c.consoleDisabled = false
  visible : c.cursorHidden = false
  escaping : c.ansi.escaping = false

section Plain
variable {fb : Screen} {c : Console} {w h : Nat} {ds : List Drawing} {charnum : Int}

theorem Plain.moved (hplain : Plain c) (w h : Nat) (ds : List Drawing) : Plain (c.moved w h ds) :=
  ⟨hplain.enabled, hplain.visible, hplain.escaping⟩

theorem Plain.echoes (hplain : Plain c) : Echoes c := ⟨hplain.enabled, by rw [hplain.escaping]; simp⟩

theorem Plain.drawCharacter (hplain : Plain c) (hzero : charnum ≠ 0) (hescape : charnum ≠ 0x1B) :
    drawCharacter fb charnum c = echo fb (drawTab fb) charnum c :=
  drawWith_echo _ hplain.echoes hzero hescape fun h => absurd (h.symm.trans hplain.escaping) (by decide)

/-! ## Whole cells -/

structure Placed (fb : Screen) (c : Console) : Prop where
  plain : Plain c
  onScreen : OnScreen fb c.width c.height
  inside : ∀ d ∈ c.drawn, d.Inside fb

theorem drawStep_placed (hfb : fb.Whole) (hplaced : Placed fb c) (hescape : charnum ≠ 0x1B)
    (hback : charnum = 8 → 8 ≤ c.width) : ∃ c', drawStep fb c charnum = some c' ∧ Placed fb c' := by
  by_cases hzero : charnum = 0
  · exact ⟨c, by rw [drawStep, toOption_eq_some, Graphical.drawCharacter, drawWith, if_pos (.inl hzero)], hplaced⟩
  obtain ⟨w, h, ⟨ds, hds, hecho⟩, -, hvisible, -⟩ := echo_landing hfb hplaced.plain.echoes hplaced.onScreen hback
  refine ⟨c.moved w h ds, ?_, hplaced.plain.moved w h ds, hvisible hplaced.plain.visible, ?_⟩
  · rw [drawStep, toOption_eq_some, hplaced.plain.drawCharacter hzero hescape, hecho]
  · exact forall_mem_append.2 ⟨hplaced.inside, hds⟩

theorem drawStep_backspace {c' : Console} (hfb : fb.Whole) (hplaced : Placed fb c)
    (hstep : drawStep fb c 8 = some c') : 8 ≤ c.width := by
  by_contra hwidth
  rw [drawStep, hplaced.plain.drawCharacter (by decide) (by decide),
    echo_backspace_first hfb _ hplaced.onScreen (by omega)] at hstep
  cases hstep

theorem placed_initiate (hfb : fb.Whole) : Placed fb (initiateConsole boot) := by
  have hcolumns := hfb.columns
  have hrows := hfb.rows
  refine ⟨⟨rfl, rfl, rfl⟩, ⟨dvd_zero 8, ?_, dvd_zero _, ?_⟩, forall_mem_nil _⟩
  · exact (zero_add 8).symm ▸ hcolumns
  · show 0 + fb.charHeight ≤ fb.height
    omega

/-! ## Other screens -/

section
variable (hplain : Plain c)
include hplain

theorem drawStep_of_control (hzero : charnum ≠ 0) (hescape : charnum ≠ 0x1B) (hwidth : c.width + 8 ≤ fb.width)
    (hheight : c.height + fb.charHeight < fb.height)
    (hcontrol : drawControl fb (drawTab fb) charnum c = .ok (c.moved w h ds)) (hw : w < fb.width) :
    drawStep fb c charnum = some (c.moved w h (ds ++ [.rect w h 8 fb.charHeight c.textcolor])) := by
  have hscroll : (scrollConsole fb true c).map Prod.snd = .ok c := by
    rw [scrollConsole_of_lt hheight]
    rfl
  rw [drawStep, toOption_eq_some, hplain.drawCharacter hzero hescape, echo, wrapLine_of_le hwidth, ok_bind, hscroll,
    ok_bind, hcontrol, ok_bind, updateBull_of_lt (hplain.moved w h ds).visible hw, moved_moved]
  rfl

theorem eraseBull_visible :
    eraseBull fb c = c.moved c.width c.height [.rect c.width c.height 8 fb.charHeight c.bgColor] := by
  rw [eraseBull, if_neg (ne_true_of_eq_false hplain.visible), draw_eq]

theorem drawStep_letter (hwidth : c.width + 8 < fb.width) (hheight : c.height + fb.charHeight < fb.height)
    (hlt : fb.width < 2 ^ 32) : ∃ ds, drawStep fb c 97 = some (c.moved (c.width + 8) c.height
      (ds ++ [.rect (c.width + 8) c.height 8 fb.charHeight c.textcolor])) := by
  have hadd : addU32 c.width 8 = .ok (c.width + 8) := if_pos (by omega)
  refine ⟨[.rect c.width c.height 8 fb.charHeight c.bgColor, .glyph 97 c.width c.height c.textcolor],
    drawStep_of_control hplain (by decide) (by decide) (by omega) hheight ?_ hwidth⟩
  rw [drawControl, if_neg (by decide), if_neg (by decide), if_neg (by decide), if_neg (by decide),
    if_neg (by decide), if_neg (by decide), eraseBull_visible hplain]
  simp only [moved_width, moved_height, hadd, ok_bind, moved_moved]
  rfl

theorem drawStep_lineEnd (hwidth : c.width + 8 ≤ fb.width) (hheight : c.height + fb.charHeight < fb.height)
    (hlt : fb.height < 2 ^ 32) : ∃ ds, drawStep fb c 10 = some (c.moved 0 (c.height + fb.charHeight)
      (ds ++ [.rect 0 (c.height + fb.charHeight) 8 fb.charHeight c.textcolor])) := by
  have hadd : addU32 c.height fb.charHeight = .ok (c.height + fb.charHeight) := if_pos (by omega)
  refine ⟨[.rect c.width c.height 8 fb.charHeight c.bgColor],
    drawStep_of_control hplain (by decide) (by decide) hwidth hheight ?_ (by omega)⟩
  rw [drawControl, if_neg (by decide), if_pos rfl, eraseBull_visible hplain]
  simp only [moved_height, hadd, ok_bind, moved_moved, append_nil]

end

/-- After a cell, the bull has been drawn there last. -/
structure DrawnAt (fb : Screen) (w h : Nat) (c : Console) : Prop where
  plain : Plain c
  width : c.width = w
  height : c.height = h
  drawn : ¬ (w = 0 ∧ h = 0) → ∃ color, Drawing.rect w h 8 fb.charHeight color ∈ c.drawn

theorem DrawnAt.not_inside (hdrawn : DrawnAt fb w h c) (hstart : ¬ (w = 0 ∧ h = 0))
    (houtside : fb.width < w + 8 ∨ fb.height < h + fb.charHeight) : ¬ ∀ d ∈ c.drawn, d.Inside fb := by
  obtain ⟨color, hmem⟩ := hdrawn.drawn hstart
  intro hall
  obtain ⟨hright, hbottom⟩ : w + 8 ≤ fb.width ∧ h + fb.charHeight ≤ fb.height := hall _ hmem
  omega

theorem drawnAt_moved (hplain : Plain c) (w h : Nat) (ds : List Drawing) :
    DrawnAt fb w h (c.moved w h (ds ++ [.rect w h 8 fb.charHeight c.textcolor])) := by
  refine ⟨hplain.moved .., rfl, rfl, fun _ => ⟨c.textcolor, ?_⟩⟩
  exact mem_append_right _ (mem_append_right _ (mem_singleton_self _))

theorem drawnAt_initiate (fb : Screen) : DrawnAt fb 0 0 (initiateConsole boot) :=
  ⟨⟨rfl, rfl, rfl⟩, rfl, rfl, fun h => absurd ⟨rfl, rfl⟩ h⟩

theorem run_letters (hrows : 2 * fb.charHeight ≤ fb.height) (hpos : 0 < fb.charHeight) (hlt : fb.width < 2 ^ 32)
    (hwidth : ¬ 8 ∣ fb.width) : ∃ c, run (drawStep fb) (initiateConsole boot) (replicate (fb.width / 8) 97) = some c ∧
      DrawnAt fb (8 * (fb.width / 8)) 0 c := by
  apply run_replicate (P := fun i => DrawnAt fb (8 * i) 0)
  · intro i c hi hdrawn
    have hcolumn := hdrawn.width
    have hrow := hdrawn.height
    obtain ⟨ds, hstep⟩ := drawStep_letter hdrawn.plain (by omega) (by omega) hlt
    rw [hcolumn, hrow] at hstep
    exact ⟨_, hstep, drawnAt_moved hdrawn.plain ..⟩
  · exact drawnAt_initiate fb

theorem run_lineEnds (hcolumns : 8 ≤ fb.width) (hlt : fb.height < 2 ^ 32) (hheight : ¬ fb.charHeight ∣ fb.height) :
    ∃ c, run (drawStep fb) (initiateConsole boot) (replicate (fb.height / fb.charHeight) 10) = some c ∧
      DrawnAt fb 0 (fb.charHeight * (fb.height / fb.charHeight)) c := by
  apply run_replicate (P := fun i => DrawnAt fb 0 (fb.charHeight * i))
  · intro i c hi hdrawn
    have hcolumn := hdrawn.width
    have hrow := hdrawn.height
    have hbelow : c.height + fb.charHeight < fb.height := by
      rw [hrow, ← mul_succ]
      refine lt_of_le_of_ne (le_trans (mul_le_mul_left _ hi) (mul_div_le ..)) fun heq => ?_
      exact hheight ⟨_, heq.symm⟩
    obtain ⟨ds, hstep⟩ := drawStep_lineEnd hdrawn.plain (by omega) hbelow hlt
    rw [hrow, ← mul_succ] at hstep
    exact ⟨_, hstep, drawnAt_moved hdrawn.plain ..⟩
  · exact drawnAt_initiate fb

end Plain

/-- **Streams without escape sequences.** On a screen of whole cells, and on no other, everything is drawn inside of
the framebuffer for all streams without backspaces. With them nothing underflows if and only if none comes in the
first column. -/
theorem drawCharacter_inside_iff (fb : Screen) (hpos : 0 < fb.charHeight) (hcolumns : 8 ≤ fb.width)
    (hrows : 2 * fb.charHeight ≤ fb.height) (hwidth : fb.width < 2 ^ 32) (hheight : fb.height < 2 ^ 32) :
    (8 ∣ fb.width ∧ fb.charHeight ∣ fb.height → ∀ stream : List Int, 0x1B ∉ stream →
      ((∀ k, ∃ c, run (drawStep fb) (initiateConsole boot) (stream.take k) = some c ∧ ∀ d ∈ c.drawn, d.Inside fb) ↔
        Along (drawStep fb) (fun c charnum => charnum = 8 → 8 ≤ c.width) (initiateConsole boot) stream)) ∧
    ((∀ stream : List Int, 0x1B ∉ stream → 8 ∉ stream →
      ∃ c, run (drawStep fb) (initiateConsole boot) stream = some c ∧ ∀ d ∈ c.drawn, d.Inside fb) ↔
        8 ∣ fb.width ∧ fb.charHeight ∣ fb.height) := by
  have hcells : 8 ∣ fb.width ∧ fb.charHeight ∣ fb.height → ∀ stream : List Int, 0x1B ∉ stream →
      ((∀ k, ∃ c, run (drawStep fb) (initiateConsole boot) (stream.take k) = some c ∧ ∀ d ∈ c.drawn, d.Inside fb) ↔
        Along (drawStep fb) (fun c charnum => charnum = 8 → 8 ≤ c.width) (initiateConsole boot) stream) := by
    rintro ⟨hw, hh⟩ stream hescape
    have hfb : fb.Whole := ⟨hpos, hcolumns, hrows, hw, hh, hwidth, hheight⟩
    apply forall_take_iff_along (fun c (hplaced : Placed fb c) => hplaced.inside)
      (fun c charnum hplaced (hne : charnum ≠ 0x1B) hback => drawStep_placed hfb hplaced hne hback)
    · rintro c charnum c' hplaced - hstep - rfl
      exact drawStep_backspace hfb hplaced hstep
    · exact placed_initiate hfb
    · rintro charnum hmem rfl
      exact hescape hmem
  refine ⟨hcells, ?_, ?_⟩
  · intro hall
    have hnotMem {n : Nat} {a b : Int} (hne : a ≠ b) : a ∉ replicate n b := fun hmem => hne (eq_of_mem_replicate hmem)
    constructor
    · by_contra hw
      obtain ⟨c, hrun, hdrawn⟩ := run_letters hrows hpos hwidth hw
      obtain ⟨c', hrun', hinside⟩ := hall (replicate (fb.width / 8) 97) (hnotMem (by decide)) (hnotMem (by decide))
      obtain rfl := Option.some.inj (hrun.symm.trans hrun')
      exact hdrawn.not_inside (by omega) (.inl (by omega)) hinside
    · by_contra hh
      obtain ⟨c, hrun, hdrawn⟩ := run_lineEnds hcolumns hheight hh
      obtain ⟨c', hrun', hinside⟩ :=
        hall (replicate (fb.height / fb.charHeight) 10) (hnotMem (by decide)) (hnotMem (by decide))
      obtain rfl := Option.some.inj (hrun.symm.trans hrun')
      have hrow := lt_mul_div_succ fb.height hpos
      rw [mul_succ] at hrow
      exact hdrawn.not_inside (by omega) (.inr hrow) hinside
  · intro hwhole stream hescape hback
    have halong : Along (drawStep fb) (fun c charnum => charnum = 8 → 8 ≤ c.width) (initiateConsole boot) stream := by
      apply along_of_forall
      rintro charnum hmem c rfl
      exact absurd hmem hback
    have hrun := (hcells hwhole stream hescape).2 halong stream.length
    rwa [take_length] at hrun

def vga : Screen := ⟨640, 480, 16, 16⟩

/-- Two letters, a line end and a tab. -/
theorem drawCharacter_inside_iff_vga :
    ∃ c, run (drawStep vga) (initiateConsole boot) [97, 98, 10, 9] = some c ∧ ∀ d ∈ c.drawn, d.Inside vga :=
  (drawCharacter_inside_iff vga (by decide) (by decide) (by decide) (by decide) (by decide)).2.2 (by decide)
    [97, 98, 10, 9] (by decide) (by decide)

/-- A backspace comes first. Behind two line ends on a screen of two and a half rows, and behind a letter on one of one
and a half columns, the bull is drawn over the edge. -/
theorem drawCharacter_outside : (drawCharacter vga 8 (initiateConsole boot)).map Console.drawn = .error .overflow ∧
      (run (drawStep ⟨8, 40, 16, 16⟩) (initiateConsole boot) [10, 10]).map (·.drawn.getLast?) =
        some (some (.rect 0 32 8 16 (255, 255, 255))) ∧
      ¬ (Drawing.rect 0 32 8 16 (255, 255, 255)).Inside ⟨8, 40, 16, 16⟩ ∧
      (run (drawStep ⟨12, 32, 16, 16⟩) (initiateConsole boot) [97]).map (·.drawn.getLast?) =
        some (some (.rect 8 0 8 16 (255, 255, 255))) ∧
      ¬ (Drawing.rect 8 0 8 16 (255, 255, 255)).Inside ⟨12, 32, 16, 16⟩ := by
  refine ⟨by decide, by decide, ?_, by decide, ?_⟩
  · rintro ⟨-, hbottom⟩
    exact absurd hbottom (by decide)
  · rintro ⟨hright, -⟩
    exact absurd hright (by decide)

end CoreX.Graphical

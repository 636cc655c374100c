import Mathlib.Tactic.Common

/-!
# Memory behind a page map

An address space is a map from pages to frames of a physical memory. An access goes through the map, page by page, and
faults on a page without a frame. As long as no frame is behind two pages (`Space.Separate`), a store changes the byte
it is for and no other byte of the space.
-/

namespace CoreX.PageMap

open Option Nat Function

variable {α : Type*} {v frame page n w : Nat} {xs : List α} {src : Nat → α}

structure Space (α : Type*) where
  phys : Nat → α
  frameOf : Nat → Nat

namespace Space

section
variable (P : Nat) (s : Space α)

/-- The physical address behind a virtual one, for pages of `P` bytes. -/
def place (v : Nat) : Nat := P * s.frameOf (v / P) + v % P

def read (v : Nat) : Option α :=
  if s.frameOf (v / P) = 0 then none else some (s.phys (s.place P v))

def mapPage (page frame : Nat) : Space α := { s with frameOf := Function.update s.frameOf page frame }

def store (v : Nat) (x : α) : Space α :=
  { s with phys := Function.update s.phys (s.place P v) x }

/-- Stores of `src 0`, `src 1`, … to the `n` addresses from `v` on, `none` if one of them faults. -/
def write (P : Nat) (s : Space α) (v : Nat) (src : Nat → α) : Nat → Option (Space α)
  | 0 => some s
  | n + 1 =>
    (write P s v src n).bind fun s =>
      if s.frameOf ((v + n) / P) = 0 then none else some (s.store P (v + n) (src n))

def readList (P : Nat) (s : Space α) (v : Nat) : Nat → Option (List α)
  | 0 => some []
  | n + 1 => (s.read P v).bind fun x => (readList P s (v + 1) n).map (x :: ·)

def Holds (P : Nat) (s : Space α) : Nat → List α → Prop
  | _, [] => True
  | v, x :: xs => s.read P v = some x ∧ Holds P s (v + 1) xs

def Separate : Prop := ∀ p q, s.frameOf p ≠ 0 → s.frameOf p = s.frameOf q → p = q

/-- No page has the frame. -/
def Unused (frame : Nat) : Prop := ∀ p, s.frameOf p ≠ frame

end

variable {P : Nat} {s s' : Space α}

theorem read_congr (hFrame : s'.frameOf (v / P) = s.frameOf (v / P))
    (hPhys : s'.phys (s.place P v) = s.phys (s.place P v)) : s'.read P v = s.read P v := by
  rw [read, read, place, hFrame, ← place, hPhys]

theorem read_of_mapped (h : s.frameOf (v / P) ≠ 0) : s.read P v = some (s.phys (s.place P v)) := if_neg h

theorem mapped_of_read {x : α} (h : s.read P v = some x) : s.frameOf (v / P) ≠ 0 := by
  intro hZero
  rw [read, if_pos hZero] at h
  exact absurd h (by simp)

theorem mapPage_frameOf_self (s : Space α) (page frame : Nat) : (s.mapPage page frame).frameOf page = frame :=
  update_self _ _ _

theorem mapPage_frameOf_of_ne {p : Nat} (h : p ≠ page) : (s.mapPage page frame).frameOf p = s.frameOf p :=
  update_of_ne h _ _

theorem read_mapPage_self (hFrame : frame ≠ 0) (hv : v / P = page) :
    (s.mapPage page frame).read P v = some (s.phys (P * frame + v % P)) := by
  have hMapped : (s.mapPage page frame).frameOf (v / P) = frame := by
    rw [hv, mapPage_frameOf_self]
  rw [read, hMapped, if_neg hFrame, place, hMapped]
  rfl

theorem read_mapPage_of_ne (hv : v / P ≠ page) : (s.mapPage page frame).read P v = s.read P v :=
  read_congr (mapPage_frameOf_of_ne hv) rfl

theorem Separate.mapPage (h : s.Separate) (hUnused : s.Unused frame) : (s.mapPage page frame).Separate := by
  intro p q hp hpq
  by_cases hpp : p = page
  · by_cases hqp : q = page
    · rw [hpp, hqp]
    · rw [hpp, mapPage_frameOf_self, mapPage_frameOf_of_ne hqp] at hpq
      exact absurd hpq.symm (hUnused q)
  · rw [mapPage_frameOf_of_ne hpp] at hp hpq
    by_cases hqp : q = page
    · rw [hqp, mapPage_frameOf_self] at hpq
      exact absurd hpq (hUnused p)
    · rw [mapPage_frameOf_of_ne hqp] at hpq
      exact h p q hp hpq

theorem Unused.mapPage {other : Nat} (h : s.Unused other) (hne : frame ≠ other) :
    (s.mapPage page frame).Unused other := by
  intro p
  by_cases hp : p = page
  · rw [hp, mapPage_frameOf_self]
    exact hne
  · rw [mapPage_frameOf_of_ne hp]
    exact h p

section
variable (hP : 0 < P) (hSep : s.Separate) (hv : s.frameOf (v / P) ≠ 0)
include hP hSep hv

theorem eq_of_place_eq (h : s.place P v = s.place P w) : v = w := by
  have hDiv : ∀ x, s.place P x / P = s.frameOf (x / P) := by
    intro x
    rw [place, Nat.mul_add_div hP, Nat.div_eq_of_lt (Nat.mod_lt x hP), Nat.add_zero]
  have hMod : ∀ x, s.place P x % P = x % P := by
    intro x
    rw [place, mul_add_mod, mod_mod]
  have hPage : v / P = w / P := by
    apply hSep _ _ hv
    rw [← hDiv v, ← hDiv w, h]
  have hOffset : v % P = w % P := by
    rw [← hMod v, ← hMod w, h]
  rw [← div_add_mod v P, ← div_add_mod w P, hPage, hOffset]

theorem read_store (x : α) (w : Nat) : (s.store P v x).read P w = if w = v then some x else s.read P w := by
  split
  · rename_i hw
    have hMapped : (s.store P v x).frameOf (v / P) ≠ 0 := hv
    rw [hw, read_of_mapped hMapped]
    exact congrArg some (update_self _ _ _)
  · rename_i hw
    have hPlace : s.place P w ≠ s.place P v := by
      intro h
      exact hw (eq_of_place_eq hP hSep hv h.symm).symm
    refine read_congr ?_ (update_of_ne hPlace _ _)
    rfl

end

theorem phys_store_of_unused (hP : 0 < P) {a : Nat} (x : α) (ha : s.Unused (a / P)) :
    (s.store P v x).phys a = s.phys a := by
  apply update_of_ne
  intro hPlace
  apply ha (v / P)
  rw [hPlace, place, Nat.mul_add_div hP, Nat.div_eq_of_lt (Nat.mod_lt v hP), Nat.add_zero]

theorem write_spec (hP : 0 < P) (hSep : s.Separate) (v : Nat) (src : Nat → α) (n : Nat)
    (hMapped : ∀ i, i < n → s.frameOf ((v + i) / P) ≠ 0) :
    ∃ s', s.write P v src n = some s' ∧ s'.frameOf = s.frameOf ∧
      (∀ w, s'.read P w = if v ≤ w ∧ w < v + n then some (src (w - v)) else s.read P w) ∧
      ∀ a, s.Unused (a / P) → s'.phys a = s.phys a := by
  induction n with
  | zero =>
    refine ⟨s, rfl, rfl, fun w => ?_, fun _ _ => rfl⟩
    rw [if_neg (by omega)]
  | succ n ih =>
    obtain ⟨t, hWrite, hFrame, hRead, hUnused⟩ := ih fun i hi => hMapped i (by omega)
    have hLast : t.frameOf ((v + n) / P) ≠ 0 := by
      rw [hFrame]
      exact hMapped n (by omega)
    have hSep' : t.Separate := by
      intro p q
      rw [hFrame]
      exact hSep p q
    refine ⟨t.store P (v + n) (src n), ?_, hFrame, fun w => ?_, fun a ha => ?_⟩
    · rw [write, hWrite, bind_some, if_neg hLast]
    · rw [read_store hP hSep' hLast, hRead]
      by_cases hw : w = v + n
      · rw [if_pos hw, if_pos (by omega)]
        exact congrArg some (congrArg src (by omega))
      · rw [if_neg hw]
        by_cases hIn : v ≤ w ∧ w < v + n
        · rw [if_pos hIn, if_pos (by omega)]
        · rw [if_neg hIn, if_neg (by omega)]
    · have ha' : t.Unused (a / P) := by
        intro p
        rw [hFrame]
        exact ha p
      rw [phys_store_of_unused hP _ ha', hUnused a ha]

theorem frameOf_of_write (h : s.write P v src n = some s') : s'.frameOf = s.frameOf := by
  induction n generalizing s' with
  | zero => rw [some.inj h]
  | succ n ih =>
    obtain ⟨t, hWrite, hLast⟩ := bind_eq_some_iff.1 h
    have hFrame := ih hWrite
    split at hLast
    · exact absurd hLast (by simp)
    · rw [← some.inj hLast]
      exact hFrame

theorem mapped_of_write (h : s.write P v src n = some s') {i : Nat} (hi : i < n) : s.frameOf ((v + i) / P) ≠ 0 := by
  induction n generalizing s' with
  | zero => omega
  | succ n ih =>
    obtain ⟨t, hWrite, hLast⟩ := bind_eq_some_iff.1 h
    rcases Nat.lt_succ_iff_lt_or_eq.1 hi with hi | rfl
    · exact ih hWrite hi
    · split at hLast
      · exact absurd hLast (by simp)
      · rename_i hMapped
        rw [frameOf_of_write hWrite] at hMapped
        exact hMapped

/-! ## Lists in the space -/

theorem holds_of_read (h : ∀ i (hi : i < xs.length), s.read P (v + i) = some xs[i]) : s.Holds P v xs := by
  induction xs generalizing v with
  | nil => trivial
  | cons x xs ih =>
    refine ⟨h 0 (by simp), ih fun i hi => ?_⟩
    have hNext := h (i + 1) (by simpa using hi)
    rw [Nat.add_assoc, Nat.add_comm 1 i]
    exact hNext

theorem holds_append {ys : List α} : s.Holds P v (xs ++ ys) ↔ s.Holds P v xs ∧ s.Holds P (v + xs.length) ys := by
  induction xs generalizing v with
  | nil => simp [Holds]
  | cons x xs ih =>
    rw [List.cons_append, Holds, Holds, ih, List.length_cons, and_assoc, Nat.add_assoc, Nat.add_comm 1 xs.length]

theorem Holds.congr (h : s.Holds P v xs) (hRead : ∀ w, v ≤ w → w < v + xs.length → s'.read P w = s.read P w) :
    s'.Holds P v xs := by
  induction xs generalizing v with
  | nil => trivial
  | cons x xs ih =>
    rw [List.length_cons] at hRead
    refine ⟨?_, ih h.2 fun w hw hw' => hRead w (by omega) (by omega)⟩
    rw [hRead v (by omega) (by omega)]
    exact h.1

theorem Holds.of_write {u : Nat} (h : s.Holds P u xs)
    (hRead : ∀ w, s'.read P w = if v ≤ w ∧ w < v + n then some (src (w - v)) else s.read P w)
    (hApart : u + xs.length ≤ v ∨ v + n ≤ u) : s'.Holds P u xs := by
  apply h.congr
  intro w hw hw'
  rw [hRead, if_neg (by omega)]

theorem holds_write (hRead : ∀ w, s'.read P w = if v ≤ w ∧ w < v + n then some (src (w - v)) else s.read P w)
    (hLength : xs.length = n) (hSrc : ∀ i (hi : i < xs.length), src i = xs[i]) : s'.Holds P v xs := by
  apply holds_of_read
  intro i hi
  rw [hRead, if_pos (by omega), Nat.add_sub_cancel_left, hSrc i hi]

theorem Holds.read (h : s.Holds P v xs) {i : Nat} (hi : i < xs.length) : s.read P (v + i) = some xs[i] := by
  induction xs generalizing v i with
  | nil => exact absurd hi (Nat.not_lt_zero i)
  | cons x xs ih =>
    cases i with
    | zero => exact h.1
    | succ i =>
      have hNext := ih h.2 (Nat.lt_of_succ_lt_succ hi)
      rwa [Nat.add_assoc, Nat.add_comm 1 i] at hNext

theorem Holds.mapped (h : s.Holds P v xs) (hw : v ≤ w) (hw' : w < v + xs.length) : s.frameOf (w / P) ≠ 0 := by
  obtain ⟨i, rfl⟩ := Nat.exists_eq_add_of_le hw
  exact mapped_of_read (h.read (Nat.lt_of_add_lt_add_left hw'))

theorem Holds.read_eq (h : s.Holds P v xs) (h' : s'.Holds P v xs) (hw : v ≤ w) (hw' : w < v + xs.length) :
    s.read P w = s'.read P w := by
  obtain ⟨i, rfl⟩ := Nat.exists_eq_add_of_le hw
  rw [h.read (Nat.lt_of_add_lt_add_left hw'), h'.read (Nat.lt_of_add_lt_add_left hw')]

theorem Holds.readList (h : s.Holds P v xs) : s.readList P v xs.length = some xs := by
  induction xs generalizing v with
  | nil => rfl
  | cons x xs ih =>
    rw [List.length_cons, Space.readList, h.1, bind_some, ih h.2, map_some]

end Space

end CoreX.PageMap

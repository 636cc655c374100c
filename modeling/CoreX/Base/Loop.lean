import Mathlib.Data.Set.Finite.Basic
import CoreX.Base.Run

/-!
# Loops that may fail or never end

A turn of a loop is a function `step : σ → Option (ρ ⊕ σ)`: it fails, leaves the loop with a result (`inl`), or goes
on (`inr`). The loop returns if and only if no turn fails and it does not go on for ever (`returns_iff`).
-/

namespace CoreX.Loop

open Option Nat

variable {σ ρ : Type*} (step : σ → Option (ρ ⊕ σ))

def exec : Nat → σ → Option ρ
  | 0, _ => none
  | n + 1, s =>
    match step s with
    | none => none
    | some (.inl r) => some r
    | some (.inr t) => exec n t

def after : Nat → σ → Option σ
  | 0, s => some s
  | n + 1, s =>
    match step s with
    | some (.inr t) => after n t
    | _ => none

/-- The loop comes from one state to the other. -/
def Visits (s t : σ) : Prop := ∃ n, after step n s = some t

def Endless (s : σ) : Prop := ∀ n, ∃ t, after step n s = some t

def Returns (s : σ) : Prop := ∃ n r, exec step n s = some r

variable {step} {s t u : σ} {r : ρ} {m n k : Nat}

theorem exec_succ_inl (h : step s = some (.inl r)) (n : Nat) : exec step (n + 1) s = some r := by
  rw [exec, h]

theorem exec_succ_inr (h : step s = some (.inr t)) (n : Nat) : exec step (n + 1) s = exec step n t := by
  rw [exec, h]

theorem exec_of_none (h : step s = none) (n : Nat) : exec step n s = none := by
  cases n with
  | zero => rfl
  | succ n => rw [exec, h]

theorem after_succ_inr (h : step s = some (.inr t)) (n : Nat) : after step (n + 1) s = after step n t := by
  rw [after, h]

theorem after_succ : after step (n + 1) s = some u ↔ ∃ t, step s = some (.inr t) ∧ after step n t = some u := by
  constructor
  · intro h
    rw [after] at h
    split at h
    · exact ⟨_, ‹_›, h⟩
    · cases h
  · rintro ⟨t, ht, hu⟩
    rw [after_succ_inr ht, hu]

theorem after_add : after step (m + n) s = some u ↔ ∃ t, after step m s = some t ∧ after step n t = some u := by
  induction m generalizing s with
  | zero => simp [after]
  | succ m ih =>
    rw [succ_add, after_succ]
    constructor
    · rintro ⟨s', hs', hrest⟩
      obtain ⟨t, ht, hu⟩ := ih.1 hrest
      exact ⟨t, after_succ.2 ⟨s', hs', ht⟩, hu⟩
    · rintro ⟨t, ht, hu⟩
      obtain ⟨s', hs', hrest⟩ := after_succ.1 ht
      exact ⟨s', hs', ih.2 ⟨t, hrest, hu⟩⟩

theorem Visits.refl (s : σ) : Visits step s s := ⟨0, rfl⟩

theorem Visits.head (h : step s = some (.inr t)) (hu : Visits step t u) : Visits step s u := by
  obtain ⟨n, hn⟩ := hu
  exact ⟨n + 1, (after_succ_inr h n).trans hn⟩

theorem Visits.tail (ht : Visits step s t) (h : step t = some (.inr u)) : Visits step s u := by
  obtain ⟨n, hn⟩ := ht
  exact ⟨n + 1, after_add.2 ⟨t, hn, after_succ_inr h 0⟩⟩

/-- **The invariant rule**: what every turn preserves holds in every state that the loop comes to. -/
theorem Visits.invariant (Inv : σ → Prop) (hturn : ∀ t u, Inv t → step t = some (.inr u) → Inv u) (hs : Inv s)
    (ht : Visits step s t) : Inv t := by
  obtain ⟨n, hn⟩ := ht
  induction n generalizing s with
  | zero => exact some.inj hn ▸ hs
  | succ n ih =>
    obtain ⟨s', hs', hrest⟩ := after_succ.1 hn
    exact ih (hturn s s' hs hs') hrest

theorem Endless.of_visits (ht : Visits step s t) (h : Endless step t) : Endless step s := by
  obtain ⟨m, hm⟩ := ht
  intro n
  obtain ⟨u, hu⟩ := h n
  have hlater : after step (n + m) s = some u := by
    rw [Nat.add_comm]
    exact after_add.2 ⟨t, hm, hu⟩
  obtain ⟨s', hs', -⟩ := after_add.1 hlater
  exact ⟨s', hs'⟩

theorem endless_of_invariant (Inv : σ → Prop) (hturn : ∀ t, Inv t → ∃ u, step t = some (.inr u) ∧ Inv u) (hs : Inv s) :
    Endless step s := by
  intro n
  induction n generalizing s with
  | zero => exact ⟨s, rfl⟩
  | succ n ih =>
    obtain ⟨t, ht, hinv⟩ := hturn s hs
    obtain ⟨u, hu⟩ := ih hinv
    exact ⟨u, (after_succ_inr ht n).trans hu⟩

theorem endless_of_self (h : step s = some (.inr s)) : Endless step s := by
  refine endless_of_invariant (fun t => t = s) ?_ rfl
  rintro t rfl
  exact ⟨t, h, rfl⟩

theorem exec_of_after (h : after step k s = some t) (n : Nat) : exec step (k + n) s = exec step n t := by
  induction k generalizing s with
  | zero => rw [Nat.zero_add, some.inj h]
  | succ k ih =>
    obtain ⟨s', hs', hrest⟩ := after_succ.1 h
    rw [succ_add, exec_succ_inr hs', ih hrest]

theorem exec_cut (hr : exec step n s = some r) (h : after step k s = some t) :
    ∃ m, n = k + m ∧ exec step m t = some r := by
  induction k generalizing s n with
  | zero => exact ⟨n, (Nat.zero_add n).symm, some.inj h ▸ hr⟩
  | succ k ih =>
    obtain ⟨s', hs', hrest⟩ := after_succ.1 h
    cases n with
    | zero => cases hr
    | succ n =>
      rw [exec_succ_inr hs'] at hr
      obtain ⟨m, rfl, hm⟩ := ih hr hrest
      exact ⟨m, (succ_add k m).symm, hm⟩

theorem exec_of_endless (h : Endless step s) (n : Nat) : exec step n s = none := by
  obtain ⟨t, ht⟩ := h n
  exact exec_of_after ht 0

/-- **A loop returns** if and only if it comes to no turn that fails and does not go on for ever. -/
theorem returns_iff : Returns step s ↔ (∀ t, Visits step s t → step t ≠ none) ∧ ¬ Endless step s := by
  constructor
  · rintro ⟨n, r, hr⟩
    refine ⟨?_, fun h => some_ne_none r (hr.symm.trans (exec_of_endless h n))⟩
    rintro t ⟨k, hk⟩ hnone
    obtain ⟨m, -, hm⟩ := exec_cut hr hk
    rw [exec_of_none hnone] at hm
    cases hm
  · rintro ⟨hsafe, hends⟩
    obtain ⟨n, hn⟩ := not_forall.1 hends
    induction n generalizing s with
    | zero => exact absurd ⟨s, rfl⟩ hn
    | succ n ih =>
      cases hs : step s with
      | none => exact absurd hs (hsafe s (.refl s))
      | some x =>
        cases x with
        | inl r => exact ⟨1, r, exec_succ_inl hs 0⟩
        | inr t =>
          have hrest : ¬ ∃ u, after step n t = some u := by rwa [← after_succ_inr hs]
          obtain ⟨k, r, hr⟩ := ih (fun u hu => hsafe u (hu.head hs)) (not_forall.2 ⟨n, hrest⟩) hrest
          exact ⟨k + 1, r, (exec_succ_inr hs k).trans hr⟩

theorem returns_iff_exists : Returns step s ↔ ∃ t, Visits step s t ∧ ∃ r, step t = some (.inl r) := by
  constructor
  · rintro ⟨n, r, hr⟩
    induction n generalizing s with
    | zero => cases hr
    | succ n ih =>
      cases hs : step s with
      | none =>
        rw [exec_of_none hs] at hr
        cases hr
      | some x =>
        cases x with
        | inl r' => exact ⟨s, .refl s, r', hs⟩
        | inr t =>
          rw [exec_succ_inr hs] at hr
          obtain ⟨u, hu, hleave⟩ := ih hr
          exact ⟨u, hu.head hs, hleave⟩
  · rintro ⟨t, ⟨k, hk⟩, r, hleave⟩
    exact ⟨k + 1, r, (exec_of_after hk 1).trans (exec_succ_inl hleave 0)⟩

/-! ## Coming back to a state -/

/-- The loop is in one state at two times. -/
def Repeats (step : σ → Option (ρ ⊕ σ)) (s : σ) : Prop :=
  ∃ m n t, m < n ∧ after step m s = some t ∧ after step n s = some t

theorem Endless.of_repeats (h : Repeats step s) : Endless step s := by
  obtain ⟨m, n, t, hmn, hm, hn⟩ := h
  obtain ⟨k, rfl⟩ := Nat.exists_eq_add_of_lt hmn
  -- the turns between the two times lead from the state back to it
  have hround : after step (k + 1) t = some t := by
    rw [Nat.add_assoc] at hn
    obtain ⟨t', ht', hrest⟩ := after_add.1 hn
    rwa [← some.inj (hm.symm.trans ht')] at hrest
  refine .of_visits ⟨m, hm⟩ (endless_of_invariant (fun u => Visits step u t) ?_ ⟨k + 1, hround⟩)
  rintro u ⟨j, hj⟩
  cases j with
  | zero =>
    obtain rfl := some.inj hj
    obtain ⟨u', hu', hrest⟩ := after_succ.1 hround
    exact ⟨u', hu', k, hrest⟩
  | succ j =>
    obtain ⟨u', hu', hrest⟩ := after_succ.1 hj
    exact ⟨u', hu', j, hrest⟩

/-- **A loop in a finite set of states** goes on for ever if and only if it comes back to a state. -/
theorem endless_iff_repeats {S : Set σ} (hS : S.Finite) (hturn : ∀ t u, step t = some (.inr u) → u ∈ S) :
    Endless step s ↔ Repeats step s := by
  refine ⟨fun h => ?_, .of_repeats⟩
  choose state hstate using h
  -- the states after the first turn
  have hmem : ∀ n, state (n + 1) ∈ S := by
    intro n
    obtain ⟨t, ht, hnext⟩ := after_add.1 (hstate (n + 1))
    obtain ⟨u, hu, hrest⟩ := after_succ.1 hnext
    rw [← some.inj hrest]
    exact hturn t u hu
  obtain ⟨m, -, n, -, hne, heq⟩ := Set.infinite_univ.exists_ne_map_eq_of_mapsTo (fun n _ => hmem n) hS
  rcases lt_or_gt_of_ne hne with hlt | hlt
  · exact ⟨m + 1, n + 1, state (m + 1), succ_lt_succ hlt, hstate (m + 1), heq ▸ hstate (n + 1)⟩
  · exact ⟨n + 1, m + 1, state (n + 1), succ_lt_succ hlt, hstate (n + 1), heq ▸ hstate (m + 1)⟩

/-! ## Loops with a guard -/

section Guard
variable {ε : Type*} (going : σ → Prop) [DecidablePred going] (body : σ → Except ε (ρ ⊕ σ)) (done : σ → ρ) (late : ε)

def bounded : Nat → σ → Except ε ρ
  | 0, s => if going s then .error late else .ok (done s)
  | n + 1, s =>
    if going s then
      match body s with
      | .error e => .error e
      | .ok (.inl r) => .ok r
      | .ok (.inr t) => bounded n t
    else .ok (done s)

def boundedStep (s : σ) : Option (ρ ⊕ σ) := if going s then (body s).toOption else some (.inl (done s))

variable {going body done late}

theorem boundedStep_eq_inr : boundedStep going body done s = some (.inr t) ↔ going s ∧ body s = .ok (.inr t) := by
  unfold boundedStep
  split_ifs with hgoing
  · cases body s with
    | error e => simp [Except.toOption]
    | ok x => simp [Except.toOption, hgoing]
  · simp [hgoing]

theorem exec_of_bounded (h : bounded going body done late n s = .ok r) :
    exec (boundedStep going body done) (n + 1) s = some r := by
  induction n generalizing s with
  | zero =>
    rw [bounded] at h
    split_ifs at h with hgoing
    cases h
    exact exec_succ_inl (by rw [boundedStep, if_neg hgoing]) 0
  | succ n ih =>
    rw [bounded] at h
    split_ifs at h with hgoing
    · cases hbody : body s with
      | error e =>
        rw [hbody] at h
        cases h
      | ok x =>
        rw [hbody] at h
        have hstep : boundedStep going body done s = some x := by
          rw [boundedStep, if_pos hgoing, hbody]
          rfl
        cases x with
        | inl r' =>
          cases h
          exact exec_succ_inl hstep _
        | inr t => exact (exec_succ_inr hstep _).trans (ih h)
    · cases h
      exact exec_succ_inl (by rw [boundedStep, if_neg hgoing]) _

def Moves (rank : σ → Nat) (body : σ → Except ε (ρ ⊕ σ)) (s : σ) : Prop :=
  ∃ x, body s = .ok x ∧ ∀ t, x = .inr t → rank s < rank t

variable {rank : σ → Nat} {size : Nat}

section
variable (hsize : ∀ t, Visits (boundedStep going body done) s t → going t → rank t < size)
include hsize

theorem bounded_ok (hmoves : ∀ t, Visits (boundedStep going body done) s t → going t → Moves rank body t)
    (hn : size ≤ rank s + n) : ∃ r, bounded going body done late n s = .ok r := by
  induction n generalizing s with
  | zero =>
    have hends : ¬ going s := fun hgoing => by
      have := hsize s (.refl s) hgoing
      omega
    exact ⟨done s, by rw [bounded, if_neg hends]⟩
  | succ n ih =>
    by_cases hgoing : going s
    · obtain ⟨x, hx, hadvance⟩ := hmoves s (.refl s) hgoing
      cases x with
      | inl r => exact ⟨r, by rw [bounded, if_pos hgoing, hx]⟩
      | inr t =>
        have hrank := hadvance t rfl
        have hstep : boundedStep going body done s = some (.inr t) := boundedStep_eq_inr.2 ⟨hgoing, hx⟩
        obtain ⟨r, hr⟩ :=
          ih (s := t) (fun u hu => hsize u (hu.head hstep)) (fun u hu => hmoves u (hu.head hstep)) (by omega)
        exact ⟨r, by rw [bounded, if_pos hgoing, hx]; exact hr⟩
    · exact ⟨done s, by rw [bounded, if_neg hgoing]⟩

/-- **A loop that never gets loose once it is stuck** returns, in as many turns as there is progress to make, if and
only if every turn that it takes succeeds and makes progress. -/
theorem bounded_ok_iff
    (hstuck : ∀ t u, Visits (boundedStep going body done) s t → going t → body t = .ok (.inr u) →
      rank t < rank u ∨ Endless (boundedStep going body done) u)
    (hn : size ≤ rank s + n) : (∃ r, bounded going body done late n s = .ok r) ↔
      ∀ t, Visits (boundedStep going body done) s t → going t → Moves rank body t := by
  refine ⟨?_, fun h => bounded_ok hsize h hn⟩
  rintro ⟨r, hr⟩ t ht hgoing
  obtain ⟨hsafe, hends⟩ := returns_iff.1 ⟨n + 1, r, exec_of_bounded hr⟩
  have hsome := hsafe t ht
  rw [boundedStep, if_pos hgoing] at hsome
  cases hbody : body t with
  | error e => exact absurd (by rw [hbody]; rfl) hsome
  | ok x =>
    refine ⟨x, hbody, ?_⟩
    rintro u rfl
    rcases hstuck t u ht hgoing hbody with hmove | hendless
    · exact hmove
    · exact absurd (Endless.of_visits (ht.tail (boundedStep_eq_inr.2 ⟨hgoing, hbody⟩)) hendless) hends

end

end Guard

end CoreX.Loop

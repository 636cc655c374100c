import Mathlib.Logic.Basic

/-!
# Runs of a partial step function

A system is a function `step : σ → ο → Option σ`, where `none` is an operation that its caller may not
issue in that state, or that does not return. A run is the list of operations it performs.
-/

namespace CoreX

theorem ok_bind {ε α β : Type} (a : α) (f : α → Except ε β) : (Except.ok a >>= f) = f a := rfl

theorem bind_eq_ok {ε α β : Type} {x : Except ε α} {f : α → Except ε β} {b : β} :
    x >>= f = .ok b ↔ ∃ a, x = .ok a ∧ f a = .ok b := by
  cases x with
  | error | ok => simp [bind, Except.bind]

theorem bind_eq_error {ε α β : Type} {x : Except ε α} {f : α → Except ε β} {fault : ε} :
    x >>= f = .error fault ↔ x = .error fault ∨ ∃ a, x = .ok a ∧ f a = .error fault := by
  cases x with
  | error | ok => simp [bind, Except.bind]

theorem exists_of_any {α : Type} {o : Option α} {p : α → Prop} [DecidablePred p]
    (h : o.any (fun a => decide (p a)) = true) : ∃ a, o = some a ∧ p a := by
  simpa only [Option.any_eq_true, decide_eq_true_eq] using h

theorem toOption_eq_some {ε α : Type} {x : Except ε α} {a : α} : x.toOption = some a ↔ x = .ok a := by
  cases x with
  | error | ok => simp [Except.toOption]

end CoreX

namespace CoreX.Run

/-! ## Runs -/

variable {σ ο ρ τ : Type*} (step : σ → ο → Option σ) {o : ο}

/-- The state after the operations, `none` if one of them is not possible. -/
def run (s : σ) : List ο → Option σ
  | [] => some s
  | o :: os => (step s o).bind (fun s' => run s' os)

variable {step} {os : List ο} {ok : σ → ο → Prop} {Inv : σ → Prop} {s : σ}

theorem run_cons {s' : σ} : run step s (o :: os) = some s' ↔ ∃ m, step s o = some m ∧ run step m os = some s' := by
  simp [run, Option.bind_eq_some_iff]

/-- Every operation of the run meets a condition in the state in which it is issued. -/
def Along (step : σ → ο → Option σ) (ok : σ → ο → Prop) : σ → List ο → Prop
  | _, [] => True
  | s, o :: os => ok s o ∧ ∀ s', step s o = some s' → Along step ok s' os

instance decidableAlong [∀ s o, Decidable (ok s o)] : ∀ s os, Decidable (Along step ok s os)
  | _, [] => isTrue trivial
  | s, o :: os =>
    match h : step s o with
    | none => decidable_of_iff (ok s o) ⟨fun hok => ⟨hok, fun _ hs => nomatch h.symm.trans hs⟩, And.left⟩
    | some m =>
      have := decidableAlong m os
      decidable_of_iff (ok s o ∧ Along step ok m os)
        ⟨fun hm => ⟨hm.1, fun _ hs => Option.some.inj (h.symm.trans hs) ▸ hm.2⟩, fun hm => ⟨hm.1, hm.2 m h⟩⟩

theorem along_cons {m : σ} (hok : ok s o) (hm : step s o = some m) (hrest : Along step ok m os) :
    Along step ok s (o :: os) :=
  ⟨hok, fun _ hs' => Option.some.inj (hm.symm.trans hs') ▸ hrest⟩

theorem along_of_forall (h : ∀ o ∈ os, ∀ s, ok s o) (s : σ) : Along step ok s os := by
  induction os generalizing s with
  | nil => trivial
  | cons o os ih =>
    obtain ⟨ho, hos⟩ := List.forall_mem_cons.1 h
    exact ⟨ho s, fun s' _ => ih hos s'⟩

theorem run_invariant_along (hstep : ∀ s o s', Inv s → ok s o → step s o = some s' → Inv s') {s' : σ} (hs : Inv s)
    (hok : Along step ok s os) (hrun : run step s os = some s') : Inv s' := by
  induction os generalizing s with
  | nil => exact Option.some.inj hrun ▸ hs
  | cons o os ih =>
    obtain ⟨m, hm, hrest⟩ := run_cons.1 hrun
    exact ih (hstep s o m hs hok.1 hm) (hok.2 m hm) hrest

theorem run_exists_along (hstep : ∀ s o, Inv s → ok s o → ∃ s', step s o = some s' ∧ Inv s') (hs : Inv s)
    (hok : Along step ok s os) : ∃ s', run step s os = some s' ∧ Inv s' := by
  induction os generalizing s with
  | nil => exact ⟨s, rfl, hs⟩
  | cons o os ih =>
    obtain ⟨m, hm, hinv⟩ := hstep s o hs hok.1
    obtain ⟨s', hs', hinv'⟩ := ih hinv (hok.2 m hm)
    exact ⟨s', run_cons.2 ⟨m, hm, hs'⟩, hinv'⟩

/-- **The invariant rule**: what every step preserves, every run preserves. -/
theorem run_invariant (hstep : ∀ s o s', Inv s → step s o = some s' → Inv s') {s' : σ} (hs : Inv s)
    (hrun : run step s os = some s') : Inv s' :=
  have halong : Along step (fun _ _ => True) s os := along_of_forall (fun _ _ _ => trivial) s
  run_invariant_along (fun s o s' hs _ => hstep s o s' hs) hs halong hrun

/-- If the operations that meet a condition are exactly those that keep the states good, then all states of a run are
good if and only if all of its operations meet the condition. -/
theorem forall_take_iff_along {Good : σ → Prop} {P : ο → Prop} (hgood : ∀ s, Inv s → Good s)
    (hok : ∀ s o, Inv s → P o → ok s o → ∃ s', step s o = some s' ∧ Inv s')
    (hbad : ∀ s o s', Inv s → P o → step s o = some s' → Good s' → ok s o) (hs : Inv s) (hP : ∀ o ∈ os, P o) :
    (∀ k, ∃ s', run step s (os.take k) = some s' ∧ Good s') ↔ Along step ok s os := by
  induction os generalizing s with
  | nil => exact iff_of_true (fun k => ⟨s, by rw [List.take_nil, run], hgood s hs⟩) trivial
  | cons o os ih =>
    obtain ⟨ho, hos⟩ := List.forall_mem_cons.1 hP
    constructor
    · intro hall
      obtain ⟨s₁, hfirst, hgood₁⟩ := hall 1
      obtain ⟨m, hm, hrest⟩ := run_cons.1 hfirst
      obtain rfl : m = s₁ := Option.some.inj hrest
      have hmeets := hbad s o m hs ho hm hgood₁
      obtain ⟨m', hm', hinv⟩ := hok s o hs ho hmeets
      obtain rfl := Option.some.inj (hm'.symm.trans hm)
      refine along_cons hmeets hm ((ih hinv hos).1 fun k => ?_)
      obtain ⟨s', hrun, hs'⟩ := hall (k + 1)
      obtain ⟨m', hm', hrest'⟩ := run_cons.1 hrun
      obtain rfl := Option.some.inj (hm'.symm.trans hm)
      exact ⟨s', hrest', hs'⟩
    · intro halong k
      cases k with
      | zero => exact ⟨s, rfl, hgood s hs⟩
      | succ k =>
        obtain ⟨m, hm, hinv⟩ := hok s o hs ho halong.1
        obtain ⟨s', hrun, hs'⟩ := (ih hinv hos).2 (halong.2 m hm) k
        exact ⟨s', run_cons.2 ⟨m, hm, hrun⟩, hs'⟩

theorem run_replicate {P : Nat → σ → Prop} {n : Nat}
    (hstep : ∀ i s, i < n → P i s → ∃ s', step s o = some s' ∧ P (i + 1) s') (hs : P 0 s) :
    ∃ s', run step s (List.replicate n o) = some s' ∧ P n s' := by
  induction n generalizing s P with
  | zero => exact ⟨s, rfl, hs⟩
  | succ n ih =>
    obtain ⟨m, hm, hm'⟩ := hstep 0 s (Nat.zero_lt_succ n) hs
    obtain ⟨s', hrun, hs'⟩ := ih (P := fun i => P (i + 1)) (fun i s hi => hstep (i + 1) s (by omega)) hm'
    exact ⟨s', run_cons.2 ⟨m, hm, hrun⟩, hs'⟩

/-- **The simulation rule**: if every step of an abstract system is matched by a step, every run of it is
matched by a run on the same operations. -/
theorem run_simulation {abstractStep : τ → ο → Option τ} {R : σ → τ → Prop}
    (hsim : ∀ s a o a', R s a → abstractStep a o = some a' → ∃ s', step s o = some s' ∧ R s' a') {a a' : τ}
    (hR : R s a) (hrun : run abstractStep a os = some a') : ∃ s', run step s os = some s' ∧ R s' a' := by
  induction os generalizing s a with
  | nil => exact ⟨s, rfl, Option.some.inj hrun ▸ hR⟩
  | cons o os ih =>
    obtain ⟨m, hm, hrest⟩ := run_cons.1 hrun
    obtain ⟨s₁, hs₁, hR₁⟩ := hsim s a o m hR hm
    obtain ⟨s', hs', hR'⟩ := ih hR₁ hrest
    exact ⟨s', run_cons.2 ⟨s₁, hs₁, hs'⟩, hR'⟩

/-! ## Runs with responses -/

def logged {ρ : Type*} (step : σ → ο → Option (ρ × σ)) (p : List ρ × σ) (o : ο) : Option (List ρ × σ) :=
  (step p.2 o).map fun q => (p.1 ++ [q.1], q.2)

theorem logged_length {step : σ → ο → Option (ρ × σ)} {p q : List ρ × σ} (h : run (logged step) p os = some q) :
    q.1.length = p.1.length + os.length := by
  induction os generalizing p with
  | nil => rw [← Option.some.inj h, List.length_nil, Nat.add_zero]
  | cons o os ih =>
    obtain ⟨m, hm, hrest⟩ := run_cons.1 h
    obtain ⟨r, -, rfl⟩ := Option.map_eq_some_iff.1 hm
    rw [ih hrest, List.length_append, List.length_singleton, List.length_cons]
    omega

theorem logged_simulation {step : σ → ο → Option (ρ × σ)} {abstractStep : τ → ο → Option (ρ × τ)} {R : σ → τ → Prop}
    (hsim : ∀ s a o r a', R s a → abstractStep a o = some (r, a') → ∃ s', step s o = some (r, s') ∧ R s' a')
    {a a' : τ} {rs rs' : List ρ} (hR : R s a) (hrun : run (logged abstractStep) (rs, a) os = some (rs', a')) :
    ∃ s', run (logged step) (rs, s) os = some (rs', s') ∧ R s' a' := by
  have hstep : ∀ (p : List ρ × σ) (q : List ρ × τ) o q', (p.1 = q.1 ∧ R p.2 q.2) → logged abstractStep q o = some q' →
      ∃ p', logged step p o = some p' ∧ (p'.1 = q'.1 ∧ R p'.2 q'.2) := by
    rintro p q o q' ⟨hlog, hpq⟩ hq
    obtain ⟨⟨r, b⟩, hb, rfl⟩ := Option.map_eq_some_iff.1 hq
    obtain ⟨t, ht, htb⟩ := hsim p.2 q.2 o r b hpq hb
    exact ⟨(p.1 ++ [r], t), by rw [logged, ht, Option.map_some], by rw [hlog], htb⟩
  obtain ⟨⟨rs₁, s'⟩, hs', rfl, hR'⟩ := run_simulation (s := (rs, s)) hstep ⟨rfl, hR⟩ hrun
  exact ⟨s', hs', hR'⟩

end CoreX.Run

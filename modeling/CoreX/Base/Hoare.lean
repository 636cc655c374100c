import Mathlib.Tactic.Common

/-!
# Programs with a state that may fail

A program is a `StateT σ Option α`, where `none` is a fault, a panic or a loop without end. `Total` is its
total correctness: from a state that meets the precondition the program returns.
-/

namespace CoreX.Hoare

open Option

variable {σ α β : Type} {p : Prop} {a : α}

/-- From every state with `P` the program returns, with `Q` of its result and the state after it. -/
def Total (P : σ → Prop) (x : StateT σ Option α) (Q : α → σ → Prop) : Prop :=
  ∀ s, P s → ∃ a s', x s = some (a, s') ∧ Q a s'

theorem bind_eq (x : StateT σ Option α) (f : α → StateT σ Option β) (s : σ) :
    (x >>= f) s = (x s).bind fun p => f p.1 p.2 :=
  rfl

theorem lift_eq (o : Option α) (s : σ) : (liftM o : StateT σ Option α) s = o.map fun a => (a, s) := by
  cases o <;> rfl

theorem bind_eq_none {x : StateT σ Option α} {f : α → StateT σ Option β} (h : ∀ a s, f a s = none)
    (s : σ) : (x >>= f) s = none := by
  rw [bind_eq]
  cases x s with
  | none => rfl
  | some p => exact h p.1 p.2

section Total
variable {P P' : σ → Prop} {x : StateT σ Option α} {f : α → StateT σ Option β} {Q Q' : α → σ → Prop}
  {R : β → σ → Prop}

theorem Total.bind (hx : Total P x Q) (hf : ∀ a, Total (Q a) (f a) R) : Total P (x >>= f) R := by
  intro s hs
  obtain ⟨a, s', hRun, hQ⟩ := hx s hs
  obtain ⟨b, s'', hRun', hR⟩ := hf a s' hQ
  refine ⟨b, s'', ?_, hR⟩
  rw [bind_eq, hRun, bind_some, hRun']

theorem total_pure (h : ∀ s, P s → Q a s) : Total P (pure a) Q := fun s hs => ⟨a, s, rfl, h s hs⟩

theorem total_lift {o : Option α} (ho : o = some a) :
    Total P (liftM o : StateT σ Option α) fun b s => b = a ∧ P s := by
  intro s hs
  refine ⟨a, s, ?_, rfl, hs⟩
  rw [lift_eq, ho, map_some]

theorem Total.weaken (h : Total P x Q) (hQ : ∀ a s, Q a s → Q' a s) : Total P x Q' := by
  intro s hs
  obtain ⟨a, s', hRun, hPost⟩ := h s hs
  exact ⟨a, s', hRun, hQ a s' hPost⟩

theorem total_of_and (h : p → Total P x Q) : Total (fun s => p ∧ P s) x Q := fun s hs => h hs.1 s hs.2

end Total

end CoreX.Hoare

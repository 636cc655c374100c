import Mathlib.Data.Finset.Max

/-!
# Tasks that hold locks and wait for them

`held t` are the locks that the task `t` has, and `wanted t` is the one that it waits for, if it waits. Two
facts: a lock that is only taken while it is free has one holder at most, and where every task waits for a
lock of a higher rank than those that it has, no tasks wait for each other in a circle.
-/

namespace CoreX.Locks

variable {τ ι ρ : Type*} {held held' : τ → List ι} {wanted : τ → Option ι}

def Exclusive (held : τ → List ι) : Prop := ∀ t u l, l ∈ held t → l ∈ held u → t = u

theorem Exclusive.step (h : Exclusive held) {t : τ} (hother : ∀ u, u ≠ t → held' u = held u)
    (ht : ∀ l ∈ held' t, l ∈ held t ∨ ∀ u, l ∉ held u) : Exclusive held' := by
  have hone : ∀ u l, u ≠ t → l ∈ held' t → l ∉ held' u := by
    intro u l hu hl hmem
    rw [hother u hu] at hmem
    rcases ht l hl with hold | hfree
    · exact hu (h u t l hmem hold)
    · exact hfree u hmem
  intro u v l hu hv
  by_cases hut : u = t <;> by_cases hvt : v = t
  · rw [hut, hvt]
  · exact absurd hv (hone v l hvt (hut ▸ hu))
  · exact absurd hu (hone u l hut (hvt ▸ hv))
  · rw [hother u hut] at hu
    rw [hother v hvt] at hv
    exact h u v l hu hv

/-- Every task of the set waits for a lock that a task of the set has. -/
def CircularWait (held : τ → List ι) (wanted : τ → Option ι) (S : Finset τ) : Prop :=
  S.Nonempty ∧ ∀ t ∈ S, ∃ l, wanted t = some l ∧ ∃ u ∈ S, l ∈ held u

/-- **The rule for ranked locks.** Nothing is asked of a task that waits for a lock which nobody has. -/
theorem not_circularWait [LinearOrder ρ] (rank : ι → ρ)
    (h : ∀ t l l', l ∈ held t → wanted t = some l' → (∃ u, l' ∈ held u) → rank l < rank l') (S : Finset τ) :
    ¬ CircularWait held wanted S := by
  rintro ⟨hne, hwait⟩
  obtain ⟨t₀, ht₀⟩ := hne
  obtain ⟨l₀, -⟩ := hwait t₀ ht₀
  -- the task that waits for the lock of the highest rank; whoever has that lock waits for a higher one
  obtain ⟨t, ht, hmax⟩ := S.exists_max_image (fun t => rank ((wanted t).getD l₀)) ⟨t₀, ht₀⟩
  obtain ⟨l, hl, u, hu, hheld⟩ := hwait t ht
  obtain ⟨l', hl', v, -, hv⟩ := hwait u hu
  have hle := hmax u hu
  rw [hl, hl', Option.getD_some, Option.getD_some] at hle
  exact absurd (h u l l' hheld hl' ⟨v, hv⟩) (not_lt.2 hle)

end CoreX.Locks

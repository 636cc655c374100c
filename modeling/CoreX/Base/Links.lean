import Mathlib.Data.List.Nodup

/-!
# Chains of links

A link function says what comes after an element, if anything does. The elements from one on are a list if
the chain ends (`Linked`). There is one such list at most, and no element is in it twice.
-/

namespace CoreX.Links

open List

variable {α : Type*} {next next' : α → Option α} {p q : Option α} {a b : α} {as bs : List α}

/-- From a pointer on, `next` runs through the list and ends behind it. -/
def Linked (next : α → Option α) : Option α → List α → Prop
  | p, [] => p = none
  | p, a :: as => p = some a ∧ Linked next (next a) as

theorem Linked.head?_eq (h : Linked next p as) : as.head? = p := by
  cases as with
  | nil => exact h.symm
  | cons a as => exact h.1.symm

theorem Linked.unique (h : Linked next p as) (h' : Linked next p bs) : as = bs := by
  induction as generalizing p bs with
  | nil =>
    cases bs with
    | nil => rfl
    | cons b bs => exact absurd (h.symm.trans h'.1) (by simp)
  | cons a as ih =>
    cases bs with
    | nil => exact absurd (h'.symm.trans h.1) (by simp)
    | cons b bs =>
      obtain rfl := Option.some.inj (h.1.symm.trans h'.1)
      rw [ih h.2 h'.2]

theorem Linked.of_append_cons (h : Linked next p (as ++ a :: bs)) : Linked next (next a) bs := by
  induction as generalizing p with
  | nil => exact h.2
  | cons c as ih => exact ih h.2

section
variable (h : Linked next p as)
include h

theorem Linked.drop (n : Nat) : Linked next (as.drop n).head? (as.drop n) := by
  induction n generalizing p as with
  | zero =>
    rw [drop_zero, h.head?_eq]
    exact h
  | succ n ih =>
    cases as with
    | nil => rfl
    | cons a as => exact ih h.2

theorem Linked.getElem?_succ {i : Nat} (ha : as[i]? = some a) : as[i + 1]? = next a := by
  induction i generalizing p as with
  | zero =>
    cases as with
    | nil => cases ha
    | cons c as =>
      obtain rfl := Option.some.inj ha
      exact head?_eq_getElem?.symm.trans h.2.head?_eq
  | succ i ih =>
    cases as with
    | nil => cases ha
    | cons c as => exact ih h.2 ha

theorem Linked.nodup : as.Nodup := by
  induction as generalizing p with
  | nil => exact nodup_nil
  | cons a as ih =>
    refine nodup_cons.2 ⟨fun hmem => ?_, ih h.2⟩
    -- a second occurrence is followed by the same chain as the first one
    obtain ⟨cs, ds, hsplit⟩ := append_of_mem hmem
    have hlinked := h.2
    rw [hsplit] at hlinked
    have heq := h.2.unique hlinked.of_append_cons
    have hlength := congrArg length (hsplit.symm.trans heq)
    rw [length_append, length_cons] at hlength
    omega

theorem Linked.congr (heq : ∀ a ∈ as, next' a = next a) : Linked next' p as := by
  induction as generalizing p with
  | nil => exact h
  | cons a as ih =>
    obtain ⟨ha, has⟩ := forall_mem_cons.1 heq
    exact ⟨h.1, ha ▸ ih h.2 has⟩

end

theorem Linked.concat (h : Linked next p (as ++ [a])) (heq : ∀ c ∈ as, next' c = next c)
    (ha : next' a = some b) (hb : next' b = none) : Linked next' p (as ++ [a, b]) := by
  induction as generalizing p with
  | nil => exact ⟨h.1, ha, hb⟩
  | cons c as ih =>
    obtain ⟨hc, has⟩ := forall_mem_cons.1 heq
    exact ⟨h.1, hc ▸ ih h.2 has⟩

end CoreX.Links

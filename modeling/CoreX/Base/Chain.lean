import Mathlib.Data.List.Nodup

/-!
# Doubly linked lists

A stretch of a doubly linked list is given by its elements, what stands before the first one and what stands behind
the last one. An element is put in or taken out by setting the links of its neighbours (`Stretch.insert`,
`Stretch.remove`).
-/

namespace CoreX.Chain

open List Option

variable {α : Type*} {prev next prev' next' : α → Option α} {b b' e e' : Option α} {a t : α} {as bs : List α}

/-- The elements point to each other, the first one back to `b` and the last one on to `e`. -/
def Stretch (prev next : α → Option α) : Option α → List α → Option α → Prop
  | _, [], _ => True
  | b, a :: as, e => prev a = b ∧ next a = as.head?.or e ∧ Stretch prev next (some a) as e

theorem getLast?_cons_or (a : α) (as : List α) (b : Option α) :
    (a :: as).getLast?.or b = as.getLast?.or (some a) := by
  rw [getLast?_cons]
  cases as.getLast? <;> rfl

theorem stretch_append : Stretch prev next b (as ++ bs) e ↔
      Stretch prev next b as (bs.head?.or e) ∧ Stretch prev next (as.getLast?.or b) bs e := by
  induction as generalizing b with
  | nil => simp [Stretch]
  | cons a as ih =>
    simp only [cons_append, Stretch, head?_append, Option.or_assoc, getLast?_cons_or, ih]
    tauto

theorem Stretch.congr (h : Stretch prev next b as e) (hprev : ∀ a ∈ as, prev' a = prev a)
    (hnext : ∀ a ∈ as, next' a = next a) : Stretch prev' next' b as e := by
  induction as generalizing b with
  | nil => trivial
  | cons a as ih =>
    obtain ⟨hprev, hprevs⟩ := forall_mem_cons.1 hprev
    obtain ⟨hnext, hnexts⟩ := forall_mem_cons.1 hnext
    exact ⟨hprev.trans h.1, hnext.trans h.2.1, ih h.2.2 hprevs hnexts⟩

section Relink
variable [DecidableEq α]

theorem Stretch.setEnd (h : Stretch prev next b as e) (hnodup : as.Nodup) (hprev : ∀ a ∈ as, prev' a = prev a)
    (hnext : ∀ a ∈ as, next' a = if as.getLast? = some a then e' else next a) : Stretch prev' next' b as e' := by
  induction as generalizing b with
  | nil => trivial
  | cons a as ih =>
    obtain ⟨hprev, hprevs⟩ := forall_mem_cons.1 hprev
    obtain ⟨hnext, hnexts⟩ := forall_mem_cons.1 hnext
    obtain ⟨ha, hnodup⟩ := nodup_cons.1 hnodup
    refine ⟨hprev.trans h.1, ?_, ?_⟩
    · cases as with
      | nil => rw [hnext, getLast?_singleton, if_pos rfl, head?_nil, none_or]
      | cons c cs =>
        have hne : (a :: c :: cs).getLast? ≠ some a := by
          rw [getLast?_cons_cons]
          exact fun hlast => ha (mem_of_getLast? hlast)
        rw [hnext, if_neg hne, h.2.1, head?_cons, some_or, some_or]
    · refine ih h.2.2 hnodup hprevs fun c hc => ?_
      have hlast : (a :: as).getLast? = as.getLast? := by
        cases as with
        | nil => cases hc
        | cons d ds => rw [getLast?_cons_cons]
      rw [hnexts c hc, hlast]

theorem Stretch.setStart (h : Stretch prev next b as e) (hnodup : as.Nodup)
    (hprev : ∀ a ∈ as, prev' a = if as.head? = some a then b' else prev a) (hnext : ∀ a ∈ as, next' a = next a) :
    Stretch prev' next' b' as e := by
  cases as with
  | nil => trivial
  | cons a as =>
    obtain ⟨hprev, hprevs⟩ := forall_mem_cons.1 hprev
    obtain ⟨hnext, hnexts⟩ := forall_mem_cons.1 hnext
    obtain ⟨ha, -⟩ := nodup_cons.1 hnodup
    refine ⟨?_, hnext.trans h.2.1, h.2.2.congr (fun c hc => ?_) hnexts⟩
    · rw [hprev, head?_cons, if_pos rfl]
    · have hne : (a :: as).head? ≠ some c := by
        rw [head?_cons]
        exact fun heq => ha (some.inj heq ▸ hc)
      rw [hprevs c hc, if_neg hne]

theorem Stretch.relink (has : Stretch prev next b as e) (hbs : Stretch prev next b' bs e')
    (hnodup : (as ++ bs).Nodup) {f g : Option α}
    (hprev : ∀ a ∈ as ++ bs, prev' a = if bs.head? = some a then g else prev a)
    (hnext : ∀ a ∈ as ++ bs, next' a = if as.getLast? = some a then f else next a) :
    Stretch prev' next' b as f ∧ Stretch prev' next' g bs e' := by
  obtain ⟨hnodup₁, hnodup₂, hdisj⟩ := nodup_append'.1 hnodup
  refine ⟨has.setEnd hnodup₁ (fun a ha => ?_) fun a ha => hnext a (mem_append_left _ ha),
    hbs.setStart hnodup₂ (fun a ha => hprev a (mem_append_right _ ha)) fun a ha => ?_⟩
  · rw [hprev a (mem_append_left _ ha), if_neg]
    exact fun hhead => hdisj ha (mem_of_head? hhead)
  · rw [hnext a (mem_append_right _ ha), if_neg]
    exact fun hlast => hdisj (mem_of_getLast? hlast) ha

theorem Stretch.insert (h : Stretch prev next b (as ++ bs) e) (hnodup : (as ++ bs).Nodup)
    (ht : prev' t = as.getLast?.or b) (ht' : next' t = bs.head?.or e)
    (hprev : ∀ a ∈ as ++ bs, prev' a = if bs.head? = some a then some t else prev a)
    (hnext : ∀ a ∈ as ++ bs, next' a = if as.getLast? = some a then some t else next a) :
    Stretch prev' next' b (as ++ t :: bs) e := by
  obtain ⟨has, hbs⟩ := stretch_append.1 h
  obtain ⟨has', hbs'⟩ := has.relink hbs hnodup hprev hnext
  exact stretch_append.2 ⟨has', ht, ht', hbs'⟩

theorem Stretch.remove (h : Stretch prev next b (as ++ t :: bs) e) (hnodup : (as ++ bs).Nodup)
    (hprev : ∀ a ∈ as ++ bs, prev' a = if bs.head? = some a then as.getLast?.or b else prev a)
    (hnext : ∀ a ∈ as ++ bs, next' a = if as.getLast? = some a then bs.head?.or e else next a) :
    Stretch prev' next' b (as ++ bs) e := by
  obtain ⟨has, -, -, hbs⟩ := stretch_append.1 h
  exact stretch_append.2 (has.relink hbs hnodup hprev hnext)

end Relink

end CoreX.Chain

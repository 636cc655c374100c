import Mathlib.Data.List.Pairwise
import Mathlib.Order.Lattice

/-!
# Association lists

Finite maps as lists of pairs, first in any order and then with strictly increasing keys.
-/

namespace CoreX.Assoc

open List

section Unsorted
variable {α β : Type*} [BEq α] [LawfulBEq α] {a : α} {p : α × β} {xs ys : List (α × β)}

theorem lookup_eq_none (h : ∀ q ∈ xs, q.1 ≠ a) : xs.lookup a = none :=
  lookup_eq_none_iff.2 fun q hq => by simpa using (h q hq).symm

theorem lookup_append_cons_self (h : ∀ q ∈ xs, q.1 ≠ p.1) : (xs ++ p :: ys).lookup p.1 = some p.2 := by
  rw [lookup_append, lookup_eq_none h, lookup_cons, beq_self_eq_true]
  rfl

theorem lookup_append_cons_of_ne (h : a ≠ p.1) : (xs ++ p :: ys).lookup a = (xs ++ ys).lookup a := by
  rw [lookup_append, lookup_append, lookup_cons, beq_eq_false_iff_ne.2 h]

theorem lookup_filter_ne [DecidableEq α] (a b : α) (xs : List (α × β)) :
    (xs.filter fun p => p.1 ≠ a).lookup b = if b = a then none else xs.lookup b := by
  induction xs with
  | nil => simp
  | cons p xs ih =>
    by_cases hp : p.1 = a
    · rw [filter_cons_of_neg (by simpa using hp), lookup_cons]
      by_cases hb : b = a
      · rw [if_pos hb] at ih ⊢
        exact ih
      · rw [beq_eq_false_iff_ne.2 (fun h => hb (h.trans hp))]
        exact ih
    · rw [filter_cons_of_pos (by simpa using hp), lookup_cons, lookup_cons]
      by_cases hb : b = p.1
      · rw [beq_iff_eq.2 hb, if_neg (fun h => hp (hb.symm.trans h))]
      · rw [beq_eq_false_iff_ne.2 hb]
        exact ih

end Unsorted

variable {α β : Type*} [LinearOrder α]

def Sorted (xs : List (α × β)) : Prop := xs.Pairwise (fun p q => p.1 < q.1)

/-- `ys` is `xs` with the entry `p` put where it belongs. -/
def Inserts (p : α × β) (xs ys : List (α × β)) : Prop :=
  ∃ before after, xs = before ++ after ∧ ys = before ++ p :: after ∧
    (∀ q ∈ before, q.1 < p.1) ∧ ∀ q ∈ after, p.1 < q.1

def erase (a : α) (xs : List (α × β)) : List (α × β) := xs.filter (fun p => p.1 ≠ a)

variable {a : α} {p : α × β} {xs ys zs : List (α × β)}

theorem sorted_append_cons : Sorted (xs ++ p :: ys) ↔
    Sorted xs ∧ Sorted ys ∧ (∀ q ∈ xs, q.1 < p.1) ∧ ∀ q ∈ ys, p.1 < q.1 := by
  rw [Sorted, pairwise_append, pairwise_cons]
  constructor
  · rintro ⟨hxs, ⟨hp, hys⟩, hcross⟩
    exact ⟨hxs, hys, fun q hq => hcross q hq p (mem_cons_self ..), hp⟩
  · rintro ⟨hxs, hys, hbefore, hafter⟩
    refine ⟨hxs, ⟨hafter, hys⟩, fun q hq q' hq' => ?_⟩
    rcases mem_cons.1 hq' with rfl | hq'
    · exact hbefore q hq
    · exact (hbefore q hq).trans (hafter q' hq')

theorem inserts_nil (p : α × β) : Inserts p [] [p] := ⟨[], [], rfl, rfl, by simp, by simp⟩

section
variable (h : Inserts p xs ys)
include h

theorem Inserts.append_right (hzs : ∀ q ∈ zs, p.1 < q.1) : Inserts p (xs ++ zs) (ys ++ zs) := by
  obtain ⟨before, after, rfl, rfl, hbefore, hafter⟩ := h
  refine ⟨before, after ++ zs, by simp, by simp, hbefore, fun q hq => ?_⟩
  rcases mem_append.1 hq with hq | hq
  · exact hafter q hq
  · exact hzs q hq

theorem Inserts.append_left (hzs : ∀ q ∈ zs, q.1 < p.1) : Inserts p (zs ++ xs) (zs ++ ys) := by
  obtain ⟨before, after, rfl, rfl, hbefore, hafter⟩ := h
  refine ⟨zs ++ before, after, by simp, by simp, fun q hq => ?_, hafter⟩
  rcases mem_append.1 hq with hq | hq
  · exact hzs q hq
  · exact hbefore q hq

theorem Inserts.sorted (hxs : Sorted xs) : Sorted ys := by
  obtain ⟨before, after, rfl, rfl, hbefore, hafter⟩ := h
  obtain ⟨hb, ha, -⟩ := pairwise_append.1 hxs
  exact sorted_append_cons.2 ⟨hb, ha, hbefore, hafter⟩

theorem Inserts.lookup (a : α) : ys.lookup a = if a = p.1 then some p.2 else xs.lookup a := by
  obtain ⟨before, after, rfl, rfl, hbefore, -⟩ := h
  by_cases ha : a = p.1
  · rw [if_pos ha, ha, lookup_append_cons_self fun q hq => (hbefore q hq).ne]
  · rw [if_neg ha, lookup_append_cons_of_ne ha]

end

/-! ## Deletion -/

theorem erase_of_notMem (h : ∀ q ∈ xs, q.1 ≠ a) : erase a xs = xs :=
  filter_eq_self.2 fun q hq => decide_eq_true (h q hq)

theorem erase_append_cons_self (hxs : ∀ q ∈ xs, q.1 < p.1) (hys : ∀ q ∈ ys, p.1 < q.1) :
    erase p.1 (xs ++ p :: ys) = xs ++ ys := by
  have hx : erase p.1 xs = xs := erase_of_notMem fun q hq => (hxs q hq).ne
  have hy : erase p.1 ys = ys := erase_of_notMem fun q hq => (hys q hq).ne'
  rw [erase, filter_append, filter_cons_of_neg (by simp)]
  exact congrArg₂ (· ++ ·) hx hy

theorem erase_append_cons_of_lt (ha : a < p.1) (hys : ∀ q ∈ ys, p.1 < q.1) :
    erase a (xs ++ p :: ys) = erase a xs ++ p :: ys := by
  have hy : erase a (p :: ys) = p :: ys := erase_of_notMem fun q hq => by
    rcases mem_cons.1 hq with rfl | hq
    · exact ha.ne'
    · exact (ha.trans (hys q hq)).ne'
  rw [erase, filter_append]
  exact congrArg (erase a xs ++ ·) hy

theorem erase_append_cons_of_gt (ha : p.1 < a) (hxs : ∀ q ∈ xs, q.1 < p.1) :
    erase a (xs ++ p :: ys) = xs ++ p :: erase a ys := by
  have hx : erase a xs = xs := erase_of_notMem fun q hq => ((hxs q hq).trans ha).ne
  rw [erase, filter_append, filter_cons_of_pos (by simpa using ha.ne)]
  exact congrArg (· ++ p :: erase a ys) hx

theorem Sorted.erase (h : Sorted xs) (a : α) : Sorted (erase a xs) := h.filter _

end CoreX.Assoc

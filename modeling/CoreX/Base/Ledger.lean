import Mathlib.Data.Finset.Card
import Mathlib.Algebra.BigOperators.Group.List.Basic
import Mathlib.Algebra.Ring.Nat

/-!
# What an allocator owes its callers

An allocator keeps the set `used` of cells that are not free, and its callers hold the list `live` of the sets it gave
out. `Valid c used live`: the live sets are pairwise disjoint and used, and `c` used cells belong to none of them.
-/

namespace CoreX.Ledger

open Finset

variable {α : Type*}

/-- The live sets are disjoint and make up what is used, but for `c` elements. -/
structure Valid (c : Nat) (used : Finset α) (live : List (Finset α)) : Prop where
  subset : ∀ R ∈ live, R ⊆ used
  disjoint : live.Pairwise Disjoint
  card : used.card = c + (live.map Finset.card).sum

variable {c : Nat} {used R : Finset α} {live rest : List (Finset α)}

theorem valid_nil (used : Finset α) : Valid used.card used [] :=
  ⟨fun _ h => absurd h (by simp), List.Pairwise.nil, by simp⟩

theorem Valid.disjoint_of_free (h : Valid c used live) (hR : Disjoint used R) :
    ∀ S ∈ live, Disjoint R S := fun S hS => (hR.mono_left (h.subset S hS)).symm

theorem sum_card_le {live : List (Finset α)} (hdisj : live.Pairwise Disjoint) : ∀ {used : Finset α},
    (∀ R ∈ live, R ⊆ used) → (live.map card).sum ≤ used.card := by
  classical
  induction live with
  | nil => intro used _; simp
  | cons R rest ih =>
    intro used hsub
    obtain ⟨hR, hrest⟩ := List.pairwise_cons.1 hdisj
    have hRsub := hsub R (List.mem_cons_self ..)
    have hrestSub : ∀ S ∈ rest, S ⊆ used \ R := fun S hS =>
      subset_sdiff.2 ⟨hsub S (List.mem_cons_of_mem _ hS), (hR S hS).symm⟩
    have hle := ih hrest hrestSub
    rw [card_sdiff_of_subset hRsub] at hle
    have hcard := card_le_card hRsub
    rw [List.map_cons, List.sum_cons]
    omega

variable [DecidableEq α]

theorem Valid.take (h : Valid c used live) (hR : Disjoint used R) : Valid c (used ∪ R) (R :: live) := by
  refine ⟨fun S hS => ?_, ?_, ?_⟩
  · rcases List.mem_cons.1 hS with rfl | hS
    · exact subset_union_right
    · exact (h.subset S hS).trans subset_union_left
  · exact List.pairwise_cons.2 ⟨h.disjoint_of_free hR, h.disjoint⟩
  · rw [card_union_of_disjoint hR, h.card, List.map_cons, List.sum_cons]
    omega

theorem Valid.release (h : Valid c used live) (hperm : live.Perm (R :: rest)) : Valid c (used \ R) rest := by
  have hpair : (R :: rest).Pairwise Disjoint := hperm.pairwise h.disjoint (fun hd => hd.symm)
  have hmem : ∀ S ∈ R :: rest, S ⊆ used := fun S hS => h.subset S (hperm.mem_iff.2 hS)
  refine ⟨fun S hS => ?_, (List.pairwise_cons.1 hpair).2, ?_⟩
  · refine subset_sdiff.2 ⟨hmem S (List.mem_cons_of_mem _ hS), ?_⟩
    exact ((List.pairwise_cons.1 hpair).1 S hS).symm
  · have hcard := h.card
    rw [(hperm.map Finset.card).sum_eq, List.map_cons, List.sum_cons] at hcard
    rw [card_sdiff_of_subset (hmem R (List.mem_cons_self ..)), hcard]
    omega

end CoreX.Ledger

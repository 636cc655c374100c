import CoreX.Avl.Model
import Mathlib.Tactic.Common

/-!
# Rotations and rebalancing

Rotations keep the sequence of entries. Two well-shaped subtrees whose heights differ by at most two are joined to a
well-shaped tree (`unregisterRebalance_spec`). After an insertion the comparison of keys chooses the rotation that the
balance would choose (`allocateRebalance_spec`).
-/

namespace CoreX.Avl

open AvlHeader

variable {k : AvlKey} {v : AvlVal} {h : Int} {l r t : AvlHeader}

structure AvlHeader.WellShaped (t : AvlHeader) : Prop where
  stored : t.HeightsStored
  balanced : t.IsBalanced

theorem wellShaped_null : WellShaped null := ⟨trivial, trivial⟩

theorem AvlHeader.WellShaped.calcHeight_eq (ht : t.WellShaped) : calcHeight t = t.trueHeight := by
  cases t with
  | null => rfl
  | node k v h l r => exact ht.stored.1

section
variable (ht : (node k v h l r).WellShaped)
include ht

theorem AvlHeader.WellShaped.left : l.WellShaped :=
  ⟨ht.stored.2.1, ht.balanced.2.2.1⟩

theorem AvlHeader.WellShaped.right : r.WellShaped :=
  ⟨ht.stored.2.2, ht.balanced.2.2.2⟩

theorem AvlHeader.WellShaped.le : l.trueHeight ≤ r.trueHeight + 1 ∧ r.trueHeight ≤ l.trueHeight + 1 :=
  ⟨ht.balanced.1, ht.balanced.2.1⟩

end

@[simp] theorem trueHeight_node : (node k v h l r).trueHeight = max l.trueHeight r.trueHeight + 1 := rfl

@[simp] theorem trueHeight_withHeight : (withHeight k v l r).trueHeight = max l.trueHeight r.trueHeight + 1 := rfl

theorem calcBalance_withHeight (hl : l.WellShaped) (hr : r.WellShaped) :
    calcBalance (withHeight k v l r) = l.trueHeight - r.trueHeight := by
  rw [withHeight, calcBalance, hl.calcHeight_eq, hr.calcHeight_eq]

theorem wellShaped_withHeight (hl : l.WellShaped) (hr : r.WellShaped)
    (hlr : l.trueHeight ≤ r.trueHeight + 1) (hrl : r.trueHeight ≤ l.trueHeight + 1) :
    (withHeight k v l r).WellShaped := by
  refine ⟨⟨?_, hl.stored, hr.stored⟩, hlr, hrl, hl.balanced, hr.balanced⟩
  rw [hl.calcHeight_eq, hr.calcHeight_eq]
  omega

theorem AvlHeader.WellShaped.exists_node (ht : t.WellShaped) (hpos : 0 < t.trueHeight) :
    ∃ k v h l r, t = node k v h l r ∧ l.WellShaped ∧ r.WellShaped ∧ t.trueHeight = max l.trueHeight r.trueHeight + 1 ∧
      l.trueHeight ≤ r.trueHeight + 1 ∧ r.trueHeight ≤ l.trueHeight + 1 ∧
      calcBalance t = l.trueHeight - r.trueHeight := by
  cases t with
  | null => exact absurd hpos (Nat.lt_irrefl 0)
  | node k v h l r =>
    refine ⟨k, v, h, l, r, rfl, ht.left, ht.right, rfl, ht.le.1, ht.le.2, ?_⟩
    rw [calcBalance, ht.left.calcHeight_eq, ht.right.calcHeight_eq]

/-! ## Rebalancing -/

structure Joined (k : AvlKey) (v : AvlVal) (l r t : AvlHeader) : Prop where
  toList_eq : t.toList = l.toList ++ (k, v) :: r.toList
  wellShaped : t.WellShaped
  height_ge : max l.trueHeight r.trueHeight ≤ t.trueHeight
  height_le : t.trueHeight ≤ max l.trueHeight r.trueHeight + 1

section
variable (hl : l.WellShaped) (hr : r.WellShaped)
include hl hr

theorem joined_of_left_heavy (hheavy : l.trueHeight = r.trueHeight + 2) :
    (0 ≤ calcBalance l → ∃ t, avlRotateRight (withHeight k v l r) = some t ∧ Joined k v l r t ∧
      (0 < calcBalance l → t.trueHeight = l.trueHeight)) ∧
    (calcBalance l < 0 → ∃ t, rotateLeftRight (withHeight k v l r) = some t ∧ Joined k v l r t ∧
      t.trueHeight = l.trueHeight) := by
  obtain ⟨lk, lv, lh, ll, lr, rfl, hll, hlr, hmax, hle, hge, hbal⟩ := hl.exists_node (by omega)
  refine ⟨fun hbal' => ⟨_, rfl, ⟨by simp [withHeight, AvlHeader.toList], ?_, ?_, ?_⟩, ?_⟩, fun hbal' => ?_⟩
  · apply wellShaped_withHeight hll (wellShaped_withHeight hlr hr (by omega) (by omega)) <;>
      rw [trueHeight_withHeight] <;> omega
  · simp only [trueHeight_withHeight]
    omega
  · simp only [trueHeight_withHeight]
    omega
  · intro hpos
    simp only [trueHeight_withHeight]
    omega
  · obtain ⟨mk, mv, mh, ml, mr, rfl, hml, hmr, hmax', hle', hge', -⟩ := hlr.exists_node (by omega)
    refine ⟨_, rfl, ⟨by simp [withHeight, AvlHeader.toList], ?_, ?_, ?_⟩, ?_⟩
    · apply wellShaped_withHeight (wellShaped_withHeight hll hml (by omega) (by omega))
        (wellShaped_withHeight hmr hr (by omega) (by omega)) <;>
        simp only [trueHeight_withHeight] <;> omega
    all_goals
      simp only [trueHeight_withHeight]
      omega

theorem joined_of_right_heavy (hheavy : r.trueHeight = l.trueHeight + 2) :
    (calcBalance r ≤ 0 → ∃ t, avlRotateLeft (withHeight k v l r) = some t ∧ Joined k v l r t ∧
      (calcBalance r < 0 → t.trueHeight = r.trueHeight)) ∧
    (0 < calcBalance r → ∃ t, rotateRightLeft (withHeight k v l r) = some t ∧ Joined k v l r t ∧
      t.trueHeight = r.trueHeight) := by
  obtain ⟨rk, rv, rh, rl, rr, rfl, hrl, hrr, hmax, hle, hge, hbal⟩ := hr.exists_node (by omega)
  refine ⟨fun hbal' => ⟨_, rfl, ⟨by simp [withHeight, AvlHeader.toList], ?_, ?_, ?_⟩, ?_⟩, fun hbal' => ?_⟩
  · apply wellShaped_withHeight (wellShaped_withHeight hl hrl (by omega) (by omega)) hrr <;>
      rw [trueHeight_withHeight] <;> omega
  · simp only [trueHeight_withHeight]
    omega
  · simp only [trueHeight_withHeight]
    omega
  · intro hneg
    simp only [trueHeight_withHeight]
    omega
  · obtain ⟨mk, mv, mh, ml, mr, rfl, hml, hmr, hmax', hle', hge', -⟩ := hrl.exists_node (by omega)
    refine ⟨_, rfl, ⟨by simp [withHeight, AvlHeader.toList], ?_, ?_, ?_⟩, ?_⟩
    · apply wellShaped_withHeight (wellShaped_withHeight hl hml (by omega) (by omega))
        (wellShaped_withHeight hmr hrr (by omega) (by omega)) <;>
        simp only [trueHeight_withHeight] <;> omega
    all_goals
      simp only [trueHeight_withHeight]
      omega

theorem joined_withHeight (hlr : l.trueHeight ≤ r.trueHeight + 1) (hrl : r.trueHeight ≤ l.trueHeight + 1) :
    Joined k v l r (withHeight k v l r) :=
  ⟨rfl, wellShaped_withHeight hl hr hlr hrl, by rw [trueHeight_withHeight]; omega, Nat.le_refl _⟩

end

theorem unregisterRebalance_spec (k : AvlKey) (v : AvlVal) (hl : l.WellShaped) (hr : r.WellShaped)
    (hlr : l.trueHeight ≤ r.trueHeight + 2) (hrl : r.trueHeight ≤ l.trueHeight + 2) :
    ∃ t, unregisterRebalance (withHeight k v l r) = some t ∧ Joined k v l r t ∧
      (l.trueHeight ≤ r.trueHeight + 1 → r.trueHeight ≤ l.trueHeight + 1 →
        t.trueHeight = max l.trueHeight r.trueHeight + 1) := by
  have hbalance := calcBalance_withHeight (k := k) (v := v) hl hr
  rw [withHeight] at hbalance
  rw [withHeight, unregisterRebalance]
  simp only [hbalance]
  by_cases hleft : l.trueHeight = r.trueHeight + 2
  · obtain ⟨hsingle, hdouble⟩ := joined_of_left_heavy (k := k) (v := v) hl hr hleft
    by_cases hbal : 0 ≤ calcBalance l
    · obtain ⟨t, hrot, hjoin, -⟩ := hsingle hbal
      rw [if_pos (by omega)]
      exact ⟨t, hrot, hjoin, by omega⟩
    · obtain ⟨t, hrot, hjoin, -⟩ := hdouble (by omega)
      rw [if_neg (by omega), if_pos (by omega)]
      exact ⟨t, hrot, hjoin, by omega⟩
  · rw [if_neg (by omega), if_neg (by omega)]
    by_cases hright : r.trueHeight = l.trueHeight + 2
    · obtain ⟨hsingle, hdouble⟩ := joined_of_right_heavy (k := k) (v := v) hl hr hright
      by_cases hbal : calcBalance r ≤ 0
      · obtain ⟨t, hrot, hjoin, -⟩ := hsingle hbal
        rw [if_pos (by omega)]
        exact ⟨t, hrot, hjoin, by omega⟩
      · obtain ⟨t, hrot, hjoin, -⟩ := hdouble (by omega)
        rw [if_neg (by omega), if_pos (by omega)]
        exact ⟨t, hrot, hjoin, by omega⟩
    · rw [if_neg (by omega), if_neg (by omega)]
      exact ⟨_, rfl, joined_withHeight hl hr (by omega) (by omega), fun _ _ => trueHeight_withHeight⟩

def AvlHeader.HeavyTowards (key : AvlKey) : AvlHeader → Prop
  | null => False
  | node k _ _ l r =>
    (key < k ∧ l.trueHeight = r.trueHeight + 1) ∨ (k < key ∧ r.trueHeight = l.trueHeight + 1)

/-- A rotation takes back the level by which the lower subtree was too low. -/
def Rebalanced (k : AvlKey) (v : AvlVal) (l r t : AvlHeader) : Prop :=
  t = withHeight k v l r ∨ (l.trueHeight = r.trueHeight + 2 ∨ r.trueHeight = l.trueHeight + 2) ∧
    t.trueHeight = max l.trueHeight r.trueHeight

theorem allocateRebalance_spec (key k : AvlKey) (v : AvlVal) (hl : l.WellShaped) (hr : r.WellShaped)
    (hlr : l.trueHeight ≤ r.trueHeight + 2) (hrl : r.trueHeight ≤ l.trueHeight + 2)
    (hleft : l.trueHeight = r.trueHeight + 2 → l.HeavyTowards key)
    (hright : r.trueHeight = l.trueHeight + 2 → r.HeavyTowards key) :
    ∃ t, allocateRebalance key (withHeight k v l r) = some t ∧ Joined k v l r t ∧ Rebalanced k v l r t := by
  have hbalance := calcBalance_withHeight (k := k) (v := v) hl hr
  rw [withHeight] at hbalance
  rw [withHeight, allocateRebalance]
  simp only [hbalance]
  by_cases hl2 : l.trueHeight = r.trueHeight + 2
  · obtain ⟨hsingle, hdouble⟩ := joined_of_left_heavy (k := k) (v := v) hl hr hl2
    rw [if_pos (by omega)]
    obtain ⟨lk, lv, lh, ll, lr, rfl, -, -, -, -, -, hbal⟩ := hl.exists_node (by omega)
    rw [AvlHeader.key?, Option.bind_some]
    rcases hleft hl2 with ⟨hlt, hside⟩ | ⟨hgt, hside⟩
    · obtain ⟨t, hrot, hjoin, hheight⟩ := hsingle (by omega)
      rw [if_pos hlt]
      exact ⟨t, hrot, hjoin, .inr ⟨by omega, by rw [hheight (by omega)]; omega⟩⟩
    · obtain ⟨t, hrot, hjoin, hheight⟩ := hdouble (by omega)
      rw [if_neg (Nat.lt_asymm hgt), if_pos hgt]
      exact ⟨t, hrot, hjoin, .inr ⟨by omega, by omega⟩⟩
  · rw [if_neg (by omega)]
    by_cases hr2 : r.trueHeight = l.trueHeight + 2
    · obtain ⟨hsingle, hdouble⟩ := joined_of_right_heavy (k := k) (v := v) hl hr hr2
      rw [if_pos (by omega)]
      obtain ⟨rk, rv, rh, rl, rr, rfl, -, -, -, -, -, hbal⟩ := hr.exists_node (by omega)
      rw [AvlHeader.key?, Option.bind_some]
      rcases hright hr2 with ⟨hlt, hside⟩ | ⟨hgt, hside⟩
      · obtain ⟨t, hrot, hjoin, hheight⟩ := hdouble (by omega)
        rw [if_neg (Nat.lt_asymm hlt), if_pos hlt]
        exact ⟨t, hrot, hjoin, .inr ⟨by omega, by omega⟩⟩
      · obtain ⟨t, hrot, hjoin, hheight⟩ := hsingle (by omega)
        rw [if_pos hgt]
        exact ⟨t, hrot, hjoin, .inr ⟨by omega, by rw [hheight (by omega)]; omega⟩⟩
    · rw [if_neg (by omega)]
      exact ⟨_, rfl, joined_withHeight hl hr (by omega) (by omega), .inl rfl⟩

end CoreX.Avl

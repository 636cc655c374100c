import CoreX.Avl.Balance
import CoreX.Base.Assoc

/-!
# Insertion and deletion

`avl_allocate` inserts its entry and `avl_unregister` removes that of its key. Both keep the tree well-shaped, so
neither dereferences a null child.
-/

namespace CoreX.Avl

open AvlHeader List Nat

variable {k key : AvlKey} {v : AvlVal} {h : Int} {l r t t' r' : AvlHeader}

theorem mem_keys : key ∈ t.keys ↔ ∃ q ∈ t.toList, q.1 = key := mem_map

theorem forall_keys {p : AvlKey → Prop} : (∀ key ∈ t.keys, p key) ↔ ∀ q ∈ t.toList, p q.1 := forall_mem_map

theorem isBst_iff_sorted : t.IsBst ↔ Assoc.Sorted t.toList := by
  induction t with
  | null => exact iff_of_true trivial List.Pairwise.nil
  | node k v h l r ihl ihr =>
    rw [IsBst, ihl, ihr, forall_keys, forall_keys, toList, Assoc.sorted_append_cons]
    tauto

theorem AvlHeader.IsBst.lt_of_mem_left (hbst : (node k v h l r).IsBst) :
    ∀ q ∈ l.toList, q.1 < k := forall_keys.1 hbst.1

theorem AvlHeader.IsBst.lt_of_mem_right (hbst : (node k v h l r).IsBst) :
    ∀ q ∈ r.toList, k < q.1 := forall_keys.1 hbst.2.1

def Grown (key : AvlKey) (t t' : AvlHeader) : Prop :=
  t'.trueHeight = t.trueHeight ∨
    t'.trueHeight = t.trueHeight + 1 ∧ (t = null ∨ t'.HeavyTowards key)

section
variable {l' : AvlHeader} (hgrown : Grown key l l')
include hgrown

theorem Grown.heavyTowards (hle : l.trueHeight ≤ r.trueHeight + 1) (hheavy : l'.trueHeight = r.trueHeight + 2) :
    l'.HeavyTowards key := by
  rcases hgrown with hsame | ⟨hmore, hnull | htowards⟩
  · omega
  · rw [hnull, trueHeight] at hmore
    omega
  · exact htowards

theorem Grown.height_le : l.trueHeight ≤ l'.trueHeight ∧ l'.trueHeight ≤ l.trueHeight + 1 := by
  rcases hgrown with hsame | ⟨hmore, -⟩ <;> omega

end

theorem Grown.rebalance {l' : AvlHeader} (hshape : (node k v h l r).WellShaped) (hshape' : t'.WellShaped)
    (hheight : Rebalanced k v l' r' t')
    (hgrown : key < k ∧ Grown key l l' ∧ r' = r ∨ k < key ∧ Grown key r r' ∧ l' = l) :
    Grown key (node k v h l r) t' := by
  obtain ⟨hlr, hrl⟩ := hshape.le
  rcases hheight with rfl | ⟨htwo, hheight⟩
  · have hbal := hshape'.le
    simp only [Grown, trueHeight_node, withHeight, HeavyTowards]
    rcases hgrown with ⟨hlt, hgrown, rfl⟩ | ⟨hgt, hgrown, rfl⟩
    · have := hgrown.height_le
      by_cases hmore : l'.trueHeight = r'.trueHeight + 1 ∧ l'.trueHeight ≠ l.trueHeight
      · exact .inr ⟨by omega, .inr (.inl ⟨hlt, hmore.1⟩)⟩
      · exact .inl (by omega)
    · have := hgrown.height_le
      by_cases hmore : r'.trueHeight = l'.trueHeight + 1 ∧ r'.trueHeight ≠ r.trueHeight
      · exact .inr ⟨by omega, .inr (.inr ⟨hgt, hmore.1⟩)⟩
      · exact .inl (by omega)
  · refine .inl ?_
    rw [hheight, trueHeight_node]
    rcases hgrown with ⟨-, hgrown, rfl⟩ | ⟨-, hgrown, rfl⟩ <;> have := hgrown.height_le <;> omega

theorem avlAllocateL_spec (hbst : t.IsBst) (hshape : t.WellShaped) (hkey : key ∉ t.keys) :
    ∃ t', avlAllocateL t key = some t' ∧ Assoc.Inserts (key, 0) t.toList t'.toList ∧
      t'.WellShaped ∧ Grown key t t' := by
  induction t with
  | null =>
    have hshape' : (avlAllocateNode key).WellShaped :=
      wellShaped_withHeight wellShaped_null wellShaped_null (by decide) (by decide)
    exact ⟨_, rfl, Assoc.inserts_nil _, hshape', .inr ⟨rfl, .inl rfl⟩⟩
  | node k v h l r ihl ihr =>
    obtain ⟨hlr, hrl⟩ := hshape.le
    have hkeys : key ∉ l.keys ∧ key ≠ k ∧ key ∉ r.keys := by
      simpa [AvlHeader.keys, toList, not_or] using hkey
    rw [avlAllocateL]
    rcases lt_or_gt_of_ne hkeys.2.1 with hlt | hgt
    · obtain ⟨l', hl', hins, hshape', hgrown⟩ := ihl hbst.2.2.1 hshape.left hkeys.1
      obtain ⟨hge, hle⟩ := hgrown.height_le
      obtain ⟨t', ht', hjoin, hheight⟩ := allocateRebalance_spec key k v hshape' hshape.right
        (by omega) (by omega) (hgrown.heavyTowards hlr) (by omega)
      refine ⟨t', by rw [if_pos hlt, hl', Option.bind_some, ht'], ?_, hjoin.wellShaped,
        .rebalance hshape hjoin.wellShaped hheight (.inl ⟨hlt, hgrown, rfl⟩)⟩
      rw [hjoin.toList_eq, toList]
      apply hins.append_right
      intro q hq
      rcases mem_cons.1 hq with rfl | hq
      · exact hlt
      · exact hlt.trans (hbst.lt_of_mem_right q hq)
    · obtain ⟨r', hr', hins, hshape', hgrown⟩ := ihr hbst.2.2.2 hshape.right hkeys.2.2
      obtain ⟨hge, hle⟩ := hgrown.height_le
      obtain ⟨t', ht', hjoin, hheight⟩ := allocateRebalance_spec key k v hshape.left hshape'
        (by omega) (by omega) (by omega) (hgrown.heavyTowards hrl)
      refine ⟨t', by rw [if_neg (lt_asymm hgt), if_pos hgt, hr', Option.bind_some, ht'], ?_,
        hjoin.wellShaped, .rebalance hshape hjoin.wellShaped hheight (.inr ⟨hgt, hgrown, rfl⟩)⟩
      rw [hjoin.toList_eq, toList, append_cons, append_cons _ _ r'.toList]
      apply hins.append_left
      intro q hq
      rcases mem_append.1 hq with hq | hq
      · exact (hbst.lt_of_mem_left q hq).trans hgt
      · rw [mem_singleton.1 hq]
        exact hgt

theorem avlAllocateL_of_mem (hbst : t.IsBst) (hkey : key ∈ t.keys) : avlAllocateL t key = none := by
  induction t with
  | null => exact absurd hkey (by simp [AvlHeader.keys, toList])
  | node k v h l r ihl ihr =>
    have hkeys : key ∈ l.keys ∨ key = k ∨ key ∈ r.keys := by
      simpa [AvlHeader.keys, toList] using hkey
    rw [avlAllocateL]
    rcases hkeys with hmem | rfl | hmem
    · rw [if_pos (hbst.1 key hmem), ihl hbst.2.2.1 hmem, Option.bind_none]
    · rw [if_neg (lt_irrefl _), if_neg (lt_irrefl _)]
    · have hgt := hbst.2.1 key hmem
      rw [if_neg (lt_asymm hgt), if_pos hgt, ihr hbst.2.2.2 hmem, Option.bind_none]

/-! ### Writing the value -/

section
variable (key) (value : AvlVal)

theorem trueHeight_writeValue (t : AvlHeader) : (writeValue key value t).trueHeight = t.trueHeight := by
  induction t with
  | null => rfl
  | node k v h l r ihl ihr => rw [writeValue, trueHeight, trueHeight, ihl, ihr]

theorem AvlHeader.WellShaped.writeValue (hshape : t.WellShaped) (key : AvlKey) (value : AvlVal) :
    (writeValue key value t).WellShaped := by
  induction t with
  | null => exact wellShaped_null
  | node k v h l r ihl ihr =>
    have hl := ihl hshape.left
    have hr := ihr hshape.right
    refine ⟨⟨?_, hl.stored, hr.stored⟩, ?_, ?_, hl.balanced, hr.balanced⟩ <;>
      rw [trueHeight_writeValue, trueHeight_writeValue]
    · exact hshape.stored.1
    · exact hshape.le.1
    · exact hshape.le.2

theorem toList_writeValue (t : AvlHeader) : (writeValue key value t).toList =
      t.toList.map (fun q => (q.1, if q.1 = key then value else q.2)) := by
  induction t with
  | null => rfl
  | node k v h l r ihl ihr => rw [writeValue, toList, toList, ihl, ihr, map_append, map_cons]

end

theorem inserts_writeValue (value : AvlVal) (hins : Assoc.Inserts (key, 0) t.toList t'.toList) :
    Assoc.Inserts (key, value) t.toList (writeValue key value t').toList := by
  obtain ⟨before, after, hxs, hys, hbefore, hafter⟩ := hins
  refine ⟨before, after, hxs, ?_, hbefore, hafter⟩
  have hother : ∀ qs : List (AvlKey × AvlVal), (∀ q ∈ qs, q.1 ≠ key) →
      qs.map (fun q => (q.1, if q.1 = key then value else q.2)) = qs := by
    intro qs hqs
    refine (map_congr_left fun q hq => ?_).trans (map_id qs)
    rw [if_neg (hqs q hq), id]
  rw [toList_writeValue, hys, map_append, map_cons, if_pos rfl,
    hother before (fun q hq => (hbefore q hq).ne), hother after (fun q hq => (hafter q hq).ne')]

/-! ## Deletion -/

theorem avlMinKeyNode_spec (ht : t.isNull = false) :
    ∃ k v h l r rest, avlMinKeyNode t = node k v h l r ∧ t.toList = (k, v) :: rest := by
  induction t with
  | null => exact absurd ht (by decide)
  | node k v h l r ihl _ =>
    cases l with
    | null => exact ⟨k, v, h, null, r, r.toList, rfl, rfl⟩
    | node k' v' h' l' r' =>
      obtain ⟨mk, mv, mh, ml, mr, rest, hmin, hlist⟩ := ihl rfl
      refine ⟨mk, mv, mh, ml, mr, rest ++ (k, v) :: r.toList, hmin, ?_⟩
      rw [toList, hlist, cons_append]

/-- The value in the header that `avl_unregister` frees for a key: the node's own if it has no child, its
only child's, and for a node with two children the one freed for its successor. -/
def AvlHeader.freedValue : AvlHeader → AvlKey → Option AvlVal
  | null, _ => none
  | node k v _ left right, key =>
    if key < k then left.freedValue key
    else if key > k then right.freedValue key
    else some (if left.isNull || right.isNull then valueOr v (if left.isNull then right else left)
      else match avlMinKeyNode right with
        | null => v
        | node _ minValue _ _ minRight => valueOr minValue minRight)
where
  valueOr (v : AvlVal) : AvlHeader → AvlVal
    | null => v
    | node _ value _ _ _ => value

theorem isSome_freedValue (hbst : t.IsBst) (key : AvlKey) : (t.freedValue key).isSome = true ↔ key ∈ t.keys := by
  induction t with
  | null => exact ⟨nofun, nofun⟩
  | node k v h l r ihl ihr =>
    have hkeys : key ∈ (node k v h l r).keys ↔ key ∈ l.keys ∨ key = k ∨ key ∈ r.keys := by simp [AvlHeader.keys, toList]
    have hl := hbst.1 key
    have hr := hbst.2.1 key
    rw [freedValue, hkeys]
    rcases lt_trichotomy key k with hlt | heq | hgt
    · rw [if_pos hlt, ihl hbst.2.2.1]
      grind
    · rw [if_neg heq.not_lt, if_neg heq.not_gt]
      exact iff_of_true rfl (.inr (.inl heq))
    · rw [if_neg (lt_asymm hgt), if_pos hgt, ihr hbst.2.2.2]
      grind

theorem freedValue_min (hbst : t.IsBst) {ml mr : AvlHeader} (hmin : avlMinKeyNode t = node k v h ml mr) :
    t.freedValue k = some (freedValue.valueOr v mr) := by
  induction t with
  | null => cases hmin
  | node k' v' h' l r ihl _ =>
    cases l with
    | null =>
      cases hmin
      rw [freedValue, if_neg (lt_irrefl _), if_neg (lt_irrefl _)]
      rfl
    | node lk lv lh ll lr =>
      obtain ⟨mk, mv, mh, nl, nr, rest, hmin', hlist⟩ := avlMinKeyNode_spec (t := node lk lv lh ll lr) rfl
      obtain ⟨rfl, -⟩ := node.inj (hmin.symm.trans hmin')
      have hlt := hbst.1 k (mem_keys.2 ⟨(k, mv), hlist ▸ mem_cons_self, rfl⟩)
      rw [freedValue, if_pos hlt]
      exact ihl hbst.2.2.1 hmin

def Shrunk (t t' : AvlHeader) : Prop := t'.trueHeight ≤ t.trueHeight ∧ t.trueHeight ≤ t'.trueHeight + 1

theorem unregister_child (v : AvlVal) (h : Int) (hshape : (node k v h l r).WellShaped)
    (hnull : (l.isNull || r.isNull) = true) : ∃ t', (match if l.isNull then r else l with
        | null => some (null, v)
        | node tempKey tempValue _ tempLeft tempRight =>
          (unregisterRebalance (withHeight tempKey tempValue tempLeft tempRight)).map fun root =>
            (root, tempValue)) = some (t', freedValue.valueOr v (if l.isNull then r else l)) ∧
      t'.toList = l.toList ++ r.toList ∧ t'.WellShaped ∧ Shrunk (node k v h l r) t' := by
  have hcopy : ∀ {k v h l r}, (node k v h l r).WellShaped → ∃ t',
      unregisterRebalance (withHeight k v l r) = some t' ∧ t'.toList = (node k v h l r).toList ∧
        t'.WellShaped ∧ t'.trueHeight = (node k v h l r).trueHeight := by
    intro k v h l r hnode
    obtain ⟨hlr, hrl⟩ := hnode.le
    obtain ⟨t', ht', hjoin, hheight⟩ := unregisterRebalance_spec k v hnode.left hnode.right (by omega) (by omega)
    exact ⟨t', ht', hjoin.toList_eq, hjoin.wellShaped, hheight hlr hrl⟩
  cases l with
  | null =>
    cases r with
    | null => exact ⟨null, rfl, rfl, wellShaped_null, by simp [trueHeight], by simp [trueHeight]⟩
    | node rk rv rh rl rr =>
      obtain ⟨t', ht', hlist, hshape', hheight⟩ := hcopy hshape.right
      refine ⟨t', congrArg (Option.map fun root => (root, rv)) ht', hlist, hshape', ?_, ?_⟩ <;>
        rw [hheight] <;> simp [trueHeight]
  | node lk lv lh ll lr =>
    cases r with
    | null =>
      obtain ⟨t', ht', hlist, hshape', hheight⟩ := hcopy hshape.left
      refine ⟨t', congrArg (Option.map fun root => (root, lv)) ht', ?_, hshape', ?_, ?_⟩
      · rw [hlist, toList, toList, append_nil]
      all_goals
        rw [hheight]
        simp [trueHeight]
    | node rk rv rh rl rr => exact absurd hnull (by simp [isNull])

theorem unregisterRebalance_shrunk {l' : AvlHeader} (hshape : (node k v h l r).WellShaped) (hl' : l'.WellShaped)
    (hr' : r'.WellShaped) (hl : Shrunk l l') (hr : Shrunk r r') (k' : AvlKey) (v' : AvlVal) :
    ∃ t', unregisterRebalance (withHeight k' v' l' r') = some t' ∧
      t'.toList = l'.toList ++ (k', v') :: r'.toList ∧ t'.WellShaped ∧ Shrunk (node k v h l r) t' := by
  obtain ⟨hlr, hrl⟩ := hshape.le
  obtain ⟨hlle, hlge⟩ := hl
  obtain ⟨hrle, hrge⟩ := hr
  obtain ⟨t', ht', hjoin, hheight⟩ := unregisterRebalance_spec k' v' hl' hr' (by omega) (by omega)
  have hge := hjoin.height_ge
  have hle := hjoin.height_le
  refine ⟨t', ht', hjoin.toList_eq, hjoin.wellShaped, ?_, ?_⟩ <;> rw [trueHeight_node] <;> omega

theorem avlUnregisterL_spec (hbst : t.IsBst) (hshape : t.WellShaped) (key : AvlKey) (target : AvlVal) :
    ∃ t', avlUnregisterL t key target = some (t', (t.freedValue key).getD target) ∧
      t'.toList = Assoc.erase key t.toList ∧ t'.WellShaped ∧ Shrunk t t' := by
  induction t generalizing key target with
  | null => exact ⟨null, rfl, rfl, hshape, le_refl _, le_succ _⟩
  | node k v h l r ihl ihr =>
    have hl := hbst.lt_of_mem_left
    have hr := hbst.lt_of_mem_right
    have hsame : ∀ t, Shrunk t t := fun _ => ⟨le_refl _, le_succ _⟩
    rw [avlUnregisterL, freedValue]
    rcases lt_trichotomy key k with hlt | rfl | hgt
    · obtain ⟨l', hl', hlist, hshape', hshrunk⟩ := ihl hbst.2.2.1 hshape.left key target
      obtain ⟨t', ht', hjoin, hwell, hheight⟩ := unregisterRebalance_shrunk hshape hshape' hshape.right
        hshrunk (hsame r) k v
      refine ⟨t', ?_, ?_, hwell, hheight⟩
      · rw [if_pos hlt, if_pos hlt, hl']
        exact congrArg (Option.map fun root => (root, (l.freedValue key).getD target)) ht'
      · rw [hjoin, hlist, toList, Assoc.erase_append_cons_of_lt hlt hr]
    · have herase : Assoc.erase key (node key v h l r).toList = l.toList ++ r.toList :=
        Assoc.erase_append_cons_self (p := (key, v)) hl hr
      simp only [herase, lt_irrefl, if_false, Option.getD_some]
      by_cases hnull : (l.isNull || r.isNull) = true
      · simp only [if_pos hnull]
        exact unregister_child v h hshape hnull
      simp only [if_neg hnull]
      simp only [Bool.or_eq_true, not_or, Bool.not_eq_true] at hnull
      -- the successor is the first entry on the right, and is removed there
      obtain ⟨mk, mv, mh, ml, mr, rest, hmin, hfirst⟩ := avlMinKeyNode_spec hnull.2
      have hsorted := isBst_iff_sorted.1 hbst.2.2.2
      rw [hfirst] at hsorted
      have hrest : Assoc.erase mk ([] ++ (mk, mv) :: rest) = [] ++ rest :=
        Assoc.erase_append_cons_self (p := (mk, mv)) (by simp) (pairwise_cons.1 hsorted).1
      obtain ⟨r', hr', hlist, hshape', hshrunk⟩ := ihr hbst.2.2.2 hshape.right mk target
      obtain ⟨t', ht', hjoin, hwell, hheight⟩ := unregisterRebalance_shrunk hshape hshape.left hshape'
        (hsame l) hshrunk mk mv
      refine ⟨t', ?_, ?_, hwell, hheight⟩
      · rw [hmin]
        simp only [hr', freedValue_min hbst.2.2.2 hmin, Option.bind_some, ht', Option.map_some, Option.getD_some]
      · rw [hjoin, hlist, hfirst]
        exact congrArg (fun qs => l.toList ++ (mk, mv) :: qs) hrest
    · obtain ⟨r', hr', hlist, hshape', hshrunk⟩ := ihr hbst.2.2.2 hshape.right key target
      obtain ⟨t', ht', hjoin, hwell, hheight⟩ := unregisterRebalance_shrunk hshape hshape.left hshape'
        (hsame l) hshrunk k v
      refine ⟨t', ?_, ?_, hwell, hheight⟩
      · rw [if_neg (lt_asymm hgt), if_pos hgt, if_neg (lt_asymm hgt), if_pos hgt, hr']
        exact congrArg (Option.map fun root => (root, (r.freedValue key).getD target)) ht'
      · rw [hjoin, hlist, toList, Assoc.erase_append_cons_of_gt hgt hl]

end CoreX.Avl

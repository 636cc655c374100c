import CoreX.Avl.Update

/-!
# Sequences of calls

Every tree that `avl_allocate` and `avl_unregister` build from the empty one is balanced (`avlRun_balanced`), and is a
finite map from keys to values (`avlRun_refines`).
-/

namespace CoreX.Avl

open AvlHeader Function Run

variable {key : AvlKey} {value : AvlVal} {t t' : AvlHeader} {m : AvlKey → Option AvlVal}

structure AvlHeader.IsAvl (t : AvlHeader) : Prop where
  bst : t.IsBst
  shape : t.WellShaped

theorem isAvl_null : IsAvl null := ⟨trivial, wellShaped_null⟩

theorem avlAllocate_spec (ht : t.IsAvl) (hkey : key ∉ t.keys) (value : AvlVal) :
    ∃ t', avlAllocate t key value = some t' ∧ t'.IsAvl ∧ Assoc.Inserts (key, value) t.toList t'.toList := by
  obtain ⟨u, hu, hins, hshape, -⟩ := avlAllocateL_spec ht.bst ht.shape hkey
  have hins' := inserts_writeValue value hins
  refine ⟨writeValue key value u, by rw [avlAllocate, hu, Option.map_some], ⟨?_, ?_⟩, hins'⟩
  · exact isBst_iff_sorted.2 (hins'.sorted (isBst_iff_sorted.1 ht.bst))
  · exact hshape.writeValue key value

theorem avlUnregister_spec (ht : t.IsAvl) (key : AvlKey) :
    ∃ t', avlUnregister t key = some (t', (t.freedValue key).getD 0 != 0) ∧ t'.IsAvl ∧
      t'.toList = Assoc.erase key t.toList := by
  obtain ⟨u, hu, hlist, hshape, -⟩ := avlUnregisterL_spec ht.bst ht.shape key 0
  refine ⟨u, by rw [avlUnregister, hu, Option.map_some], ⟨?_, hshape⟩, hlist⟩
  rw [isBst_iff_sorted, hlist]
  exact (isBst_iff_sorted.1 ht.bst).erase key

theorem avlLookup_eq (ht : t.IsBst) (key : AvlKey) : avlLookup t key = (t.toList.lookup key).getD 0 := by
  induction t with
  | null => rfl
  | node k v h l r ihl ihr =>
    have hl := ht.lt_of_mem_left
    have hr := ht.lt_of_mem_right
    rw [avlLookup, toList, List.lookup_append, List.lookup_cons]
    rcases Nat.lt_trichotomy key k with hlt | rfl | hgt
    · have hright : r.toList.lookup key = none := Assoc.lookup_eq_none fun q hq => (hlt.trans (hr q hq)).ne'
      rw [if_neg (Nat.lt_asymm hlt), if_pos hlt, ihl ht.2.2.1, beq_eq_false_iff_ne.2 hlt.ne, hright]
      exact congrArg (Option.getD · 0) Option.or_none.symm
    · have hleft : l.toList.lookup key = none := Assoc.lookup_eq_none fun q hq => (hl q hq).ne
      rw [if_neg (Nat.lt_irrefl _), if_neg (Nat.lt_irrefl _), hleft, beq_self_eq_true]
      rfl
    · have hleft : l.toList.lookup key = none := Assoc.lookup_eq_none fun q hq => ((hl q hq).trans hgt).ne
      rw [if_pos hgt, ihr ht.2.2.2, hleft, beq_eq_false_iff_ne.2 hgt.ne']
      rfl

theorem avlStep_isAvl (op : AvlOp) (ht : t.IsAvl) (hstep : avlStep t op = some t') : t'.IsAvl := by
  cases op with
  | allocate key value =>
    by_cases hkey : key ∈ t.keys
    · rw [avlStep, avlAllocate, avlAllocateL_of_mem ht.bst hkey] at hstep
      exact absurd hstep (by simp)
    · obtain ⟨u, hu, havl, -⟩ := avlAllocate_spec ht hkey value
      rw [avlStep, hu] at hstep
      exact Option.some.inj hstep ▸ havl
  | unregister key =>
    obtain ⟨u, hu, havl, -⟩ := avlUnregister_spec ht key
    rw [avlStep, hu] at hstep
    exact Option.some.inj hstep ▸ havl

/-- **Balance.** After any sequence of calls that starts with the empty tree the tree is a strict search
tree, stores the true heights and is balanced. From there `avl_unregister` returns for every key and
`avl_allocate` for every key that is not present. -/
theorem avlRun_balanced {ops : List AvlOp} (hrun : Run.run avlStep null ops = some t) :
    t.IsBst ∧ t.HeightsStored ∧ t.IsBalanced ∧ (∀ key, (avlUnregister t key).isSome = true) ∧
      ∀ key value, key ∉ t.keys → (avlAllocate t key value).isSome = true := by
  have ht := run_invariant (fun t op t' ht hstep => avlStep_isAvl op ht hstep) isAvl_null hrun
  refine ⟨ht.bst, ht.shape.stored, ht.shape.balanced, fun key => ?_, fun key value hkey => ?_⟩
  · obtain ⟨u, hu, -⟩ := avlUnregister_spec ht key
    exact Option.isSome_iff_exists.2 ⟨_, hu⟩
  · obtain ⟨u, hu, -⟩ := avlAllocate_spec ht hkey value
    exact Option.isSome_iff_exists.2 ⟨_, hu⟩

def rotatingOps : List AvlOp := [.allocate 1 10, .allocate 2 20, .allocate 3 30, .unregister 2]

theorem avlRun_balanced_rotatingOps :
    ∃ t, Run.run avlStep null rotatingOps = some t ∧ t.IsBst ∧ t.HeightsStored ∧ t.IsBalanced := by
  have hsome : (run avlStep null rotatingOps).isSome = true := by decide
  obtain ⟨t, hrun⟩ := Option.isSome_iff_exists.1 hsome
  obtain ⟨hbst, hstored, hbalanced, -⟩ := avlRun_balanced hrun
  exact ⟨t, hrun, hbst, hstored, hbalanced⟩

/-- **The result of `avl_unregister`** tells whether the key was present exactly when the header that is freed
for it, if any, does not hold the value zero. -/
theorem avlUnregister_found_iff {ops : List AvlOp} (hrun : Run.run avlStep null ops = some t) (key : AvlKey) :
    ∃ t' found, avlUnregister t key = some (t', found) ∧
      ((found = true ↔ key ∈ t.keys) ↔ t.freedValue key ≠ some 0) := by
  have ht := run_invariant (fun t op t' ht hstep => avlStep_isAvl op ht hstep) isAvl_null hrun
  obtain ⟨u, hu, -⟩ := avlUnregister_spec ht key
  refine ⟨u, _, hu, ?_⟩
  rw [← isSome_freedValue ht.bst]
  cases t.freedValue key with
  | none | some => simp

theorem avlUnregister_found_rotatingOps : ∃ t, Run.run avlStep null rotatingOps = some t ∧
    ∃ t' found, avlUnregister t 3 = some (t', found) ∧ (found = true ↔ 3 ∈ t.keys) := by
  obtain ⟨t, hrun⟩ := Option.isSome_iff_exists.1 (show (run avlStep null rotatingOps).isSome = true by decide)
  obtain ⟨t', found, ht', hfound⟩ := avlUnregister_found_iff hrun 3
  obtain rfl := Option.some.inj (hrun.symm.trans rfl)
  exact ⟨_, hrun, t', found, ht', hfound.2 (by decide)⟩

/-- Key 1 is there and is removed, but the header that is freed is that of its child, with value zero. -/
theorem avlUnregister_zero_child : ∃ t, Run.run avlStep null [.allocate 1 7, .allocate 2 0] = some t ∧
    1 ∈ t.keys ∧ (avlUnregister t 1).map Prod.snd = some false :=
  ⟨_, rfl, by decide, by decide⟩

/-! ## The finite map -/

/-- The map that the tree implements: for each key the value most recently allocated for it and not
unregistered since. A key may be allocated while it has no value. -/
def mapStep (m : AvlKey → Option AvlVal) : AvlOp → Option (AvlKey → Option AvlVal)
  | .allocate key value => if m key = none then some (Function.update m key (some value)) else none
  | .unregister key => some (Function.update m key none)

structure Refines (t : AvlHeader) (m : AvlKey → Option AvlVal) : Prop where
  isAvl : t.IsAvl
  lookup_eq : ∀ key, t.toList.lookup key = m key

theorem Refines.avlLookup_eq (h : Refines t m) (key : AvlKey) : avlLookup t key = (m key).getD 0 := by
  rw [Avl.avlLookup_eq h.isAvl.bst, h.lookup_eq]

theorem notMem_keys_of_lookup (h : t.toList.lookup key = none) : key ∉ t.keys := by
  intro hmem
  obtain ⟨q, hq, rfl⟩ := mem_keys.1 hmem
  simpa using List.lookup_eq_none_iff.1 h q hq

theorem Refines.unregister (h : Refines t m) (key : AvlKey) :
    ∃ t' found, avlUnregister t key = some (t', found) ∧ Refines t' (update m key none) := by
  obtain ⟨t', ht', havl, hlist⟩ := avlUnregister_spec h.isAvl key
  refine ⟨t', _, ht', havl, fun k => ?_⟩
  rw [hlist, Assoc.erase, Assoc.lookup_filter_ne, h.lookup_eq, update_apply]

section
variable (t m)

theorem avlStep_simulates (op : AvlOp) (m' : AvlKey → Option AvlVal) (h : Refines t m)
    (hstep : mapStep m op = some m') : ∃ t', avlStep t op = some t' ∧ Refines t' m' := by
  cases op with
  | allocate key value =>
    rw [mapStep] at hstep
    split_ifs at hstep with hnone
    obtain rfl := Option.some.inj hstep
    have hkey := notMem_keys_of_lookup ((h.lookup_eq key).trans hnone)
    obtain ⟨t', ht', havl, hins⟩ := avlAllocate_spec h.isAvl hkey value
    refine ⟨t', ht', havl, fun k => ?_⟩
    rw [hins.lookup, h.lookup_eq, update_apply]
  | unregister key =>
    obtain rfl := Option.some.inj hstep
    obtain ⟨t', found, ht', href⟩ := h.unregister key
    exact ⟨t', by rw [avlStep, ht', Option.map_some], href⟩

end

/-- **Refinement.** Every sequence of calls in which allocated keys are fresh returns, and then `avl_lookup` gives for
each key the value most recently allocated and not unregistered since, and zero if there is none. -/
theorem avlRun_refines {ops : List AvlOp} {m : AvlKey → Option AvlVal}
    (hrun : Run.run mapStep (fun _ => none) ops = some m) :
    ∃ t, Run.run avlStep null ops = some t ∧ (∀ key, avlLookup t key = (m key).getD 0) ∧
      ∀ key, ∃ t' found, avlUnregister t key = some (t', found) ∧
        ∀ other, other ≠ key → avlLookup t' other = avlLookup t other := by
  have hempty : Refines null (fun _ => none) := ⟨isAvl_null, fun _ => rfl⟩
  obtain ⟨t, ht, href⟩ := run_simulation avlStep_simulates hempty hrun
  refine ⟨t, ht, href.avlLookup_eq, fun key => ?_⟩
  obtain ⟨t', found, ht', href'⟩ := href.unregister key
  refine ⟨t', found, ht', fun other hother => ?_⟩
  rw [href'.avlLookup_eq, href.avlLookup_eq, update_of_ne hother]

theorem avlRun_refines_rotatingOps : ∃ m t, Run.run mapStep (fun _ => none) rotatingOps = some m ∧
      Run.run avlStep null rotatingOps = some t ∧ avlLookup t 2 = 0 ∧ avlLookup t 3 = 30 := by
  have hsome : (run mapStep (fun _ => none) rotatingOps).isSome = true := by decide
  obtain ⟨m, hrun⟩ := Option.isSome_iff_exists.1 hsome
  obtain ⟨t, ht, hlookup, -⟩ := avlRun_refines hrun
  obtain rfl := Option.some.inj (hrun.symm.trans rfl)
  exact ⟨_, t, rfl, ht, hlookup 2, hlookup 3⟩

end CoreX.Avl

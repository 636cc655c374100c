import Mathlib.Data.List.Infix

/-!
# Radix trees in memory

A table is an address `t` with an entry at `slot t i` for every index `i`; `next e` is the table that an entry points
to. Paths have the last index first. `IsTree depth mem root`: no two slots of the tables up to `depth` share an
address.
-/

namespace CoreX.Radix

open Function List Option

variable {A E I : Type*} (slot : A → I → A) (next : E → Option A)

def table (mem : A → E) (root : A) : List I → Option A
  | [] => some root
  | i :: p => (table mem root p).bind (fun t => next (mem (slot t i)))

/-- The entry at the end of a path, `empty` if its table does not exist. -/
def entry (empty : E) (mem : A → E) (root : A) : List I → E
  | [] => empty
  | i :: p => ((table slot next mem root p).map (fun t => mem (slot t i))).getD empty

def IsTree (depth : Nat) (mem : A → E) (root : A) : Prop :=
  ∀ p q t u i j, p.length ≤ depth → q.length ≤ depth → table slot next mem root p = some t →
    table slot next mem root q = some u → slot t i = slot u j → p = q ∧ i = j

variable {slot next} {mem mem' : A → E} {root t : A} {p : List I} {i : I} {depth : Nat} {r : List I}

theorem table_congr (r : List I) (h : ∀ j q u, (j :: q) <:+ r → table slot next mem root q = some u →
      mem' (slot u j) = mem (slot u j)) : table slot next mem' root r = table slot next mem root r := by
  induction r with
  | nil => rfl
  | cons j q ih =>
    have hq := ih (fun k q' u hk hu => h k q' u (hk.trans (suffix_cons j q)) hu)
    rw [table, table, hq]
    cases hu : table slot next mem root q with
    | none => rfl
    | some u => rw [bind_some, bind_some, h j q u suffix_rfl hu]

section update
variable [DecidableEq A]

section
variable (htree : IsTree slot next depth mem root) (ht : table slot next mem root p = some t) (hp : p.length = depth)
  (e : E)
include htree ht hp

theorem table_update (hr : r.length ≤ depth) :
    table slot next (update mem (slot t i) e) root r = table slot next mem root r := by
  refine table_congr r (fun j q u hsuffix hu => update_of_ne ?_ _ _)
  have hlen := hsuffix.length_le
  rw [length_cons] at hlen
  intro hslot
  obtain ⟨rfl, -⟩ := htree q p u t j i (by omega) (by omega) hu ht hslot
  omega

theorem isTree_update : IsTree slot next depth (update mem (slot t i) e) root := by
  intro q r u v j k hq hr hu hv hslot
  rw [table_update htree ht hp e hq] at hu
  rw [table_update htree ht hp e hr] at hv
  exact htree q r u v j k hq hr hu hv hslot

theorem entry_update [DecidableEq I] {empty : E} (hr : r.length ≤ depth + 1) :
    entry slot next empty (update mem (slot t i) e) root r =
      if r = i :: p then e else entry slot next empty mem root r := by
  cases r with
  | nil => rw [if_neg (by simp)]; rfl
  | cons j q =>
    rw [length_cons] at hr
    rw [entry, entry, table_update htree ht hp e (by omega)]
    by_cases heq : j :: q = i :: p
    · obtain ⟨rfl, rfl⟩ := List.cons.inj heq
      rw [if_pos rfl, ht, map_some, getD_some, update_self]
    rw [if_neg heq]
    cases hu : table slot next mem root q with
    | none => rfl
    | some u =>
      rw [map_some, map_some, update_of_ne]
      intro hslot
      obtain ⟨rfl, rfl⟩ := htree q p u t j i (by omega) (by omega) hu ht hslot
      exact heq rfl

end

end update

/-! ## Linking a new table -/

/-- `mem'` is `mem` with the table `n`, cleared, linked at entry `i` of the table at `p`. `region` is the
memory of the new table. -/
structure Linked (slot : A → I → A) (next : E → Option A) (empty : E) (depth : Nat) (region : A → Prop)
    (mem : A → E) (root : A) (p : List I) (i : I) (n : A) (mem' : A → E) : Prop where
  length_lt : p.length < depth
  parent : ∃ t, table slot next mem root p = some t ∧ next (mem (slot t i)) = none ∧
    next (mem' (slot t i)) = some n ∧ ∀ a, a ≠ slot t i → ¬ region a → mem' a = mem a
  next_empty : next empty = none
  cleared : ∀ k, region (slot n k) ∧ mem' (slot n k) = empty
  slot_inj : ∀ j k, slot n j = slot n k → j = k
  fresh : ∀ q u j, q.length ≤ depth → table slot next mem root q = some u → ¬ region (slot u j)

variable {empty : E} {region : A → Prop} {n : A}

section
variable (h : Linked slot next empty depth region mem root p i n mem') (htree : IsTree slot next depth mem root)
include h htree

theorem Linked.table_eq [DecidableEq I] (hr : r.length ≤ depth) : table slot next mem' root r =
      if r = i :: p then some n else table slot next mem root r := by
  obtain ⟨t, ht, hnone, hsome, hframe⟩ := h.parent
  have hlt := h.length_lt
  -- the slots of the old tables that are not the new link keep their entries
  have hkeep : ∀ q u j, q.length ≤ depth → table slot next mem root q = some u → j :: q ≠ i :: p →
      mem' (slot u j) = mem (slot u j) := by
    intro q u j hq hu hne
    refine hframe _ (fun hslot => hne ?_) (h.fresh q u j hq hu)
    obtain ⟨rfl, rfl⟩ := htree q p u t j i hq (by omega) hu ht hslot
    rfl
  have hold : table slot next mem root (i :: p) = none := by rw [table, ht]; exact hnone
  have hnew : table slot next mem' root (i :: p) = some n := by
    rw [table, table_congr p (fun j q u hsuffix hu => ?_), ht]
    · exact hsome
    · have hlen := hsuffix.length_le
      rw [length_cons] at hlen
      refine hkeep q u j (by omega) hu (fun heq => ?_)
      rw [(List.cons.inj heq).2] at hlen
      omega
  induction r with
  | nil => rw [if_neg (by simp)]; rfl
  | cons j q ih =>
    rw [length_cons] at hr
    by_cases heq : j :: q = i :: p
    · rw [if_pos heq, heq, hnew]
    rw [if_neg heq, table, table, ih (by omega)]
    by_cases hq : q = i :: p
    · -- below the new table: it is cleared, and there was no table before
      rw [if_pos hq, hq, hold, bind_some, bind_none, (h.cleared j).2, h.next_empty]
    · rw [if_neg hq]
      cases hu : table slot next mem root q with
      | none => rfl
      | some u => rw [bind_some, bind_some, hkeep q u j (by omega) hu heq]

theorem Linked.isTree [DecidableEq I] : IsTree slot next depth mem' root := by
  intro q r u v j k hq hr hu hv hslot
  rw [h.table_eq htree hq] at hu
  rw [h.table_eq htree hr] at hv
  by_cases hqn : q = i :: p
  · rw [if_pos hqn] at hu
    obtain rfl := some.inj hu
    by_cases hrn : r = i :: p
    · rw [if_pos hrn] at hv
      obtain rfl := some.inj hv
      exact ⟨hqn.trans hrn.symm, h.slot_inj j k hslot⟩
    · rw [if_neg hrn] at hv
      have hreg := (h.cleared j).1
      rw [hslot] at hreg
      exact absurd hreg (h.fresh r v k hr hv)
  · rw [if_neg hqn] at hu
    by_cases hrn : r = i :: p
    · rw [if_pos hrn] at hv
      obtain rfl := some.inj hv
      have hreg := (h.cleared k).1
      rw [← hslot] at hreg
      exact absurd hreg (h.fresh q u j hq hu)
    · rw [if_neg hrn] at hv
      exact htree q r u v j k hq hr hu hv hslot

theorem Linked.entry_eq [DecidableEq I] (hr : r.length ≤ depth + 1) (hne : r ≠ i :: p) :
    entry slot next empty mem' root r = entry slot next empty mem root r := by
  obtain ⟨t, ht, hnone, -, hframe⟩ := h.parent
  have hlt := h.length_lt
  cases r with
  | nil => rfl
  | cons j q =>
    rw [length_cons] at hr
    rw [entry, entry, h.table_eq htree (by omega)]
    by_cases hq : q = i :: p
    · have hold : table slot next mem root (i :: p) = none := by rw [table, ht]; exact hnone
      rw [if_pos hq, hq, hold, map_some, getD_some, (h.cleared j).2]
      rfl
    rw [if_neg hq]
    cases hu : table slot next mem root q with
    | none => rfl
    | some u =>
      rw [map_some, map_some, hframe _ ?_ (h.fresh q u j (by omega) hu)]
      intro hslot
      obtain ⟨rfl, rfl⟩ := htree q p u t j i (by omega) (by omega) hu ht hslot
      exact hne rfl

end

end CoreX.Radix

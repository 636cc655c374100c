import Mathlib.Data.List.Infix

/-!
# Lists cut into segments by a separator

`join sep cs` puts the separator before every segment, so every list is `c ++ join sep cs` for segments without it
(`exists_segments`), those of `List.splitOn`. A pattern that is a segment between two separators is found exactly at
that segment.
-/

namespace CoreX.Segments

open List Option

variable {α : Type*} {sep : α} {c d pat : List α} {cs ds : List (List α)} {i : Nat}

def join (sep : α) (cs : List (List α)) : List α := cs.flatMap (sep :: ·)

@[simp] theorem join_nil : join sep [] = [] := rfl

@[simp] theorem join_cons : join sep (c :: cs) = sep :: (c ++ join sep cs) := rfl

@[simp] theorem join_append : join sep (cs ++ ds) = join sep cs ++ join sep ds := flatMap_append

theorem segment_isPrefix_iff (hd : sep ∉ d) (hc : sep ∉ c) : d ++ [sep] <+: c ++ join sep cs ↔ c = d ∧ cs ≠ [] := by
  induction d generalizing c with
  | nil =>
    cases c with
    | nil =>
      cases cs with
      | nil | cons => simp
    | cons a c =>
      have ha : sep ≠ a := fun h => hc (h ▸ mem_cons_self ..)
      simp [ha]
  | cons b d ih =>
    obtain ⟨hb, hd⟩ := not_or.1 (fun h => hd (mem_cons.2 h))
    cases c with
    | nil =>
      cases cs with
      | nil => simp
      | cons e es => simp [Ne.symm hb]
    | cons a c =>
      have hc' : sep ∉ c := fun h => hc (mem_cons_of_mem _ h)
      rw [cons_append, cons_append, cons_prefix_cons, ih hd hc']
      simp only [List.cons.injEq, eq_comm, and_assoc]

variable [DecidableEq α] {s : List α} {a : α}

theorem exists_segments (sep : α) (s : List α) : ∃ c cs, s = c ++ join sep cs ∧ sep ∉ c ∧ ∀ d ∈ cs, sep ∉ d := by
  induction s with
  | nil => exact ⟨[], [], rfl, by simp, by simp⟩
  | cons a s ih =>
    obtain ⟨c, cs, rfl, hc, hcs⟩ := ih
    by_cases ha : a = sep
    · subst ha
      refine ⟨[], c :: cs, rfl, by simp, fun d hd => ?_⟩
      rcases mem_cons.1 hd with rfl | hd
      · exact hc
      · exact hcs d hd
    · refine ⟨a :: c, cs, rfl, fun hmem => ?_, hcs⟩
      rcases mem_cons.1 hmem with heq | hmem
      · exact ha heq.symm
      · exact hc hmem

theorem splitOn_append_join (hc : sep ∉ c) (hcs : ∀ d ∈ cs, sep ∉ d) : (c ++ join sep cs).splitOn sep = c :: cs := by
  induction cs generalizing c with
  | nil => rw [join_nil, append_nil, splitOn_eq_singleton hc]
  | cons d ds ih =>
    obtain ⟨hd, hds⟩ := forall_mem_cons.1 hcs
    rw [join_cons, splitOn_append_cons_self, splitOn_eq_singleton hc, ih hd hds, singleton_append]

theorem splitOn_isPrefix_iff {t : List α} : t.splitOn sep <+: s.splitOn sep ↔ s = t ∨ t ++ [sep] <+: s := by
  constructor
  · intro h
    obtain ⟨c, cs, rfl, hc, hcs⟩ := exists_segments sep s
    obtain ⟨d, ds, rfl, hd, hds⟩ := exists_segments sep t
    rw [splitOn_append_join hc hcs, splitOn_append_join hd hds, cons_prefix_cons] at h
    obtain ⟨rfl, es, rfl⟩ := h
    cases es with
    | nil => exact .inl (by rw [append_nil])
    | cons e es =>
      right
      refine ⟨e ++ join sep es, ?_⟩
      rw [join_append, join_cons]
      simp only [append_assoc, singleton_append]
  · rintro (rfl | ⟨u, rfl⟩)
    · exact prefix_rfl
    · rw [append_assoc, singleton_append, splitOn_append_cons_self]
      exact prefix_append _ _

def find (pat : List α) : List α → Option Nat
  | [] => if pat = [] then some 0 else none
  | a :: s => if pat.isPrefixOf (a :: s) then some 0 else (find pat s).map (· + 1)

def rfind (a : α) : List α → Option Nat
  | [] => none
  | b :: s =>
    match rfind a s with
    | some i => some (i + 1)
    | none => if b = a then some 0 else none

theorem find_eq_some (h : find pat s = some i) : ∃ before after, s = before ++ pat ++ after ∧ before.length = i := by
  induction s generalizing i with
  | nil =>
    rw [find] at h
    split_ifs at h with hnil
    exact ⟨[], [], by simp [hnil], some.inj h⟩
  | cons a s ih =>
    rw [find] at h
    split_ifs at h with hmatch
    · obtain ⟨after, hafter⟩ := isPrefixOf_iff_prefix.1 hmatch
      exact ⟨[], after, hafter.symm, some.inj h⟩
    · obtain ⟨j, hj, rfl⟩ := map_eq_some_iff.1 h
      obtain ⟨before, after, rfl, rfl⟩ := ih hj
      exact ⟨a :: before, after, rfl, rfl⟩

theorem find_append_of_notMem (hc : a ∉ c) : find (a :: pat) (c ++ s) = (find (a :: pat) s).map (· + c.length) := by
  induction c with
  | nil => simp
  | cons b c ih =>
    obtain ⟨hab, hc⟩ := not_or.1 (fun h => hc (mem_cons.2 h))
    have hmatch : (a :: pat).isPrefixOf (b :: (c ++ s)) = false := by
      simp [isPrefixOf, hab]
    rw [cons_append, find, hmatch, if_neg (by simp), ih hc, Option.map_map]
    rfl

theorem rfind_eq_none (h : a ∉ s) : rfind a s = none := by
  induction s with
  | nil => rfl
  | cons b s ih =>
    obtain ⟨hab, hs⟩ := not_or.1 (fun hmem => h (mem_cons.2 hmem))
    rw [rfind, ih hs]
    exact if_neg (Ne.symm hab)

theorem rfind_append_cons (s : List α) (hc : a ∉ c) : rfind a (s ++ a :: c) = some s.length := by
  induction s with
  | nil => rw [nil_append, rfind, rfind_eq_none hc]; exact if_pos rfl
  | cons b s ih => rw [cons_append, rfind, ih]; rfl

theorem rfind_eq_some (h : rfind a s = some i) : ∃ before after, s = before ++ a :: after ∧ before.length = i := by
  induction s generalizing i with
  | nil => exact absurd h (by simp [rfind])
  | cons b s ih =>
    rw [rfind] at h
    cases hs : rfind a s with
    | none =>
      rw [hs] at h
      split_ifs at h with hb
      exact ⟨[], s, by rw [hb]; rfl, some.inj h⟩
    | some j =>
      rw [hs] at h
      obtain rfl := some.inj h
      obtain ⟨before, after, rfl, rfl⟩ := ih hs
      exact ⟨b :: before, after, rfl, rfl⟩

/-! ## Searching for a segment -/

theorem find_segment (hd : sep ∉ d) (hcs : ∀ e ∈ cs, sep ∉ e) (hne : d ∉ cs) {e : List α} :
    find (sep :: (d ++ [sep])) (join sep (cs ++ d :: e :: ds)) = some (join sep cs).length := by
  induction cs with
  | nil =>
    have hmatch : d ++ [sep] <+: d ++ join sep (e :: ds) := (segment_isPrefix_iff hd hd).2 ⟨rfl, by simp⟩
    rw [nil_append, join_cons, find, if_pos]
    · rfl
    · rw [List.isPrefixOf_iff_prefix, cons_prefix_cons]
      exact ⟨rfl, hmatch⟩
  | cons c cs ih =>
    obtain ⟨hc, hcs⟩ := forall_mem_cons.1 hcs
    obtain ⟨hdc, hne⟩ := not_or.1 (fun h => hne (mem_cons.2 h))
    rw [cons_append, join_cons, find, if_neg, find_append_of_notMem hc, ih hcs hne]
    · simp only [map_some, join_cons, length_cons, length_append, some.injEq]
      omega
    · intro hmatch
      have h := isPrefixOf_iff_prefix.1 hmatch
      rw [cons_prefix_cons, segment_isPrefix_iff hd hc] at h
      exact hdc h.2.1.symm

theorem find_segment_eq_none (hd : sep ∉ d) (hcs : ∀ e ∈ cs, sep ∉ e) (hne : d ∉ cs.dropLast) :
    find (sep :: (d ++ [sep])) (join sep cs) = none := by
  induction cs with
  | nil => rfl
  | cons c cs ih =>
    obtain ⟨hc, hcs⟩ := forall_mem_cons.1 hcs
    have hrest : d ∉ cs.dropLast := fun h => hne (by
      cases cs with
      | nil => exact absurd h (by simp)
      | cons e es => exact mem_cons_of_mem _ h)
    rw [join_cons, find, if_neg, find_append_of_notMem hc, ih hcs hrest]
    · rfl
    intro hmatch
    have h := isPrefixOf_iff_prefix.1 hmatch
    rw [cons_prefix_cons, segment_isPrefix_iff hd hc] at h
    obtain ⟨-, rfl, hnil⟩ := h
    cases cs with
    | nil => exact hnil rfl
    | cons e es => exact hne (mem_cons_self ..)

theorem segment_isSuffix_iff (hd : sep ∉ d) (hc : sep ∉ c) : sep :: d <:+ s ++ sep :: c ↔ c = d := by
  constructor
  · rintro ⟨s', hs'⟩
    have hlen : s'.length = s.length := by
      have h := rfind_append_cons s' hd
      rw [hs', rfind_append_cons s hc] at h
      exact (some.inj h).symm
    exact (List.cons.inj (append_inj hs' hlen).2).2.symm
  · rintro rfl
    exact suffix_append _ _

end CoreX.Segments

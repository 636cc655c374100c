import CoreX.Vfs.CopySafe

/-!
# When `fs_sanitize` returns

The loop that cuts out `..` never panics, and each iteration shortens the string. The copying pass panics on strings
that end in `/.`, and a relative name made of `.` segments becomes such a string when it is appended to the prefix.
-/

namespace CoreX.Vfs

open Segments List Option

theorem isCharBoundary_zero (s : Bytes) : isCharBoundary s 0 = true := by
  cases s <;> rfl

theorem isCharBoundary_slash (before after : Bytes) :
    isCharBoundary (before ++ slash :: after) before.length = true := by
  have hget : (before ++ slash :: after)[before.length]? = some slash := by simp
  rw [isCharBoundary, hget]
  exact Bool.or_eq_true_iff.2 (.inr (by decide))

def cut (s : Bytes) : Bytes := s.take ((rfind slash s).getD 0)

theorem rfind_slash_spec (s t : Bytes) :
    (rfind slash s).getD 0 ≤ s.length ∧ isCharBoundary (s ++ t) ((rfind slash s).getD 0) = true := by
  cases h : rfind slash s with
  | none => exact ⟨Nat.zero_le _, isCharBoundary_zero _⟩
  | some i =>
    obtain ⟨before, after, rfl, rfl⟩ := rfind_eq_some h
    refine ⟨by simp, ?_⟩
    rw [append_assoc, cons_append]
    exact isCharBoundary_slash before _

theorem resolveLoop_find {before after : Bytes} (fuel : Nat)
    (h : find [slash, dot, dot, slash] (before ++ slash :: dot :: dot :: slash :: after) = some before.length) :
    resolveLoop (fuel + 1) (before ++ slash :: dot :: dot :: slash :: after) =
      resolveLoop fuel (cut before ++ slash :: after) := by
  set s := before ++ slash :: dot :: dot :: slash :: after with hs
  have hslice : sliceTo s before.length = some before := by
    rw [sliceTo, if_pos (isCharBoundary_slash before _), hs, take_left']
    rfl
  have hend : s = (before ++ [slash, dot, dot]) ++ slash :: after := by simp [hs]
  have hstop : isCharBoundary s (before.length + 3) = true := by
    have := isCharBoundary_slash (before ++ [slash, dot, dot]) after
    rwa [← hend, length_append] at this
  obtain ⟨hle, hstart⟩ := rfind_slash_spec before (slash :: dot :: dot :: slash :: after)
  have hremove : removeRange s ((rfind slash before).getD 0) (before.length + 3) =
      some (cut before ++ slash :: after) := by
    rw [removeRange, if_pos ⟨by omega, hstart, hstop⟩, cut]
    congr 2
    · rw [hs, take_append_of_le_length hle]
    · rw [hend, drop_left']
      rw [length_append]
      rfl
  rw [resolveLoop, h]
  simp only [hslice, bind_some, hremove]

theorem resolveLoop_suffix {before : Bytes} (fuel : Nat)
    (h : find [slash, dot, dot, slash] (before ++ [slash, dot, dot]) = none) :
    resolveLoop (fuel + 1) (before ++ [slash, dot, dot]) = resolveLoop fuel (cut before) := by
  set s := before ++ [slash, dot, dot] with hs
  have hlen : s.length - 3 = before.length := by simp [hs]
  have hslice : sliceTo s (s.length - 3) = some before := by
    rw [hlen, sliceTo, if_pos (isCharBoundary_slash before _), hs, take_left']
    rfl
  obtain ⟨hle, hstart⟩ := rfind_slash_spec before [slash, dot, dot]
  have hremove : removeRange s ((rfind slash before).getD 0) s.length = some (cut before) := by
    rw [removeRange, if_pos ⟨by omega, hstart, by simp [isCharBoundary]⟩, cut, drop_length,
      append_nil, hs, take_append_of_le_length hle]
  have hsuffix : [slash, dot, dot].isSuffixOf s = true := isSuffixOf_iff_suffix.2 (suffix_append _ _)
  rw [resolveLoop, h]
  simp only [if_pos hsuffix, hslice, bind_some, hremove]

theorem length_cut_le (s : Bytes) : (cut s).length ≤ s.length := by
  rw [cut, length_take]
  exact Nat.min_le_right _ _

theorem resolveLoop_isSome (fuel : Nat) : ∀ s : Bytes, s.length < fuel → (resolveLoop fuel s).isSome = true := by
  induction fuel with
  | zero => exact fun s h => absurd h (Nat.not_lt_zero _)
  | succ fuel ih =>
    intro s hlen
    cases hfind : find [slash, dot, dot, slash] s with
    | some pos =>
      obtain ⟨before, after, hs, rfl⟩ := find_eq_some hfind
      rw [append_assoc] at hs
      subst hs
      simp only [cons_append, nil_append] at hfind hlen ⊢
      rw [resolveLoop_find fuel hfind]
      apply ih
      have := length_cut_le before
      simp only [length_append, length_cons] at hlen ⊢
      omega
    | none =>
      by_cases hsuffix : [slash, dot, dot].isSuffixOf s = true
      · obtain ⟨before, rfl⟩ := isSuffixOf_iff_suffix.1 hsuffix
        rw [resolveLoop_suffix fuel hfind]
        apply ih
        have := length_cut_le before
        simp only [length_append, length_cons, length_nil] at hlen
        omega
      · rw [resolveLoop, hfind]
        simp only [if_neg hsuffix, isSome_some]

/-! ## The copying passes -/

/-- The segments after the first one that `fs_sanitize_copy_safe` returns; nothing becomes `/`. -/
def copied (c : Bytes) (cs : List Bytes) : List Bytes :=
  if c = [] ∧ kept cs = [] then [[]] else (kept cs).map pushBytes

variable {cs qs : List Bytes} {c d : Bytes}

theorem fsSanitizeCopySafe_segments (hc : slash ∉ c) (hcs : ∀ d ∈ cs, slash ∉ d) :
    fsSanitizeCopySafe (c ++ join slash cs) = if cs.getLast? = some [dot] then none
      else some (pushBytes c ++ join slash (copied c cs)) := by
  rw [fsSanitizeCopySafe, copySafeLoop_segments hc hcs]
  by_cases hdot : cs.getLast? = some [dot]
  · rw [if_pos hdot, if_pos hdot, map_none]
  rw [if_neg hdot, if_neg hdot, map_some, copied]
  by_cases hempty : c = [] ∧ kept cs = []
  · obtain ⟨rfl, hkept⟩ := hempty
    rw [hkept]
    rfl
  rw [if_neg hempty, if_neg]
  intro hnil
  obtain ⟨hpush, hjoin⟩ := append_eq_nil_iff.1 hnil
  refine hempty ⟨pushBytes_eq_nil.1 hpush, ?_⟩
  cases hkept : kept cs with
  | nil => rfl
  | cons d ds => rw [hkept] at hjoin; exact absurd hjoin (by simp)

theorem kept_eq_nil : kept cs = [] ↔ ∀ d ∈ cs, d = [] ∨ d = [dot] := by
  rw [kept, filter_eq_nil_iff]
  refine forall₂_congr fun d _ => ?_
  rw [decide_eq_true_iff]
  tauto

theorem mem_kept : d ∈ kept cs ↔ d ∈ cs ∧ d ≠ [] ∧ d ≠ [dot] := by
  rw [kept, mem_filter, decide_eq_true_iff]

theorem mem_copied (hd : d ∈ copied c cs) : d = [] ∨ ∃ e ∈ kept cs, d = pushBytes e := by
  rw [copied] at hd
  split_ifs at hd
  · exact .inl (mem_singleton.1 hd)
  · obtain ⟨e, he, rfl⟩ := mem_map.1 hd
    exact .inr ⟨e, he, rfl⟩

theorem slash_notMem_copied (hcs : ∀ d ∈ cs, slash ∉ d) : ∀ d ∈ copied c cs, slash ∉ d := by
  intro d hd
  rcases mem_copied hd with rfl | ⟨e, he, rfl⟩
  · simp
  · exact slash_notMem_pushBytes (hcs e (mem_kept.1 he).1)

theorem getLast?_copied : (qs ++ pushBytes c :: copied c cs).getLast? = some [dot] ↔ c = [dot] ∧ kept cs = [] := by
  rw [getLast?_append, getLast?_cons, some_or, some.injEq]
  constructor
  · intro h
    cases hlast : (copied c cs).getLast? with
    | none =>
      rw [hlast, getD_none] at h
      have hc := pushBytes_eq_dot.1 h
      rw [getLast?_eq_none_iff, copied, if_neg (fun hnil => by simp [hc] at hnil), map_eq_nil_iff] at hlast
      exact ⟨hc, hlast⟩
    | some d =>
      rw [hlast, getD_some] at h
      subst h
      rcases mem_copied (mem_of_getLast? hlast) with hnil | ⟨e, he, hdot⟩
      · exact absurd hnil (by decide)
      · exact absurd (pushBytes_eq_dot.1 hdot.symm) (mem_kept.1 he).2.2
  · rintro ⟨rfl, hkept⟩
    rw [copied, hkept]
    rfl

theorem exists_base (pre : Bytes) :
    ∃ base, pre ++ (if pre.getLast? = some slash then [] else [slash]) = base ++ [slash] ∧
      kept (pre.splitOn slash) = kept (base.splitOn slash) := by
  by_cases hlast : pre.getLast? = some slash
  · obtain ⟨base, rfl⟩ := getLast?_eq_some_iff.1 hlast
    refine ⟨base, by rw [if_pos hlast, append_nil], ?_⟩
    rw [splitOn_append_cons_self, kept, filter_append]
    exact append_nil _
  · exact ⟨pre, by rw [if_neg hlast], rfl⟩

/-- **Both copying passes of a relative name**, where the prefix and the slash behind it have the segments
`q` and `qs`. -/
theorem copySafe_relative {pre q : Bytes}
    (hbase : pre ++ (if pre.getLast? = some slash then [] else [slash]) = q ++ join slash qs ++ [slash])
    (hq : slash ∉ q) (hqs : ∀ d ∈ qs, slash ∉ d) (hc : slash ∉ c) (hcs : ∀ d ∈ cs, slash ∉ d) :
    ((fsSanitizeCopySafe (c ++ join slash cs)).bind fun safe =>
      fsSanitizeCopySafe (pre ++ (if pre.getLast? = some slash then [] else [slash]) ++ safe)) =
    if cs.getLast? = some [dot] ∨ (c = [dot] ∧ kept cs = []) then none
    else some (pushBytes q ++ join slash (copied q (qs ++ pushBytes c :: copied c cs))) := by
  rw [fsSanitizeCopySafe_segments hc hcs, hbase]
  by_cases hdot : cs.getLast? = some [dot]
  · rw [if_pos hdot, if_pos (.inl hdot), bind_none]
  have hcombined : q ++ join slash qs ++ [slash] ++ (pushBytes c ++ join slash (copied c cs)) =
      q ++ join slash (qs ++ pushBytes c :: copied c cs) := by simp
  have hfree : ∀ d ∈ qs ++ pushBytes c :: copied c cs, slash ∉ d := by
    intro d hd
    rcases mem_append.1 hd with hd | hd
    · exact hqs d hd
    rcases mem_cons.1 hd with rfl | hd
    · exact slash_notMem_pushBytes hc
    · exact slash_notMem_copied hcs d hd
  rw [if_neg hdot, bind_some, hcombined, fsSanitizeCopySafe_segments hq hfree]
  simp only [getLast?_copied, hdot, false_or]

/-! ## The condition -/

theorem head?_segments (hc : slash ∉ c) : (c ++ join slash cs).head? = some slash ↔ c = [] ∧ cs ≠ [] := by
  cases c with
  | nil => cases cs <;> simp
  | cons b c =>
    have hb : b ≠ slash := fun h => hc (h ▸ mem_cons_self ..)
    simp [hb]

theorem dot_isSuffix_segments (hc : slash ∉ c) (hcs : ∀ d ∈ cs, slash ∉ d) :
    [slash, dot] <:+ c ++ join slash cs ↔ cs.getLast? = some [dot] := by
  rcases eq_nil_or_concat cs with rfl | ⟨ds, d, rfl⟩
  · rw [join_nil, append_nil, getLast?_nil]
    exact iff_of_false (fun h => hc (h.subset (mem_cons_self ..))) (by simp)
  · have hd : slash ∉ d := hcs d (by simp)
    rw [concat_eq_append, join_append, ← append_assoc, join_cons, join_nil, append_nil,
      segment_isSuffix_iff (by decide) hd, getLast?_append]
    simp

theorem fsSanitize_returns (pre filename : Bytes) : (fsSanitize pre filename).isSome = true ↔
      ¬ [slash, dot] <:+ filename ∧
      ¬ (filename.head? = some dot ∧ ∀ c ∈ filename.splitOn slash, c = [] ∨ c = [dot]) := by
  obtain ⟨c, cs, rfl, hc, hcs⟩ := exists_segments slash filename
  have hloop : ∀ x : Option Bytes, (x.bind fun safe =>
      (resolveLoop (safe.length + 1) safe).map fun safe => if safe = [] then [slash] else safe).isSome =
      x.isSome := by
    intro x
    cases x with
    | none => rfl
    | some safe =>
      rw [bind_some, isSome_map, resolveLoop_isSome _ _ (Nat.lt_succ_self _), isSome_some]
  rw [fsSanitize, hloop, dot_isSuffix_segments hc hcs, splitOn_append_join hc hcs]
  by_cases habs : c = [] ∧ cs ≠ []
  · have hhead := (head?_segments hc).2 habs
    rw [if_neg (not_not.2 hhead), hhead, fsSanitizeCopySafe_segments hc hcs]
    by_cases hdot : cs.getLast? = some [dot]
    · simp [hdot]
    · rw [if_neg hdot]
      exact iff_of_true rfl ⟨hdot, fun h => absurd h.1 (by decide)⟩
  · rw [if_pos (fun h => habs ((head?_segments hc).1 h))]
    obtain ⟨base, hbase, -⟩ := exists_base pre
    obtain ⟨q, qs, rfl, hq, hqs⟩ := exists_segments slash base
    rw [copySafe_relative hbase hq hqs hc hcs]
    have hnames : (c ++ join slash cs).head? = some dot ∧ (∀ d ∈ c :: cs, d = [] ∨ d = [dot]) ↔
        c = [dot] ∧ kept cs = [] := by
      rw [kept_eq_nil, forall_mem_cons]
      constructor
      · rintro ⟨hhead, hfirst, hrest⟩
        refine ⟨hfirst.resolve_left (fun hnil => ?_), hrest⟩
        have hcs' : cs = [] := not_not.1 fun hne => habs ⟨hnil, hne⟩
        rw [hnil, hcs'] at hhead
        exact absurd hhead (by decide)
      · rintro ⟨rfl, hrest⟩
        exact ⟨rfl, .inr rfl, hrest⟩
    rw [hnames]
    by_cases hpanic : cs.getLast? = some [dot] ∨ (c = [dot] ∧ kept cs = [])
    · rw [if_pos hpanic, ← not_or, isSome_none]
      simp [hpanic]
    · rw [if_neg hpanic, ← not_or, isSome_some]
      simp [hpanic]

/-- **When `fs_sanitize` returns.** It returns if and only if the file name does not end in `/.` and is not
a name that starts with a dot and consists of `.` and empty segments only, such as `.` or `./`. -/
theorem fsSanitize_isSome_iff (pre filename : Bytes) : (fsSanitize pre filename).isSome = true ↔
      ¬ [slash, dot] <:+ filename ∧
      ¬ (filename.head? = some dot ∧ ∀ c ∈ filename.splitOn slash, c = [] ∨ c = [dot]) :=
  fsSanitize_returns pre filename

/-- The name `/.` panics. -/
theorem fsSanitize_slash_dot :
    [slash].head? = some slash ∧ (fsSanitize [slash] [slash, dot]).isSome = false := by decide

end CoreX.Vfs

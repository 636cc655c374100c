import CoreX.Vfs.Returns

/-!
# Canonical paths

The canonical path is found with a stack: empty and `.` components are dropped and `..` removes the component before
it. `fs_sanitize` cuts out the first `..` and the component before it until there is none; the stack does not see the
difference (`canonicalComponents_cut`).
-/

namespace CoreX.Vfs

open Segments List

def canonicalStep (stack : List Bytes) (c : Bytes) : List Bytes :=
  if c = [] ∨ c = [dot] then stack
  else if c = [dot, dot] then stack.dropLast
  else stack ++ [c]

def canonicalComponents (cs : List Bytes) : List Bytes := cs.foldl canonicalStep []

def renderPath (cs : List Bytes) : Bytes := if cs = [] then [slash] else join slash cs

def pathComponents (pre filename : Bytes) : List Bytes :=
  if filename.head? = some slash then filename.splitOn slash
  else pre.splitOn slash ++ filename.splitOn slash

theorem canonicalComponents_kept (cs : List Bytes) : canonicalComponents (kept cs) = canonicalComponents cs := by
  rw [canonicalComponents, kept, foldl_filter, canonicalComponents]
  congr 1
  funext stack c
  rw [canonicalStep]
  by_cases hskip : c = [] ∨ c = [dot]
  · rw [if_pos hskip, if_neg]
    rw [decide_eq_true_iff]
    tauto
  · rw [if_pos]
    rw [decide_eq_true_iff]
    tauto

variable {cs as bs : List Bytes} {filename pre c s : Bytes}

theorem foldl_canonicalStep_names (hcs : ∀ c ∈ cs, (c ≠ [] ∧ c ≠ [dot]) ∧ c ≠ [dot, dot]) (stack : List Bytes) :
    cs.foldl canonicalStep stack = stack ++ cs := by
  induction cs generalizing stack with
  | nil => rw [foldl_nil, append_nil]
  | cons c cs ih =>
    obtain ⟨⟨⟨hne, hdot⟩, hdots⟩, hcs⟩ := forall_mem_cons.1 hcs
    rw [foldl_cons, canonicalStep, if_neg (not_or.2 ⟨hne, hdot⟩), if_neg hdots, ih hcs,
      append_assoc, singleton_append]

theorem canonicalComponents_cut (has : ∀ c ∈ as, (c ≠ [] ∧ c ≠ [dot]) ∧ c ≠ [dot, dot]) :
    canonicalComponents (as ++ [dot, dot] :: bs) = canonicalComponents (as.dropLast ++ bs) := by
  have hinit : ∀ c ∈ as.dropLast, (c ≠ [] ∧ c ≠ [dot]) ∧ c ≠ [dot, dot] := fun c hc => has c (dropLast_subset _ hc)
  rw [canonicalComponents, canonicalComponents, foldl_append, foldl_append, foldl_cons,
    foldl_canonicalStep_names has, foldl_canonicalStep_names hinit, nil_append, nil_append,
    canonicalStep, if_neg (by decide), if_pos rfl]

theorem mem_canonicalStep {stack : List Bytes} {d : Bytes} (hc : c ∈ canonicalStep stack d) :
    c ∈ stack ∨ c = d ∧ c ≠ [] ∧ c ≠ [dot] ∧ c ≠ [dot, dot] := by
  rw [canonicalStep] at hc
  split_ifs at hc with hskip hdots
  · exact .inl hc
  · exact .inl (dropLast_subset _ hc)
  · rcases mem_append.1 hc with hc | hc
    · exact .inl hc
    · obtain rfl := mem_singleton.1 hc
      exact .inr ⟨rfl, fun h => hskip (.inl h), fun h => hskip (.inr h), hdots⟩

theorem mem_foldl_canonicalStep (cs : List Bytes) : ∀ {stack : List Bytes} {c : Bytes},
    c ∈ cs.foldl canonicalStep stack → c ∈ stack ∨ c ∈ cs ∧ c ≠ [] ∧ c ≠ [dot] ∧ c ≠ [dot, dot] := by
  induction cs with
  | nil => exact fun hc => .inl hc
  | cons d cs ih =>
    intro stack c hc
    rcases ih hc with hstep | ⟨hmem, hname⟩
    · rcases mem_canonicalStep hstep with hstack | ⟨rfl, hname⟩
      · exact .inl hstack
      · exact .inr ⟨mem_cons_self .., hname⟩
    · exact .inr ⟨mem_cons_of_mem _ hmem, hname⟩

theorem mem_canonicalComponents (hc : c ∈ canonicalComponents cs) : c ∈ cs ∧ c ≠ [] ∧ c ≠ [dot] ∧ c ≠ [dot, dot] :=
  (mem_foldl_canonicalStep cs hc).resolve_left not_mem_nil

theorem cut_join (hcs : ∀ c ∈ cs, slash ∉ c) : cut (join slash cs) = join slash cs.dropLast := by
  rcases eq_nil_or_concat cs with rfl | ⟨ds, d, rfl⟩
  · rfl
  · have hd : slash ∉ d := hcs d (by simp)
    have hjoin : join slash (ds.concat d) = join slash ds ++ slash :: d := by simp
    rw [cut, hjoin, rfind_append_cons _ hd, Option.getD_some, take_left' rfl, concat_eq_append, dropLast_concat]

theorem resolveLoop_names (fuel : Nat) {ds : List Bytes} (hfree : ∀ d ∈ ds, slash ∉ d)
    (hmem : [dot, dot] ∉ ds) : resolveLoop (fuel + 1) (join slash ds) = some (join slash ds) := by
  have hdots : slash ∉ [dot, dot] := by decide
  have hnone : find [slash, dot, dot, slash] (join slash ds) = none :=
    find_segment_eq_none (d := [dot, dot]) hdots hfree (fun h => hmem (dropLast_subset _ h))
  have hsuffix : ¬ [slash, dot, dot].isSuffixOf (join slash ds) = true := by
    rw [isSuffixOf_iff_suffix]
    rcases eq_nil_or_concat ds with rfl | ⟨es, e, rfl⟩
    · simp
    · have he : e ∈ es.concat e := by simp
      have hjoin : join slash (es.concat e) = join slash es ++ slash :: e := by simp
      rw [hjoin, segment_isSuffix_iff hdots (hfree e he)]
      exact fun h => hmem (h ▸ he)
  rw [resolveLoop, hnone]
  simp only [if_neg hsuffix]

theorem resolveLoop_cut (fuel : Nat) (hfree : ∀ d ∈ as ++ [dot, dot] :: bs, slash ∉ d) (hfirst : [dot, dot] ∉ as) :
    resolveLoop (fuel + 1) (join slash (as ++ [dot, dot] :: bs)) =
      resolveLoop fuel (join slash (as.dropLast ++ bs)) := by
  have hdots : slash ∉ [dot, dot] := by decide
  have hasfree : ∀ c ∈ as, slash ∉ c := fun c hc => hfree c (mem_append_left _ hc)
  rw [join_append, join_append, ← cut_join hasfree]
  cases bs with
  | nil =>
    have hnone : find [slash, dot, dot, slash] (join slash (as ++ [[dot, dot]])) = none := by
      apply find_segment_eq_none (d := [dot, dot]) hdots hfree
      rw [dropLast_concat]
      exact hfirst
    rw [join_append] at hnone
    rw [join_nil, append_nil]
    exact resolveLoop_suffix fuel hnone
  | cons b bs =>
    have hfind : find [slash, dot, dot, slash] (join slash (as ++ [dot, dot] :: b :: bs)) =
        some (join slash as).length :=
      find_segment (d := [dot, dot]) hdots hasfree hfirst
    rw [join_append] at hfind
    exact resolveLoop_find fuel hfind

theorem resolveLoop_join (fuel : Nat) : ∀ ds : List Bytes, (∀ d ∈ ds, slash ∉ d) →
    (∀ d ∈ ds, d ≠ [] ∧ d ≠ [dot]) → (join slash ds).length < fuel →
    resolveLoop fuel (join slash ds) = some (join slash (canonicalComponents ds)) := by
  induction fuel with
  | zero => exact fun ds _ _ h => absurd h (Nat.not_lt_zero _)
  | succ fuel ih =>
    intro ds hfree hkept hlen
    by_cases hmem : [dot, dot] ∈ ds
    · obtain ⟨as, bs, rfl, hfirst⟩ := eq_append_cons_of_mem hmem
      have has : ∀ c ∈ as, (c ≠ [] ∧ c ≠ [dot]) ∧ c ≠ [dot, dot] := fun c hc =>
        ⟨hkept c (mem_append_left _ hc), fun h => hfirst (h ▸ hc)⟩
      have hsub : ∀ c ∈ as.dropLast ++ bs, c ∈ as ++ [dot, dot] :: bs := by
        intro c hc
        rcases mem_append.1 hc with hc | hc
        · exact mem_append_left _ (dropLast_subset _ hc)
        · exact mem_append_right _ (mem_cons_of_mem _ hc)
      have hshort : (join slash (as.dropLast ++ bs)).length < fuel := by
        have hcut := length_cut_le (join slash as)
        rw [cut_join fun c hc => hfree c (mem_append_left _ hc)] at hcut
        simp only [join_append, join_cons, length_append, length_cons] at hlen ⊢
        omega
      rw [canonicalComponents_cut has, resolveLoop_cut fuel hfree hfirst]
      exact ih _ (fun c hc => hfree c (hsub c hc)) (fun c hc => hkept c (hsub c hc)) hshort
    · have hnames : ∀ c ∈ ds, (c ≠ [] ∧ c ≠ [dot]) ∧ c ≠ [dot, dot] := fun c hc =>
        ⟨hkept c hc, fun h => hmem (h ▸ hc)⟩
      rw [resolveLoop_names fuel hfree hmem, canonicalComponents, foldl_canonicalStep_names hnames, nil_append]

/-! ## The copying passes -/

/-- The components of the path as they come out of the copying passes: those of the prefix are pushed once, those of an
absolute name once and those of a relative name twice. -/
def pushedComponents (pre filename : Bytes) : List Bytes :=
  if filename.head? = some slash then (filename.splitOn slash).map pushBytes
  else (pre.splitOn slash).map pushBytes ++ (filename.splitOn slash).map fun c => pushBytes (pushBytes c)

theorem kept_append (as bs : List Bytes) : kept (as ++ bs) = kept as ++ kept bs := filter_append ..

section
variable (cs)

theorem kept_nil_cons : kept ([] :: cs) = kept cs := filter_cons_of_neg (by simp)

theorem kept_map_pushBytes : kept (cs.map pushBytes) = (kept cs).map pushBytes := by
  rw [kept, kept, filter_map]
  congr 2
  funext c
  rw [Function.comp_apply, decide_eq_decide, Ne, Ne, pushBytes_eq_nil, pushBytes_eq_dot]

theorem map_pushBytes_twice : cs.map (fun c => pushBytes (pushBytes c)) = (cs.map pushBytes).map pushBytes := by
  rw [map_map]
  rfl

end

theorem resolve_copied (hfree : ∀ c ∈ cs, slash ∉ c) :
    ((resolveLoop ((join slash (copied [] cs)).length + 1) (join slash (copied [] cs))).map fun safe =>
      if safe = [] then [slash] else safe) = some (renderPath (canonicalComponents (cs.map pushBytes))) := by
  rw [← canonicalComponents_kept, kept_map_pushBytes]
  by_cases hempty : kept cs = []
  · rw [copied, if_pos ⟨rfl, hempty⟩, hempty]
    decide
  have hfree' : ∀ c ∈ (kept cs).map pushBytes, slash ∉ c := by
    intro c hc
    obtain ⟨d, hd, rfl⟩ := mem_map.1 hc
    exact slash_notMem_pushBytes (hfree d (mem_kept.1 hd).1)
  have hkept' : ∀ c ∈ (kept cs).map pushBytes, c ≠ [] ∧ c ≠ [dot] := by
    rw [← kept_map_pushBytes]
    exact fun c hc => (mem_kept.1 hc).2
  rw [copied, if_neg (fun h => hempty h.2), resolveLoop_join _ _ hfree' hkept' (Nat.lt_succ_self _), Option.map_some,
    renderPath]
  congr 1
  by_cases hroot : canonicalComponents ((kept cs).map pushBytes) = []
  · rw [hroot]
    rfl
  · rw [if_neg hroot, if_neg]
    obtain ⟨d, ds, hcons⟩ := exists_cons_of_ne_nil hroot
    simp [hcons]

theorem kept_copied (c : Bytes) (cs : List Bytes) : kept (copied c cs) = (kept cs).map pushBytes := by
  rw [copied]
  split_ifs with hempty
  · rw [hempty.2]
    rfl
  · rw [kept_map_pushBytes]
    congr 1
    exact filter_eq_self.2 fun d hd => decide_eq_true (mem_kept.1 hd).2

theorem exists_base_segments (habs : pre.head? = some slash) :
    ∃ qs, pre ++ (if pre.getLast? = some slash then [] else [slash]) = [] ++ join slash qs ++ [slash] ∧
      kept (pre.splitOn slash) = kept qs ∧ ∀ d ∈ qs, slash ∉ d := by
  obtain ⟨base, hbase, hkept⟩ := exists_base pre
  obtain ⟨q, qs, rfl, hq, hqs⟩ := exists_segments slash base
  have hq' : q = [] := by
    cases q with
    | nil => rfl
    | cons b q =>
      have hhead := congrArg head? hbase
      rw [head?_append, habs] at hhead
      exact absurd (mem_cons.2 (.inl (Option.some.inj hhead))) hq
  subst hq'
  rw [splitOn_append_join hq hqs, kept_nil_cons] at hkept
  exact ⟨qs, hbase, hkept, hqs⟩

theorem fsSanitize_eq (habs : pre.head? = some slash) (hsome : (fsSanitize pre filename).isSome = true) :
    fsSanitize pre filename = some (renderPath (canonicalComponents (pushedComponents pre filename))) := by
  obtain ⟨c, cs, rfl, hc, hcs⟩ := exists_segments slash filename
  rw [fsSanitize] at hsome ⊢
  rw [pushedComponents, splitOn_append_join hc hcs]
  by_cases hhead : (c ++ join slash cs).head? = some slash
  · obtain ⟨rfl, -⟩ := (head?_segments hc).1 hhead
    rw [if_neg (not_not.2 hhead), fsSanitizeCopySafe_segments hc hcs] at hsome ⊢
    split_ifs at hsome ⊢
    · exact absurd hsome (by simp)
    · exact resolve_copied hcs
  · obtain ⟨qs, hbase, hkept, hqs⟩ := exists_base_segments habs
    rw [if_pos hhead, copySafe_relative hbase not_mem_nil hqs hc hcs] at hsome ⊢
    split_ifs at hsome ⊢
    · exact absurd hsome (by simp)
    have hfree : ∀ d ∈ qs ++ pushBytes c :: copied c cs, slash ∉ d := forall_mem_append.2
        ⟨hqs, forall_mem_cons.2 ⟨slash_notMem_pushBytes hc, slash_notMem_copied hcs⟩⟩
    refine (resolve_copied hfree).trans ?_
    congr 2
    rw [← canonicalComponents_kept, ← canonicalComponents_kept (_ ++ _)]
    congr 1
    -- both sides, as what is kept of the prefix, of the first segment and of the others
    have hcons : ∀ d ds, kept (d :: ds) = kept [d] ++ kept ds := fun d ds => kept_append [d] ds
    have hfirst : kept [pushBytes c] = (kept [c]).map pushBytes := kept_map_pushBytes [c]
    rw [kept_map_pushBytes, kept_append, hcons, kept_copied, ← hkept, hfirst, kept_append, map_pushBytes_twice,
      kept_map_pushBytes, kept_map_pushBytes, kept_map_pushBytes, hcons c cs, map_append, map_append,
      map_append, map_append]

/-! ## ASCII names -/

theorem map_pushBytes_of_ascii (h : ∀ c ∈ cs, ∀ b ∈ c, b < 128) : cs.map pushBytes = cs :=
  (map_congr_left fun c hc => pushBytes_of_ascii (h c hc)).trans (map_id cs)

theorem slash_notMem_splitOn (hc : c ∈ s.splitOn slash) : slash ∉ c := by
  obtain ⟨d, ds, rfl, hd, hds⟩ := exists_segments slash s
  rw [splitOn_append_join hd hds] at hc
  rcases mem_cons.1 hc with rfl | hc
  · exact hd
  · exact hds c hc

theorem mem_of_mem_splitOn (hc : c ∈ s.splitOn slash) : ∀ b ∈ c, b ∈ s := by
  obtain ⟨d, ds, rfl, hd, hds⟩ := exists_segments slash s
  rw [splitOn_append_join hd hds] at hc
  intro b hb
  rcases mem_cons.1 hc with rfl | hc
  · exact mem_append_left _ hb
  · exact mem_append_right _ (mem_flatMap.2 ⟨c, hc, mem_cons_of_mem _ hb⟩)

theorem slash_notMem_pathComponents (hc : c ∈ pathComponents pre filename) : slash ∉ c := by
  rw [pathComponents] at hc
  split_ifs at hc
  · exact slash_notMem_splitOn hc
  · rcases mem_append.1 hc with hc | hc <;> exact slash_notMem_splitOn hc

theorem pushedComponents_of_ascii (hpre : ∀ b ∈ pre, b < 128) (hfile : ∀ b ∈ filename, b < 128) :
    pushedComponents pre filename = pathComponents pre filename := by
  have hascii : ∀ s : Bytes, (∀ b ∈ s, b < 128) → (s.splitOn slash).map pushBytes = s.splitOn slash := fun s hs =>
    map_pushBytes_of_ascii fun c hc b hb => hs b (mem_of_mem_splitOn hc b hb)
  have htwice : (filename.splitOn slash).map (fun c => pushBytes (pushBytes c)) = filename.splitOn slash := by
    rw [map_pushBytes_twice, hascii filename hfile, hascii filename hfile]
  rw [pushedComponents, pathComponents, hascii pre hpre, hascii filename hfile, htwice]

/-- **`fs_sanitize` returns the canonical path**, for an absolute ASCII prefix and an ASCII name on which it
returns. The path is absolute, and none of its components is empty, `.` or `..`. -/
theorem fsSanitize_canonical {pre filename result : Bytes} (habs : pre.head? = some slash)
    (hpre : ∀ b ∈ pre, b < 128) (hfile : ∀ b ∈ filename, b < 128) (hresult : fsSanitize pre filename = some result) :
    result = renderPath (canonicalComponents (pathComponents pre filename)) ∧ result.head? = some slash ∧
    ∀ c ∈ canonicalComponents (pathComponents pre filename), c ≠ [] ∧ c ≠ [dot] ∧ c ≠ [dot, dot] ∧ slash ∉ c := by
  rw [fsSanitize_eq habs (Option.isSome_iff_exists.2 ⟨result, hresult⟩), pushedComponents_of_ascii hpre hfile]
    at hresult
  obtain rfl := Option.some.inj hresult
  refine ⟨rfl, ?_, fun c hc => ?_⟩
  · rw [renderPath]
    split_ifs with hroot
    · rfl
    · obtain ⟨d, ds, hcons⟩ := exists_cons_of_ne_nil hroot
      rw [hcons]
      rfl
  · obtain ⟨hmem, hne, hdot, hdots⟩ := mem_canonicalComponents hc
    exact ⟨hne, hdot, hdots, slash_notMem_pathComponents hmem⟩

/-- From `/a`, the name `b/../../c//` leads to `/c`. -/
theorem fsSanitize_canonical_parent :
    ∃ result, fsSanitize [slash, 97] [98, slash, dot, dot, slash, dot, dot, slash, 99, slash, slash] =
      some result ∧ result = [slash, 99] := by
  have hsome : (fsSanitize [slash, 97]
      [98, slash, dot, dot, slash, dot, dot, slash, 99, slash, slash]).isSome = true := by decide
  obtain ⟨result, hresult⟩ := Option.isSome_iff_exists.1 hsome
  obtain ⟨hcanonical, -⟩ := fsSanitize_canonical (by decide) (by simp [slash]) (by simp [slash, dot]) hresult
  exact ⟨result, hresult, hcanonical.trans (by decide)⟩

end CoreX.Vfs

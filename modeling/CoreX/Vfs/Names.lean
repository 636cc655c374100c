import CoreX.Vfs.Canonical

/-!
# Names that are not ASCII

`fs_sanitize` pushes every byte as a character, so a byte from 128 on becomes two bytes: once in the prefix and in an
absolute name, and twice in a relative name. The path that is returned consists of the components of the canonical
path (`survivors`), each pushed once or twice.
-/

namespace CoreX.Vfs

open Segments List

theorem length_pushBytes (c : Bytes) : (pushBytes c).length = c.length + (c.filter fun b => ¬ b < 128).length := by
  induction c with
  | nil => rfl
  | cons b c ih =>
    have hcons : pushBytes (b :: c) = pushByte b ++ pushBytes c := rfl
    rw [hcons, length_append, ih, pushByte]
    by_cases hb : b < 128
    · rw [if_pos hb, filter_cons_of_neg (by simpa using hb)]
      simp only [length_cons, length_nil]
      omega
    · rw [if_neg hb, filter_cons_of_pos (by simpa using hb)]
      simp only [length_cons, length_nil]
      omega

theorem ascii_of_length_pushBytes {c : Bytes} (h : (pushBytes c).length ≤ c.length) : ∀ b ∈ c, b < 128 := by
  rw [length_pushBytes] at h
  have hnil : c.filter (fun b => ¬ b < 128) = [] := length_eq_zero_iff.1 (by omega)
  intro b hb
  simpa using filter_eq_nil_iff.1 hnil b hb

theorem pushBytes_eq_iff_of_ascii {c x : Bytes} (hx : ∀ b ∈ x, b < 128) : pushBytes c = x ↔ c = x := by
  constructor
  · rintro rfl
    have hascii : ∀ b ∈ c, b < 128 := by
      intro b hb
      obtain ⟨y, ys, hy⟩ := exists_cons_of_ne_nil (pushByte_ne_nil b)
      have hmem : y ∈ pushByte b := hy ▸ mem_cons_self ..
      have hlt := hx y (mem_flatMap.2 ⟨b, hb, hmem⟩)
      rwa [← eq_of_mem_pushByte b y hmem hlt]
    exact (pushBytes_of_ascii hascii).symm
  · rintro rfl
    exact pushBytes_of_ascii hx

def pushed (p : Nat × Bytes) : Bytes := pushBytes^[p.1] p.2

def taggedComponents (pre filename : Bytes) : List (Nat × Bytes) :=
  if filename.head? = some slash then (filename.splitOn slash).map fun c => (1, c)
  else ((pre.splitOn slash).map fun c => (1, c)) ++ (filename.splitOn slash).map fun c => (2, c)

def survivorStep (stack : List (Nat × Bytes)) (p : Nat × Bytes) : List (Nat × Bytes) :=
  if p.2 = [] ∨ p.2 = [dot] then stack
  else if p.2 = [dot, dot] then stack.dropLast
  else stack ++ [p]

def survivors (pre filename : Bytes) : List (Nat × Bytes) := (taggedComponents pre filename).foldl survivorStep []

variable {p : Nat × Bytes}

theorem pushed_eq_iff {x : Bytes} (hx : ∀ b ∈ x, b < 128) : pushed p = x ↔ p.2 = x := by
  obtain ⟨n, c⟩ := p
  induction n generalizing c with
  | zero => rfl
  | succ n ih => exact (ih (pushBytes c)).trans (pushBytes_eq_iff_of_ascii hx)

theorem canonicalComponents_map {f : Nat × Bytes → Bytes} (hf : ∀ p x, (∀ b ∈ x, b < 128) → (f p = x ↔ p.2 = x))
    (ps : List (Nat × Bytes)) : canonicalComponents (ps.map f) = (ps.foldl survivorStep []).map f := by
  have hstep : ∀ stack p, canonicalStep (stack.map f) (f p) = (survivorStep stack p).map f := by
    intro stack p
    have hnil := hf p [] (by simp)
    have hdot := hf p [dot] (by simp [dot])
    have hdots := hf p [dot, dot] (by simp [dot])
    simp only [canonicalStep, survivorStep, hnil, hdot, hdots]
    split_ifs
    · rfl
    · rw [map_dropLast]
    · rw [map_append]
      rfl
  have hfold : ∀ (qs stack : List (Nat × Bytes)),
      (qs.map f).foldl canonicalStep (stack.map f) = (qs.foldl survivorStep stack).map f := by
    intro qs
    induction qs with
    | nil => exact fun stack => rfl
    | cons q qs ih =>
      intro stack
      rw [map_cons, foldl_cons, foldl_cons, hstep, ih]
  exact hfold ps []

section
variable (pre filename : Bytes)

theorem map_snd_taggedComponents : (taggedComponents pre filename).map Prod.snd = pathComponents pre filename := by
  rw [taggedComponents, pathComponents]
  split_ifs
  · rw [map_map]
    exact map_id _
  · rw [map_append, map_map, map_map]
    exact congrArg₂ _ (map_id _) (map_id _)

theorem map_pushed_taggedComponents : (taggedComponents pre filename).map pushed = pushedComponents pre filename := by
  rw [taggedComponents, pushedComponents]
  split_ifs
  · rw [map_map]
    rfl
  · rw [map_append, map_map, map_map]
    rfl

end

theorem mem_survivorStep {stack : List (Nat × Bytes)} {q : Nat × Bytes} (h : q ∈ survivorStep stack p) :
    q ∈ stack ∨ q = p := by
  rw [survivorStep] at h
  split_ifs at h
  · exact .inl h
  · exact .inl (dropLast_subset _ h)
  · exact (mem_append.1 h).imp id mem_singleton.1

theorem mem_survivors {pre filename : Bytes} (h : p ∈ survivors pre filename) :
    p ∈ taggedComponents pre filename := by
  have hfold : ∀ (qs stack : List (Nat × Bytes)), p ∈ qs.foldl survivorStep stack → p ∈ stack ∨ p ∈ qs := by
    intro qs
    induction qs with
    | nil => exact fun stack h => .inl h
    | cons q qs ih =>
      intro stack h
      rcases ih _ h with hstep | hrest
      · rcases mem_survivorStep hstep with hstack | rfl
        · exact .inl hstack
        · exact .inr (mem_cons_self ..)
      · exact .inr (mem_cons_of_mem _ hrest)
  exact (hfold _ _ h).resolve_left not_mem_nil

theorem tag_of_mem {pre filename : Bytes} (h : p ∈ taggedComponents pre filename) : p.1 = 1 ∨ p.1 = 2 := by
  rw [taggedComponents] at h
  split_ifs at h
  · obtain ⟨c, -, rfl⟩ := mem_map.1 h
    exact .inl rfl
  · rcases mem_append.1 h with h | h
    · obtain ⟨c, -, rfl⟩ := mem_map.1 h
      exact .inl rfl
    · obtain ⟨c, -, rfl⟩ := mem_map.1 h
      exact .inr rfl

theorem pushed_eq_self (htag : p.1 = 1 ∨ p.1 = 2) : pushed p = p.2 ↔ ∀ b ∈ p.2, b < 128 := by
  obtain ⟨n, c⟩ := p
  refine ⟨fun h => ?_, fun h => (pushed_eq_iff h).2 rfl⟩
  rcases htag with rfl | rfl
  · exact ascii_of_length_pushBytes (le_of_eq (congrArg length h))
  · have hlength : (pushBytes (pushBytes c)).length = c.length := congrArg length h
    rw [length_pushBytes] at hlength
    have hle : (pushBytes c).length ≤ c.length := by omega
    exact ascii_of_length_pushBytes hle

/-! ## The result -/

def components (path : Bytes) : List Bytes := (path.splitOn slash).filter (· ≠ [])

theorem components_renderPath {cs : List Bytes} (hne : ∀ c ∈ cs, c ≠ []) (hfree : ∀ c ∈ cs, slash ∉ c) :
    components (renderPath cs) = cs := by
  rw [renderPath]
  split_ifs with hnil
  · rw [hnil]
    decide
  · have hsplit : (join slash cs).splitOn slash = [] :: cs := splitOn_append_join not_mem_nil hfree
    rw [components, hsplit, filter_cons_of_neg (by simp)]
    exact filter_eq_self.2 fun c hc => decide_eq_true (hne c hc)

theorem slash_notMem_pushedComponents {pre filename c : Bytes} (hc : c ∈ pushedComponents pre filename) : slash ∉ c := by
  have hpush : ∀ (s : Bytes) (d : Bytes), d ∈ (s.splitOn slash).map pushBytes → slash ∉ d := by
    intro s d hd
    obtain ⟨e, he, rfl⟩ := mem_map.1 hd
    exact slash_notMem_pushBytes (slash_notMem_splitOn he)
  rw [pushedComponents] at hc
  split_ifs at hc
  · exact hpush filename c hc
  · rcases mem_append.1 hc with hc | hc
    · exact hpush pre c hc
    · obtain ⟨e, he, rfl⟩ := mem_map.1 hc
      exact slash_notMem_pushBytes (slash_notMem_pushBytes (slash_notMem_splitOn he))

/-- **Names of any bytes**: the components of the result are those of the canonical path, pushed once or twice. Each of them is
a component of the prefix or of the name if and only if what is pushed happens to be one, and they are those of the
canonical path if and only if these are ASCII. -/
theorem fsSanitize_names {pre filename result : Bytes} (habs : pre.head? = some slash)
    (hresult : fsSanitize pre filename = some result) : components result = (survivors pre filename).map pushed ∧
    ((∀ c ∈ components result, c ∈ pre.splitOn slash ∨ c ∈ filename.splitOn slash) ↔
      ∀ p ∈ survivors pre filename, pushed p ∈ pre.splitOn slash ∨ pushed p ∈ filename.splitOn slash) ∧
    (components result = canonicalComponents (pathComponents pre filename) ↔
      ∀ c ∈ canonicalComponents (pathComponents pre filename), ∀ b ∈ c, b < 128) := by
  rw [fsSanitize_eq habs (Option.isSome_iff_exists.2 ⟨result, hresult⟩)] at hresult
  obtain rfl := Option.some.inj hresult
  have hcomponents : components (renderPath (canonicalComponents (pushedComponents pre filename))) =
      (survivors pre filename).map pushed := by
    rw [components_renderPath (fun c hc => (mem_canonicalComponents hc).2.1)
      (fun c hc => slash_notMem_pushedComponents (mem_canonicalComponents hc).1), ← map_pushed_taggedComponents]
    exact canonicalComponents_map (fun p x hx => pushed_eq_iff hx) _
  have hcanonical : canonicalComponents (pathComponents pre filename) = (survivors pre filename).map Prod.snd := by
    rw [← map_snd_taggedComponents]
    exact canonicalComponents_map (fun p x _ => Iff.rfl) _
  rw [hcomponents, hcanonical]
  refine ⟨rfl, forall_mem_map, ?_⟩
  rw [map_inj_left, forall_mem_map]
  exact forall₂_congr fun p hp => pushed_eq_self (tag_of_mem (mem_survivors hp))

/-- A name that is not ASCII does no harm if it is cut out: `/é/../a` leads to `/a`. -/
theorem fsSanitize_names_cut : fsSanitize [slash] [slash, 0xC3, 0xA9, slash, dot, dot, slash, 97] = some [slash, 97] ∧
      components [slash, 97] =
        canonicalComponents (pathComponents [slash] [slash, 0xC3, 0xA9, slash, dot, dot, slash, 97]) := by
  have hresult : fsSanitize [slash] [slash, 0xC3, 0xA9, slash, dot, dot, slash, 97] = some [slash, 97] := by decide
  have hcut : canonicalComponents (pathComponents [slash] [slash, 0xC3, 0xA9, slash, dot, dot, slash, 97]) = [[97]] := by
    decide
  exact ⟨hresult, (fsSanitize_names rfl hresult).2.2.2 (by simp [hcut])⟩

/-- The name `/é` becomes another one. -/
theorem fsSanitize_accent : fsSanitize [slash] [slash, 0xC3, 0xA9] = some [slash, 0xC3, 0x83, 0xC2, 0xA9] ∧
      components [slash, 0xC3, 0x83, 0xC2, 0xA9] = [[0xC3, 0x83, 0xC2, 0xA9]] ∧
      [0xC3, 0x83, 0xC2, 0xA9] ∉ [slash].splitOn slash ++ [slash, 0xC3, 0xA9].splitOn slash := by decide

end CoreX.Vfs

import CoreX.Ext2.CacheAdd

/-!
# Sequences of calls on the block cache

One call of `ext2CacheAddSecurely` does what `add` says, if no sum or product of it overflows (`Fits`), and so does a
sequence of calls (`addAll_iff`).
-/

namespace CoreX.Ext2.Cache

open Chain List

/-! ## Cutting a sorted list -/

section Cut
variable {α : Type*} {f : α → Nat} {l : List α}

theorem filter_split (hsorted : l.Pairwise fun a b => f a < f b) (k : Nat) :
    l.filter (f · < k) ++ l.filter (k ≤ f ·) = l := by
  induction l with
  | nil => rfl
  | cons a l ih =>
    obtain ⟨ha, hl⟩ := pairwise_cons.1 hsorted
    by_cases hlt : f a < k
    · rw [filter_cons_of_pos (by simpa using hlt), filter_cons_of_neg (by simpa using hlt), cons_append, ih hl]
    have hnil : l.filter (f · < k) = [] := by
      rw [filter_eq_nil_iff]
      intro b hb
      have := ha b hb
      simp only [decide_eq_true_eq]
      omega
    rw [filter_cons_of_neg (by simpa using hlt), filter_cons_of_pos (by simpa using hlt), hnil, nil_append]
    rw [hnil, nil_append] at ih
    rw [ih hl]

theorem exists_parts (hsorted : l.Pairwise fun a b => f a < f b) (i n : Nat) :
    ∃ as mid bs, l = as ++ (mid ++ bs) ∧ (∀ a ∈ as, f a < i) ∧ (∀ a ∈ mid, i ≤ f a ∧ f a < i + n) ∧
      ∀ a ∈ bs, i + n ≤ f a := by
  have hrest := filter_split (hsorted.sublist filter_sublist) (i + n) (l := l.filter (i ≤ f ·))
  refine ⟨l.filter (f · < i), (l.filter (i ≤ f ·)).filter (f · < i + n),
    (l.filter (i ≤ f ·)).filter (i + n ≤ f ·), ?_, ?_, ?_, ?_⟩
  · rw [hrest, filter_split hsorted]
  · intro a ha
    simpa using (mem_filter.1 ha).2
  · intro a ha
    obtain ⟨hmem, hlt⟩ := mem_filter.1 ha
    exact ⟨by simpa using (mem_filter.1 hmem).2, by simpa using hlt⟩
  · intro a ha
    simpa using (mem_filter.1 ha).2

theorem exists_first_not {P : α → Prop} (h : ¬ ∀ a ∈ l, P a) :
    ∃ as a bs, l = as ++ a :: bs ∧ (∀ b ∈ as, P b) ∧ ¬ P a := by
  induction l with
  | nil => exact absurd (by simp) h
  | cons a l ih =>
    by_cases ha : P a
    · have hl : ¬ ∀ b ∈ l, P b := fun hl => h (forall_mem_cons.2 ⟨ha, hl⟩)
      obtain ⟨as, b, bs, rfl, has, hb⟩ := ih hl
      exact ⟨a :: as, b, bs, rfl, forall_mem_cons.2 ⟨ha, has⟩, hb⟩
    · exact ⟨[], a, l, rfl, by simp, ha⟩

end Cut

/-! ## One call -/

section Call
variable {global : FoundObject} {entry : Entry} {as mid bs nodes : List Nat} {blockSize : Nat} (alloc : Allocator)
  {heap : Nat → CacheObject}

theorem call_of_no_overlap (h : Shape global (as ++ bs))
    (hbelow : ∀ a ∈ as, (global.heap a).blockIndex < entry.blockIndex)
    (hbehind : ∀ a ∈ bs, entry.blockIndex + entry.blocks ≤ (global.heap a).blockIndex)
    (hsum : bs ≠ [] → entry.blockIndex + entry.blocks < 2 ^ 64) (fuel : Nat) :
    ext2CacheAddSecurely alloc blockSize (fuel + 1) global entry = addNew alloc global entry (as ++ bs).getLast? := by
  have hskip : ∀ a ∈ as ++ bs, inRange (global.heap a) entry = .ok false := by
    intro a ha
    rcases mem_append.1 ha with ha | ha
    · exact inRange_of_lt (hbelow a ha)
    · have hle := hbehind a ha
      rw [inRange_of_le (by omega) (hsum (ne_nil_of_mem ha)), decide_eq_false (by omega)]
  have hstretch := h.stretch
  rw [← append_nil (as ++ bs)] at hstretch
  obtain ⟨k, hk⟩ := Nat.exists_eq_add_of_le h.length_le
  have hcatch := catchLoop_skip hstretch hskip k (as ++ bs).head?
  rw [append_nil, head?_nil, catchLoop_none, getLast?_or_head?] at hcatch
  rw [ext2CacheAddSecurely, h.first, hk, hcatch]
  rfl

section
variable {m : Nat} (h : Shape global (as ++ m :: bs))
  (hbelow : ∀ a ∈ as, (global.heap a).blockIndex < entry.blockIndex)
include h hbelow

theorem catchLoop_first : ∃ k c, catchLoop global.heap entry global.live.length (as ++ m :: bs).head?
    (as ++ m :: bs).head? = catchLoop global.heap entry (k + 1) (some m) c := by
  obtain ⟨k, hk⟩ := Nat.exists_eq_add_of_le h.length_le
  rw [length_append, length_cons] at hk
  rw [show global.live.length = as.length + (bs.length + k + 1) by omega]
  exact ⟨_, _, catchLoop_skip h.stretch (fun a ha => inRange_of_lt (hbelow a ha)) _ _⟩

theorem call_of_overlap
    (hrange : entry.blockIndex ≤ (global.heap m).blockIndex ∧ (global.heap m).blockIndex < entry.blockIndex + entry.blocks)
    (hsum : entry.blockIndex + entry.blocks < 2 ^ 64) (fuel : Nat) :
    ext2CacheAddSecurely alloc blockSize (fuel + 1) global entry =
      removeLoop blockSize entry global.live.length global (some m) >>= fun global =>
        ext2CacheAddSecurely alloc blockSize fuel global entry := by
  obtain ⟨k, c, hcatch⟩ := catchLoop_first h hbelow
  rw [catchLoop, inRange_of_le hrange.1 hsum, decide_eq_true hrange.2, ok_bind] at hcatch
  rw [ext2CacheAddSecurely, h.first, hcatch]
  rfl

theorem call_of_sum_overflow (hm : entry.blockIndex ≤ (global.heap m).blockIndex)
    (hsum : 2 ^ 64 ≤ entry.blockIndex + entry.blocks) (fuel : Nat) :
    ext2CacheAddSecurely alloc blockSize (fuel + 1) global entry = .error .overflow := by
  obtain ⟨k, c, hcatch⟩ := catchLoop_first h hbelow
  rw [catchLoop, inRange, if_pos hm, if_pos hsum] at hcatch
  rw [ext2CacheAddSecurely, h.first, hcatch]
  rfl

end

/-- No sum or product of the call overflows: the end of the range, which is not computed if all objects start before
it, the pages of the buffers that are freed, and the counter, which is `c` above the blocks of the list. -/
structure Fits (blockSize c : Nat) (entries : List Entry) (entry : Entry) : Prop where
  sum : ∀ e ∈ entries, entry.blockIndex ≤ e.blockIndex → entry.blockIndex + entry.blocks < 2 ^ 64
  freeable : ∀ e ∈ entries, entry.blockIndex ≤ e.blockIndex → e.blockIndex < entry.blockIndex + entry.blocks →
    Freeable blockSize e
  counter : total (add entries entry) + c < 2 ^ 64

theorem add_eq_of_parts {below within behind : List Entry} (hbelow : ∀ e ∈ below, e.blockIndex < entry.blockIndex)
    (hwithin : ∀ e ∈ within, entry.blockIndex ≤ e.blockIndex ∧ e.blockIndex < entry.blockIndex + entry.blocks)
    (hbehind : ∀ e ∈ behind, entry.blockIndex + entry.blocks ≤ e.blockIndex) :
    add (below ++ (within ++ behind)) entry = below ++ entry :: behind := by
  have hfilters : ∀ (l : List Entry) (p : Entry → Bool), (∀ e ∈ l, p e = false) → l.filter p = [] :=
    fun l p h => filter_eq_nil_iff.2 fun e he => by simp [h e he]
  simp only [add, filter_append]
  rw [filter_eq_self.2 (fun e he => decide_eq_true (hbelow e he)),
    filter_eq_self.2 (fun e he => decide_eq_true (hbehind e he)),
    hfilters within _ (fun e he => decide_eq_false (by have := hwithin e he; omega)),
    hfilters behind _ (fun e he => decide_eq_false (by have := hbehind e he; omega)),
    hfilters below _ (fun e he => decide_eq_false (by have := hbelow e he; omega)),
    hfilters within _ (fun e he => decide_eq_false (by have := hwithin e he; omega))]
  simp

theorem entriesOf_append : entriesOf heap (as ++ bs) = entriesOf heap as ++ entriesOf heap bs := map_append

theorem total_append (l l' : List Entry) : total (l ++ l') = total l + total l' := by
  simp [total]

theorem total_cons (e : Entry) (l : List Entry) : total (e :: l) = e.blocks + total l := by
  simp [total]

structure Parts (heap : Nat → CacheObject) (entry : Entry) (as mid bs : List Nat) : Prop where
  below : ∀ a ∈ as, (heap a).blockIndex < entry.blockIndex
  within : ∀ a ∈ mid, entry.blockIndex ≤ (heap a).blockIndex ∧ (heap a).blockIndex < entry.blockIndex + entry.blocks
  behind : ∀ a ∈ bs, entry.blockIndex + entry.blocks ≤ (heap a).blockIndex

section
variable (hparts : Parts heap entry as mid bs)
include hparts

theorem Parts.add_entriesOf :
    add (entriesOf heap (as ++ (mid ++ bs))) entry = entriesOf heap as ++ entry :: entriesOf heap bs := by
  rw [entriesOf_append, entriesOf_append]
  exact add_eq_of_parts (forall_mem_map.2 hparts.below) (forall_mem_map.2 hparts.within)
    (forall_mem_map.2 hparts.behind)

theorem Parts.le_blockIndex : ∀ a ∈ mid ++ bs, entry.blockIndex ≤ (heap a).blockIndex := by
  refine forall_mem_append.2 ⟨fun a ha => (hparts.within a ha).1, fun a ha => ?_⟩
  have := hparts.behind a ha
  omega

/-- `Fits` for the three parts: only the objects from the range on are compared with its end, and only those in the
range are freed. -/
theorem Parts.fits_iff {c : Nat} : Fits blockSize c (entriesOf heap (as ++ (mid ++ bs))) entry ↔
      (mid ++ bs ≠ [] → entry.blockIndex + entry.blocks < 2 ^ 64) ∧ (∀ a ∈ mid, Freeable blockSize (heap a).toEntry) ∧
      total (add (entriesOf heap (as ++ (mid ++ bs))) entry) + c < 2 ^ 64 := by
  have hmem : ∀ a ∈ mid ++ bs, (heap a).toEntry ∈ entriesOf heap (as ++ (mid ++ bs)) := fun a ha =>
    mem_map_of_mem (mem_append_right as ha)
  constructor
  · intro hfits
    refine ⟨fun hne => ?_, fun a ha => ?_, hfits.counter⟩
    · obtain ⟨m, hm⟩ := exists_mem_of_ne_nil _ hne
      exact hfits.sum _ (hmem m hm) (hparts.le_blockIndex m hm)
    · obtain ⟨hle, hlt⟩ := hparts.within a ha
      exact hfits.freeable _ (hmem a (mem_append_left bs ha)) hle hlt
  · rintro ⟨hsum, hfree, hcounter⟩
    refine ⟨forall_mem_map.2 (forall_mem_append.2 ⟨?_, ?_⟩),
      forall_mem_map.2 (forall_mem_append.2 ⟨?_, forall_mem_append.2 ⟨?_, ?_⟩⟩), hcounter⟩
    · exact fun a ha hle => absurd (hparts.below a ha) (Nat.not_lt.2 hle)
    · exact fun a ha _ => hsum (ne_nil_of_mem ha)
    · exact fun a ha hle _ => absurd (hparts.below a ha) (Nat.not_lt.2 hle)
    · exact fun a ha _ _ => hfree a ha
    · exact fun a ha _ hlt => absurd hlt (Nat.not_lt.2 (hparts.behind a ha))

end

structure Counted (c : Nat) (global : FoundObject) (nodes : List Nat) : Prop where
  shape : Shape global nodes
  counter : global.blocksCached = total (entriesOf global.heap nodes) + c

def Outcome (c : Nat) (entries : List Entry) (result : Except Fault FoundObject) : Prop :=
  if total entries + c < 2 ^ 64 then
    ∃ global nodes, result = .ok global ∧ Counted c global nodes ∧ entriesOf global.heap nodes = entries
  else result = .error .overflow

variable {c : Nat}

theorem outcome_of_no_overlap (h : Counted c global (as ++ bs)) (hblocks : 1 ≤ entry.blocks)
    (hbelow : ∀ a ∈ as, (global.heap a).blockIndex < entry.blockIndex)
    (hbehind : ∀ a ∈ bs, entry.blockIndex + entry.blocks ≤ (global.heap a).blockIndex)
    (hsum : bs ≠ [] → entry.blockIndex + entry.blocks < 2 ^ 64) (fuel : Nat) :
    Outcome c (entriesOf global.heap as ++ entry :: entriesOf global.heap bs)
      (ext2CacheAddSecurely alloc blockSize (fuel + 1) global entry) := by
  have hafter : ∀ a ∈ bs, entry.blockIndex < (global.heap a).blockIndex := fun a ha => by
    have := hbehind a ha
    omega
  have hcounter := h.counter
  rw [entriesOf_append, total_append] at hcounter
  rw [call_of_no_overlap alloc h.shape hbelow hbehind hsum, Outcome, total_append, total_cons]
  split
  · obtain ⟨global', nodes, hok, hshape, hentries, hcount⟩ := addNew_eq alloc h.shape hbelow hafter (by omega)
    refine ⟨global', nodes, hok, ⟨hshape, ?_⟩, hentries⟩
    rw [hcount, hentries, total_append, total_cons]
    omega
  · rw [addNew, h.shape.first, browseLoop_stop h.shape.stretch hbelow hafter h.shape.length_le, ok_bind]
    exact if_pos (by omega)

section
variable (h : Counted c global (as ++ (mid ++ bs)))
include h

theorem call_of_removed (hmid : mid ≠ []) (hparts : Parts global.heap entry as mid bs)
    (hsum : entry.blockIndex + entry.blocks < 2 ^ 64)
    (hfree : ∀ a ∈ mid, Freeable blockSize (global.heap a).toEntry) (fuel : Nat) :
    ∃ global', ext2CacheAddSecurely alloc blockSize (fuel + 1) global entry =
        ext2CacheAddSecurely alloc blockSize fuel global' entry ∧
      Counted c global' (as ++ bs) ∧ ∀ x, (global'.heap x).toEntry = (global.heap x).toEntry := by
  obtain ⟨m, mid', rfl⟩ := exists_cons_of_ne_nil hmid
  have hcounter := h.counter
  rw [entriesOf_append, entriesOf_append, total_append, total_append] at hcounter
  have hlength := h.shape.length_le
  rw [length_append, length_append] at hlength
  obtain ⟨k, hk⟩ : ∃ k, global.live.length = (m :: mid').length + (bs.length + k) :=
    ⟨global.live.length - ((m :: mid').length + bs.length), by omega⟩
  obtain ⟨global', hloop, hshape, hentry, hcount⟩ :=
    removeLoop_skip h.shape hsum hparts.within hfree (by omega) (bs.length + k)
  have hentries : ∀ nodes, entriesOf global'.heap nodes = entriesOf global.heap nodes := fun nodes =>
    entriesOf_congr fun x _ => hentry x
  refine ⟨global', ?_, ⟨hshape, ?_⟩, hentry⟩
  · have hstop : removeLoop blockSize entry (bs.length + k) global' bs.head? = .ok global' :=
      removeLoop_stop hsum (fun a ha => by rw [hentry]; exact hparts.behind a ha) (Nat.le_add_right _ _)
    rw [hstop] at hloop
    rw [call_of_overlap alloc h.shape hparts.below (hparts.within m mem_cons_self) hsum, hk]
    exact congrArg (· >>= _) hloop
  · rw [hentries, entriesOf_append, total_append]
    omega

theorem call_of_not_freeable (hparts : Parts global.heap entry as mid bs)
    (hsum : entry.blockIndex + entry.blocks < 2 ^ 64)
    (hfree : ¬ ∀ a ∈ mid, Freeable blockSize (global.heap a).toEntry) (fuel : Nat) :
    ext2CacheAddSecurely alloc blockSize (fuel + 1) global entry = .error .overflow := by
  -- the first of them, behind those that are freed
  obtain ⟨mid₁, x, mid₂, rfl, hfreeable, hx⟩ := exists_first_not hfree
  rw [append_assoc] at h
  obtain ⟨hwithin₁, hwithin₂⟩ := forall_mem_append.1 hparts.within
  have hshape := h.shape
  have hcounter := h.counter
  rw [entriesOf_append, entriesOf_append, total_append, total_append] at hcounter
  have hlength := hshape.length_le
  rw [length_append, length_append, cons_append, length_cons] at hlength
  obtain ⟨k, hk⟩ : ∃ k, global.live.length = mid₁.length + (k + 1) :=
    ⟨global.live.length - (mid₁.length + 1), by omega⟩
  obtain ⟨global', hloop, -, hentry, -⟩ := removeLoop_skip hshape hsum hwithin₁ hfreeable (by omega) (k + 1)
  have hover : removeLoop blockSize entry (k + 1) global' (some x) = .error .overflow :=
    removeLoop_overflow hsum (by rw [hentry]; exact hwithin₂ x mem_cons_self) (by rwa [hentry]) k
  rw [cons_append, head?_cons, hover] at hloop
  obtain ⟨m, rest, hm, hmrange⟩ : ∃ m rest, mid₁ ++ x :: (mid₂ ++ bs) = m :: rest ∧
      (entry.blockIndex ≤ (global.heap m).blockIndex ∧
        (global.heap m).blockIndex < entry.blockIndex + entry.blocks) := by
    cases mid₁ with
    | nil => exact ⟨x, mid₂ ++ bs, rfl, hwithin₂ x mem_cons_self⟩
    | cons m mid₁ => exact ⟨m, mid₁ ++ x :: (mid₂ ++ bs), rfl, hwithin₁ m mem_cons_self⟩
  rw [cons_append, hm] at hshape
  rw [hm, head?_cons] at hloop
  rw [call_of_overlap alloc hshape hparts.below hmrange hsum, hk, hloop]
  rfl

theorem outcome_of_parts (hblocks : 1 ≤ entry.blocks) (hparts : Parts global.heap entry as mid bs)
    (hsum : mid ++ bs ≠ [] → entry.blockIndex + entry.blocks < 2 ^ 64)
    (hfree : ∀ a ∈ mid, Freeable blockSize (global.heap a).toEntry) (fuel : Nat) :
    Outcome c (add (entriesOf global.heap (as ++ (mid ++ bs))) entry)
      (ext2CacheAddSecurely alloc blockSize (fuel + 2) global entry) := by
  rw [hparts.add_entriesOf]
  by_cases hmid : mid = []
  · subst hmid
    exact outcome_of_no_overlap alloc h hblocks hparts.below hparts.behind hsum (fuel + 1)
  have hsum := hsum (append_ne_nil_of_left_ne_nil hmid bs)
  obtain ⟨global', hcall, hcounted, hentry⟩ := call_of_removed alloc h hmid hparts hsum hfree (fuel + 1)
  have hentries : ∀ nodes, entriesOf global'.heap nodes = entriesOf global.heap nodes := fun nodes =>
    entriesOf_congr fun x _ => hentry x
  rw [hcall, ← hentries as, ← hentries bs]
  exact outcome_of_no_overlap alloc hcounted hblocks (fun a ha => by rw [hentry]; exact hparts.below a ha)
    (fun a ha => by rw [hentry]; exact hparts.behind a ha) (fun _ => hsum) fuel

end

theorem call_spec (blockSize : Nat) (h : Counted c global nodes) (hblocks : 1 ≤ entry.blocks) (fuel : Nat) :
    (Fits blockSize c (entriesOf global.heap nodes) entry →
      ∃ global' nodes', ext2CacheAddSecurely alloc blockSize (fuel + 2) global entry = .ok global' ∧
        Counted c global' nodes' ∧ entriesOf global'.heap nodes' = add (entriesOf global.heap nodes) entry) ∧
    (¬ Fits blockSize c (entriesOf global.heap nodes) entry →
      ext2CacheAddSecurely alloc blockSize (fuel + 2) global entry = .error .overflow) := by
  obtain ⟨as, mid, bs, rfl, hbelow, hwithin, hbehind⟩ := exists_parts h.shape.sorted entry.blockIndex entry.blocks
  have hparts : Parts global.heap entry as mid bs := ⟨hbelow, hwithin, hbehind⟩
  rw [hparts.fits_iff]
  by_cases hsum : mid ++ bs ≠ [] → entry.blockIndex + entry.blocks < 2 ^ 64
  swap
  · refine ⟨fun hfits => absurd hfits.1 hsum, fun _ => ?_⟩
    obtain ⟨hne, hsum⟩ := Classical.not_imp.1 hsum
    obtain ⟨m, rest, hm⟩ := exists_cons_of_ne_nil hne
    have hshape := h.shape
    rw [hm] at hshape
    have hle := hparts.le_blockIndex m (hm ▸ mem_cons_self)
    exact call_of_sum_overflow alloc hshape hbelow hle (by omega) (fuel + 1)
  by_cases hfree : ∀ a ∈ mid, Freeable blockSize (global.heap a).toEntry
  swap
  · refine ⟨fun hfits => absurd hfits.2.1 hfree, fun _ => ?_⟩
    have hmid : mid ≠ [] := fun hnil => hfree (by simp [hnil])
    exact call_of_not_freeable alloc h hparts (hsum (append_ne_nil_of_left_ne_nil hmid bs)) hfree (fuel + 1)
  have houtcome := outcome_of_parts alloc h hblocks hparts hsum hfree fuel
  rw [Outcome] at houtcome
  constructor
  · rintro ⟨-, -, hcounter⟩
    rwa [if_pos hcounter] at houtcome
  · intro hnot
    rwa [if_neg fun hcounter => hnot ⟨hsum, hfree, hcounter⟩] at houtcome

end Call

/-! ## Sequences of calls -/

def addAll (alloc : Allocator) (blockSize fuel : Nat) (global : FoundObject) (calls : List Entry) :
    Except Fault FoundObject :=
  calls.foldlM (ext2CacheAddSecurely alloc blockSize fuel) global

/-- At every call the numbers fit their types. -/
def AllFit (blockSize c : Nat) : List Entry → List Entry → Prop
  | _, [] => True
  | entries, entry :: calls => Fits blockSize c entries entry ∧ AllFit blockSize c (add entries entry) calls

/-- The list is doubly linked, strictly sorted by the first block of its entries, and the counter of the mount point
is `c` above the number of its blocks. -/
structure Sound (c : Nat) (global : FoundObject) : Prop where
  linked : ∃ nodes, global.firstCacheObj = nodes.head? ∧
    Stretch (fun a => (global.heap a).prev) (fun a => (global.heap a).next) none nodes none ∧
    nodes ⊆ global.live ∧ global.entries = nodes.map fun a => (global.heap a).toEntry
  sorted : global.entries.Pairwise fun e f => e.blockIndex < f.blockIndex
  counter : global.blocksCached = total global.entries + c

section Runs
variable {global global' : FoundObject} {entry : Entry} {calls : List Entry} {blockSize c : Nat} {fuel : Nat}

theorem sound_iff : Sound c global ↔ ∃ nodes, Counted c global nodes := by
  constructor
  · rintro ⟨⟨nodes, hfirst, hstretch, hlive, hentries⟩, hsorted, hcounter⟩
    rw [hentries] at hsorted hcounter
    rw [pairwise_map] at hsorted
    exact ⟨nodes, ⟨hfirst, hstretch, hlive, hsorted⟩, hcounter⟩
  · rintro ⟨nodes, hshape, hcounter⟩
    have hentries := hshape.entries_eq
    refine ⟨⟨nodes, hshape.first, hshape.stretch, hshape.live, hentries⟩, ?_, by rw [hentries, hcounter]⟩
    rw [hentries]
    exact pairwise_map.2 hshape.sorted

theorem Sound.call (h : Sound c global) (hblocks : 1 ≤ entry.blocks) (alloc : Allocator) (blockSize : Nat)
    (hfuel : 2 ≤ fuel) : (Fits blockSize c global.entries entry →
      ∃ global', ext2CacheAddSecurely alloc blockSize fuel global entry = .ok global' ∧ Sound c global' ∧
        global'.entries = add global.entries entry) ∧ (¬ Fits blockSize c global.entries entry →
      ext2CacheAddSecurely alloc blockSize fuel global entry = .error .overflow) := by
  obtain ⟨nodes, hcounted⟩ := sound_iff.1 h
  obtain ⟨fuel, rfl⟩ := Nat.exists_eq_add_of_le' hfuel
  obtain ⟨hfits, hnot⟩ := call_spec alloc blockSize hcounted hblocks fuel
  rw [← hcounted.shape.entries_eq] at hfits hnot
  refine ⟨fun h => ?_, hnot⟩
  obtain ⟨global', nodes', hok, hcounted', hentries⟩ := hfits h
  exact ⟨global', hok, sound_iff.2 ⟨nodes', hcounted'⟩, hcounted'.shape.entries_eq.trans hentries⟩

theorem addAll_cons {alloc : Allocator} (h : ext2CacheAddSecurely alloc blockSize fuel global entry = .ok global') :
    addAll alloc blockSize fuel global (entry :: calls) = addAll alloc blockSize fuel global' calls := by
  rw [addAll, foldlM_cons, h]
  rfl

section
variable (h : Sound c global) (hblocks : ∀ e ∈ calls, 1 ≤ e.blocks) (alloc : Allocator) (hfuel : 2 ≤ fuel)
include h hblocks hfuel

theorem Sound.addAll_of_allFit (hfit : AllFit blockSize c global.entries calls) :
    ∃ global', addAll alloc blockSize fuel global calls = .ok global' ∧ Sound c global' ∧
      global'.entries = calls.foldl add global.entries := by
  induction calls generalizing global with
  | nil => exact ⟨global, rfl, h, rfl⟩
  | cons entry calls ih =>
    obtain ⟨hentry, hcalls⟩ := forall_mem_cons.1 hblocks
    obtain ⟨hfits, hrest⟩ := hfit
    obtain ⟨global₁, hcall, hsound, hentries⟩ := (h.call hentry alloc blockSize hfuel).1 hfits
    rw [← hentries] at hrest
    rw [addAll_cons hcall, foldl_cons, ← hentries]
    exact ih hsound hcalls hrest

theorem Sound.addAll_of_not_allFit (hnot : ¬ AllFit blockSize c global.entries calls) :
    addAll alloc blockSize fuel global calls = .error .overflow := by
  induction calls generalizing global with
  | nil => exact absurd trivial hnot
  | cons entry calls ih =>
    obtain ⟨hentry, hcalls⟩ := forall_mem_cons.1 hblocks
    obtain ⟨hok, hover⟩ := h.call hentry alloc blockSize hfuel
    by_cases hfits : Fits blockSize c global.entries entry
    · obtain ⟨global₁, hcall, hsound, hentries⟩ := hok hfits
      rw [AllFit, and_iff_right hfits, ← hentries] at hnot
      rw [addAll_cons hcall]
      exact ih hsound hcalls hnot
    · rw [addAll, foldlM_cons, hover hfits]
      rfl

end

/-- **Sequences of calls.** Whatever ranges are added, every call returns and the list stays sound, with the
entries that start in the range of a new one replaced by it; unless a number leaves its type, which is the only way
in which a call can fail. -/
theorem addAll_iff (alloc : Allocator) (blockSize c : Nat) {fuel : Nat} (hfuel : 2 ≤ fuel) {global : FoundObject}
    (hsound : Sound c global) {calls : List Entry} (hblocks : ∀ e ∈ calls, 1 ≤ e.blocks) :
    (AllFit blockSize c global.entries calls →
      ∃ global', addAll alloc blockSize fuel global calls = .ok global' ∧ Sound c global' ∧
        global'.entries = calls.foldl add global.entries) ∧
    (¬ AllFit blockSize c global.entries calls → addAll alloc blockSize fuel global calls = .error .overflow) :=
  ⟨hsound.addAll_of_allFit hblocks alloc hfuel, hsound.addAll_of_not_allFit hblocks alloc hfuel⟩

end Runs

def bumpAllocator : Allocator where
  calloc live := live.foldr max 0 + 1
  fresh live hmem := by
    have hle : ∀ l : List Nat, ∀ a ∈ l, a ≤ l.foldr max 0 := by
      intro l
      induction l with
      | nil => simp
      | cons b l ih =>
        simp only [List.forall_mem_cons, List.foldr_cons]
        exact ⟨Nat.le_max_left .., fun a ha => Nat.le_trans (ih a ha) (Nat.le_max_right ..)⟩
    exact absurd (hle live _ hmem) (by omega)

def uncached (c : Nat) : FoundObject := ⟨fun _ => ⟨⟨0, 0, 0⟩, none, none⟩, [], none, c⟩

theorem uncached_sound (c : Nat) : Sound c (uncached c) :=
  ⟨⟨[], rfl, trivial, nil_subset _, rfl⟩, List.Pairwise.nil, (Nat.zero_add c).symm⟩

/-- Blocks 4 and 5 are cached, and then block 4 alone. -/
theorem addAll_iff_uncached :
    ∃ global', addAll bumpAllocator 1024 2 (uncached 7) [⟨4, 2, 0x1000⟩, ⟨4, 1, 0x2000⟩] = .ok global' ∧
      Sound 7 global' ∧ global'.entries = [⟨4, 1, 0x2000⟩] := by
  have hfit : AllFit 1024 7 (uncached 7).entries [⟨4, 2, 0x1000⟩, ⟨4, 1, 0x2000⟩] :=
    ⟨⟨by decide, by decide, by decide⟩, ⟨by decide, by decide, by decide⟩, trivial⟩
  exact (addAll_iff bumpAllocator 1024 7 (by decide) (uncached_sound 7) (by decide)).1 hfit

/-- The last block of a file of `2 ^ 64` blocks is cached twice. The end of its range does not fit in a `usize`. -/
theorem addAll_overflows :
    (addAll bumpAllocator 1024 2 (uncached 0) [⟨2 ^ 64 - 1, 1, 0x1000⟩, ⟨2 ^ 64 - 1, 1, 0x2000⟩]).map
      FoundObject.entries = .error .overflow := by
  decide +kernel

end CoreX.Ext2.Cache

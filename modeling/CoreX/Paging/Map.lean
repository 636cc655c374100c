import CoreX.Paging.Bits

/-!
# Mapping a page

`VirtualMapL` walks down the four levels and links a cleared table wherever one is missing. Through `entryOf`, the
page-table entry of each path, linking changes nothing, and the final write changes one entry only.
-/

namespace CoreX.Paging

open Function Option BitVec

variable {hhdmOffset pagedir virt t t' f : Word} {p : List (Fin 512)} {s s' : State} {i : Fin 512} {rest : List Word}

theorem nextTable_cases {slot : Word} (h : nextTable hhdmOffset s slot = some (t', s')) :
    (nextOf hhdmOffset (s.mem slot) = some t' ∧ s' = s) ∨
    ∃ f rest, s.frames = f :: rest ∧ nextOf hhdmOffset (s.mem slot) = none ∧
      t' = pteGetAddr (f ||| pfPresent ||| pfRw ||| pfUser) + hhdmOffset ∧
      s' = ⟨update (zeroPage s.mem (f + hhdmOffset)) slot (f ||| pfPresent ||| pfRw ||| pfUser), rest⟩ := by
  rw [nextTable] at h
  by_cases hpresent : s.mem slot &&& pfPresent = 0#64
  · right
    rw [if_pos hpresent] at h
    cases hframes : s.frames with
    | nil =>
      rw [pagingPhysAllocate, hframes] at h
      exact absurd h (by simp)
    | cons f rest =>
      rw [pagingPhysAllocate, hframes] at h
      simp only [some.injEq, Prod.mk.injEq, update_self] at h
      exact ⟨f, rest, rfl, by rw [nextOf, if_pos hpresent], h.1.symm, h.2.symm⟩
  · left
    rw [if_neg hpresent] at h
    simp only [some.injEq, Prod.mk.injEq] at h
    exact ⟨by rw [nextOf, if_neg hpresent, h.1], h.2.symm⟩

theorem nextTable_isSome (hhdmOffset : Word) (slot : Word) (h : 1 ≤ s.frames.length) :
    ∃ t' s', nextTable hhdmOffset s slot = some (t', s') ∧ s.frames.length ≤ s'.frames.length + 1 := by
  rw [nextTable]
  by_cases hpresent : s.mem slot &&& pfPresent = 0#64
  · rw [if_pos hpresent]
    cases hframes : s.frames with
    | nil => exact absurd h (by simp [hframes])
    | cons f rest =>
      rw [pagingPhysAllocate, hframes]
      exact ⟨_, _, rfl, by simp⟩
  · rw [if_neg hpresent]
    exact ⟨_, _, rfl, by omega⟩

theorem linked_frame (hfresh : FreshFrames hhdmOffset s pagedir) (hframes : s.frames = f :: rest)
    (hp : p.length ≤ 2) (ht : Radix.table entryPtr (nextOf hhdmOffset) s.mem pagedir p = some t)
    (hnone : nextOf hhdmOffset (s.mem (entryPtr t i)) = none) :
    Radix.Linked entryPtr (nextOf hhdmOffset) 0#64 3 (InPage (f + hhdmOffset)) s.mem pagedir p i
      (f + hhdmOffset) (update (zeroPage s.mem (f + hhdmOffset)) (entryPtr t i)
        (f ||| pfPresent ||| pfRw ||| pfUser)) := by
  have hmem : f ∈ s.frames := by rw [hframes]; exact List.mem_cons_self ..
  obtain ⟨hmod, -, hlt⟩ := hfresh.frame f hmem
  have hslot := hfresh.unreachable f hmem p t i (by omega) ht
  have hempty : nextOf hhdmOffset 0#64 = none := if_pos (by decide)
  refine ⟨by omega, ⟨t, ht, hnone, ?_, ?_⟩, hempty, ?_, entryPtr_injective _, ?_⟩
  · rw [update_self]
    exact nextOf_frame hhdmOffset hmod hlt
  · intro a hne hout
    rw [update_of_ne hne, zeroPage, if_neg hout]
  · intro k
    have hin := entryPtr_inPage (f + hhdmOffset) k
    have hne : entryPtr (f + hhdmOffset) k ≠ entryPtr t i := fun heq => by
      rw [heq] at hin
      exact hslot hin
    refine ⟨hin, ?_⟩
    rw [update_of_ne hne, zeroPage, if_pos hin]
  · exact fun q u j hq hu => hfresh.unreachable f hmem q u j hq hu

theorem freshFrames_link (hfresh : FreshFrames hhdmOffset s pagedir)
    (htree : Radix.IsTree entryPtr (nextOf hhdmOffset) 3 s.mem pagedir) (hframes : s.frames = f :: rest)
    {mem' : Word → Word}
    (hlink : Radix.Linked entryPtr (nextOf hhdmOffset) 0#64 3 (InPage (f + hhdmOffset)) s.mem pagedir p i
      (f + hhdmOffset) mem') : FreshFrames hhdmOffset ⟨mem', rest⟩ pagedir := by
  have hnodup := hfresh.nodup
  rw [hframes, List.nodup_cons] at hnodup
  have hrest : ∀ g ∈ rest, g ∈ s.frames := fun g hg => by
    rw [hframes]; exact List.mem_cons_of_mem _ hg
  refine ⟨fun g hg => hfresh.frame g (hrest g hg), hnodup.2, fun g hg q u j hq hu => ?_⟩
  rw [hlink.table_eq htree hq] at hu
  by_cases hqi : q = i :: p
  · rw [if_pos hqi] at hu
    obtain rfl := some.inj hu
    obtain ⟨hmod, -, hlt⟩ := hfresh.frame f (by rw [hframes]; exact List.mem_cons_self ..)
    obtain ⟨hgmod, -, hglt⟩ := hfresh.frame g (hrest g hg)
    have hne : g ≠ f := fun heq => hnodup.1 (heq ▸ hg)
    exact not_inPage_entryPtr hhdmOffset hne hgmod hmod hglt hlt j
  · rw [if_neg hqi] at hu
    exact hfresh.unreachable g (hrest g hg) q u j hq hu

section
variable (htable : IsTable hhdmOffset s.mem pagedir) (hfresh : FreshFrames hhdmOffset s pagedir)
include htable hfresh

theorem nextTable_spec (hp : p.length ≤ 2) (ht : Radix.table entryPtr (nextOf hhdmOffset) s.mem pagedir p = some t)
    (h : nextTable hhdmOffset s (entryPtr t i) = some (t', s')) :
    IsTable hhdmOffset s'.mem pagedir ∧ FreshFrames hhdmOffset s' pagedir ∧
      Radix.table entryPtr (nextOf hhdmOffset) s'.mem pagedir (i :: p) = some t' ∧
      ∀ q, q.length = 4 → entryOf hhdmOffset s'.mem pagedir q = entryOf hhdmOffset s.mem pagedir q := by
  rcases nextTable_cases h with ⟨hnext, rfl⟩ | ⟨f, rest, hframes, hnone, rfl, rfl⟩
  · refine ⟨htable, hfresh, ?_, fun _ _ => rfl⟩
    rw [Radix.table, ht]
    exact hnext
  have hmem : f ∈ s.frames := by rw [hframes]; exact List.mem_cons_self ..
  obtain ⟨hmod, -, hlt⟩ := hfresh.frame f hmem
  have hlink := linked_frame hfresh hframes hp ht hnone
  have htree := htable.tree
  set e := f ||| pfPresent ||| pfRw ||| pfUser with he
  set mem' := update (zeroPage s.mem (f + hhdmOffset)) (entryPtr t i) e with hmem'
  have hnewTable : Radix.table entryPtr (nextOf hhdmOffset) mem' pagedir (i :: p) =
      some (f + hhdmOffset) := by
    rw [hlink.table_eq htree (by rw [List.length_cons]; omega), if_pos rfl]
  have hentry : entryOf hhdmOffset mem' pagedir (i :: p) = e := by
    rw [entryOf, Radix.entry, hlink.table_eq htree (by omega), if_neg (by simp), ht,
      map_some, getD_some, hmem', update_self]
  refine ⟨⟨htable.ne_null, hlink.isTree htree, fun q hq hpresent => ?_⟩, ?_, ?_, fun q hq => ?_⟩
  · by_cases hqi : q = i :: p
    · rw [hqi, hentry, he]
      exact frame_and_pfPs hmod
    · have hsame : entryOf hhdmOffset mem' pagedir q = entryOf hhdmOffset s.mem pagedir q :=
        hlink.entry_eq htree (by omega) hqi
      rw [hsame] at hpresent ⊢
      exact htable.no_large q hq hpresent
  · exact freshFrames_link hfresh htree hframes hlink
  · rw [he, pteGetAddr_frame hmod hlt]
    exact hnewTable
  · exact hlink.entry_eq htree (by omega) (fun heq => by
      rw [heq, List.length_cons] at hq
      omega)

theorem virtualMapL_spec {phys flags : Word} (h : virtualMapL hhdmOffset s pagedir virt phys flags = some s') :
    IsTable hhdmOffset s'.mem pagedir ∧ FreshFrames hhdmOffset s' pagedir ∧
      ∀ q, q.length = 4 → entryOf hhdmOffset s'.mem pagedir q =
        if q = path (amd64MmStripsx virt) then leafEntry phys flags else entryOf hhdmOffset s.mem pagedir q := by
  rw [virtualMapL] at h
  split_ifs at h with halign
  set v := amd64MmStripsx virt with hv
  obtain ⟨⟨pdp, s1⟩, h1, h⟩ := bind_eq_some_iff.1 h
  obtain ⟨⟨pd, s2⟩, h2, h⟩ := bind_eq_some_iff.1 h
  obtain ⟨⟨pt, s3⟩, h3, h⟩ := bind_eq_some_iff.1 h
  obtain rfl := some.inj h
  obtain ⟨htable1, hfresh1, hpdp, hentry1⟩ := nextTable_spec htable hfresh (p := []) (by simp) rfl h1
  obtain ⟨htable2, hfresh2, hpd, hentry2⟩ := nextTable_spec htable1 hfresh1 (by simp) hpdp h2
  obtain ⟨htable3, hfresh3, hpt, hentry3⟩ := nextTable_spec htable2 hfresh2 (by simp) hpd h3
  -- the page table is the last level, so its entries lead to no table
  have hlen : [pde v, pdpte v, pml4e v].length = 3 := rfl
  have hupdate : ∀ q : List (Fin 512), q.length ≤ 4 →
      entryOf hhdmOffset (update s3.mem (entryPtr pt (pte v)) (leafEntry phys flags)) pagedir q =
        if q = path v then leafEntry phys flags else entryOf hhdmOffset s3.mem pagedir q :=
    fun q hq => Radix.entry_update htable3.tree hpt hlen _ hq
  refine ⟨⟨htable3.ne_null, Radix.isTree_update htable3.tree hpt hlen _, fun q hq => ?_⟩,
    ⟨hfresh3.frame, hfresh3.nodup, fun f hf q u j hq hu => ?_⟩, fun q hq => ?_⟩
  · have hne : q ≠ path v := fun heq => by
      rw [heq] at hq
      simp [path] at hq
    rw [hupdate q (by omega), if_neg hne]
    exact htable3.no_large q hq
  · rw [Radix.table_update htable3.tree hpt hlen _ hq] at hu
    exact hfresh3.unreachable f hf q u j hq hu
  · rw [hupdate q (by omega), hentry3 q hq, hentry2 q hq, hentry1 q hq]

end

theorem virtualMapL_isSome (halign : virt.toNat % 4096 = 0) (hframes : 3 ≤ s.frames.length) (phys flags : Word) :
    ∃ s', virtualMapL hhdmOffset s pagedir virt phys flags = some s' := by
  have hmask : virt &&& pageMask4k = 0#64 := by
    apply eq_of_toNat_eq
    rw [pageMask_toNat, halign]
    rfl
  set v := amd64MmStripsx virt with hv
  obtain ⟨pdp, s1, h1, hlen1⟩ := nextTable_isSome hhdmOffset (entryPtr pagedir (pml4e v))
    (show 1 ≤ s.frames.length by omega)
  obtain ⟨pd, s2, h2, hlen2⟩ := nextTable_isSome hhdmOffset (entryPtr pdp (pdpte v))
    (show 1 ≤ s1.frames.length by omega)
  obtain ⟨pt, s3, h3, -⟩ := nextTable_isSome hhdmOffset (entryPtr pd (pde v))
    (show 1 ≤ s2.frames.length by omega)
  refine ⟨⟨update s3.mem (entryPtr pt (pte v)) (leafEntry phys flags), s3.frames⟩, ?_⟩
  rw [virtualMapL, if_neg (not_not.2 hmask), ← hv]
  simp only [h1, h2, h3, bind_some]

theorem virtualToPhysicalL_eq (mem : Word → Word) (hne : pagedir ≠ 0#64) (virt : Word) :
    virtualToPhysicalL hhdmOffset mem pagedir virt =
      let e := entryOf hhdmOffset mem pagedir (path (amd64MmStripsx (virt &&& ~~~pageMask4k)))
      if e &&& pfPresent = 0#64 then 0#64 else pteGetAddr e ||| (virt &&& pageMask4k) := by
  rw [virtualToPhysicalL, if_neg hne]
  set v := amd64MmStripsx (virt &&& ~~~pageMask4k) with hv
  simp only [entryOf, path, Radix.entry, Radix.table, bind_some]
  by_cases h1 : mem (entryPtr pagedir (pml4e v)) &&& pfPresent = 0#64
  · simp [nextOf, h1]
  rw [if_neg h1]
  simp only [nextOf, if_neg h1, bind_some]
  by_cases h2 : mem (entryPtr (pteGetAddr (mem (entryPtr pagedir (pml4e v))) + hhdmOffset) (pdpte v)) &&&
      pfPresent = 0#64
  · simp [h2]
  rw [if_neg h2]
  simp only [if_neg h2, bind_some]
  by_cases h3 : mem (entryPtr (pteGetAddr (mem (entryPtr (pteGetAddr (mem (entryPtr pagedir (pml4e v))) +
      hhdmOffset) (pdpte v))) + hhdmOffset) (pde v)) &&& pfPresent = 0#64
  · simp [h3]
  rw [if_neg h3]
  simp only [if_neg h3, map_some, getD_some]

/-! ## Runs -/

structure MapCall where
  virt : Word
  phys : Word
  flags : Word

def mapStep (hhdmOffset pagedir : Word) (s : State) (call : MapCall) : Option State :=
  virtualMapL hhdmOffset s pagedir call.virt call.phys call.flags

theorem mapRun_table (htable : IsTable hhdmOffset s.mem pagedir) (hfresh : FreshFrames hhdmOffset s pagedir)
    {calls : List MapCall} (hrun : Run.run (mapStep hhdmOffset pagedir) s calls = some s') :
    IsTable hhdmOffset s'.mem pagedir ∧ FreshFrames hhdmOffset s' pagedir := by
  have hstep : ∀ s call s', IsTable hhdmOffset s.mem pagedir ∧ FreshFrames hhdmOffset s pagedir →
      mapStep hhdmOffset pagedir s call = some s' →
      IsTable hhdmOffset s'.mem pagedir ∧ FreshFrames hhdmOffset s' pagedir := by
    intro s call s' hinv hcall
    obtain ⟨htable', hfresh', -⟩ := virtualMapL_spec hinv.1 hinv.2 hcall
    exact ⟨htable', hfresh'⟩
  exact Run.run_invariant hstep ⟨htable, hfresh⟩ hrun

theorem virtualToPhysicalL_mapped {mem : Word → Word} (hne : pagedir ≠ 0#64) {phys flags o : Word}
    (hvirt : virt.toNat % 4096 = 0) (hphys : phys.toNat % 4096 = 0) (hlt : phys.toNat < 2 ^ 52)
    (hflags : pteGetAddr flags = 0#64) (ho : o.toNat < 4096)
    (hentry : entryOf hhdmOffset mem pagedir (path (amd64MmStripsx virt)) = leafEntry phys flags) :
    virtualToPhysicalL hhdmOffset mem pagedir (virt + o) = if phys = 0#64 then 0#64 else phys + o := by
  have hsum : (virt + o).toNat = virt.toNat + o.toNat := by
    rw [toNat_add]
    omega
  have hpath : path (amd64MmStripsx ((virt + o) &&& ~~~pageMask4k)) = path (amd64MmStripsx virt) := by
    rw [path_page_eq_iff, ← toNat_inj, page_toNat, page_toNat, hsum]
    omega
  have hoffset : (virt + o) &&& pageMask4k = o := by
    apply eq_of_toNat_eq
    rw [pageMask_toNat, hsum]
    omega
  rw [virtualToPhysicalL_eq mem hne, hpath, hentry, hoffset]
  by_cases hzero : phys = 0#64
  · rw [if_pos hzero, leafEntry, if_pos hzero]
    exact if_pos (by decide)
  · obtain ⟨hpresent, haddr⟩ := leafEntry_translate hphys hlt hflags hzero
    simp only [if_neg hpresent, haddr, if_neg hzero]
    exact or_offset hphys ho

/-- **Mapping a page.** After any `VirtualMapL` calls a table that is a tree without large pages still is one. A
further call returns when three frames are left, maps every address of its page, and leaves the translation of every
other page as it was. -/
theorem virtualMapL_runs {s s' : State} (htable : IsTable hhdmOffset s.mem pagedir)
    (hfresh : FreshFrames hhdmOffset s pagedir) {calls : List MapCall}
    (hrun : Run.run (mapStep hhdmOffset pagedir) s calls = some s') : IsTable hhdmOffset s'.mem pagedir ∧
    ∀ virt phys flags : Word, virt.toNat % 4096 = 0 → phys.toNat % 4096 = 0 → phys.toNat < 2 ^ 52 →
      pteGetAddr flags = 0#64 →
      (3 ≤ s'.frames.length → (virtualMapL hhdmOffset s' pagedir virt phys flags).isSome = true) ∧
      ∀ s'', virtualMapL hhdmOffset s' pagedir virt phys flags = some s'' → IsTable hhdmOffset s''.mem pagedir ∧
        (∀ o : Word, o.toNat < 4096 → virtualToPhysicalL hhdmOffset s''.mem pagedir (virt + o) =
          if phys = 0#64 then 0#64 else phys + o) ∧ ∀ w : Word, w.extractLsb' 12 36 ≠ virt.extractLsb' 12 36 →
          virtualToPhysicalL hhdmOffset s''.mem pagedir w = virtualToPhysicalL hhdmOffset s'.mem pagedir w := by
  obtain ⟨htable', hfresh'⟩ := mapRun_table htable hfresh hrun
  refine ⟨htable', fun virt phys flags hvirt hphys hlt hflags => ⟨fun hframes => ?_, fun s'' hmap => ?_⟩⟩
  · exact isSome_iff_exists.2 (virtualMapL_isSome hvirt hframes phys flags)
  obtain ⟨htable'', -, hentry⟩ := virtualMapL_spec htable' hfresh' hmap
  refine ⟨htable'', fun o ho => ?_, fun w hw => ?_⟩
  · have hleaf := hentry (path (amd64MmStripsx virt)) rfl
    rw [if_pos rfl] at hleaf
    exact virtualToPhysicalL_mapped htable''.ne_null hvirt hphys hlt hflags ho hleaf
  · have hother := hentry (path (amd64MmStripsx (w &&& ~~~pageMask4k))) rfl
    rw [if_neg (fun heq => hw ((path_page_eq_iff w virt).1 heq))] at hother
    rw [virtualToPhysicalL_eq _ htable''.ne_null, virtualToPhysicalL_eq _ htable'.ne_null, hother]

/-! ## A cleared directory -/

theorem table_cleared (ht : Radix.table entryPtr (nextOf hhdmOffset) (fun _ => 0#64) pagedir p = some t) :
    p = [] ∧ t = pagedir := by
  cases p with
  | nil => exact ⟨rfl, (some.inj ht).symm⟩
  | cons i p =>
    obtain ⟨u, -, hu⟩ := bind_eq_some_iff.1 ht
    exact absurd hu (by simp [nextOf])

theorem isTable_cleared (hne : pagedir ≠ 0#64) : IsTable hhdmOffset (fun _ => 0#64) pagedir := by
  refine ⟨hne, fun p q t u i j _ _ ht hu hslot => ?_, fun p _ hpresent => absurd ?_ hpresent⟩
  · obtain ⟨rfl, rfl⟩ := table_cleared ht
    obtain ⟨rfl, rfl⟩ := table_cleared hu
    exact ⟨rfl, entryPtr_injective _ i j hslot⟩
  cases p with
  | nil => exact zero_and
  | cons i p =>
    rw [entryOf, Radix.entry]
    cases Radix.table entryPtr (nextOf hhdmOffset) (fun _ => 0#64) pagedir p with
    | none | some => exact zero_and

def clearedDirectory : State := ⟨fun _ => 0#64, [0x2000#64, 0x3000#64, 0x4000#64, 0x5000#64, 0x6000#64, 0x7000#64]⟩

theorem freshFrames_clearedDirectory : FreshFrames 0xFFFF800000000000#64 clearedDirectory 0xFFFF800000001000#64 := by
  have hframe : ∀ f ∈ clearedDirectory.frames,
      (f.toNat % 4096 = 0 ∧ f ≠ 0#64 ∧ f.toNat < 2 ^ 52) ∧ f ≠ 0x1000#64 := by
    simp [clearedDirectory]
  refine ⟨fun f hf => (hframe f hf).1, by decide, fun f hf p t i _ ht => ?_⟩
  obtain ⟨⟨hmod, -, hlt⟩, hne⟩ := hframe f hf
  obtain ⟨-, rfl⟩ := table_cleared ht
  exact not_inPage_entryPtr _ hne hmod (by decide) hlt (by decide) i

theorem virtualMapL_runs_clearedDirectory :
    ∃ s s', Run.run (mapStep 0xFFFF800000000000#64 0xFFFF800000001000#64) clearedDirectory
        [⟨0x400000#64, 0x8000#64, 3#64⟩] = some s ∧
      virtualMapL 0xFFFF800000000000#64 s 0xFFFF800000001000#64 0x401000#64 0x9000#64 3#64 = some s' ∧
      virtualToPhysicalL 0xFFFF800000000000#64 s'.mem 0xFFFF800000001000#64 0x401004#64 = 0x9004#64 ∧
      virtualToPhysicalL 0xFFFF800000000000#64 s'.mem 0xFFFF800000001000#64 0x400000#64 =
        virtualToPhysicalL 0xFFFF800000000000#64 s.mem 0xFFFF800000001000#64 0x400000#64 := by
  have hsome : ((Run.run (mapStep 0xFFFF800000000000#64 0xFFFF800000001000#64) clearedDirectory
      [⟨0x400000#64, 0x8000#64, 3#64⟩]).bind fun s =>
        virtualMapL 0xFFFF800000000000#64 s 0xFFFF800000001000#64 0x401000#64 0x9000#64 3#64).isSome =
      true := by
    decide +kernel
  obtain ⟨s', hboth⟩ := isSome_iff_exists.1 hsome
  obtain ⟨s, hrun, hmap⟩ := bind_eq_some_iff.1 hboth
  have htable : IsTable 0xFFFF800000000000#64 clearedDirectory.mem 0xFFFF800000001000#64 :=
    isTable_cleared (by decide)
  obtain ⟨-, hcall⟩ := virtualMapL_runs htable freshFrames_clearedDirectory hrun
  obtain ⟨-, hspec⟩ := hcall 0x401000#64 0x9000#64 3#64 (by decide) (by decide) (by decide) (by decide)
  obtain ⟨-, hmapped, hother⟩ := hspec s' hmap
  exact ⟨s, s', hrun, hmap, hmapped 4#64 (by decide), hother 0x400000#64 (by decide)⟩

end CoreX.Paging

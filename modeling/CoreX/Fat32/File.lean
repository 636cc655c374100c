import CoreX.Base.Run
import CoreX.Fat32.Read

/-!
# What reading a file gives

The file is the bytes of its clusters, in the order of the table, up to its size (`byteAt`). One call of `fat32Read`
returns the bytes from the position of the descriptor on (`fat32Read_spec`); so the calls together return the file
(`fat32Read_file`).

The loop is at the round `i` with a run of clusters that starts at `a` and is not copied yet. Everything before `a` is
copied (`Reading`).
-/

namespace CoreX.Fat32

open Links Memory Sectors List Option Nat Run

/-! ## Files -/

def Volume.lba (v : Volume) (cluster : Nat) : Nat := v.offsetClusters + (cluster - 2) * v.sectorsPerCluster

/-- The clusters of a file: a chain of the table, as long as the size needs. -/
structure File (v : Volume) (cs : List Nat) (filesize : Nat) : Prop where
  sectors_pos : 0 < v.sectorsPerCluster
  offset_pos : 0 < v.offsetClusters
  fits : v.FatFits
  cluster : ∀ c ∈ cs, 2 ≤ c ∧ c < 2 ^ 28 ∧ v.lba c + v.sectorsPerCluster ≤ 2 ^ 32
  linked : Linked v.next cs.head? cs
  length : cs.length = divRoundUp filesize v.bytesPerCluster

def byteAt (v : Volume) (cs : List Nat) (p : Nat) : UInt8 :=
  v.disk (v.lba (cs.getD (p / v.bytesPerCluster) 0) * 512 + p % v.bytesPerCluster)

variable {v : Volume} {cs chain : List Nat} {filesize limit needed start i a c n q : Nat} {s : ReadState} {cl : Nat}
  {cache : Cache} {fd : FAT32OpenFd}

theorem File.bytesPerCluster_pos (h : File v cs filesize) : 0 < v.bytesPerCluster :=
  mul_pos h.sectors_pos (by decide)

theorem File.filesize_le (h : File v cs filesize) : filesize ≤ cs.length * v.bytesPerCluster := by
  rw [h.length]
  exact le_divRoundUp_mul filesize h.bytesPerCluster_pos

theorem File.div_lt (h : File v cs filesize) {p : Nat} (hp : p < filesize) : p / v.bytesPerCluster < cs.length :=
  (div_lt_iff_lt_mul h.bytesPerCluster_pos).2 (lt_of_lt_of_le hp h.filesize_le)

theorem lba_add (c k : Nat) (hc : 2 ≤ c) : v.lba (c + k) = v.lba c + k * v.sectorsPerCluster := by
  rw [Volume.lba, Volume.lba, Nat.sub_add_comm hc, Nat.add_mul, Nat.add_assoc]

theorem File.clusterToLBA_eq (h : File v cs filesize) (hc : c ∈ cs) : fat32ClusterToLBA v c = some (v.lba c) := by
  obtain ⟨htwo, -, hlba⟩ := h.cluster c hc
  have hpos := h.sectors_pos
  rw [fat32ClusterToLBA, if_neg (by omega)]
  exact congrArg some (mod_eq_of_lt (by rw [← Volume.lba]; omega))

theorem File.traverse_eq (h : File v cs filesize) (hcoh : Coherent v cache) {k : Nat} (hc : cs[k]? = some c) :
    ∃ cache', fat32FATtraverse v cache c = some (cs[k + 1]?.getD 0, cache') ∧ Coherent v cache' := by
  rw [h.linked.getElem?_succ hc]
  exact fat32FATtraverse_eq h.fits hcoh (h.cluster c (mem_of_getElem? hc)).2.1

theorem File.readSectors_run (h : File v cs filesize) (hn : 0 < n) (hrun : ∀ k < n, cs[a + k]? = some (c + k)) :
    fat32ClusterToLBA v c = some (v.lba c) ∧
      ∀ j < n * v.bytesPerCluster, readSectors v.disk v.heap (v.lba c) (n * v.sectorsPerCluster % 2 ^ 32) j =
          byteAt v cs (a * v.bytesPerCluster + j) := by
  have hc : 2 ≤ c := (h.cluster c (mem_of_getElem? (hrun 0 hn))).1
  have hlast := h.cluster _ (mem_of_getElem? (hrun (n - 1) (by omega)))
  have hlba := lba_add (v := v) c (n - 1) hc
  have hmul : n * v.sectorsPerCluster = (n - 1) * v.sectorsPerCluster + v.sectorsPerCluster := by
    rw [← succ_mul]
    congr 1
    omega
  have hoffset : 0 < v.lba c := Nat.lt_of_lt_of_le h.offset_pos (Nat.le_add_right ..)
  refine ⟨?_, fun j hj => ?_⟩
  · exact h.clusterToLBA_eq (mem_of_getElem? (hrun 0 hn))
  have hB := h.bytesPerCluster_pos
  have hk : j / v.bytesPerCluster < n := (div_lt_iff_lt_mul hB).2 hj
  have hget : cs.getD (a + j / v.bytesPerCluster) 0 = c + j / v.bytesPerCluster := by
    rw [getD_eq_getElem?_getD, hrun _ hk, getD_some]
  rw [mod_eq_of_lt (by omega), readSectors_of_lt (by rw [mul_assoc]; exact hj), byteAt,
    add_comm (a * _), add_mul_div_right _ _ hB, add_mul_mod_self_right, add_comm _ a, hget,
    lba_add c _ hc]
  apply congrArg v.disk
  have hdiv := div_add_mod j v.bytesPerCluster
  have hmulB : j / v.bytesPerCluster * v.sectorsPerCluster * 512 = v.bytesPerCluster * (j / v.bytesPerCluster) := by
    rw [mul_assoc, mul_comm]
    rfl
  rw [add_mul, hmulB, add_assoc, hdiv]

/-! ## The loop -/

structure Call (v : Volume) (cs : List Nat) (filesize start limit needed : Nat) (chain : List Nat) : Prop where
  file : File v cs filesize
  limit_pos : 0 < limit
  start_lt : start < filesize
  le_needed : limit ≤ needed * v.bytesPerCluster
  needed_lt : (needed - 1) * v.bytesPerCluster < limit
  clusters : ∀ i ≤ needed, start / v.bytesPerCluster + i ≤ cs.length →
    chain[i]? = some (cs[start / v.bytesPerCluster + i]?.getD 0)
  past : needed + 1 < chain.length

/-- Before the round `i`, where the clusters from the `a`-th one on are not copied. -/
structure Reading (v : Volume) (cs : List Nat) (filesize start limit needed i a : Nat) (s : ReadState) : Prop where
  consecStart : a = i ∧ s.consecStart = none ∨ a < i ∧ s.consecStart = some a
  run : a < i → i + 1 ≤ needed ∧ ∃ c, ∀ k < i - a + 1, cs[start / v.bytesPerCluster + a + k]? = some (c + k)
  ptr : s.ptr = if a = 0 then start else (start / v.bytesPerCluster + a) * v.bytesPerCluster
  ptr_le : s.ptr ≤ filesize
  ptr_le_limit : s.ptr ≤ start + limit
  out : s.out = slice (byteAt v cs) start (s.ptr - start)
  curr : 0 < i → cs[start / v.bytesPerCluster + i - 1]? = some s.directoryCurr

structure Done (v : Volume) (cs : List Nat) (filesize start limit : Nat) (s : ReadState) : Prop where
  start_lt : start < s.ptr
  ptr_le : s.ptr ≤ filesize
  ptr_le_limit : s.ptr ≤ start + limit
  out : s.out = slice (byteAt v cs) start (s.ptr - start)
  mem : s.directoryCurr ∈ cs
  curr : s.ptr < filesize → cs[s.ptr / v.bytesPerCluster]? = some s.directoryCurr

/-- One round: the clusters are at their end, or the cluster is the last one of a run, or the run goes on. -/
theorem File.round (hfile : File v cs filesize)
    (hcls : ∀ i ≤ needed, q + i ≤ cs.length → chain[i]? = some (cs[q + i]?.getD 0))
    (hpast : needed + 1 < chain.length) (hi : i ≤ needed) (hle : q + i ≤ cs.length) :
    cs[q + i]? = none ∧ chain[i]? = some 0 ∨ ∃ cl, cs[q + i]? = some cl ∧ cl ≠ 0 ∧ chain[i]? = some cl ∧
      (consecutive needed chain i cl = some false ∨ consecutive needed chain i cl = some true ∧ i + 1 ≠ needed ∧
        (i < needed → cs[q + (i + 1)]? = some (cl + 1))) := by
  have hchain := hcls i hi hle
  cases hcl : cs[q + i]? with
  | none => exact .inl ⟨rfl, by rw [hchain, hcl, getD_none]⟩
  | some cl =>
    rw [hcl, getD_some] at hchain
    have hlength := (List.getElem?_eq_some_iff.1 hcl).1
    obtain ⟨htwo, hlt, -⟩ := hfile.cluster cl (mem_of_getElem? hcl)
    obtain ⟨next, hget⟩ : ∃ next, chain[i + 1]? = some next :=
      ⟨_, getElem?_eq_getElem (lt_of_le_of_lt (by omega) hpast)⟩
    refine .inr ⟨cl, rfl, by omega, hchain, ?_⟩
    rw [consecutive_eq needed hget (show cl + 1 < 2 ^ 32 by omega)]
    by_cases hc : i + 1 ≠ needed ∧ next = cl + 1
    · refine .inr ⟨congrArg some (decide_eq_true hc), hc.1, fun hlt => ?_⟩
      have hnext := hcls (i + 1) hlt hlength
      rw [hget, hc.2, some.injEq] at hnext
      cases hsucc : cs[q + (i + 1)]? with
      | none => rw [hsucc] at hnext; cases hnext
      | some c => rw [hsucc] at hnext; exact congrArg some hnext.symm
    · exact .inl (congrArg some (decide_eq_false hc))

section Round
variable (hcall : Call v cs filesize start limit needed chain) (h : Reading v cs filesize start limit needed i a s)
include hcall h

theorem Reading.ptr_eq : start ≤ s.ptr ∧
      s.ptr = (start / v.bytesPerCluster + a) * v.bytesPerCluster + s.ptr % v.bytesPerCluster := by
  have hpos := hcall.file.bytesPerCluster_pos
  rw [h.ptr]
  split_ifs with ha
  · refine ⟨le_refl _, ?_⟩
    rw [ha, add_zero, div_add_mod']
  refine ⟨?_, by rw [mul_mod_left, add_zero]⟩
  have hdiv := div_add_mod' start v.bytesPerCluster
  have hmod := mod_lt start hpos
  have hmul : v.bytesPerCluster ≤ a * v.bytesPerCluster := Nat.le_mul_of_pos_left _ (Nat.pos_of_ne_zero ha)
  rw [add_mul]
  omega

theorem Reading.readClusters_eq (hcl : cs[start / v.bytesPerCluster + i]? = some cl) (hi : i ≤ needed) :
    ∃ buf, readClusters v chain s.consecStart i cl = some (buf, (i - a + 1) * v.bytesPerCluster) ∧
      ∀ j < (i - a + 1) * v.bytesPerCluster,
        buf j = byteAt v cs ((start / v.bytesPerCluster + a) * v.bytesPerCluster + j) := by
  rcases h.consecStart with ⟨rfl, hnone⟩ | ⟨hlt, hsome⟩
  · rw [hnone]
    obtain ⟨hlba, hbytes⟩ := hcall.file.readSectors_run (a := start / v.bytesPerCluster + a) (c := cl)
      one_pos fun k hk => by rw [lt_one_iff.1 hk]; exact hcl
    have hsectors : 1 * v.sectorsPerCluster % 2 ^ 32 = v.sectorsPerCluster := by
      have hoffset := hcall.file.offset_pos
      have hfits := (hcall.file.cluster cl (mem_of_getElem? hcl)).2.2
      rw [Volume.lba] at hfits
      rw [one_mul, mod_eq_of_lt (by omega)]
    rw [hsectors] at hbytes
    rw [Nat.sub_self, Nat.zero_add]
    refine ⟨_, ?_, hbytes⟩
    rw [readClusters, hlba, one_mul]
    rfl
  · obtain ⟨-, c, hrun⟩ := h.run hlt
    obtain ⟨hlba, hbytes⟩ := hcall.file.readSectors_run (succ_pos _) hrun
    have hc : cs[start / v.bytesPerCluster + a]? = some c := hrun 0 (succ_pos _)
    have hchain : chain[a]? = some c := by
      rw [hcall.clusters a (by omega), hc, getD_some]
      have hlt := (List.getElem?_eq_some_iff.1 hc).1
      omega
    refine ⟨_, ?_, hbytes⟩
    rw [hsome, readClusters, hchain, bind_eq_bind, bind_some, hlba]
    rfl

theorem Reading.out_append {buf : Buf} {size k : Nat}
    (hbuf : ∀ j < size, buf j = byteAt v cs ((start / v.bytesPerCluster + a) * v.bytesPerCluster + j))
    (hk : k ≤ size - s.ptr % v.bytesPerCluster) :
    s.out ++ slice buf (s.ptr % v.bytesPerCluster) k = slice (byteAt v cs) start (s.ptr + k - start) := by
  obtain ⟨hstart, hptr⟩ := h.ptr_eq hcall
  have hslice : slice buf (s.ptr % v.bytesPerCluster) k = slice (byteAt v cs) s.ptr k := by
    apply map_congr_left
    intro x hx
    have hx := mem_range.1 hx
    rw [hbuf _ (by omega)]
    exact congrArg (byteAt v cs) (by omega)
  rw [h.out, hslice, Nat.sub_add_comm hstart, slice_add, Nat.add_sub_cancel' hstart]

omit hcall in
theorem Reading.mul_eq (b q : Nat) : (q + i) * b = (q + a) * b + (i - a) * b ∧ (i - a + 1) * b = (i - a) * b + b := by
  have hle : a ≤ i := h.consecStart.elim (fun heq => heq.1.le) fun hlt => hlt.1.le
  rw [← add_mul, succ_mul]
  exact ⟨by congr 1; omega, rfl⟩

section
variable {k : Nat} {out : Bytes} (hcl : cs[start / v.bytesPerCluster + i]? = some cl)
  (hout : out = slice (byteAt v cs) start (s.ptr + k - start))
include hcl hout

theorem Reading.done (hk : k = min (limit - s.out.length) (filesize - s.ptr))
    (hlt : k < (i - a + 1) * v.bytesPerCluster - s.ptr % v.bytesPerCluster) :
    Done v cs filesize start limit ⟨s.ptr + k, cl, out, none⟩ := by
  obtain ⟨hstart, hptr⟩ := h.ptr_eq hcall
  have hlength : s.out.length = s.ptr - start := by rw [h.out, length_slice]
  have hptr_le := h.ptr_le
  have hptr_le_limit := h.ptr_le_limit
  have hlimit := hcall.limit_pos
  have hstart_lt := hcall.start_lt
  refine ⟨?_, ?_, ?_, hout, mem_of_getElem? hcl, fun hend => ?_⟩
  · change start < s.ptr + k
    omega
  · change s.ptr + k ≤ filesize
    omega
  · change s.ptr + k ≤ start + limit
    omega
  · -- the limit is reached, and it is in the last one of the clusters
    change s.ptr + k < filesize at hend
    have hk' : s.ptr + k = start + limit := by omega
    obtain ⟨hmul, hsize⟩ := h.mul_eq v.bytesPerCluster (start / v.bytesPerCluster)
    have hlow : (start / v.bytesPerCluster + i) * v.bytesPerCluster ≤ s.ptr + k := by
      rcases h.consecStart with ⟨rfl, -⟩ | ⟨hai, -⟩
      · omega
      have hneeded := (h.run hai).1
      have hi : i * v.bytesPerCluster ≤ (needed - 1) * v.bytesPerCluster := mul_le_mul_right _ (by omega)
      have hneeded_lt := hcall.needed_lt
      have hdiv := div_mul_le_self start v.bytesPerCluster
      rw [hk', add_mul]
      omega
    have hhigh : s.ptr + k < (start / v.bytesPerCluster + i + 1) * v.bytesPerCluster := by
      rw [succ_mul]
      omega
    rw [show (s.ptr + k) / v.bytesPerCluster = start / v.bytesPerCluster + i from
      Nat.div_eq_of_lt_le hlow hhigh]
    exact hcl

theorem Reading.next (hk : k = (i - a + 1) * v.bytesPerCluster - s.ptr % v.bytesPerCluster)
    (hle : k ≤ min (limit - s.out.length) (filesize - s.ptr)) :
    Reading v cs filesize start limit needed (i + 1) (i + 1) ⟨s.ptr + k, cl, out, none⟩ := by
  obtain ⟨hstart, hptr⟩ := h.ptr_eq hcall
  obtain ⟨hmul, hsize⟩ := h.mul_eq v.bytesPerCluster (start / v.bytesPerCluster)
  have hmod := mod_lt s.ptr hcall.file.bytesPerCluster_pos
  have hlength : s.out.length = s.ptr - start := by rw [h.out, length_slice]
  refine ⟨.inl ⟨rfl, rfl⟩, fun hlt => absurd hlt (lt_irrefl _), ?_, ?_, ?_, hout, fun _ => hcl⟩
  · rw [if_neg (succ_ne_zero i), ← add_assoc, succ_mul]
    change s.ptr + k = _
    omega
  · change s.ptr + k ≤ filesize
    omega
  · change s.ptr + k ≤ start + limit
    omega

end

theorem Reading.copy (hi : i ≤ needed) (hcl : cs[start / v.bytesPerCluster + i]? = some cl)
    (hchain : chain[i]? = some cl) (hne : cl ≠ 0) (hcons : consecutive needed chain i cl = some false)
    (hrest : ∀ s', Reading v cs filesize start limit needed (i + 1) (i + 1) s' →
      ∃ s'', readLoop v limit filesize needed chain n (i + 1) s' = some s'' ∧ Done v cs filesize start limit s'') :
    ∃ s', readLoop v limit filesize needed chain (n + 1) i s = some s' ∧ Done v cs filesize start limit s' := by
  obtain ⟨buf, hread, hbuf⟩ := h.readClusters_eq hcall hcl hi
  have hcopy := copyLoop_eq buf limit filesize
    ((i - a + 1) * v.bytesPerCluster - s.ptr % v.bytesPerCluster) (s.ptr % v.bytesPerCluster) s.ptr s.out
  have hout := h.out_append hcall hbuf (min_le_left _ (min (limit - s.out.length) (filesize - s.ptr)))
  rw [readLoop_of_copy hchain hne hcons hread hcopy]
  split_ifs with hcleanup
  · have hlt := of_decide_eq_true hcleanup
    rw [min_eq_right hlt.le] at hout ⊢
    exact ⟨_, rfl, h.done hcall hcl hout rfl hlt⟩
  · have hle := Nat.le_of_not_lt (of_decide_eq_false (Bool.eq_false_of_not_eq_true hcleanup))
    rw [min_eq_left hle] at hout ⊢
    exact hrest _ (h.next hcall hcl hout rfl hle)

omit hcall in
theorem Reading.consecutive (hi : i + 1 < needed) (hcl : cs[start / v.bytesPerCluster + i]? = some cl)
    (hsucc : cs[start / v.bytesPerCluster + (i + 1)]? = some (cl + 1)) :
    Reading v cs filesize start limit needed (i + 1) a
      { s with directoryCurr := cl, consecStart := s.consecStart.or (some i) } := by
  refine ⟨.inr ?_, fun _ => ⟨by omega, ?_⟩, h.ptr, h.ptr_le, h.ptr_le_limit, h.out, fun _ => hcl⟩
  · rcases h.consecStart with ⟨rfl, hnone⟩ | ⟨hlt, hsome⟩
    · exact ⟨lt_succ_self _, by rw [hnone]; rfl⟩
    · exact ⟨by omega, by rw [hsome]; rfl⟩
  obtain ⟨c, hc⟩ : ∃ c, ∀ k < i - a + 1, cs[start / v.bytesPerCluster + a + k]? = some (c + k) := by
    rcases h.consecStart with ⟨rfl, -⟩ | ⟨hlt, -⟩
    · refine ⟨cl, fun k hk => ?_⟩
      obtain rfl : k = 0 := by omega
      exact hcl
    · exact (h.run hlt).2
  have hle : a ≤ i := h.consecStart.elim (fun heq => heq.1.le) fun hlt => hlt.1.le
  refine ⟨c, fun k hk => ?_⟩
  by_cases hlast : k < i - a + 1
  · exact hc k hlast
  · have hcl' := hc (i - a) (by omega)
    rw [Nat.add_assoc, Nat.add_sub_cancel' hle, hcl] at hcl'
    have hk' : k = i + 1 - a := by omega
    rw [hk', Nat.add_assoc, Nat.add_sub_cancel' (by omega), hsucc, some.inj hcl']
    exact congrArg some (by omega)

omit hcall in
theorem Reading.lt_length (hlt : a < i) : start / v.bytesPerCluster + i < cs.length := by
  obtain ⟨-, c, hrun⟩ := h.run hlt
  have hlt' := (List.getElem?_eq_some_iff.1 (hrun (i - a) (lt_succ_self _))).1
  omega

omit hcall in
theorem Reading.eq_of_needed_le (hi : needed ≤ i) : a = i := by
  rcases h.consecStart with ⟨heq, -⟩ | ⟨hlt, -⟩
  · exact heq
  · have hrun := (h.run hlt).1
    omega

theorem Reading.le_length : start / v.bytesPerCluster + i ≤ cs.length := by
  rcases h.consecStart with ⟨rfl, -⟩ | ⟨hlt, -⟩
  · have hptr := h.ptr
    split_ifs at hptr with ha
    · have hlt := hcall.file.div_lt hcall.start_lt
      omega
    · apply le_of_mul_le_mul_right _ hcall.file.bytesPerCluster_pos
      rw [← hptr]
      exact h.ptr_le.trans hcall.file.filesize_le
  · exact (h.lt_length hlt).le

theorem Reading.done_of_end (hnone : cs[start / v.bytesPerCluster + i]? = none) :
    Done v cs filesize start limit s := by
  have hlength := getElem?_eq_none_iff.1 hnone
  have hdiv := hcall.file.div_lt hcall.start_lt
  have hi : 0 < i := by omega
  have hend : filesize ≤ s.ptr := by
    rcases h.consecStart with ⟨rfl, -⟩ | ⟨hlt, -⟩
    · rw [h.ptr, if_neg (by omega)]
      exact hcall.file.filesize_le.trans (mul_le_mul_right _ hlength)
    · have hlt' := h.lt_length hlt
      omega
  have hstart_lt := hcall.start_lt
  exact ⟨by omega, h.ptr_le, h.ptr_le_limit, h.out, mem_of_getElem? (h.curr hi), fun hlt => by omega⟩

end Round

section
variable (hcall : Call v cs filesize start limit needed chain)
include hcall

theorem Call.needed_pos : 0 < needed := by
  rcases Nat.eq_zero_or_pos needed with hzero | hpos
  · have hle := hcall.le_needed
    have hlimit := hcall.limit_pos
    rw [hzero, zero_mul] at hle
    omega
  · exact hpos

theorem Reading.done_of_past (h : Reading v cs filesize start limit needed needed a s)
    (hcl : cs[start / v.bytesPerCluster + needed]? = some cl) : Done v cs filesize start limit
      { s with directoryCurr := cl, consecStart := s.consecStart.or (some needed) } := by
  have hpos := hcall.needed_pos
  have hptr := h.ptr
  rw [h.eq_of_needed_le (le_refl _), if_neg hpos.ne'] at hptr
  refine ⟨?_, h.ptr_le, h.ptr_le_limit, h.out, mem_of_getElem? hcl, fun _ => ?_⟩
  · have hdiv := div_add_mod' start v.bytesPerCluster
    have hmod := mod_lt start hcall.file.bytesPerCluster_pos
    have hmul := Nat.le_mul_of_pos_left v.bytesPerCluster hpos
    rw [hptr, add_mul]
    omega
  · rw [hptr, Nat.mul_div_cancel _ hcall.file.bytesPerCluster_pos]
    exact hcl

theorem readLoop_done (h : Reading v cs filesize start limit needed i a s) (hn : i + n = needed + 1) :
    ∃ s', readLoop v limit filesize needed chain n i s = some s' ∧ Done v cs filesize start limit s' := by
  induction n generalizing i a s with
  | zero =>
    -- all that was needed is copied and one more cluster: more than the limit
    obtain rfl : i = needed + 1 := hn
    have hptr := h.ptr
    rw [h.eq_of_needed_le (le_succ _), if_neg (succ_ne_zero _), add_mul, succ_mul] at hptr
    have hdiv := div_add_mod' start v.bytesPerCluster
    have hmod := mod_lt start hcall.file.bytesPerCluster_pos
    have hle := h.ptr_le_limit
    have hneeded := hcall.le_needed
    omega
  | succ n ih =>
    rcases hcall.file.round hcall.clusters hcall.past (by omega) (h.le_length hcall) with
      ⟨hnone, hchain⟩ | ⟨cl, hcl, hne, hchain, hcopied | ⟨hnext, hi, hsucc⟩⟩
    · exact ⟨s, readLoop_of_zero hchain, h.done_of_end hcall hnone⟩
    · exact h.copy hcall (by omega) hcl hchain hne hcopied fun s' h' => ih h' (by omega)
    · rw [readLoop_of_consecutive hchain hne hnext]
      by_cases hpast : i = needed
      · subst hpast
        obtain rfl : n = 0 := by omega
        exact ⟨_, rfl, h.done_of_past hcall hcl⟩
      · exact ih (h.consecutive (by omega) hcl (hsucc (by omega))) (by omega)

end

theorem File.readClusters_isSome (hfile : File v cs filesize) {consecStart : Option Nat} (hcl : cl ∈ cs)
    (hstart : ∀ a ∈ consecStart, ∃ c ∈ cs, chain[a]? = some c) :
    ∃ buf size, readClusters v chain consecStart i cl = some (buf, size) ∧ v.bytesPerCluster ≤ size := by
  have hlba : ∀ c ∈ cs, ∃ lba, fat32ClusterToLBA v c = some lba := by
    intro c hc
    exact ⟨_, if_neg (not_lt.2 (hfile.cluster c hc).1)⟩
  cases consecStart with
  | none =>
    obtain ⟨lba, hlba⟩ := hlba cl hcl
    exact ⟨_, _, by rw [readClusters, hlba]; rfl, le_refl _⟩
  | some a =>
    obtain ⟨c, hc, hchain⟩ := hstart a rfl
    obtain ⟨lba, hlba⟩ := hlba c hc
    exact ⟨_, _, by rw [readClusters, hchain, bind_eq_bind, bind_some, hlba]; rfl,
      Nat.le_mul_of_pos_left _ (Nat.succ_pos _)⟩

theorem readLoop_at_end (hfile : File v cs filesize) (limit : Nat)
    (hcls : ∀ i ≤ needed, q + i ≤ cs.length → chain[i]? = some (cs[q + i]?.getD 0))
    (hpast : needed + 1 < chain.length) (hptr : filesize ≤ s.ptr) (hle : q + i ≤ cs.length)
    (hstart : ∀ a ∈ s.consecStart, a ≤ needed ∧ q + a < cs.length) (hn : i + n = needed + 1) :
    ∃ s', readLoop v limit filesize needed chain n i s = some s' ∧ s'.ptr = s.ptr ∧ s'.out = s.out ∧
      (s'.directoryCurr = s.directoryCurr ∨ s'.directoryCurr ∈ cs) := by
  induction n generalizing i s with
  | zero => exact ⟨s, rfl, rfl, rfl, .inl rfl⟩
  | succ n ih =>
    rcases hfile.round hcls hpast (by omega) hle with
      ⟨-, hchain⟩ | ⟨cl, hcl, hne, hchain, hcopied | ⟨hnext, -⟩⟩
    · exact ⟨s, readLoop_of_zero hchain, rfl, rfl, .inl rfl⟩
    · have hstart' : ∀ a ∈ s.consecStart, ∃ c ∈ cs, chain[a]? = some c := by
        intro a ha
        obtain ⟨hle, hlt⟩ := hstart a ha
        refine ⟨cs[q + a], getElem_mem hlt, ?_⟩
        rw [hcls a hle hlt.le, getElem?_eq_getElem hlt, getD_some]
      obtain ⟨buf, size, hread, hsize⟩ := hfile.readClusters_isSome (mem_of_getElem? hcl) hstart'
      have hmod := mod_lt s.ptr hfile.bytesPerCluster_pos
      have hcopy := copyLoop_eq buf limit filesize (size - s.ptr % v.bytesPerCluster)
        (s.ptr % v.bytesPerCluster) s.ptr s.out
      rw [Nat.sub_eq_zero_of_le hptr, Nat.min_zero, Nat.min_zero] at hcopy
      rw [readLoop_of_copy hchain hne hcopied hread hcopy, if_pos (decide_eq_true (by omega))]
      exact ⟨_, rfl, rfl, by simp [slice], .inr (mem_of_getElem? hcl)⟩
    · rw [readLoop_of_consecutive hchain hne hnext]
      have hlength := (List.getElem?_eq_some_iff.1 hcl).1
      have hstart' : ∀ a ∈ s.consecStart.or (some i), a ≤ needed ∧ q + a < cs.length := by
        intro a ha
        rcases or_eq_some_iff.1 ha with ha | ⟨-, ha⟩
        · exact hstart a ha
        · obtain rfl := some.inj ha
          exact ⟨by omega, hlength⟩
      obtain ⟨s', hs', hptr', hout', hcurr⟩ := ih (i := i + 1)
        (s := { s with directoryCurr := cl, consecStart := s.consecStart.or (some i) }) hptr (by omega) hstart'
        (by omega)
      refine ⟨s', hs', hptr', hout', .inr ?_⟩
      rcases hcurr with hcurr | hcurr
      · rw [hcurr]
        exact mem_of_getElem? hcl
      · exact hcurr

/-! ## One call -/

/-- The descriptor of a regular file is at a cluster of the file, or behind the last one, and it is at the cluster of
its position unless that is the end of the file. -/
structure Positioned (v : Volume) (cs : List Nat) (fd : FAT32OpenFd) : Prop where
  regular : fd.dirEnt.attrib &&& fatAttribDirectory = 0
  ptr_le : fd.ptr ≤ fd.dirEnt.filesize.toNat
  curr : ∃ q ≤ cs.length, fd.directoryCurr = cs[q]?.getD 0 ∧
    (fd.ptr < fd.dirEnt.filesize.toNat → q = fd.ptr / v.bytesPerCluster)

theorem Positioned.curr_eq (h : Positioned v cs fd) (hfile : File v cs fd.dirEnt.filesize.toNat)
    (hlt : fd.ptr < fd.dirEnt.filesize.toNat) : cs[fd.ptr / v.bytesPerCluster]? = some fd.directoryCurr := by
  obtain ⟨q, -, hcurr, hq⟩ := h.curr
  rw [hq hlt] at hcurr
  rw [hcurr, getElem?_eq_getElem (hfile.div_lt hlt), getD_some]

theorem exists_index_of_mem {inside : Prop} (h : c ∈ cs) (hend : ¬ inside) :
    ∃ k ≤ cs.length, c = cs[k]?.getD 0 ∧ (inside → k = q) := by
  obtain ⟨k, hk⟩ := mem_iff_getElem?.1 h
  exact ⟨k, (List.getElem?_eq_some_iff.1 hk).1.le, by rw [hk, getD_some], fun hinside => absurd hinside hend⟩

theorem File.chain_eq (hfile : File v cs filesize) (hcoh : Coherent v cache) (needed past : Nat)
    (hq : q ≤ cs.length) :
    ∃ chain cache', fat32FATchain v cache (cs[q]?.getD 0) needed = some (chain, cache') ∧ Coherent v cache' ∧
      (∀ i ≤ needed, q + i ≤ cs.length → (chain ++ [past])[i]? = some (cs[q + i]?.getD 0)) ∧
      needed + 1 < (chain ++ [past]).length := by
  have hlt : cs[q]?.getD 0 < 2 ^ 28 := by
    cases hcl : cs[q]? with
    | none => decide
    | some c => exact (hfile.cluster c (mem_of_getElem? hcl)).2.1
  obtain ⟨cache', hchain, hcoh'⟩ := fat32FATchain_eq hfile.fits hcoh hlt needed
  refine ⟨_, cache', hchain, hcoh', fun i hi hle => ?_, ?_⟩
  · rw [getElem?_append_left (by rw [length_iterate]; omega)]
    have hlinked := hfile.linked.drop q
    rw [head?_drop] at hlinked
    rw [getElem?_iterate_next hlinked (by omega) (by rw [length_drop]; omega), getElem?_drop]
  · rw [length_append, length_iterate, length_singleton]
    omega

theorem fat32Read_spec (hfile : File v cs fd.dirEnt.filesize.toNat) (hcoh : Coherent v cache)
    (h : Positioned v cs fd) (hlimit : 1 ≤ limit) (hlimit' : limit < 2 ^ 31) (past : Nat) :
    ∃ n fd' cache', fat32Read v cache fd limit past = some (slice (byteAt v cs) fd.ptr n, fd', cache') ∧
      n ≤ limit ∧ (fd.ptr < fd.dirEnt.filesize.toNat → 1 ≤ n) ∧ fd'.ptr = fd.ptr + n ∧ fd'.dirEnt = fd.dirEnt ∧
      Positioned v cs fd' ∧ Coherent v cache' := by
  have hB := hfile.bytesPerCluster_pos
  obtain ⟨q, hq, hcurr, hq_eq⟩ := h.curr
  obtain ⟨chain, cache', hchain, hcoh', hcls, hpast⟩ :=
    hfile.chain_eq hcoh (divRoundUp limit v.bytesPerCluster) past hq
  rw [← hcurr] at hchain
  obtain ⟨hneeded, hsmall, hfits⟩ := neededClusters_eq hB hlimit'
  have hread : ∀ s', readLoop v limit fd.dirEnt.filesize.toNat (divRoundUp limit v.bytesPerCluster) (chain ++ [past])
      (divRoundUp limit v.bytesPerCluster + 1) 0 ⟨fd.ptr, fd.directoryCurr, [], none⟩ = some s' →
      fat32Read v cache fd limit past =
        some (s'.out, { fd with ptr := s'.ptr, directoryCurr := s'.directoryCurr }, cache') := by
    intro s' hs'
    rw [← hneeded] at hchain
    rw [fat32Read, fat32ReadWith_eq h.regular hfits hchain, hneeded, rounds, if_pos (by omega), hs', map_some]
  by_cases hlt : fd.ptr < fd.dirEnt.filesize.toNat
  · obtain rfl := hq_eq hlt
    have hcall : Call v cs fd.dirEnt.filesize.toNat fd.ptr limit (divRoundUp limit v.bytesPerCluster)
        (chain ++ [past]) :=
      ⟨hfile, hlimit, hlt, le_divRoundUp_mul limit hB, divRoundUp_sub_one_mul_lt hlimit hB, hcls, hpast⟩
    have hreading : Reading v cs fd.dirEnt.filesize.toNat fd.ptr limit (divRoundUp limit v.bytesPerCluster) 0 0
        ⟨fd.ptr, fd.directoryCurr, [], none⟩ :=
      ⟨.inl ⟨rfl, rfl⟩, fun hlt => absurd hlt (Nat.lt_irrefl _), rfl, h.ptr_le, Nat.le_add_right ..,
        by rw [Nat.sub_self]; rfl, fun hlt => absurd hlt (Nat.lt_irrefl _)⟩
    obtain ⟨s', hs', hdone⟩ := readLoop_done hcall hreading (zero_add _)
    have hstart := hdone.start_lt
    have hle := hdone.ptr_le_limit
    refine ⟨s'.ptr - fd.ptr, { fd with ptr := s'.ptr, directoryCurr := s'.directoryCurr }, cache', ?_, by omega,
      fun _ => by omega, (Nat.add_sub_cancel' hstart.le).symm, rfl, ⟨h.regular, hdone.ptr_le, ?_⟩, hcoh'⟩
    · rw [hread s' hs', hdone.out]
    · by_cases hend : s'.ptr < fd.dirEnt.filesize.toNat
      · refine ⟨s'.ptr / v.bytesPerCluster, (hfile.div_lt hend).le, ?_, fun _ => rfl⟩
        exact (congrArg (Option.getD · 0) (hdone.curr hend)).symm
      · exact exists_index_of_mem hdone.mem hend
  · obtain ⟨s', hs', hptr, hout, hmem⟩ := readLoop_at_end
      (s := ⟨fd.ptr, fd.directoryCurr, [], none⟩) hfile limit hcls hpast (Nat.le_of_not_lt hlt) hq
      (fun a ha => nomatch ha) (zero_add _)
    have hend : ¬ s'.ptr < fd.dirEnt.filesize.toNat := hptr ▸ hlt
    refine ⟨0, { fd with ptr := s'.ptr, directoryCurr := s'.directoryCurr }, cache', ?_, zero_le _,
      fun hlt' => absurd hlt' hlt, hptr, rfl, ⟨h.regular, hptr.trans_le h.ptr_le, ?_⟩, hcoh'⟩
    · rw [hread s' hs', hout]
      rfl
    · rcases hmem with hsame | hmem
      · exact ⟨q, hq, hsame.trans hcurr, fun hlt' => absurd hlt' hend⟩
      · exact exists_index_of_mem hmem hend

/-! ## Any number of calls -/

def readStep (v : Volume) (s : FAT32OpenFd × Cache) (op : Nat × Nat) : Option (Bytes × FAT32OpenFd × Cache) :=
  fat32Read v s.2 s.1 op.1 op.2

/-- The calls so far have returned the bytes before the position. Each of them has returned a byte, or the position
is the end of the file. -/
structure Sequence (v : Volume) (cs : List Nat) (dirEnt : FAT32DirectoryEntry) (outs : List Bytes)
    (fd : FAT32OpenFd) (cache : Cache) : Prop where
  dirEnt_eq : fd.dirEnt = dirEnt
  positioned : Positioned v cs fd
  coherent : Coherent v cache
  flatten : outs.flatten = slice (byteAt v cs) 0 fd.ptr
  at_end : [] ∈ outs → fd.ptr = dirEnt.filesize.toNat
  progress : [] ∈ outs ∨ outs.length ≤ fd.ptr

variable {dirEnt : FAT32DirectoryEntry}

theorem sequence_step (hfile : File v cs dirEnt.filesize.toNat) (s : List Bytes × FAT32OpenFd × Cache)
    (op : Nat × Nat) (h : Sequence v cs dirEnt s.1 s.2.1 s.2.2) (hop : 1 ≤ op.1 ∧ op.1 < 2 ^ 31) :
    ∃ s', logged (readStep v) s op = some s' ∧ Sequence v cs dirEnt s'.1 s'.2.1 s'.2.2 := by
  obtain ⟨outs, fd, cache⟩ := s
  obtain ⟨limit, past⟩ := op
  change Sequence v cs dirEnt outs fd cache at h
  obtain ⟨rfl, hpos, hcoh, hflatten, hend, hprog⟩ := h
  obtain ⟨n, fd', cache', hread, -, hn, hptr, hdirEnt, hpos', hcoh'⟩ :=
    fat32Read_spec hfile hcoh hpos hop.1 hop.2 past
  refine ⟨(outs ++ [slice (byteAt v cs) fd.ptr n], fd', cache'), ?_, ?_⟩
  · rw [logged, readStep, hread, map_some]
  change Sequence v cs fd.dirEnt (outs ++ [slice (byteAt v cs) fd.ptr n]) fd' cache'
  have hempty : slice (byteAt v cs) fd.ptr n = [] ↔ n = 0 := by
    rw [← length_eq_zero_iff, length_slice]
  have hle := hpos'.ptr_le
  rw [hdirEnt] at hle
  refine ⟨hdirEnt, hpos', hcoh', ?_, fun hmem => ?_, ?_⟩
  · rw [flatten_append, hflatten, hptr, slice_add, flatten_singleton, zero_add]
  · rcases mem_append.1 hmem with hmem | hmem
    · have hptr_eq := hend hmem
      omega
    · have hzero := hempty.1 (mem_singleton.1 hmem).symm
      by_contra hne
      omega
  · rcases hprog with hmem | hlength
    · exact .inl (mem_append_left _ hmem)
    · by_cases hzero : n = 0
      · exact .inl (mem_append_right _ (mem_singleton.2 (hempty.2 hzero).symm))
      · right
        rw [length_append, length_singleton]
        omega

/-- **Reading a file from the start**, with any limits and whatever is behind the arrays. The calls return the bytes
up to the position one after the other, and the next call returns the next bytes, one at least unless the position is
the end. There is a call that returns nothing among more calls than the file has bytes. -/
theorem fat32Read_file {cache : Cache} (hfile : File v cs dirEnt.filesize.toNat) (hcoherent : Coherent v cache)
    (hregular : dirEnt.attrib &&& fatAttribDirectory = 0) (hfirst : dirEnt.cluster = cs.head?.getD 0)
    (ops : List (Nat × Nat)) (hops : ∀ op ∈ ops, 1 ≤ op.1 ∧ op.1 < 2 ^ 31) :
    ∃ outs fd cache', Run.run (Run.logged (readStep v)) ([], fat32Open dirEnt, cache) ops = some (outs, fd, cache') ∧
      outs.flatten = slice (byteAt v cs) 0 fd.ptr ∧ fd.ptr ≤ dirEnt.filesize.toNat ∧
      (fd.ptr < dirEnt.filesize.toNat → cs[fd.ptr / v.bytesPerCluster]? = some fd.directoryCurr) ∧
      (∀ limit past, 1 ≤ limit → limit < 2 ^ 31 → ∃ n fd' cache'',
        fat32Read v cache' fd limit past = some (slice (byteAt v cs) fd.ptr n, fd', cache'') ∧ n ≤ limit ∧
          (fd.ptr < dirEnt.filesize.toNat → 1 ≤ n) ∧ fd'.ptr = fd.ptr + n) ∧
      ([] ∈ outs → outs.flatten = slice (byteAt v cs) 0 dirEnt.filesize.toNat) ∧
      (dirEnt.filesize.toNat < ops.length → [] ∈ outs) := by
  have hstart : Sequence v cs dirEnt [] (fat32Open dirEnt) cache := by
    refine ⟨rfl, ⟨hregular, Nat.zero_le _, 0, Nat.zero_le _, ?_, fun _ => (Nat.zero_div _).symm⟩, hcoherent, rfl,
      fun hmem => (nomatch hmem), .inr (zero_le _)⟩
    rw [← head?_eq_getElem?]
    exact hfirst
  obtain ⟨⟨outs, fd, cache'⟩, hrun, hsequence⟩ := run_exists_along
    (s := ([], fat32Open dirEnt, cache)) (sequence_step hfile) hstart (along_of_forall (fun op hop _ => hops op hop) _)
  change Sequence v cs dirEnt outs fd cache' at hsequence
  obtain ⟨rfl, hpos, hcoherent', hflatten, hend, hprog⟩ := hsequence
  refine ⟨outs, fd, cache', hrun, hflatten, hpos.ptr_le, hpos.curr_eq hfile,
    fun limit past hlimit hlimit' => ?_, fun hmem => ?_, fun hmany => ?_⟩
  · obtain ⟨n, fd', cache'', hread, hn, hn', hptr, -⟩ :=
      fat32Read_spec hfile hcoherent' hpos hlimit hlimit' past
    exact ⟨n, fd', cache'', hread, hn, hn', hptr⟩
  · rw [hflatten, hend hmem]
  · have hlength : outs.length = 0 + ops.length := logged_length hrun
    have hle := hpos.ptr_le
    exact hprog.resolve_right fun hle' => by omega

/-- A volume with the table in sector 1, where cluster 2 is followed by cluster 3, and clusters of one sector from
sector 2 on. -/
def twoClusters : Volume where
  offsetFats := 1
  offsetClusters := 2
  sectorsPerCluster := 1
  disk a := if a = 520 then 3 else if a < 524 then 0 else if a < 528 then 0xFF else UInt8.ofNat a
  heap _ := 0

def mountCache : Cache := ⟨fun _ => cacheBad, fun _ _ => 0, 0⟩

theorem coherent_mountCache (v : Volume) : Coherent v mountCache := fun _ _ hbase => absurd rfl hbase

def twoClustersEntry : FAT32DirectoryEntry := ⟨0x20, 0, 2, 600⟩

theorem file_twoClusters : File twoClusters [2, 3] twoClustersEntry.filesize.toNat where
  sectors_pos := by decide
  offset_pos := by decide
  fits := show 1 + 2 ^ 21 ≤ 0xFFFFFFFF by decide
  cluster := by decide
  linked := ⟨rfl, by decide, show twoClusters.next 3 = none by decide⟩
  length := by decide

theorem fat32Read_file_twoClusters : ∃ outs fd cache',
    Run.run (Run.logged (readStep twoClusters)) ([], fat32Open twoClustersEntry, mountCache) [(100, 0), (1000, 4)] =
      some (outs, fd, cache') ∧ outs.flatten = slice (byteAt twoClusters [2, 3]) 0 fd.ptr := by
  obtain ⟨outs, fd, cache', hrun, hflatten, -⟩ := fat32Read_file file_twoClusters
    (coherent_mountCache twoClusters) (by decide) (by decide) [(100, 0), (1000, 4)] (by decide)
  exact ⟨outs, fd, cache', hrun, hflatten⟩

end CoreX.Fat32

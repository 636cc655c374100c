import CoreX.Fat32.File

/-!
# Behind the array of clusters (`filesystems/fat32/fat32.rs`)

The array that `fat32Read` gets has one cluster more than are needed for the limit. The loop looks at the next cluster
in each round but that of the last cluster that is needed. So if it comes to the cluster that is one more, it looks
behind the array (`LooksBehind`).
-/

namespace CoreX.Fat32

open Memory Sectors List Option Nat Prod

/-- The bytes of so many clusters from the position on. -/
def copied (v : Volume) (ptr needed : Nat) : Nat := needed * v.bytesPerCluster - ptr % v.bytesPerCluster

/-! ## The rounds for the clusters that are needed -/

section Rounds
variable {v : Volume} {limit filesize start i n a c cl : Nat} {cs : List Nat} {last : Nat} {s : ReadState}

/-- Before the round `i` of a call at the position `start`, where the clusters from the `a`-th one on are not copied. -/
structure Waiting (v : Volume) (cs : List Nat) (start i a : Nat) (s : ReadState) : Prop where
  consecStart : a = i ∧ s.consecStart = none ∨ a < i ∧ i < cs.length ∧ s.consecStart = some a
  run : ∀ k, a + k < i → ∃ c, cs[a + k]? = some c ∧ cs[a + k + 1]? = some (c + 1)
  ptr : s.ptr = start + copied v start a
  out : s.out.length = copied v start a

/-- From the round `i` on, all clusters that are needed can be read, and neither the limit nor the file ends before
they do. -/
structure Whole (v : Volume) (cs : List Nat) (limit filesize start i a : Nat) : Prop where
  cluster : ∀ j, a ≤ j → ∀ c, cs[j]? = some c → 2 ≤ c
  limit : i < cs.length → copied v start cs.length ≤ limit
  filesize : i < cs.length → start + copied v start cs.length ≤ filesize

theorem Waiting.le (h : Waiting v cs start i a s) : a ≤ i := by
  rcases h.consecStart with ⟨rfl, -⟩ | ⟨hlt, -⟩
  · exact le_refl _
  · exact hlt.le

theorem Waiting.getElem?_run (h : Waiting v cs start i a s) (hc : cs[a]? = some c) :
    ∀ k, a + k ≤ i → cs[a + k]? = some (c + k) := by
  intro k
  induction k with
  | zero => exact fun _ => hc
  | succ k ih =>
    intro hk
    obtain ⟨c', hc', hnext⟩ := h.run k (by omega)
    rw [ih (by omega)] at hc'
    rw [← add_assoc, hnext, ← some.inj hc', add_assoc]

theorem copied_add {i : Nat} (hB : 0 < v.bytesPerCluster) (hle : a ≤ i) :
    copied v start a + ((i - a + 1) * v.bytesPerCluster - (start + copied v start a) % v.bytesPerCluster) =
      copied v start (i + 1) := by
  unfold copied
  have hmod := mod_lt start hB
  cases a with
  | zero => simp only [Nat.zero_mul, Nat.zero_sub, Nat.add_zero, Nat.sub_zero, Nat.zero_add]
  | succ a =>
    have hdiv := div_add_mod' start v.bytesPerCluster
    have hsucc : (a + 1) * v.bytesPerCluster = a * v.bytesPerCluster + v.bytesPerCluster := succ_mul ..
    have hprod : (start / v.bytesPerCluster + (a + 1)) * v.bytesPerCluster =
        start / v.bytesPerCluster * v.bytesPerCluster + (a + 1) * v.bytesPerCluster := add_mul ..
    have hpos : start + ((a + 1) * v.bytesPerCluster - start % v.bytesPerCluster) =
        (start / v.bytesPerCluster + (a + 1)) * v.bytesPerCluster := by omega
    have hsum : (i + 1) * v.bytesPerCluster =
        (i - (a + 1) + 1) * v.bytesPerCluster + (a + 1) * v.bytesPerCluster := by
      rw [← add_mul, show i - (a + 1) + 1 + (a + 1) = i + 1 by omega]
    rw [hpos, Nat.mul_mod_left, Nat.sub_zero, hsum]
    omega

theorem getElem?_behind (hi : i < cs.length) (last : Nat) (behind : List Nat) :
    (cs ++ last :: behind)[i]? = cs[i]? := getElem?_append_left hi

theorem consecutive_behind (hi : i < cs.length) (hsmall : cl + 1 < 2 ^ 32) (last : Nat) (behind : List Nat) :
    consecutive cs.length (cs ++ last :: behind) i cl = some (decide (cs[i + 1]? = some (cl + 1))) := by
  by_cases hlast : i + 1 = cs.length
  · rw [consecutive, if_pos hlast, getElem?_eq_none (by omega)]
    rfl
  · have hi' : i + 1 < cs.length := by omega
    have hnext : (cs ++ last :: behind)[i + 1]? = some cs[i + 1] := by
      rw [getElem?_behind hi', getElem?_eq_getElem hi']
    rw [consecutive_eq _ hnext hsmall, getElem?_eq_getElem hi']
    simp [hlast]

theorem Waiting.readClusters_eq (h : Waiting v cs start i a s) (hc : cs[a]? = some c) (hcl : cs[i]? = some cl)
    (last : Nat) : if c < 2 then ∀ behind, readClusters v (cs ++ last :: behind) s.consecStart i cl = none
    else ∃ buf, ∀ behind, readClusters v (cs ++ last :: behind) s.consecStart i cl =
      some (buf, (i - a + 1) * v.bytesPerCluster) := by
  have hlba : fat32ClusterToLBA v c = if c < 2 then none else
      some ((v.offsetClusters + (c - 2) * v.sectorsPerCluster) % 2 ^ 32) := rfl
  rcases h.consecStart with ⟨rfl, hstart⟩ | ⟨hlt, hi, hstart⟩
  · obtain rfl := some.inj (hc.symm.trans hcl)
    rw [hstart, Nat.sub_self, Nat.zero_add, Nat.one_mul]
    split_ifs at hlba ⊢
    · exact fun behind => by simp [readClusters, hlba]
    · exact ⟨_, fun behind => by simp only [readClusters, hlba, bind_eq_bind, bind_some]; rfl⟩
  · have hget : ∀ behind, (cs ++ last :: behind)[a]? = some c := fun behind => by
      rw [getElem?_behind (by omega), hc]
    rw [hstart]
    split_ifs at hlba ⊢
    · exact fun behind => by simp [readClusters, hget, hlba]
    · exact ⟨_, fun behind => by simp only [readClusters, hget, hlba, bind_eq_bind, bind_some]; rfl⟩

theorem Waiting.wait (h : Waiting v cs start i a s) (hcl : cs[i]? = some cl) (hnext : cs[i + 1]? = some (cl + 1)) :
    Waiting v cs start (i + 1) a { s with directoryCurr := c, consecStart := s.consecStart.or (some i) } where
  consecStart := by
    have hlt := (List.getElem?_eq_some_iff.1 hnext).1
    rcases h.consecStart with ⟨rfl, hstart⟩ | ⟨hai, -, hstart⟩
    · exact .inr ⟨lt_succ_self _, hlt, by rw [hstart]; rfl⟩
    · exact .inr ⟨by omega, hlt, by rw [hstart]; rfl⟩
  run k hk := by
    rcases lt_or_ge (a + k) i with hlt | hge
    · exact h.run k hlt
    · rw [show a + k = i by omega]
      exact ⟨cl, hcl, hnext⟩
  ptr := h.ptr
  out := h.out

theorem whole_wait_iff (hlt : i + 1 < cs.length) :
    Whole v cs limit filesize start i a ↔ Whole v cs limit filesize start (i + 1) a :=
  ⟨fun h => ⟨h.cluster, fun _ => h.limit (by omega), fun _ => h.filesize (by omega)⟩,
    fun h => ⟨h.cluster, fun _ => h.limit hlt, fun _ => h.filesize hlt⟩⟩

theorem Waiting.copy {size : Nat} {bytes : Bytes} (h : Waiting v cs start i a s)
    (hsize : copied v start a + size = copied v start (i + 1)) (hbytes : bytes.length = size) :
    Waiting v cs start (i + 1) (i + 1) ⟨s.ptr + size, c, s.out ++ bytes, none⟩ where
  consecStart := .inl ⟨rfl, rfl⟩
  run k hk := absurd hk (by omega)
  ptr := by
    rw [h.ptr, add_assoc, hsize]
  out := by
    rw [length_append, h.out, hbytes, hsize]

theorem Waiting.whole_copy_iff (h : Waiting v cs start i a s) (hc : cs[a]? = some c) (hfirst : 2 ≤ c)
    (hlt : i < cs.length) (hlimit : copied v start (i + 1) ≤ limit)
    (hfilesize : start + copied v start (i + 1) ≤ filesize) :
    Whole v cs limit filesize start i a ↔ Whole v cs limit filesize start (i + 1) (i + 1) := by
  have hle := h.le
  constructor
  · exact fun hw => ⟨fun j hj => hw.cluster j (by omega), fun _ => hw.limit hlt, fun _ => hw.filesize hlt⟩
  intro hw
  have hend : i + 1 = cs.length ∨ i + 1 < cs.length := eq_or_lt_of_le hlt
  refine ⟨fun j hj d hd => ?_, fun _ => ?_, fun _ => ?_⟩
  · rcases lt_or_ge i j with hij | hij
    · exact hw.cluster j hij d hd
    · -- a cluster of the run
      have hrun := h.getElem?_run hc (j - a) (by omega)
      rw [show a + (j - a) = j by omega, hd] at hrun
      have := some.inj hrun
      omega
  · rcases hend with hend | hend
    · rwa [← hend]
    · exact hw.limit hend
  · rcases hend with hend | hend
    · rwa [← hend]
    · exact hw.filesize hend

/-- The rounds up to the last cluster that is needed. Either they come to an end without a look behind the array, or
the loop comes to the cluster that is one more with all bytes of the others. The induction is on the rounds that
are left. -/
theorem readLoop_rounds (limit filesize : Nat) (hB : 0 < v.bytesPerCluster) (hsmall : ∀ c ∈ cs, c + 1 < 2 ^ 32) (last : Nat) :
    ∀ {n i a : Nat} {s : ReadState}, i + n = cs.length → Waiting v cs start i a s →
      (Whole v cs limit filesize start i a → ∃ s', Waiting v cs start cs.length cs.length s' ∧ ∀ behind,
        readLoop v limit filesize cs.length (cs ++ last :: behind) (n + 1) i s =
          readLoop v limit filesize cs.length (cs ++ last :: behind) 1 cs.length s') ∧
      (¬ Whole v cs limit filesize start i a → ∀ behind behind',
        readLoop v limit filesize cs.length (cs ++ last :: behind) (n + 1) i s =
          readLoop v limit filesize cs.length (cs ++ last :: behind') (n + 1) i s) := by
  intro n
  induction n with
  | zero =>
    intro i a s hi h
    obtain rfl : i = cs.length := hi
    have ha : a = cs.length := by
      rcases h.consecStart with ⟨rfl, -⟩ | ⟨-, hlt, -⟩
      · rfl
      · exact absurd hlt (lt_irrefl _)
    subst ha
    refine ⟨fun _ => ⟨s, h, fun _ => rfl⟩, fun hnot => absurd ⟨fun j hj c hc => ?_, ?_, ?_⟩ hnot⟩
    · exact absurd (List.getElem?_eq_some_iff.1 hc).1 (not_lt.2 hj)
    · exact fun hlt => absurd hlt (lt_irrefl _)
    · exact fun hlt => absurd hlt (lt_irrefl _)
  | succ n ih =>
    intro i a s hi h
    have hlt : i < cs.length := by omega
    have hle := h.le
    obtain ⟨cl, hcl⟩ : ∃ cl, cs[i]? = some cl := ⟨_, getElem?_eq_getElem hlt⟩
    obtain ⟨c, hc⟩ : ∃ c, cs[a]? = some c := ⟨_, getElem?_eq_getElem (by omega)⟩
    have hget : ∀ behind, (cs ++ last :: behind)[i]? = some cl := fun behind => by rw [getElem?_behind hlt, hcl]
    by_cases hzero : cl = 0
    · -- a cluster 0 ends the loop
      subst hzero
      refine ⟨fun hwhole => absurd (hwhole.cluster i hle 0 hcl) (by decide), fun _ behind behind' => ?_⟩
      rw [readLoop_of_zero (hget behind), readLoop_of_zero (hget behind')]
    have hcons := consecutive_behind hlt (hsmall cl (mem_of_getElem? hcl)) last
    by_cases hnext : cs[i + 1]? = some (cl + 1)
    · simp only [hnext, decide_true] at hcons
      have hround : ∀ behind, readLoop v limit filesize cs.length (cs ++ last :: behind) (n + 1 + 1) i s = _ :=
        fun behind => readLoop_of_consecutive (hget behind) hzero (hcons behind)
      rw [whole_wait_iff (List.getElem?_eq_some_iff.1 hnext).1]
      simp only [hround]
      exact ih (by omega) (h.wait hcl hnext)
    simp only [hnext, decide_false] at hcons
    have hread := h.readClusters_eq hc hcl last
    by_cases hfirst : c < 2
    · -- the first cluster of the run is none
      rw [if_pos hfirst] at hread
      refine ⟨fun hw => absurd (hw.cluster a (le_refl a) c hc) (by omega), fun _ behind behind' => ?_⟩
      have hnone : ∀ behind, readLoop v limit filesize cs.length (cs ++ last :: behind) (n + 1 + 1) i s = none :=
        fun behind => by simp [readLoop, hget, hzero, hcons, hread]
      rw [hnone, hnone]
    rw [if_neg hfirst] at hread
    obtain ⟨buf, hread⟩ := hread
    have hcopy := copyLoop_eq buf limit filesize
      ((i - a + 1) * v.bytesPerCluster - s.ptr % v.bytesPerCluster) (s.ptr % v.bytesPerCluster) s.ptr s.out
    have hround : ∀ behind, readLoop v limit filesize cs.length (cs ++ last :: behind) (n + 1 + 1) i s = _ :=
      fun behind => readLoop_of_copy (hget behind) hzero (hcons behind) (hread behind) hcopy
    have hadd : copied v start a + _ = copied v start (i + 1) := copied_add hB hle
    have hmono : copied v start (i + 1) ≤ copied v start cs.length :=
      Nat.sub_le_sub_right (Nat.mul_le_mul_right _ hlt) _
    have hsize : 0 < (i - a + 1) * v.bytesPerCluster - s.ptr % v.bytesPerCluster := by
      have hmod := mod_lt s.ptr hB
      rw [succ_mul]
      omega
    have hptr := h.ptr
    have hout := h.out
    rw [← hptr] at hadd
    simp only [hround]
    generalize (i - a + 1) * v.bytesPerCluster - s.ptr % v.bytesPerCluster = size at hadd hsize ⊢
    by_cases hcleanup : min (limit - s.out.length) (filesize - s.ptr) < size
    · -- the limit or the file ends in the run
      simp only [decide_eq_true hcleanup, if_true]
      refine ⟨fun hw => ?_, fun _ _ _ => trivial⟩
      have hlimit := hw.limit hlt
      have hfilesize := hw.filesize hlt
      omega
    · have hmin : min size (min (limit - s.out.length) (filesize - s.ptr)) = size := by omega
      rw [h.whole_copy_iff hc (by omega) hlt (by omega) (by omega), hmin]
      simp only [decide_eq_false hcleanup, Bool.false_eq_true, if_false]
      exact ih (by omega) (h.copy hadd (length_slice ..))

/-! ## The round of the cluster that is one more -/

theorem readLoop_last_nil (hlast : last ≠ 0) :
    readLoop v limit filesize cs.length (cs ++ [last]) 1 cs.length s = none := by
  simp [readLoop, hlast, consecutive]

theorem readLoop_last_next (hlast : last ≠ 0) (hsmall : last + 1 < 2 ^ 32) :
    readLoop v limit filesize cs.length (cs ++ [last, last + 1]) 1 cs.length s =
      some { s with directoryCurr := last, consecStart := s.consecStart.or (some cs.length) } := by
  have hcl : (cs ++ [last, last + 1])[cs.length]? = some last := by simp
  have hnext : (cs ++ [last, last + 1])[cs.length + 1]? = some (last + 1) := by simp
  have hcons := consecutive_eq cs.length hnext hsmall
  rw [decide_eq_true ⟨by omega, rfl⟩] at hcons
  exact readLoop_of_consecutive hcl hlast hcons

theorem readLoop_last_copy (limit filesize : Nat) (cs : List Nat) {past : Nat} (hlast : last ≠ 0)
    (hsmall : last + 1 < 2 ^ 32) (hpast : past ≠ last + 1) (hstart : s.consecStart = none) :
    if last = 1 then readLoop v limit filesize cs.length (cs ++ [last, past]) 1 cs.length s = none
    else ∃ s' bytes, readLoop v limit filesize cs.length (cs ++ [last, past]) 1 cs.length s = some s' ∧
      s'.out = s.out ++ bytes ∧ bytes.length = min (v.bytesPerCluster - s.ptr % v.bytesPerCluster)
        (min (limit - s.out.length) (filesize - s.ptr)) := by
  have hcl : (cs ++ [last, past])[cs.length]? = some last := by simp
  have hnext : (cs ++ [last, past])[cs.length + 1]? = some past := by simp
  have hcons := consecutive_eq cs.length hnext hsmall
  rw [decide_eq_false fun h => hpast h.2] at hcons
  by_cases hone : last = 1
  · rw [if_pos hone]
    have hlba : fat32ClusterToLBA v last = none := if_pos (by omega)
    simp [readLoop, hlast, hcons, readClusters, hstart, hlba]
  rw [if_neg hone]
  have hlba : fat32ClusterToLBA v last = some _ := if_neg (by omega)
  obtain ⟨buf, hread⟩ : ∃ buf, readClusters v (cs ++ [last, past]) s.consecStart cs.length last =
      some (buf, v.bytesPerCluster) := by
    rw [hstart]
    exact ⟨_, by simp only [readClusters, hlba, bind_eq_bind, bind_some]; rfl⟩
  have hround := readLoop_of_copy (n := 0) hcl hlast hcons hread
    (copyLoop_eq _ limit filesize (v.bytesPerCluster - s.ptr % v.bytesPerCluster) _ s.ptr s.out)
  rw [readLoop.eq_1, ite_self] at hround
  exact ⟨_, _, hround, rfl, length_slice ..⟩

end Rounds

/-! ## The call -/

variable {v : Volume} {cache cache' : Cache} {fd : FAT32OpenFd} {limit : Nat} {chain : List Nat}

theorem chainLoop_spec {n prev : Nat} {rest : List Nat} (h : chainLoop v n cache prev = some (rest, cache')) :
    rest.length = n ∧ ∀ c ∈ (prev :: rest).dropLast, c + 1 < 2 ^ 32 := by
  induction n generalizing cache cache' prev rest with
  | zero =>
    obtain rfl := (mk.inj (some.inj h)).1
    exact ⟨rfl, by simp⟩
  | succ n ih =>
    obtain ⟨⟨next, cache₁⟩, hfind, hrest⟩ := bind_eq_some_iff.1 h
    obtain ⟨⟨rest', cache₂⟩, hloop, heq⟩ := bind_eq_some_iff.1 hrest
    obtain rfl := (mk.inj (some.inj heq)).1
    obtain ⟨hlength, hsmall⟩ := ih hloop
    have hprev : prev + 1 < 2 ^ 32 := by
      unfold fat32FATtraverse at hfind
      dsimp only at hfind
      split_ifs at hfind <;> omega
    refine ⟨by rw [length_cons, hlength], ?_⟩
    rw [dropLast_cons_of_ne_nil (cons_ne_nil _ _)]
    exact forall_mem_cons.2 ⟨hprev, hsmall⟩

theorem fat32FATchain_spec {start needed : Nat} (h : fat32FATchain v cache start needed = some (chain, cache')) :
    ∃ cs last, chain = cs ++ [last] ∧ cs.length = needed ∧ ∀ c ∈ cs, c + 1 < 2 ^ 32 := by
  obtain ⟨⟨rest, cache₁⟩, hloop, heq⟩ := map_eq_some_iff.1 h
  obtain rfl := (mk.inj heq).1
  obtain ⟨hlength, hsmall⟩ := chainLoop_spec hloop
  refine ⟨(start :: rest).dropLast, _, (dropLast_append_getLast (cons_ne_nil _ _)).symm, ?_, hsmall⟩
  rw [length_dropLast, length_cons, hlength, Nat.add_sub_cancel]

section
variable (v cache fd limit) (last : Nat)

/-- The loop comes to the cluster that is one more: the clusters that are needed can be read, neither the limit nor the
file ends in them, and there is one more. -/
def LooksBehind : Prop :=
  ¬ Overflows v limit ∧ neededClusters v limit < 2 ^ 31 ∧ last ≠ 0 ∧ last + 1 < 2 ^ 32 ∧
    ∃ cs cache', fat32FATchain v cache fd.directoryCurr (neededClusters v limit) =
        some (cs ++ [last], cache') ∧ Whole v cs limit fd.dirEnt.filesize.toNat fd.ptr 0 0

/-- Bytes are left to copy, or the cluster is the number 1, which is none. -/
def Matters : Prop :=
  last = 1 ∨ copied v fd.ptr (neededClusters v limit) < limit ∧
    fd.ptr + copied v fd.ptr (neededClusters v limit) < fd.dirEnt.filesize.toNat

end

theorem waiting_start (fd : FAT32OpenFd) (cs : List Nat) :
    Waiting v cs fd.ptr 0 0 ⟨fd.ptr, fd.directoryCurr, [], none⟩ := by
  have hzero : copied v fd.ptr 0 = 0 := by rw [copied, Nat.zero_mul, Nat.zero_sub]
  exact ⟨.inl ⟨rfl, rfl⟩, fun k hk => absurd hk (not_lt_zero _), by rw [hzero]; rfl, hzero.symm⟩

theorem fat32ReadWith_of_not (hfile : fd.dirEnt.attrib &&& fatAttribDirectory = 0)
    (hnot : ∀ last, ¬ LooksBehind v cache fd limit last) (past : Nat) :
    fat32ReadWith v cache fd limit [past] = fat32ReadWith v cache fd limit [] := by
  by_cases hfits : Overflows v limit
  · simp only [fat32ReadWith, hfile, if_pos hfits]
  cases hchain : fat32FATchain v cache fd.directoryCurr (neededClusters v limit) with
  | none => simp [fat32ReadWith, hfile, hchain]
  | some r =>
    obtain ⟨chain, cache'⟩ := r
    obtain ⟨cs, last, rfl, hlength, hsmall⟩ := fat32FATchain_spec hchain
    have hB : 0 < v.bytesPerCluster := Nat.pos_of_ne_zero fun h => hfits (.inl h)
    rw [fat32ReadWith_eq hfile hfits hchain, fat32ReadWith_eq hfile hfits hchain]
    apply congrArg
    by_cases hneeded : neededClusters v limit < 2 ^ 31
    swap
    · -- the number is negative, and the loop has no rounds
      rw [rounds, if_neg hneeded]
      rfl
    rw [rounds, if_pos hneeded]
    obtain ⟨hreach, hstop⟩ := readLoop_rounds limit fd.dirEnt.filesize.toNat hB hsmall last (zero_add cs.length)
      (waiting_start fd cs)
    rw [← hlength, append_assoc, append_assoc]
    by_cases hwhole : Whole v cs limit fd.dirEnt.filesize.toNat fd.ptr 0 0
    · obtain ⟨s, hs, hrounds⟩ := hreach hwhole
      rw [singleton_append, append_nil, hrounds [past], hrounds []]
      by_cases hlast : last = 0
      · rw [hlast, readLoop_of_zero (by simp), readLoop_of_zero (by simp)]
      have hbig : 2 ^ 32 ≤ last + 1 := by
        by_contra hlt
        exact hnot last ⟨hfits, hneeded, hlast, by omega, cs, cache', hchain, hwhole⟩
      have hover : consecutive cs.length (cs ++ [last, past]) cs.length last = none := by
        simp only [consecutive, add_eq_left, one_ne_zero, if_false, if_pos hbig, bind_eq_bind]
        simp
      rw [readLoop_last_nil hlast]
      simp [readLoop, hlast, hover]
    · exact hstop hwhole [past] []

theorem fat32ReadWith_of_looksBehind (hfile : fd.dirEnt.attrib &&& fatAttribDirectory = 0) {last : Nat}
    (hlooks : LooksBehind v cache fd limit last) : fat32ReadWith v cache fd limit [] = none ∧
    ∃ out, (fat32ReadWith v cache fd limit [last + 1]).map fst = some out ∧ ∀ past ≠ last + 1,
      ((fat32ReadWith v cache fd limit [past]).map fst = some out ↔ ¬ Matters v fd limit last) := by
  obtain ⟨hfits, hneeded, hlast, hsmall, cs, cache', hchain, hwhole⟩ := hlooks
  have hB : 0 < v.bytesPerCluster := Nat.pos_of_ne_zero fun h => hfits (.inl h)
  obtain ⟨cs', last', heq, hlength, hsmall'⟩ := fat32FATchain_spec hchain
  obtain ⟨rfl, -⟩ := append_inj' heq rfl
  obtain ⟨hreach, -⟩ := readLoop_rounds limit fd.dirEnt.filesize.toNat hB hsmall' last (zero_add cs.length)
    (waiting_start fd cs)
  obtain ⟨s, hs, hrounds⟩ := hreach hwhole
  have hcall : ∀ behind, fat32ReadWith v cache fd limit behind = _ := fat32ReadWith_eq hfile hfits hchain
  have hptr := hs.ptr
  have hout := hs.out
  have hstart : s.consecStart = none := by
    rcases hs.consecStart with ⟨-, hstart⟩ | ⟨hlt, -⟩
    · exact hstart
    · exact absurd hlt (lt_irrefl _)
  rw [rounds, if_pos hneeded] at hcall
  simp only [hcall, append_assoc, singleton_append, hrounds, Matters, ← hlength]
  rw [readLoop_last_nil hlast, readLoop_last_next hlast hsmall]
  refine ⟨rfl, s.out, rfl, fun past hpast => ?_⟩
  have hcopy := readLoop_last_copy (v := v) limit fd.dirEnt.filesize.toNat cs hlast hsmall hpast hstart
  have hmod := mod_lt s.ptr hB
  by_cases hone : last = 1
  · rw [if_pos hone] at hcopy
    rw [hcopy]
    simp [hone]
  · rw [if_neg hone] at hcopy
    obtain ⟨s', bytes, hloop, hbytes, hbyteslen⟩ := hcopy
    rw [hloop, map_some, map_some, hbytes, some.injEq, append_right_eq_self, ← length_eq_zero_iff, hbyteslen]
    omega

/-- **The array of clusters.** A call for a file needs no value behind the array if and only if it does not look there,
and the bytes that it returns depend on what is there if and only if it matters. -/
theorem fat32Read_inside_iff (hfile : fd.dirEnt.attrib &&& fatAttribDirectory = 0) :
    ((∀ past, fat32Read v cache fd limit past = fat32ReadWith v cache fd limit []) ↔
      ∀ last, ¬ LooksBehind v cache fd limit last) ∧
    ((∀ past past', (fat32Read v cache fd limit past).map Prod.fst = (fat32Read v cache fd limit past').map Prod.fst) ↔
      ∀ last, LooksBehind v cache fd limit last → ¬ Matters v fd limit last) := by
  simp only [fat32Read]
  constructor
  · constructor
    · intro hall last hlooks
      obtain ⟨hnone, out, hsome, -⟩ := fat32ReadWith_of_looksBehind hfile hlooks
      rw [hall, hnone] at hsome
      exact absurd hsome (by simp)
    · exact fat32ReadWith_of_not hfile
  · constructor
    · intro hall last hlooks
      obtain ⟨-, out, hsome, hmatters⟩ := fat32ReadWith_of_looksBehind hfile hlooks
      refine (hmatters 0 (by omega)).1 ?_
      rw [hall 0 (last + 1), hsome]
    · intro hnot
      by_cases hlooks : ∃ last, LooksBehind v cache fd limit last
      · obtain ⟨last, hlooks⟩ := hlooks
        obtain ⟨-, out, hsome, hmatters⟩ := fat32ReadWith_of_looksBehind hfile hlooks
        have hbytes : ∀ past, (fat32ReadWith v cache fd limit [past]).map fst = some out := by
          intro past
          by_cases hpast : past = last + 1
          · rw [hpast, hsome]
          · exact (hmatters past hpast).2 (hnot last hlooks)
        intro past past'
        rw [hbytes past, hbytes past']
      · intro past past'
        rw [fat32ReadWith_of_not hfile (not_exists.1 hlooks) past, fat32ReadWith_of_not hfile (not_exists.1 hlooks) past']

def beforeEnd : FAT32OpenFd := ⟨510, 2, twoClustersEntry⟩

/-- One byte is read without a look behind the array. -/
theorem fat32Read_inside_iff_beforeEnd :
    (∀ past, fat32Read twoClusters mountCache beforeEnd 1 past = fat32ReadWith twoClusters mountCache beforeEnd 1 []) ∧
      ∀ last, ¬ LooksBehind twoClusters mountCache beforeEnd 1 last := by
  have hnot : ∀ last, ¬ LooksBehind twoClusters mountCache beforeEnd 1 last := by
    rintro last ⟨-, -, -, -, cs, cache', hchain, hwhole⟩
    obtain ⟨cs', last', heq, hlength, -⟩ := fat32FATchain_spec hchain
    obtain ⟨rfl, -⟩ := append_inj' heq rfl
    have hlimit := hwhole.limit (by rw [hlength]; decide)
    rw [hlength] at hlimit
    exact absurd hlimit (by decide)
  exact ⟨(fat32Read_inside_iff (by decide)).1.2 hnot, hnot⟩

/-- Four bytes are asked for. Two of them are in the next cluster, which is the one more of the array. They are
returned if the memory behind the array holds 0, and not if it holds 4. -/
theorem fat32Read_behind : (fat32Read twoClusters mountCache beforeEnd 4 0).map (fun r => r.1.length) = some 4 ∧
      (fat32Read twoClusters mountCache beforeEnd 4 4).map (fun r => r.1.length) = some 2 := by decide

end CoreX.Fat32

import CoreX.Fat32.File

/-!
# Seeking in a file (`filesystems/fat32/fat32.rs`)

`fat32Seek` goes on from the cluster of the old position if the target is not before it, and from the first cluster of
the file if it is. In both cases it follows the table for the number of clusters from the old position to the target,
so a seek backwards is right only within the first cluster (`fat32Seek_iff`).
-/

namespace CoreX.Fat32

open Links Memory Option

/-! ## The model -/

def seekLoop (v : Volume) : Nat → Cache → Nat → Option (Nat × Cache)
  | 0, cache, curr => some (curr, cache)
  | n + 1, cache, curr => do
    let (curr, cache) ← fat32FATtraverse v cache curr
    if curr = 0 then some (0, cache) else seekLoop v n cache curr

def seekCurr : Int := 1

/-- `fat32Seek`, where `none` is an overflow, an underflow or a division by zero. -/
def fat32Seek (v : Volume) (cache : Cache) (fd : FAT32OpenFd) (target : Nat) (whence : Int) :
    Option (Except Nat Nat × FAT32OpenFd × Cache) :=
  let target := if whence = seekCurr then target + fd.ptr else target
  if 2 ^ 64 ≤ target then none
  else if fd.dirEnt.attrib &&& fatAttribDirectory ≠ 0 then some (.error 22, fd, cache)
  else if fd.dirEnt.filesize.toNat < target then some (.error 22, fd, cache)
  else
    let curr := if target < fd.ptr then fd.dirEnt.cluster else fd.directoryCurr
    let skipTo := target / v.bytesPerCluster
    let skipOld := fd.ptr / v.bytesPerCluster
    if v.bytesPerCluster = 0 ∨ skipTo < skipOld then none
    else (seekLoop v (skipTo - skipOld) cache curr).map fun (curr, cache) =>
      (.ok target, { fd with ptr := target, directoryCurr := curr }, cache)

/-! ## Where a seek ends -/

variable {v : Volume} {cs : List Nat} {filesize k : Nat} {cache : Cache} {fd : FAT32OpenFd} {target : Nat}
  {whence : Int}

theorem seekLoop_eq (hfile : File v cs filesize) (hcoherent : Coherent v cache) {n : Nat} (hle : k + n ≤ cs.length) :
    ∃ cache', seekLoop v n cache (cs[k]?.getD 0) = some (cs[k + n]?.getD 0, cache') ∧ Coherent v cache' := by
  induction n generalizing k cache with
  | zero => exact ⟨cache, rfl, hcoherent⟩
  | succ n ih =>
    obtain ⟨c, hc⟩ : ∃ c, cs[k]? = some c := ⟨_, List.getElem?_eq_getElem (show k < cs.length by omega)⟩
    obtain ⟨cache', hfind, hcoherent'⟩ := hfile.traverse_eq hcoherent hc
    rw [hc, getD_some, seekLoop, hfind]
    simp only [bind_eq_bind, bind_some]
    cases hnext : cs[k + 1]? with
    | none =>
      have hlength := List.getElem?_eq_none_iff.1 hnext
      obtain rfl : n = 0 := by omega
      exact ⟨cache', by rw [hnext]; rfl, hcoherent'⟩
    | some c' =>
      have hne : c' ≠ 0 := by
        have htwo := (hfile.cluster c' (List.mem_of_getElem? hnext)).1
        omega
      obtain ⟨cache'', hloop, hcoherent''⟩ := ih hcoherent' (k := k + 1) (by omega)
      refine ⟨cache'', ?_, hcoherent''⟩
      rw [getD_some, if_neg hne, ← getD_some (a := c') (b := 0), ← hnext, hloop]
      congr 4
      omega

def requested (fd : FAT32OpenFd) (target : Nat) (whence : Int) : Nat :=
  if whence = seekCurr then target + fd.ptr else target

theorem fat32Seek_underflow (hregular : fd.dirEnt.attrib &&& fatAttribDirectory = 0)
    (hpos : requested fd target whence ≤ fd.dirEnt.filesize.toNat)
    (hskip : requested fd target whence / v.bytesPerCluster < fd.ptr / v.bytesPerCluster) :
    fat32Seek v cache fd target whence = none := by
  have hsize : fd.dirEnt.filesize.toNat < 2 ^ 32 := fd.dirEnt.filesize.toNat_lt
  unfold requested at hpos hskip
  rw [fat32Seek, if_neg (by omega), if_neg (not_not.2 hregular), if_neg (by omega), if_pos (.inr hskip)]

section
variable (v cs cache fd target whence)

/-- The call returns `pos` and leaves the descriptor there, in the cluster of that byte, so that the next
`fat32Read` starts at it. -/
def SeeksTo (pos : Nat) : Prop :=
  ∃ fd' cache', fat32Seek v cache fd target whence = some (.ok pos, fd', cache') ∧ fd'.ptr = pos ∧
    (pos < fd.dirEnt.filesize.toNat → cs[pos / v.bytesPerCluster]? = some fd'.directoryCurr) ∧
    ∀ limit past, 1 ≤ limit → limit < 2 ^ 31 → ∃ n fd'' cache'',
      fat32Read v cache' fd' limit past = some (slice (byteAt v cs) pos n, fd'', cache'') ∧ n ≤ limit ∧
        (pos < fd.dirEnt.filesize.toNat → 1 ≤ n)

end

section
variable (hfile : File v cs fd.dirEnt.filesize.toNat) (hcoherent : Coherent v cache)
  (hregular : fd.dirEnt.attrib &&& fatAttribDirectory = 0)
  (hpos : requested fd target whence ≤ fd.dirEnt.filesize.toNat)
  (hcurr : (if requested fd target whence < fd.ptr then fd.dirEnt.cluster else fd.directoryCurr) = cs[k]?.getD 0)
  (hskip : fd.ptr / v.bytesPerCluster ≤ requested fd target whence / v.bytesPerCluster)
  (hle : k + (requested fd target whence / v.bytesPerCluster - fd.ptr / v.bytesPerCluster) ≤ cs.length)
include hfile hcoherent hregular hpos hcurr hskip hle

theorem fat32Seek_eq :
    ∃ fd' cache', fat32Seek v cache fd target whence = some (.ok fd'.ptr, fd', cache') ∧
      fd'.ptr = requested fd target whence ∧ fd'.directoryCurr =
        cs[k + (requested fd target whence / v.bytesPerCluster - fd.ptr / v.bytesPerCluster)]?.getD 0 ∧
      fd'.dirEnt = fd.dirEnt ∧ Coherent v cache' := by
  obtain ⟨cache', hloop, hcoherent'⟩ := seekLoop_eq hfile hcoherent hle
  have hsize : fd.dirEnt.filesize.toNat < 2 ^ 32 := fd.dirEnt.filesize.toNat_lt
  have hB := hfile.bytesPerCluster_pos
  refine ⟨{ fd with ptr := requested fd target whence, directoryCurr := _ }, cache', ?_, rfl, rfl, rfl, hcoherent'⟩
  rw [← hcurr] at hloop
  unfold requested at hpos hskip hloop ⊢
  rw [fat32Seek, if_neg (by omega), if_neg (not_not.2 hregular), if_neg (by omega), if_neg (by omega), hloop]
  rfl

theorem SeeksTo.of_start
    (hk : requested fd target whence < fd.dirEnt.filesize.toNat → k = fd.ptr / v.bytesPerCluster) :
    SeeksTo v cs cache fd target whence (requested fd target whence) := by
  obtain ⟨fd', cache', hseek, hptr, hcurr', hdirEnt, hcoherent'⟩ :=
    fat32Seek_eq hfile hcoherent hregular hpos hcurr hskip hle
  have hat : Positioned v cs fd' := by
    rw [← hdirEnt] at hregular hpos hk
    refine ⟨hregular, hptr ▸ hpos, _, hle, hcurr', fun hlt => ?_⟩
    rw [hk (hptr ▸ hlt), hptr]
    exact Nat.add_sub_cancel' hskip
  refine ⟨fd', cache', hptr ▸ hseek, hptr, ?_, fun limit past hlimit hlimit' => ?_⟩
  · rw [← hptr, ← hdirEnt]
    exact hat.curr_eq (hdirEnt ▸ hfile)
  · obtain ⟨n, fd'', cache'', hread, hn, hn', -⟩ :=
      fat32Read_spec (hdirEnt ▸ hfile) hcoherent' hat hlimit hlimit' past
    rw [← hptr, ← hdirEnt]
    exact ⟨n, fd'', cache'', hread, hn, hn'⟩

end

/-- **A seek in a file** ends at the position it asks for if and only if that is not before the old one or the old one
is in the first cluster. -/
theorem fat32Seek_iff (hfile : File v cs fd.dirEnt.filesize.toNat) (hcoherent : Coherent v cache)
    (hpositioned : Positioned v cs fd) (hfirst : fd.dirEnt.cluster = cs.head?.getD 0)
    (hpos : requested fd target whence ≤ fd.dirEnt.filesize.toNat) :
    SeeksTo v cs cache fd target whence (requested fd target whence) ↔
      fd.ptr ≤ requested fd target whence ∨ fd.ptr < v.bytesPerCluster := by
  have hB := hfile.bytesPerCluster_pos
  have hregular := hpositioned.regular
  rw [List.head?_eq_getElem?] at hfirst
  have hlength : requested fd target whence / v.bytesPerCluster ≤ cs.length :=
    Nat.div_le_of_le_mul (by rw [Nat.mul_comm]; exact hpos.trans hfile.filesize_le)
  constructor
  · rintro ⟨fd', cache', hseek, -, hcluster, -⟩
    by_contra! hback
    have hlt := hback.1
    have hmono := Nat.div_le_div_right (c := v.bytesPerCluster) hlt.le
    have hptr : 1 ≤ fd.ptr / v.bytesPerCluster := (Nat.one_le_div_iff hB).2 hback.2
    by_cases hskip : requested fd target whence / v.bytesPerCluster < fd.ptr / v.bytesPerCluster
    · rw [fat32Seek_underflow hregular hpos hskip] at hseek
      cases hseek
    -- in one cluster the descriptor is left at the first cluster, which is in the chain only once
    obtain ⟨fd'', cache'', hsame, -, hcurr, -⟩ := fat32Seek_eq hfile hcoherent hregular hpos (k := 0)
      (by rw [if_pos hlt, hfirst]) (by omega) (by omega)
    rw [hseek] at hsame
    obtain rfl : fd' = fd'' := congrArg (fun r => r.2.1) (some.inj hsame)
    have hget := hcluster (by have hle := hpositioned.ptr_le; omega)
    have hlt_length : 0 < cs.length := (Nat.zero_le _).trans_lt (List.getElem?_eq_some_iff.1 hget).1
    have hzero : cs[0]? = cs[requested fd target whence / v.bytesPerCluster]? := by
      rw [hget, hcurr, Nat.sub_eq_zero_of_le (by omega), List.getElem?_eq_getElem hlt_length, getD_some]
    have hindex := (List.getElem?_inj hlt_length hfile.linked.nodup).1 hzero
    omega
  · intro hright
    by_cases hforward : fd.ptr ≤ requested fd target whence
    · obtain ⟨q, hq, hcurr, hq_eq⟩ := hpositioned.curr
      have hskip := Nat.div_le_div_right (c := v.bytesPerCluster) hforward
      refine SeeksTo.of_start hfile hcoherent hregular hpos (k := q) (by rw [if_neg (by omega), hcurr]) hskip ?_
        fun hlt => hq_eq (by omega)
      by_cases hlt : fd.ptr < fd.dirEnt.filesize.toNat
      · rw [hq_eq hlt]
        omega
      · have hsame : requested fd target whence = fd.ptr := by omega
        rw [hsame]
        omega
    · have hptr : fd.ptr / v.bytesPerCluster = 0 := Nat.div_eq_of_lt (hright.resolve_left hforward)
      have hskip : requested fd target whence / v.bytesPerCluster = 0 := Nat.div_eq_of_lt (by omega)
      exact SeeksTo.of_start hfile hcoherent hregular hpos (k := 0) (by rw [if_pos (by omega), hfirst]) (by omega)
        (by omega) fun _ => hptr.symm

def twoClustersFd : FAT32OpenFd := ⟨520, 3, twoClustersEntry⟩

theorem fat32Seek_iff_twoClusters : SeeksTo twoClusters [2, 3] mountCache twoClustersFd 30 seekCurr 550 :=
  (fat32Seek_iff file_twoClusters (coherent_mountCache _)
    ⟨by decide, by decide, 1, by decide, by decide, fun _ => by decide⟩ (by decide) (by decide)).2
    (.inl (by decide))

/-- Seeks backwards from there: to the start of the file, which is an underflow, and to the byte 515, which leaves the
descriptor at the first cluster. -/
theorem fat32Seek_backwards : fat32Seek twoClusters mountCache twoClustersFd 0 0 = none ∧
    fat32Seek twoClusters mountCache twoClustersFd 515 0 =
      some (.ok 515, { twoClustersFd with ptr := 515, directoryCurr := 2 }, mountCache) ∧
    ¬ SeeksTo twoClusters [2, 3] mountCache twoClustersFd 0 0 0 ∧
    ¬ SeeksTo twoClusters [2, 3] mountCache twoClustersFd 515 0 515 := by
  have hunderflow : fat32Seek twoClusters mountCache twoClustersFd 0 0 = none :=
    fat32Seek_underflow (by decide) (by decide) (by decide)
  have hwrong : fat32Seek twoClusters mountCache twoClustersFd 515 0 =
      some (.ok 515, { twoClustersFd with ptr := 515, directoryCurr := 2 }, mountCache) := by
    rw [fat32Seek, if_neg (by decide), if_neg (by decide), if_neg (by decide), if_neg (by decide),
      if_neg (by decide), if_pos (by decide), show twoClustersFd.dirEnt.cluster = 2 by decide,
      show 515 / twoClusters.bytesPerCluster - twoClustersFd.ptr / twoClusters.bytesPerCluster = 0 by decide,
      seekLoop, map_some]
  refine ⟨hunderflow, hwrong, ?_, ?_⟩
  · rintro ⟨fd', cache', hseek, -⟩
    rw [hunderflow] at hseek
    cases hseek
  · rintro ⟨fd', cache', hseek, -, hcluster, -⟩
    rw [hwrong] at hseek
    cases hseek
    exact absurd (hcluster (by decide)) (by decide)

end CoreX.Fat32

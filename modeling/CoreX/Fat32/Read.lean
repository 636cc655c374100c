import CoreX.Fat32.Fat

/-!
# Reading a file (`filesystems/fat32/fat32.rs`)

`fat32Read` goes over the numbers of the clusters that it may need. Clusters with consecutive numbers are read from
the disk in one piece, and a flag remembers where such a run starts. Bytes are copied one by one until the limit or
the end of the file. The array of clusters is followed in memory by `past`. The number of clusters that are needed is
cut to 32 bits (`neededClusters`).
-/

namespace CoreX.Fat32

open Memory Sectors Nat

structure FAT32DirectoryEntry where
  attrib : UInt8
  clusterhigh : UInt16
  clusterlow : UInt16
  filesize : UInt32

structure FAT32OpenFd where
  ptr : Nat
  directoryCurr : Nat
  dirEnt : FAT32DirectoryEntry

def fatAttribDirectory : UInt8 := 0x10

def fatCombHighLow (h l : UInt16) : Nat := h.toNat * 2 ^ 16 + l.toNat

def FAT32DirectoryEntry.cluster (dirEnt : FAT32DirectoryEntry) : Nat :=
  fatCombHighLow dirEnt.clusterhigh dirEnt.clusterlow

def fat32Open (dirEnt : FAT32DirectoryEntry) : FAT32OpenFd := ⟨0, dirEnt.cluster, dirEnt⟩

def copyLoop (buf : Buf) (limit filesize : Nat) : Nat → Nat → Nat → Bytes → Bool × Nat × Bytes
  | 0, _, ptr, out => (false, ptr, out)
  | n + 1, j, ptr, out =>
    if limit ≤ out.length ∨ filesize ≤ ptr then (true, ptr, out)
    else copyLoop buf limit filesize n (j + 1) (ptr + 1) (out ++ [buf j])

structure ReadState where
  ptr : Nat
  directoryCurr : Nat
  out : Bytes
  consecStart : Option Nat

/-- Whether the cluster behind the `i`-th one has the next number. It is not looked at in the round `needed - 1`. -/
def consecutive (needed : Nat) (chain : List Nat) (i cl : Nat) : Option Bool :=
  if i + 1 = needed then some false
  else do
    let next ← chain[i + 1]?
    if 2 ^ 32 ≤ cl + 1 then none else some (next = cl + 1)

def readClusters (v : Volume) (chain : List Nat) (consecStart : Option Nat) (i cl : Nat) :
    Option (Buf × Nat) :=
  match consecStart with
  | some start => do
    let neededClusters := i - start + 1
    let cluster ← chain[start]?
    let lba ← fat32ClusterToLBA v cluster
    some (readSectors v.disk v.heap lba (neededClusters * v.sectorsPerCluster % 2 ^ 32),
      neededClusters * v.bytesPerCluster)
  | none => do
    let lba ← fat32ClusterToLBA v cl
    some (readSectors v.disk v.heap lba v.sectorsPerCluster, v.bytesPerCluster)

def readLoop (v : Volume) (limit filesize needed : Nat) (chain : List Nat) : Nat → Nat → ReadState → Option ReadState
  | 0, _, s => some s
  | n + 1, i, s => do
    let cl ← chain[i]?
    if cl = 0 then some s
    else
      let s := { s with directoryCurr := cl }
      if ← consecutive needed chain i cl then
        readLoop v limit filesize needed chain n (i + 1) { s with consecStart := s.consecStart.or (some i) }
      else
        let offset := s.ptr % v.bytesPerCluster
        let (buf, size) ← readClusters v chain s.consecStart i cl
        let (cleanup, ptr, out) := copyLoop buf limit filesize (size - offset) offset s.ptr s.out
        let s := { s with ptr, out, consecStart := none }
        if cleanup then some s else readLoop v limit filesize needed chain n (i + 1) s

def divRoundUp (a b : Nat) : Nat := (a + b - 1) / b

theorem le_divRoundUp_mul (a : Nat) {b : Nat} (hb : 0 < b) : a ≤ divRoundUp a b * b := by
  have hdiv := div_add_mod' (a + b - 1) b
  have hmod := mod_lt (a + b - 1) hb
  unfold divRoundUp
  omega

theorem divRoundUp_sub_one_mul_lt {a b : Nat} (ha : 0 < a) (hb : 0 < b) : (divRoundUp a b - 1) * b < a := by
  have hdiv := div_add_mod' (a + b - 1) b
  unfold divRoundUp
  rw [Nat.sub_mul, Nat.one_mul]
  omega

/-- The bits that `as i32` keeps of the number of clusters. -/
def neededClusters (v : Volume) (limit : Nat) : Nat := divRoundUp limit v.bytesPerCluster % 2 ^ 32

/-- `DivRoundUp` cannot be computed, or `amount + 1` in `fat32FATchain` or `needed + 1` overflows. -/
def Overflows (v : Volume) (limit : Nat) : Prop :=
  v.bytesPerCluster = 0 ∨ 2 ^ 64 < limit + v.bytesPerCluster ∨ neededClusters v limit = 2 ^ 32 - 1 ∨
    neededClusters v limit = 2 ^ 31 - 1

instance (v : Volume) (limit : Nat) : Decidable (Overflows v limit) := inferInstanceAs (Decidable (_ ∨ _ ∨ _ ∨ _))

/-- The rounds of the loop up to `needed + 1`, none if the number is negative. -/
def rounds (needed : Nat) : Nat := if needed < 2 ^ 31 then needed + 1 else 0

section
variable (v : Volume) (cache : Cache) (fd : FAT32OpenFd) (limit : Nat)

/-- `fat32Read` with what lies behind the array. A look at what is not there is an error. -/
def fat32ReadWith (behind : List Nat) : Option (Bytes × FAT32OpenFd × Cache) :=
  if fd.dirEnt.attrib &&& fatAttribDirectory ≠ 0 then some ([], fd, cache)
  else if Overflows v limit then none
  else do
    let needed := neededClusters v limit
    let (chain, cache) ← fat32FATchain v cache fd.directoryCurr needed
    let s ← readLoop v limit fd.dirEnt.filesize.toNat needed (chain ++ behind) (rounds needed) 0
      ⟨fd.ptr, fd.directoryCurr, [], none⟩
    some (s.out, { fd with ptr := s.ptr, directoryCurr := s.directoryCurr }, cache)

def fat32Read (past : Nat) : Option (Bytes × FAT32OpenFd × Cache) := fat32ReadWith v cache fd limit [past]

variable {v limit}

theorem neededClusters_eq (hB : 0 < v.bytesPerCluster) (hlimit : limit < 2 ^ 31) :
    neededClusters v limit = divRoundUp limit v.bytesPerCluster ∧ divRoundUp limit v.bytesPerCluster < 2 ^ 31 - 1 ∧
      ¬ Overflows v limit := by
  have hsectors := v.sectors_lt
  have hcluster : v.bytesPerCluster = v.sectorsPerCluster * 512 := rfl
  have hsmall : divRoundUp limit v.bytesPerCluster < 2 ^ 31 - 1 := by
    rw [divRoundUp, Nat.div_lt_iff_lt_mul hB]
    omega
  have hneeded : neededClusters v limit = divRoundUp limit v.bytesPerCluster := mod_eq_of_lt (by omega)
  refine ⟨hneeded, hsmall, ?_⟩
  rw [Overflows, hneeded]
  omega

variable {cache fd}

theorem fat32ReadWith_eq {cache' : Cache} {chain : List Nat} (hfile : fd.dirEnt.attrib &&& fatAttribDirectory = 0)
    (hfits : ¬ Overflows v limit)
    (hchain : fat32FATchain v cache fd.directoryCurr (neededClusters v limit) = some (chain, cache'))
    (behind : List Nat) : fat32ReadWith v cache fd limit behind =
      (readLoop v limit fd.dirEnt.filesize.toNat (neededClusters v limit) (chain ++ behind)
        (rounds (neededClusters v limit)) 0 ⟨fd.ptr, fd.directoryCurr, [], none⟩).map fun s =>
          (s.out, { fd with ptr := s.ptr, directoryCurr := s.directoryCurr }, cache') := by
  rw [fat32ReadWith, if_neg (not_not.2 hfile), if_neg hfits]
  dsimp only
  rw [hchain, Option.map_eq_bind]
  rfl

end

variable {buf : Buf} {limit filesize : Nat}

theorem copyLoop_eq (buf : Buf) (limit filesize n j ptr : Nat) (out : Bytes) :
    copyLoop buf limit filesize n j ptr out = (decide (min (limit - out.length) (filesize - ptr) < n),
        ptr + min n (min (limit - out.length) (filesize - ptr)),
        out ++ slice buf j (min n (min (limit - out.length) (filesize - ptr)))) := by
  induction n generalizing j ptr out with
  | zero => simp [copyLoop, slice]
  | succ n ih =>
    rw [copyLoop]
    split_ifs with hleave
    · have hzero : min (limit - out.length) (filesize - ptr) = 0 := by omega
      rw [hzero]
      simp [slice]
    obtain ⟨m, hm⟩ : ∃ m, m + 1 = min (limit - out.length) (filesize - ptr) := ⟨_, Nat.sub_add_cancel (by omega)⟩
    have hm' : min (limit - (out ++ [buf j]).length) (filesize - (ptr + 1)) = m := by
      rw [List.length_append, List.length_singleton]
      omega
    rw [ih, hm', ← hm, Nat.add_min_add_right, slice_succ, List.append_assoc, List.singleton_append]
    simp only [add_lt_add_iff_right, Prod.mk.injEq, true_and, and_true]
    omega

/-! ## Rounds -/

variable {v : Volume} {needed i n cl size : Nat} {chain : List Nat} {s : ReadState}

theorem consecutive_eq (needed : Nat) {next : Nat} (hnext : chain[i + 1]? = some next) (hcl : cl + 1 < 2 ^ 32) :
    consecutive needed chain i cl = some (decide (i + 1 ≠ needed ∧ next = cl + 1)) := by
  rw [consecutive, hnext]
  by_cases hlast : i + 1 = needed
  · simp [hlast]
  · simp only [hlast, if_false, Option.bind_eq_bind, Option.bind_some, if_neg (not_le.2 hcl), ne_eq,
      not_false_eq_true, true_and]

theorem readLoop_of_zero (hcl : chain[i]? = some 0) :
    readLoop v limit filesize needed chain (n + 1) i s = some s := by
  simp [readLoop, hcl]

theorem readLoop_of_consecutive (hcl : chain[i]? = some cl) (hne : cl ≠ 0)
    (hcons : consecutive needed chain i cl = some true) :
    readLoop v limit filesize needed chain (n + 1) i s = readLoop v limit filesize needed chain n (i + 1)
      { s with directoryCurr := cl, consecStart := s.consecStart.or (some i) } := by
  simp [readLoop, hcl, hne, hcons]

theorem readLoop_of_copy (hcl : chain[i]? = some cl) (hne : cl ≠ 0)
    (hcons : consecutive needed chain i cl = some false)
    (hread : readClusters v chain s.consecStart i cl = some (buf, size)) {cleanup : Bool} {ptr : Nat}
    {out : Bytes}
    (hcopy : copyLoop buf limit filesize (size - s.ptr % v.bytesPerCluster) (s.ptr % v.bytesPerCluster) s.ptr s.out =
      (cleanup, ptr, out)) : readLoop v limit filesize needed chain (n + 1) i s =
      if cleanup then some ⟨ptr, cl, out, none⟩
      else readLoop v limit filesize needed chain n (i + 1) ⟨ptr, cl, out, none⟩ := by
  simp [readLoop, hcl, hne, hcons, hread, hcopy]

end CoreX.Fat32

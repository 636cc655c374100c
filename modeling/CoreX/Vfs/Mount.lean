import Mathlib.Data.List.TakeWhile
import CoreX.Vfs.Returns

/-!
# Mount points (`filesystems/vfs/vfs-mnt.rs`)

`determine_mount_point` scans the mount table for the longest prefix that ends at a component of the name; of equal
ones it takes the latest (`determineMountPoint_longest`). `unmount` removes the first entry that has the prefix.
-/

namespace CoreX.Vfs

open Segments Option

inductive FileSystem where
  | fat32 | ext2 | dev | sys | proc
  deriving DecidableEq

inductive Connector where
  | ahci | dev | sys | proc
  deriving DecidableEq

structure MbrPartition where
  lbaFirstSector : UInt32
  partitionType : UInt8
  deriving DecidableEq

structure MountPoint where
  mountPrefix : Bytes
  disk : Option UInt32
  partition : Option UInt8
  connector : Connector
  filesystem : FileSystem
  mbr : Option MbrPartition
  deriving DecidableEq

def Connector.filesystem : Connector → FileSystem
  | .ahci => .fat32
  | .dev => .dev
  | .sys => .sys
  | .proc => .proc

def simulatedMbr : MbrPartition := ⟨2048, 0x83⟩

def newMount (mountPrefix : Bytes) (connector : Connector) (disk : Option UInt32)
    (partition : Option UInt8) : Option MountPoint :=
  let mount : MountPoint := ⟨mountPrefix, disk, partition, connector, connector.filesystem, none⟩
  if connector = .ahci then
    disk.map fun _ => { mount with
      mbr := some simulatedMbr
      filesystem := if simulatedMbr.partitionType = 0x83 then .ext2 else .fat32 }
  else some mount

section
variable (mounts : List MountPoint) (mountPrefix : Bytes) (connector : Connector)

def mount (disk : Option UInt32) (partition : Option UInt8) : Option (MountPoint × List MountPoint) :=
  (newMount mountPrefix connector disk partition).map fun m => (m, mounts ++ [m])

def unmount (mount : MountPoint) : Bool × List MountPoint :=
  match mounts.findIdx? fun m => m.mountPrefix = mount.mountPrefix with
  | some pos => (true, mounts.eraseIdx pos)
  | none => (false, mounts)

section
variable (filename : Bytes) (m : MountPoint)

/-- The test of `determine_mount_point` on one entry; `none` is a panic. -/
def mountMatches : Option Bool :=
  let len := m.mountPrefix.length - 1
  (sliceTo m.mountPrefix len).bind fun head =>
    if head.isPrefixOf filename then
      if filename.length = len then some true else filename[len]?.map (· == slash)
    else some false

def scanMounts (filename : Bytes) : List MountPoint → Option MountPoint → Nat → Option (Option MountPoint)
  | [], best, _ => some best
  | m :: ms, best, largestLen =>
    (mountMatches filename m).bind fun hit =>
      let len := m.mountPrefix.length - 1
      if hit ∧ len ≥ largestLen then scanMounts filename ms (some m) len
      else scanMounts filename ms best largestLen

def determineMountPoint : Option (Option MountPoint) :=
  scanMounts filename mounts none 0

def sliceFrom (s : Bytes) (i : Nat) : Option Bytes :=
  if isCharBoundary s i then some (s.drop i) else none

/-- `fs_strip_mountpoint` (`vfs-sanitize.rs`); the length of an empty prefix underflows. -/
def fsStripMountpoint (mnt : MountPoint) : Option Bytes :=
  if mnt.mountPrefix = [] then none
  else
    let prefixLen := mnt.mountPrefix.length - 1
    if filename.length > prefixLen then sliceFrom filename prefixLen else some [slash]

/-! ## The longest prefix -/

def MountPoint.root : Bytes := m.mountPrefix.dropLast

/-- The mount point is on the path. -/
def MountPoint.Covers (filename : Bytes) : Prop := m.root.splitOn slash <+: filename.splitOn slash

instance (m : MountPoint) (filename : Bytes) : Decidable (m.Covers filename) :=
  inferInstanceAs (Decidable (_ <+: _))

/-- `b` covers the name, no entry before it that does is longer, and every entry behind it that does is
shorter. -/
def Longest (b : MountPoint) : Prop :=
  ∃ older newer, mounts = older ++ b :: newer ∧ b.Covers filename ∧
    (∀ m ∈ older, m.Covers filename → m.root.length ≤ b.root.length) ∧
    ∀ m ∈ newer, m.Covers filename → m.root.length < b.root.length

def IsBest : Option MountPoint → Prop
  | none => ∀ m ∈ mounts, ¬ m.Covers filename
  | some b => Longest mounts filename b

end

end

variable {m : MountPoint} {filename : Bytes}

theorem mountPrefix_eq (hm : m.mountPrefix.getLast? = some slash) : m.mountPrefix = m.root ++ [slash] := by
  obtain ⟨root, hroot⟩ := List.getLast?_eq_some_iff.1 hm
  rw [MountPoint.root, hroot, List.dropLast_concat]

theorem length_mountPrefix (hm : m.mountPrefix.getLast? = some slash) : m.mountPrefix.length - 1 = m.root.length := by
  rw [mountPrefix_eq hm, List.length_append, List.length_singleton, Nat.add_sub_cancel]

theorem covers_iff : m.Covers filename ↔ filename = m.root ∨ ∃ rest, filename = m.root ++ slash :: rest := by
  rw [MountPoint.Covers, splitOn_isPrefix_iff]
  refine or_congr_right (exists_congr fun rest => ?_)
  rw [List.append_assoc, List.singleton_append, eq_comm]

theorem mountMatches_eq (hm : m.mountPrefix.getLast? = some slash) (filename : Bytes) :
    mountMatches filename m = some (decide (m.Covers filename)) := by
  have hslice : sliceTo m.mountPrefix m.root.length = some m.root := by
    rw [mountPrefix_eq hm, sliceTo, if_pos (isCharBoundary_slash m.root []), List.take_left]
  simp only [mountMatches, length_mountPrefix hm, hslice, bind_some]
  by_cases hpre : m.root.isPrefixOf filename = true
  · rw [if_pos hpre]
    obtain ⟨rest, rfl⟩ := List.isPrefixOf_iff_prefix.1 hpre
    cases rest with
    | nil =>
      have hcovers : m.Covers (m.root ++ []) := covers_iff.2 (.inl (List.append_nil _))
      rw [if_pos (by rw [List.append_nil]), decide_eq_true hcovers]
    | cons b rest =>
      have hget : (m.root ++ b :: rest)[m.root.length]? = some b := by simp
      have hcovers : m.Covers (m.root ++ b :: rest) ↔ b = slash := by simp [covers_iff]
      rw [if_neg (by simp), hget, map_some]
      congr 1
      rw [beq_eq_decide]
      exact decide_eq_decide.2 hcovers.symm
  · rw [if_neg hpre, decide_eq_false]
    rw [covers_iff]
    rintro (rfl | ⟨rest, rfl⟩)
    · exact hpre (List.isPrefixOf_iff_prefix.2 List.prefix_rfl)
    · exact hpre (List.isPrefixOf_iff_prefix.2 (List.prefix_append _ _))

section
variable {mounts : List MountPoint} {best : Option MountPoint} (h : IsBest mounts filename best)
include h

theorem IsBest.skip (hm : m.Covers filename → ∃ b, best = some b ∧ m.root.length < b.root.length) :
    IsBest (mounts ++ [m]) filename best := by
  cases best with
  | none =>
    intro m' hm'
    rcases List.mem_append.1 hm' with hm' | hm'
    · exact h m' hm'
    · rw [List.mem_singleton.1 hm']
      intro hcovers
      obtain ⟨b, hb, -⟩ := hm hcovers
      exact absurd hb (by simp)
  | some b =>
    obtain ⟨older, newer, rfl, hcovers, holder, hnewer⟩ := h
    refine ⟨older, newer ++ [m], by simp, hcovers, holder, fun m' hm' hcovers' => ?_⟩
    rcases List.mem_append.1 hm' with hm' | hm'
    · exact hnewer m' hm' hcovers'
    · obtain rfl := List.mem_singleton.1 hm'
      obtain ⟨b', hb', hlt⟩ := hm hcovers'
      rw [some.inj hb']
      exact hlt

theorem IsBest.take (hm : m.Covers filename) (hle : ∀ b, best = some b → b.root.length ≤ m.root.length) :
    IsBest (mounts ++ [m]) filename (some m) := by
  refine ⟨mounts, [], rfl, hm, fun m' hm' hcovers => ?_, by simp⟩
  cases best with
  | none => exact absurd hcovers (h m' hm')
  | some b =>
    have hb := hle b rfl
    obtain ⟨older, newer, rfl, -, holder, hnewer⟩ := h
    rcases List.mem_append.1 hm' with hm' | hm'
    · exact (holder m' hm' hcovers).trans hb
    · rcases List.mem_cons.1 hm' with rfl | hm'
      · exact hb
      · exact (hnewer m' hm' hcovers).le.trans hb

end

/-- The loop. The induction is on the entries that are left; the best one of those before is known. -/
theorem scanMounts_isBest (filename : Bytes) (ms : List MountPoint) :
    ∀ (done : List MountPoint) (best : Option MountPoint) (largestLen : Nat),
      (∀ m ∈ ms, m.mountPrefix.getLast? = some slash) → IsBest done filename best →
      largestLen = (best.map fun b => b.root.length).getD 0 →
      ∃ best', scanMounts filename ms best largestLen = some best' ∧ IsBest (done ++ ms) filename best' := by
  induction ms with
  | nil =>
    intro done best largestLen _ hbest _
    exact ⟨best, rfl, by rwa [List.append_nil]⟩
  | cons m ms ih =>
    intro done best largestLen hms hbest hlen
    obtain ⟨hm, hms⟩ := List.forall_mem_cons.1 hms
    rw [scanMounts, mountMatches_eq hm, bind_some, length_mountPrefix hm, List.append_cons]
    simp only [decide_eq_true_eq]
    by_cases htake : m.Covers filename ∧ m.root.length ≥ largestLen
    · rw [if_pos htake]
      apply ih (done ++ [m]) (some m) m.root.length hms
      · apply hbest.take htake.1
        rintro b rfl
        rw [hlen] at htake
        exact htake.2
      · rfl
    · rw [if_neg htake]
      apply ih (done ++ [m]) best largestLen hms
      · apply hbest.skip
        intro hcovers
        have hlt : m.root.length < largestLen := Nat.lt_of_not_le fun h => htake ⟨hcovers, h⟩
        rw [hlen] at hlt
        cases best with
        | none => exact absurd hlt (Nat.not_lt_zero _)
        | some b => exact ⟨b, rfl, hlt⟩
      · exact hlen

theorem fsStripMountpoint_eq (hm : m.mountPrefix.getLast? = some slash) (hcovers : m.Covers filename) :
    ∃ rest, fsStripMountpoint filename m = some rest ∧
      m.root ++ rest = if filename = m.root then filename ++ [slash] else filename := by
  have hne : m.mountPrefix ≠ [] := by
    rw [mountPrefix_eq hm]
    simp
  rw [fsStripMountpoint, if_neg hne, length_mountPrefix hm]
  rcases covers_iff.1 hcovers with rfl | ⟨rest, rfl⟩
  · refine ⟨[slash], if_neg (Nat.lt_irrefl _), ?_⟩
    rw [if_pos rfl]
  · refine ⟨slash :: rest, ?_, ?_⟩
    · rw [if_pos (by simp), sliceFrom, if_pos (isCharBoundary_slash m.root rest), List.drop_left]
    · rw [if_neg (by simp)]

/-- **`determine_mount_point` finds the longest prefix**, the latest one of equal ones, and answers `None` only if no
entry covers the name. The root of the entry and what `fs_strip_mountpoint` leaves make up the name. -/
theorem determineMountPoint_longest (mounts : List MountPoint)
    (hmounts : ∀ m ∈ mounts, m.mountPrefix.getLast? = some slash) (filename : Bytes) :
    (determineMountPoint mounts filename = some none ∧ ∀ m ∈ mounts, ¬ m.Covers filename) ∨
    ∃ b, determineMountPoint mounts filename = some (some b) ∧ Longest mounts filename b ∧
      ∃ rest, fsStripMountpoint filename b = some rest ∧
        b.root ++ rest = if filename = b.root then filename ++ [slash] else filename := by
  obtain ⟨best, hbest, hisBest⟩ := scanMounts_isBest filename mounts [] none 0 hmounts (by simp [IsBest]) rfl
  cases best with
  | none => exact .inl ⟨hbest, hisBest⟩
  | some b =>
    have hb : b ∈ mounts := by
      obtain ⟨older, newer, rfl, -⟩ := hisBest
      simp
    have hcovers : b.Covers filename := by
      obtain ⟨older, newer, -, hcovers, -⟩ := hisBest
      exact hcovers
    exact .inr ⟨b, hbest, hisBest, fsStripMountpoint_eq (hmounts b hb) hcovers⟩

def stackedMounts : List MountPoint :=
  [⟨[slash], some 0, none, .ahci, .ext2, some simulatedMbr⟩, ⟨[slash, 100, slash], none, none, .dev, .dev, none⟩,
    ⟨[slash, 100, slash], none, none, .sys, .sys, none⟩,
    ⟨[slash, 100, 120, slash], none, none, .proc, .proc, none⟩]

theorem determineMountPoint_longest_stackedMounts :
    ∃ b, determineMountPoint stackedMounts [slash, 100, slash, 97] = some (some b) ∧
      b.connector = .sys ∧ Longest stackedMounts [slash, 100, slash, 97] b := by
  have hanswer : (determineMountPoint stackedMounts [slash, 100, slash, 97]).map
      (Option.map MountPoint.connector) = some (some .sys) := by decide
  rcases determineMountPoint_longest stackedMounts (by decide) [slash, 100, slash, 97] with
    ⟨hnone, -⟩ | ⟨b, hb, hlongest, -⟩
  · rw [hnone] at hanswer
    exact absurd hanswer (by decide)
  · rw [hb] at hanswer
    exact ⟨b, hb, by simpa using hanswer, hlongest⟩

/-! ## Mounting and unmounting -/

theorem newMount_mountPrefix {mountPrefix : Bytes} {connector : Connector} {disk : Option UInt32}
    {partition : Option UInt8} (h : newMount mountPrefix connector disk partition = some m) :
    m.mountPrefix = mountPrefix := by
  simp only [newMount] at h
  by_cases hconnector : connector = .ahci
  · rw [if_pos hconnector] at h
    obtain ⟨_, -, rfl⟩ := map_eq_some_iff.1 h
    rfl
  · rw [if_neg hconnector] at h
    obtain rfl := some.inj h
    rfl

theorem unmount_eq {older newer : List MountPoint} {x : MountPoint} (hx : x.mountPrefix = m.mountPrefix)
    (holder : ∀ y ∈ older, y.mountPrefix ≠ m.mountPrefix) :
    unmount (older ++ x :: newer) m = (true, older ++ newer) := by
  have hfind : (older ++ x :: newer).findIdx? (fun y => y.mountPrefix = m.mountPrefix) =
      some older.length := by
    rw [List.findIdx?_append, List.findIdx?_eq_none_iff.2 (by simpa using holder)]
    simp [List.findIdx?_cons, hx]
  rw [unmount, hfind]
  simp only
  rw [List.eraseIdx_append_of_length_le (Nat.le_refl _), Nat.sub_self, List.eraseIdx_cons_zero]

theorem append_singleton_eq_cons_iff {α : Type*} {a b : α} (l : List α) :
    l ++ [b] = a :: l ↔ a = b ∧ ∀ c ∈ l, c = b := by
  induction l generalizing a with
  | nil => simp [eq_comm]
  | cons c l ih =>
    rw [List.cons_append, List.cons.injEq, ih, List.forall_mem_cons]
    constructor <;> rintro ⟨rfl, rfl, hl⟩ <;> exact ⟨rfl, rfl, hl⟩

/-- **When `unmount` undoes `mount`**: when every entry from the first one with the prefix on is the entry
that `mount` makes. In particular when no entry has the prefix. -/
theorem mount_unmount_iff (mounts : List MountPoint) (mountPrefix : Bytes) (connector : Connector)
    (disk : Option UInt32) (partition : Option UInt8) {m : MountPoint} {mounts' : List MountPoint}
    (hmount : mount mounts mountPrefix connector disk partition = some (m, mounts')) :
    (unmount mounts' m).2 = mounts ∧
        (∀ filename, determineMountPoint (unmount mounts' m).2 filename = determineMountPoint mounts filename) ↔
      ∀ x ∈ mounts.dropWhile (fun x => x.mountPrefix ≠ mountPrefix),
        newMount mountPrefix connector disk partition = some x := by
  obtain ⟨m₁, hnew, heq⟩ := map_eq_some_iff.1 hmount
  obtain ⟨rfl, rfl⟩ := Prod.mk.injEq .. ▸ heq
  have hp := newMount_mountPrefix hnew
  have hrestored : ((unmount (mounts ++ [m₁]) m₁).2 = mounts ∧ ∀ filename,
      determineMountPoint (unmount (mounts ++ [m₁]) m₁).2 filename = determineMountPoint mounts filename) ↔
      (unmount (mounts ++ [m₁]) m₁).2 = mounts :=
    ⟨And.left, fun h => ⟨h, fun filename => by rw [h]⟩⟩
  rw [hrestored, hnew]
  simp only [some.injEq]
  -- the table is cut before the first entry with the prefix
  set older := mounts.takeWhile (fun x => x.mountPrefix ≠ mountPrefix) with holder
  have hsplit : older ++ mounts.dropWhile (fun x => x.mountPrefix ≠ mountPrefix) = mounts :=
    List.takeWhile_append_dropWhile
  have hne : ∀ y ∈ older, y.mountPrefix ≠ m₁.mountPrefix := by
    intro y hy
    rw [hp]
    simpa using List.mem_takeWhile_imp hy
  cases htail : mounts.dropWhile (fun x => x.mountPrefix ≠ mountPrefix) with
  | nil =>
    rw [htail, List.append_nil] at hsplit
    rw [← hsplit, unmount_eq rfl hne, List.append_nil]
    simp
  | cons x newer =>
    have hx : x.mountPrefix = m₁.mountPrefix := by
      have hhead := List.head?_dropWhile_not (fun x : MountPoint => decide (x.mountPrefix ≠ mountPrefix)) mounts
      rw [htail] at hhead
      rw [hp]
      simpa using hhead
    rw [htail] at hsplit
    rw [← hsplit, List.append_assoc, List.cons_append, unmount_eq hx hne, List.append_cancel_left_eq,
      append_singleton_eq_cons_iff, List.forall_mem_cons]
    simp only [eq_comm]

theorem mount_unmount_iff_fresh : (∀ x ∈ stackedMounts.dropWhile (fun x => x.mountPrefix ≠ [slash, 112, slash]),
      newMount [slash, 112, slash] .proc none none = some x) ∧
    ∃ m mounts', mount stackedMounts [slash, 112, slash] .proc none none = some (m, mounts') ∧
      (unmount mounts' m).2 = stackedMounts := by
  refine ⟨by decide, _, _, rfl, ?_⟩
  exact ((mount_unmount_iff stackedMounts [slash, 112, slash] .proc none none rfl).2 (by decide)).1

/-- The device file system is mounted at `/d/` and then a second one over it. Unmounting the second leaves
the second. -/
theorem mount_unmount_stacked :
    ∃ m mounts', mount [⟨[slash, 100, slash], none, none, .dev, .dev, none⟩] [slash, 100, slash] .sys none none =
        some (m, mounts') ∧ (unmount mounts' m).2 ≠ [⟨[slash, 100, slash], none, none, .dev, .dev, none⟩] ∧
      determineMountPoint (unmount mounts' m).2 [slash, 100] ≠
        determineMountPoint [⟨[slash, 100, slash], none, none, .dev, .dev, none⟩] [slash, 100] :=
  ⟨_, _, rfl, by decide, by decide⟩

end CoreX.Vfs

import CoreX.Ext2.Components
import CoreX.Ext2.InodeFind
import CoreX.Ext2.Tree

/-!
# Creating files and directories (`filesystems/ext2/ext2-create.rs`)

`ext2Touch` and `ext2Mkdir` look up what stands before the last slash of the path, take an inode, and enter it under
what stands behind it. `ext2Mkdir` enters `.` and `..` in the new inode first.
-/

namespace CoreX.Ext2

open Except List Prod

/-! ## The model -/

inductive Errno where
  | enoent (symlinkResolve : Option Bytes)
  | eexist
  | enotdir
  | eisdir
  deriving DecidableEq

structure FileSystem where
  ext2 : Ext2
  groups : Ext2Groups

def ext2RootInode : UInt32 := 2
def sIfmt : UInt32 := 0o170000
def sIfreg : UInt32 := 0o100000

section
variable (ext2 : Ext2) (path : Bytes)

def parentOf : Except Fault Traversed :=
  match lastSlash path with
  | some (l + 1) => ext2TraversePath ext2 (path.take (l + 1)) ext2RootInode true
  | _ => .ok ⟨ext2RootInode, none⟩

def nameOf : Bytes :=
  match lastSlash path with
  | some l => path.drop (l + 1)
  | none => path

def createTarget (noName : Errno) : Except Fault (Except Errno (UInt32 × Bytes)) := do
  let parent ← parentOf ext2 path
  let inode := parent.inode
  if inode = 0 then return .error (.enoent parent.symlinkResolve)
  let name := nameOf path
  if name.length = 0 then return .error noName
  let inodeContents := ext2.inodes inode
  if inodeContents.permission &&& sIfmt ≠ sIfdir then return .error .enotdir
  let found ← ext2Traverse ext2 inode name
  if found ≠ 0 then return .error .eexist
  return .ok (inode, name)

end

def shortName (name : Bytes) : Bytes := name.take (name.length % 256)

def newInode (permission : UInt32) : Ext2Inode := ⟨permission, 0, 0, fun _ => 0⟩

structure Created where
  parent : UInt32
  inode : UInt32
  deriving DecidableEq

def ext2Touch (fs : FileSystem) (filename : Bytes) (mode : UInt32) :
    Except Fault (Except Errno Created × FileSystem) := do
  match ← createTarget fs.ext2 filename .eisdir with
  | .error e => return (.error e, fs)
  | .ok (inode, name) =>
    let inodeContents := fs.ext2.inodes inode
    let (newInodeNum, groups) ← ext2InodeFind fs.groups inode.toNat
    let ext2 := ext2InodeModifyM fs.ext2 newInodeNum (newInode (sIfreg ||| mode))
    let (_, ext2, _) ← ext2DirAllocate ext2 inode inodeContents (shortName name) 1 newInodeNum
    return (.ok ⟨inode, newInodeNum⟩, ⟨ext2, groups⟩)

def dot : Bytes := [0x2E]
def dotDot : Bytes := [0x2E, 0x2E]

def ext2Mkdir (fs : FileSystem) (dirname : Bytes) (mode : UInt32) :
    Except Fault (Except Errno Created × FileSystem) := do
  match ← createTarget fs.ext2 dirname .eexist with
  | .error e => return (.error e, fs)
  | .ok (inode, name) =>
    let inodeContents := fs.ext2.inodes inode
    let new := newInode (sIfdir ||| mode)
    let (newInodeNum, groups) ← ext2InodeFind fs.groups inode.toNat
    let ext2 := ext2InodeModifyM fs.ext2 newInodeNum new
    let (_, ext2, new) ← ext2DirAllocate ext2 newInodeNum new dot 2 newInodeNum
    let (_, ext2, _) ← ext2DirAllocate ext2 newInodeNum new dotDot 2 inode
    let (_, ext2, inodeContents) ← ext2DirAllocate ext2 inode inodeContents (shortName name) 2 newInodeNum
    -- the number of links has been raised
    let ext2 := ext2InodeModifyM ext2 inode inodeContents
    return (.ok ⟨inode, newInodeNum⟩, ⟨ext2, groups⟩)

/-! ## Paths -/

variable {ext2 ext2' ext2₁ ext2₂ : Ext2} {dirs dirs₁ : UInt32 → Prop} {path name : Bytes}
  {d n permission : UInt32} {fs fs' : FileSystem} {mode : UInt32} {ino' : Ext2Inode} {type_ : UInt8}
  {r : Except Errno Created}

/-- The parent is a directory, in which the name is missing. -/
structure Target (ext2 : Ext2) (path : Bytes) (d : UInt32) : Prop where
  parent : ∃ t, parentOf ext2 path = .ok t ∧ t.inode = d
  ne_zero : d ≠ 0
  name : nameOf path ≠ []
  permission : (ext2.inodes d).permission &&& sIfmt = sIfdir
  absent : ext2Traverse ext2 d (nameOf path) = .ok 0

theorem createTarget_eq_ok {noName : Errno}
    (h : createTarget ext2 path noName = .ok (.ok (d, name))) : name = nameOf path ∧ Target ext2 path d := by
  obtain ⟨t, hparent, h⟩ := bind_eq_ok.1 h
  by_cases hzero : t.inode = 0
  · simp [hzero, pure, Except.pure] at h
  by_cases hname : (nameOf path).length = 0
  · simp [hzero, hname, pure, Except.pure] at h
  by_cases hdir : (ext2.inodes t.inode).permission &&& sIfmt = sIfdir
  · simp only [hzero, hname, hdir, if_false, ne_eq, not_true] at h
    obtain ⟨c, hfound, h⟩ := bind_eq_ok.1 h
    by_cases hc : c = 0
    · subst hc
      obtain ⟨rfl, rfl⟩ : t.inode = d ∧ nameOf path = name := by simpa [pure, Except.pure] using h
      exact ⟨rfl, ⟨t, hparent, rfl⟩, hzero, fun hnil => hname (by rw [hnil]; rfl), hdir, hfound⟩
    · simp [hc, pure, Except.pure] at h
  · simp [hzero, hname, hdir, pure, Except.pure] at h

theorem Target.createTarget_eq (h : Target ext2 path d) (noName : Errno) :
    createTarget ext2 path noName = .ok (.ok (d, nameOf path)) := by
  obtain ⟨⟨t, hparent, rfl⟩, hzero, hname, hdir, habsent⟩ := h
  have hlength : (nameOf path).length ≠ 0 := fun hnil => hname (List.eq_nil_of_length_eq_zero hnil)
  simp only [createTarget, hparent, ok_bind, hzero, if_false, hlength, hdir, ne_eq, not_true, habsent]
  rfl

theorem and_sIfdir_ne_zero (h : permission &&& sIfmt = sIfdir) : permission &&& sIfdir ≠ 0 := by
  intro hzero
  have hbit := congrArg (fun x : UInt32 => x.toBitVec.getLsbD 14) h
  have hbit' := congrArg (fun x : UInt32 => x.toBitVec.getLsbD 14) hzero
  simp [sIfmt, sIfdir] at hbit hbit'
  exact absurd (hbit.symm.trans hbit') (by decide)

theorem sIfdir_or_ne_link (mode : UInt32) : (sIfdir ||| mode) &&& 0xF000 ≠ ext2SIflnk := by
  intro h
  have hbit := congrArg (fun x : UInt32 => x.toBitVec.getLsbD 14) h
  simp [sIfdir, ext2SIflnk] at hbit

theorem exists_components (bytes : Bytes) :
    ∃ s names, bytes = s ++ joinPath names ∧ slash ∉ s ∧ ∀ t ∈ names, slash ∉ t := by
  induction bytes with
  | nil => exact ⟨[], [], rfl, not_mem_nil, fun _ h => absurd h not_mem_nil⟩
  | cons b bytes ih =>
    obtain ⟨s, names, rfl, hs, hnames⟩ := ih
    by_cases hslash : b = slash
    · exact ⟨[], s :: names, by rw [hslash, joinPath_cons]; rfl, not_mem_nil, forall_mem_cons.2 ⟨hs, hnames⟩⟩
    · exact ⟨b :: s, names, rfl, fun h => (mem_cons.1 h).elim (fun h => hslash h.symm) hs, hnames⟩

theorem length_joinPath_eq_one {names : List Bytes} : (joinPath names).length = 1 ↔ names = [[]] := by
  constructor
  · intro h
    cases names with
    | nil => cases h
    | cons s names =>
      rw [joinPath_cons, length_cons, length_append] at h
      obtain rfl : s = [] := eq_nil_of_length_eq_zero (by omega)
      cases names with
      | nil => rfl
      | cons t names =>
        rw [joinPath_cons, length_cons] at h
        omega
  · rintro rfl
    rfl

/-- An absolute path is the path of its parent, a slash and its name. -/
theorem exists_names (habsolute : path.getD 0 0 = slash) : ∃ names, (∀ s ∈ names, slash ∉ s) ∧
    (lastSlash path = some 1 ↔ names = [[]]) ∧
    (∀ ext2, parentOf ext2 path = if names = [] then .ok ⟨ext2RootInode, none⟩
      else ext2TraversePath ext2 (joinPath names) ext2RootInode true) ∧
    (nameOf path ≠ [] → ∀ ext2 follow, ext2TraversePath ext2 path ext2RootInode follow =
      traverseNames ext2 path follow 0 ext2RootInode (names ++ [nameOf path])) := by
  cases path with
  | nil => exact absurd habsolute (by decide)
  | cons b rest =>
    obtain rfl : b = slash := habsolute
    obtain ⟨s, names, rfl, hs, hnames⟩ := exists_components rest
    obtain ⟨init, name, hsplit⟩ : ∃ init name, s :: names = init ++ [name] :=
      ⟨_, _, (dropLast_append_getLast (cons_ne_nil s names)).symm⟩
    have hall : ∀ t ∈ s :: names, slash ∉ t := forall_mem_cons.2 ⟨hs, hnames⟩
    rw [hsplit] at hall
    obtain ⟨hinit, hname⟩ := forall_mem_append.1 hall
    have hslash := hname name mem_cons_self
    have hlast := lastSlash_eq (joinPath init) hslash
    have hpath : joinPath (init ++ [name]) = joinPath init ++ slash :: name := by simp [joinPath]
    have hnameOf : nameOf (joinPath init ++ slash :: name) = name := by
      rw [nameOf, hlast]
      exact drop_length_add_append 1
    rw [← joinPath_cons, hsplit, hpath, hnameOf, hlast, Option.some.injEq, length_joinPath_eq_one]
    refine ⟨init, hinit, Iff.rfl, fun ext2 => ?_, fun hne ext2 follow => ?_⟩
    · rw [parentOf, hlast]
      cases init with
      | nil => rfl
      | cons s init =>
        rw [joinPath_cons, length_cons, if_neg (cons_ne_nil _ _)]
        simp only
        rw [← length_cons, take_left]
    · rw [← dropLast_append_getLast hne] at hslash hpath ⊢
      rw [← hpath]
      exact ext2TraversePath_split hinit (fun h => hslash (mem_append_left _ h)) _ _

/-- What lookups find among some directories they still find, and the directories are closed under them. -/
structure Stable (ext2 ext2' : Ext2) (dirs : UInt32 → Prop) : Prop where
  found : ∀ d name c, dirs d → ext2Traverse ext2 d name = .ok c → c ≠ 0 → ext2Traverse ext2' d name = .ok c
  closed : ∀ d name c, dirs d → ext2Traverse ext2 d name = .ok c → c ≠ 0 →
    (ext2.inodes c).permission &&& sIfdir ≠ 0 → dirs c
  permission : ∀ d, dirs d → (ext2'.inodes d).permission = (ext2.inodes d).permission

theorem Stable.leads (h : Stable ext2 ext2' dirs) {names : List Bytes} {e : UInt32} (hd : dirs d)
    (hleads : Leads ext2 d names e) : dirs e ∧ Leads ext2' d names e := by
  induction names generalizing d with
  | nil => exact ⟨hleads ▸ hd, hleads⟩
  | cons name names ih =>
    obtain ⟨c, hfound, hne, hlink, hdir, hleads⟩ := hleads
    have hc := h.closed d name c hd hfound hne hdir
    obtain ⟨he, hleads'⟩ := ih hc hleads
    rw [IsLink, ← h.permission c hc] at hlink
    rw [← h.permission c hc] at hdir
    exact ⟨he, c, h.found d name c hd hfound hne, hne, hlink, hdir, hleads'⟩

/-! ## Names that are too long -/

theorem traverseWalk_long (hlong : 256 ≤ name.length) {names : Buf} {fuel dir : Nat} {r : Option UInt32}
    (h : traverseWalk ext2 names name fuel dir = .ok r) : r = none := by
  induction fuel generalizing dir with
  | zero =>
    rw [traverseWalk] at h
    split_ifs at h
    exact (ok.inj h).symm
  | succ fuel ih =>
    rw [traverseWalk] at h
    split_ifs at h
    · obtain ⟨entry, hget, h⟩ := bind_eq_ok.1 h
      obtain ⟨found, his, h⟩ := bind_eq_ok.1 h
      have hentry : entry.filename.length < 256 := by
        rw [dirGet] at hget
        split_ifs at hget
        rw [← ok.inj hget, entryAt, Memory.length_slice]
        exact (names (dir + 6)).toNat_lt
      have hfound : found = false := by
        rw [dirIs, if_neg (show ¬ entry.filename.length = name.length by omega)] at his
        split_ifs at his <;> exact (ok.inj his).symm
      rw [hfound] at h
      exact ih h
    · exact (ok.inj h).symm

theorem forBlocks_long (hlong : 256 ≤ name.length) {ino : Ext2Inode} {k : Nat} {scan : Scan}
    {s : UInt32 ⊕ Scan × Unit} (h : forBlocks ino (traverseBody name) k ext2 scan () = .ok (ext2', s)) :
    ∃ rest, s = .inr rest := by
  induction k generalizing scan with
  | zero => exact ⟨_, (Prod.mk.inj (ok.inj h)).2.symm⟩
  | succ k ih =>
    obtain ⟨⟨block, control⟩, -, h⟩ := bind_eq_ok.1 h
    simp only at h
    split_ifs at h with hzero
    · exact ⟨_, (Prod.mk.inj (ok.inj h)).2.symm⟩
    · obtain ⟨⟨ext2₁, t⟩, hbody, h⟩ := bind_eq_ok.1 h
      obtain ⟨found, hwalk, hbody⟩ := bind_eq_ok.1 hbody
      obtain rfl := traverseWalk_long hlong hwalk
      obtain ⟨rfl, rfl⟩ := Prod.mk.inj (ok.inj hbody)
      exact ih h

theorem ext2Traverse_long (hlong : 256 ≤ name.length) {c : UInt32} (h : ext2Traverse ext2 d name = .ok c) : c = 0 := by
  obtain ⟨blocks, -, h⟩ := bind_eq_ok.1 h
  obtain ⟨⟨ext2', s⟩, hrun, h⟩ := bind_eq_ok.1 h
  obtain ⟨rest, rfl⟩ := forBlocks_long hlong hrun
  exact (ok.inj h).symm

theorem short_of_lookup {follow : Bool} (habsolute : path.getD 0 0 = slash) (hname : nameOf path ≠ []) (hn : n ≠ 0)
    (h : ext2TraversePath ext2 path ext2RootInode follow = .ok ⟨n, none⟩) : (nameOf path).length < 256 := by
  obtain ⟨names, -, -, -, hlookup⟩ := exists_names habsolute
  rw [hlookup hname] at h
  obtain ⟨e, -, hfound, -⟩ := traverseNames_found h hn
  by_contra hlong
  exact hn (ext2Traverse_long (Nat.le_of_not_lt hlong) hfound)

/-! ## Entering the name -/

/-- The directories, and what is found in them, are as they were. -/
def Agrees (ext2 ext2' : Ext2) (dirs : UInt32 → Prop) : Prop :=
  ∀ d, dirs d → ext2'.inodes d = ext2.inodes d ∧ ∀ name, ext2Traverse ext2' d name = ext2Traverse ext2 d name

theorem Agrees.trans (h : Agrees ext2 ext2₁ dirs) (h' : Agrees ext2₁ ext2₂ dirs) :
    Agrees ext2 ext2₂ dirs := fun d hd =>
  ⟨(h' d hd).1.trans (h d hd).1, fun name => ((h' d hd).2 name).trans ((h d hd).2 name)⟩

theorem Tree.agrees_modify (htree : Tree ext2 dirs) (hn : ¬ dirs n) (target : Ext2Inode) :
    Agrees ext2 (ext2InodeModifyM ext2 n target) dirs := by
  intro d hd
  have hne : d ≠ n := fun heq => hn (heq ▸ hd)
  exact ⟨inodes_modify_of_ne hne target, ext2Traverse_modify (htree.sound d hd).directory hne target⟩

theorem Tree.agrees_insert {inode : UInt32} (htree : Tree ext2 dirs₁) (hsub : ∀ d, dirs d → dirs₁ d) (hn : dirs₁ n)
    (hn' : ¬ dirs n) (hcount : dirCount ext2 (ext2.inodes n) < 12) (hinode : inode ≠ 0)
    (hnew : ∀ x ∈ liveEntries ext2 (ext2.inodes n), x.1 ≠ name)
    (h : Inserted ext2 n (ext2.inodes n) name type_ inode ext2' ino') : Agrees ext2 ext2' dirs := by
  intro d hd
  have hne : d ≠ n := fun heq => hn' (heq ▸ hd)
  refine ⟨h.inodes_of_ne hne, fun other => ?_⟩
  exact (htree.ext2Traverse_insert hn hcount h hinode hnew).2 d other (hsub d hd) fun hsame => hne hsame.1

/-- The drive is sound: the directories form a tree and are closed under lookups, each has a direct pointer left, no
name is empty or has a slash, and the bitmaps of the inodes are consistent and say that the directories are
allocated. -/
structure SoundFs (fs : FileSystem) (dirs : UInt32 → Prop) : Prop where
  tree : Tree fs.ext2 dirs
  count : ∀ d, dirs d → dirCount fs.ext2 (fs.ext2.inodes d) < 12
  root : dirs ext2RootInode
  closed : ∀ d, dirs d → ∀ x ∈ liveEntries fs.ext2 (fs.ext2.inodes d),
    (fs.ext2.inodes x.2.1).permission &&& sIfdir ≠ 0 → dirs x.2.1
  names : ∀ d, dirs d → ∀ x ∈ liveEntries fs.ext2 (fs.ext2.inodes d), x.1 ≠ [] ∧ slash ∉ x.1
  consistent : Consistent fs.groups
  allocated : ∀ d, dirs d → Allocated fs.groups d.toNat

theorem SoundFs.stable (hfs : SoundFs fs dirs)
    (hfound : ∀ d name c, dirs d → ext2Traverse fs.ext2 d name = .ok c → c ≠ 0 → ext2Traverse ext2' d name = .ok c)
    (hperm : ∀ d, dirs d → (ext2'.inodes d).permission = (fs.ext2.inodes d).permission) :
    Stable fs.ext2 ext2' dirs := by
  refine ⟨hfound, fun d name c hd hc hne hdir => ?_, hperm⟩
  obtain ⟨type_, hmem⟩ := mem_of_ext2Traverse (hfs.tree.sound d hd).directory hc hne
  exact hfs.closed d hd _ hmem hdir

theorem SoundFs.fresh {groups : Ext2Groups} {suggestion : Nat} (hfs : SoundFs fs dirs)
    (h : ext2InodeFind fs.groups suggestion = .ok (n, groups)) :
    ¬ dirs n ∧ n ≠ 0 ∧ inodeBit fs.groups n.toNat = false ∧ Allocated groups n.toNat := by
  obtain ⟨-, -, -, hhands⟩ := ext2InodeFind_found hfs.consistent h
  refine ⟨fun hd => hhands.not_allocated (hfs.allocated n hd), ?_, hhands.clear, hhands.allocated⟩
  rintro rfl
  exact hhands.allocated.1 rfl

theorem shortName_eq (h : name.length < 256) : shortName name = name := by
  rw [shortName, Nat.mod_eq_of_lt h, List.take_length]

section
variable (hfs : SoundFs fs dirs) (habsolute : path.getD 0 0 = slash) (htarget : Target fs.ext2 path d)
include hfs habsolute htarget

/-- The names of the parent lead to it, but for the path `/`: a last component that ends in a slash is not found. -/
theorem SoundFs.parent : dirs d ∧ ∃ names, (lastSlash path = some 1 ↔ names = [[]]) ∧
    (names ≠ [[]] → Leads fs.ext2 ext2RootInode names d) ∧ ∀ ext2 follow,
      ext2TraversePath ext2 path ext2RootInode follow =
        traverseNames ext2 path follow 0 ext2RootInode (names ++ [nameOf path]) := by
  obtain ⟨names, hnames, hone, hparent, hlookup⟩ := exists_names habsolute
  obtain ⟨⟨t, ht, rfl⟩, hne, hname, hdir, -⟩ := htarget
  have hstable : Stable fs.ext2 fs.ext2 dirs := hfs.stable (fun _ _ _ _ hc _ => hc) fun _ _ => rfl
  suffices h : dirs t.inode ∧ (names ≠ [[]] → Leads fs.ext2 ext2RootInode names t.inode) from
    ⟨h.1, names, hone, h.2, hlookup hname⟩
  clear hone hlookup
  rw [hparent] at ht
  by_cases hroot : names = []
  · rw [if_pos hroot] at ht
    rw [← ok.inj ht, hroot]
    exact ⟨hfs.root, fun _ => rfl⟩
  rw [if_neg hroot] at ht
  obtain ⟨init, last, rfl⟩ : ∃ init last, names = init ++ [last] := ⟨_, _, (dropLast_append_getLast hroot).symm⟩
  obtain ⟨hinit, hlast⟩ := forall_mem_append.1 hnames
  have hfound {init : List Bytes} {s : Bytes} {b : UInt8} (hinit : ∀ s ∈ init, slash ∉ s) (hs : slash ∉ s)
      (ht : ext2TraversePath fs.ext2 (joinPath (init ++ [s ++ [b]])) ext2RootInode true = .ok t) :
      dirs t.inode ∧ slash ∉ s ++ [b] ∧ Leads fs.ext2 ext2RootInode (init ++ [s ++ [b]]) t.inode := by
    rw [ext2TraversePath_split hinit hs] at ht
    obtain ⟨e, hleads, hfound, hlink⟩ := traverseNames_found ht hne
    have he := (hstable.leads hfs.root hleads).1
    obtain ⟨type_, hmem⟩ := mem_of_ext2Traverse (hfs.tree.sound e he).directory hfound hne
    have hbit := and_sIfdir_ne_zero hdir
    exact ⟨hstable.closed e _ _ he hfound hne hbit, (hfs.names e he _ hmem).2,
      hleads.concat hfound hne (fun h => hlink ⟨h, rfl⟩) hbit⟩
  rcases eq_nil_or_concat' last with rfl | ⟨s, b, rfl⟩
  · rcases eq_nil_or_concat' init with rfl | ⟨init, s, rfl⟩
    · rw [← ok.inj ht]
      exact ⟨hfs.root, fun h => absurd rfl h⟩
    · -- the last byte of the path is a slash
      obtain ⟨hinit, hs⟩ := forall_mem_append.1 hinit
      have hpath : joinPath (init ++ [s] ++ [[]]) = joinPath (init ++ [s ++ [slash]]) := by simp [joinPath]
      rw [hpath] at ht
      exact absurd (mem_append_right s (mem_singleton_self slash)) (hfound hinit (hs s mem_cons_self) ht).2.1
  · obtain ⟨hd, -, hleads⟩ := hfound hinit (fun h => hlast _ mem_cons_self (mem_append_left _ h)) ht
    exact ⟨hd, fun _ => hleads⟩

variable {r : Bool} (hagrees : Agrees fs.ext2 ext2₁ dirs) (hsize : ext2₁.blockSize = fs.ext2.blockSize)
  (htree : Tree ext2₁ dirs₁) (hsub : ∀ d, dirs d → dirs₁ d) (hn : n ≠ 0) (hshort : (nameOf path).length < 256)
  (h : ext2DirAllocate ext2₁ d (fs.ext2.inodes d) (shortName (nameOf path)) type_ n = .ok (r, ext2', ino'))
include hagrees hsize htree hsub hn hshort h

theorem SoundFs.enter : Inserted ext2₁ d (ext2₁.inodes d) (nameOf path) type_ n ext2' ino' ∧
    ∀ follow, ext2TraversePath ext2' path ext2RootInode follow = .ok ⟨n, none⟩ ↔
      lastSlash path ≠ some 1 ∧ ¬ ((ext2'.inodes n).permission &&& 0xF000 = ext2SIflnk ∧ follow = true) := by
  obtain ⟨hd, names, hone, hleads, hlookup⟩ := hfs.parent habsolute htarget
  obtain ⟨hinodes, hsame⟩ := hagrees d hd
  have hsound := htree.sound d (hsub d hd)
  have hcount : dirCount ext2₁ (ext2₁.inodes d) < 12 := by
    rw [hinodes, dirCount, hsize]
    exact hfs.count d hd
  have hnew := ne_of_ext2Traverse_eq_zero hsound.directory ((hsame _).trans htarget.absent)
  rw [shortName_eq hshort, ← hinodes] at h
  have hins := (ext2DirAllocate_inserted hsound hcount hshort hn hnew h).2
  obtain ⟨hfound, hother⟩ := htree.ext2Traverse_insert (hsub d hd) hcount hins hn hnew
  have hkeep : ∀ d' name, dirs d' → ¬ (d' = d ∧ name = nameOf path) →
      ext2Traverse ext2' d' name = ext2Traverse fs.ext2 d' name := fun d' name hd' hold => by
    rw [hother d' name (hsub d' hd') hold, (hagrees d' hd').2]
  refine ⟨hins, fun follow => ?_⟩
  rw [hlookup]
  refine ⟨fun h => ?_, fun hcond => ?_⟩
  · obtain ⟨e, hleads', -, hlink⟩ := traverseNames_found h hn
    refine ⟨fun hslashes => ?_, hlink⟩
    -- the second slash ends an empty component
    rw [hone.1 hslashes] at hleads'
    obtain ⟨c, hempty, hc, -⟩ := hleads'
    rw [hkeep _ _ hfs.root fun hold => htarget.name hold.2.symm] at hempty
    obtain ⟨type_, hmem⟩ := mem_of_ext2Traverse (hfs.tree.sound _ hfs.root).directory hempty hc
    exact (hfs.names _ hfs.root _ hmem).1 rfl
  · have hstable : Stable fs.ext2 ext2' dirs := by
      refine hfs.stable (fun d' name c hd' hc hne => ?_) fun d' hd' => ?_
      · -- the new name was not there
        rw [hkeep d' name hd', hc]
        rintro ⟨rfl, rfl⟩
        exact hne (ok.inj (hc.symm.trans htarget.absent))
      · by_cases hne : d' = d
        · rw [hne, hins.inodes_self rfl, hins.permission_eq, hinodes]
        · rw [hins.inodes_of_ne hne, (hagrees d' hd').1]
    have hleads' := (hstable.leads hfs.root (hleads fun h => hcond.1 (hone.2 h))).2
    rw [traverseNames_leads hleads' (cons_ne_nil _ _), traverseNames, Ext2.visit, hfound, ok_bind, if_neg hn]
    rw [if_neg fun h => hcond.2 ⟨h.1, h.2.resolve_left (not_not.2 rfl)⟩]
    rfl

end

/-! ## The two functions -/

/-- A free inode was taken, and the path leads to it. -/
structure Makes (fs : FileSystem) (path : Bytes) (follow : Bool) (c : Created) (fs' : FileSystem) : Prop where
  parent : ∃ t, parentOf fs.ext2 path = .ok t ∧ t.inode = c.parent
  clear : inodeBit fs.groups c.inode.toNat = false
  allocated : Allocated fs'.groups c.inode.toNat
  lookup : ext2TraversePath fs'.ext2 path ext2RootInode follow = .ok ⟨c.inode, none⟩

/-- The new directory has the entries `.` and `..`, and no other. -/
def HasDots (fs : FileSystem) (c : Created) : Prop :=
  (liveEntries fs.ext2 (fs.ext2.inodes c.inode)).Perm [(dot, c.inode, 2), (dotDot, c.parent, 2)]

/-- Nothing is created: the parent is not a directory without the name. -/
theorem no_target {noName e : Errno} (h : createTarget ext2 path noName = .ok (.error e)) (d : UInt32) :
    ¬ Target ext2 path d := fun htarget => by
  rw [htarget.createTarget_eq] at h
  cases h

theorem ext2Touch_lookup_iff (hfs : SoundFs fs dirs) (habsolute : path.getD 0 0 = slash) (follow : Bool)
    (h : ext2Touch fs path mode = .ok (r, fs')) :
    ((∀ e, r = .error e → fs' = fs) ∧ ∀ c, r = .ok c → Makes fs path follow c fs') ↔
      ∀ d, Target fs.ext2 path d → lastSlash path ≠ some 1 ∧ (nameOf path).length < 256 ∧
        ¬ ((sIfreg ||| mode) &&& 0xF000 = ext2SIflnk ∧ follow = true) := by
  obtain ⟨target, hchecks, h⟩ := bind_eq_ok.1 h
  cases target with
  | error e =>
    obtain ⟨rfl, rfl⟩ := Prod.mk.inj (ok.inj h)
    exact iff_of_true ⟨fun _ _ => rfl, nofun⟩ fun d htarget => absurd htarget (no_target hchecks d)
  | ok p =>
    obtain ⟨d, name⟩ := p
    obtain ⟨rfl, htarget⟩ := createTarget_eq_ok hchecks
    obtain ⟨⟨n, groups⟩, hfind, h⟩ := bind_eq_ok.1 h
    obtain ⟨⟨r, ext2', ino'⟩, hallocate, h⟩ := bind_eq_ok.1 h
    obtain ⟨rfl, rfl⟩ := Prod.mk.inj (ok.inj h)
    obtain ⟨hn, hne, hclear, halloc⟩ := hfs.fresh hfind
    have hnd : n ≠ d := fun heq => hn (heq ▸ (hfs.parent habsolute htarget).1)
    have henter := fun hshort => hfs.enter habsolute htarget (hfs.tree.agrees_modify hn _) rfl
      (hfs.tree.modify hn _) (fun _ hd => hd) hne hshort hallocate
    have hmode : (nameOf path).length < 256 → (ext2'.inodes n).permission = sIfreg ||| mode := fun hshort => by
      rw [(henter hshort).1.inodes_of_ne hnd, inodes_modify_self]
      rfl
    constructor
    · rintro ⟨-, hmade⟩ d' -
      have hlookup := (hmade _ rfl).lookup
      have hshort := short_of_lookup habsolute htarget.name hne hlookup
      obtain ⟨hone, hlink⟩ := ((henter hshort).2 follow).1 hlookup
      rw [hmode hshort] at hlink
      exact ⟨hone, hshort, hlink⟩
    · intro hcond
      obtain ⟨hone, hshort, hlink⟩ := hcond d htarget
      refine ⟨nofun, ?_⟩
      rintro _ ⟨⟩
      refine ⟨htarget.parent, hclear, halloc, ((henter hshort).2 follow).2 ⟨hone, ?_⟩⟩
      rw [hmode hshort]
      exact hlink

theorem InsertsLive.perm {entry : Bytes × UInt32 × UInt8} {before after : List (Bytes × UInt32 × UInt8)}
    (h : InsertsLive entry before after) : after.Perm (entry :: before) := by
  obtain ⟨front, back, rfl, rfl⟩ := h
  exact List.perm_middle

structure NewDirectory (ext2 : Ext2) (dirs : UInt32 → Prop) (permission d n : UInt32) (ext2' : Ext2) : Prop where
  blockSize : ext2'.blockSize = ext2.blockSize
  tree : Tree ext2' fun d' => dirs d' ∨ d' = n
  agrees : Agrees ext2 ext2' dirs
  permission : (ext2'.inodes n).permission = permission
  entries : (liveEntries ext2' (ext2'.inodes n)).Perm [(dot, n, 2), (dotDot, d, 2)]

theorem Tree.newDirectory {r₁ r₂ : Bool} {ext2₃ : Ext2} {new₂ new₃ : Ext2Inode} (htree : Tree ext2 dirs)
    (hd : dirs d) (hd' : d ≠ 0) (hn : ¬ dirs n) (hn' : n ≠ 0)
    (h₁ : ext2DirAllocate (ext2InodeModifyM ext2 n (newInode permission)) n (newInode permission) dot 2 n = .ok (r₁, ext2₂, new₂))
    (h₂ : ext2DirAllocate ext2₂ n new₂ dotDot 2 d = .ok (r₂, ext2₃, new₃)) :
    NewDirectory ext2 dirs permission d n ext2₃ := by
  have hempty : (newInode permission).IsEmpty := ⟨rfl, fun _ => rfl⟩
  have htree₁ := htree.add hd hn hempty
  have hagrees₁ := htree.agrees_modify hn (newInode permission)
  have hself₁ := inodes_modify_self ext2 n (newInode permission)
  set ext2₁ := ext2InodeModifyM ext2 n (newInode permission)
  have hsound₁ := htree₁.sound n (.inr rfl)
  have hlive₁ : liveEntries ext2₁ (ext2₁.inodes n) = [] := by
    rw [hself₁]
    exact liveEntries_of_isEmpty hempty hsound₁.directory.pos hsound₁.directory.lt
  have hcount₁ : dirCount ext2₁ (ext2₁.inodes n) = 0 := by
    rw [hself₁]
    exact dirCount_of_isEmpty hempty hsound₁.directory.pos hsound₁.directory.lt
  have hnew₁ : ∀ x ∈ liveEntries ext2₁ (ext2₁.inodes n), x.1 ≠ dot := by simp [hlive₁]
  -- the first entry
  rw [← hself₁] at h₁
  have hinserted₁ := (ext2DirAllocate_inserted hsound₁ (by omega) (by decide) hn' hnew₁ h₁).2
  have htree₂ := htree₁.insert (.inr rfl) (by omega) hinserted₁
  have hagrees₂ := htree₁.agrees_insert (fun _ hd => .inl hd) (.inr rfl) hn (by omega) hn' hnew₁ hinserted₁
  have hself₂ := hinserted₁.inodes_self rfl
  have hsound₂ := htree₂.sound n (.inr rfl)
  have hlive₂ : liveEntries ext2₂ (ext2₂.inodes n) = [(dot, n, 2)] := by
    have hperm := (hinserted₁.live hsound₁ (by omega) hn').perm
    rw [hlive₁] at hperm
    rw [hself₂]
    exact List.perm_singleton.1 hperm
  have hcount₂ : dirCount ext2₂ (ext2₂.inodes n) ≤ 1 := by
    have hle := hinserted₁.dirCount_le hsound₁ (by omega)
    rw [hself₂]
    omega
  have hnew₂ : ∀ x ∈ liveEntries ext2₂ (ext2₂.inodes n), x.1 ≠ dotDot := by
    intro x hx
    rw [hlive₂, List.mem_singleton] at hx
    rw [hx]
    exact show dot ≠ dotDot by decide
  -- the second one
  rw [← hself₂] at h₂
  have hinserted₂ := (ext2DirAllocate_inserted hsound₂ (by omega) (by decide) hd' hnew₂ h₂).2
  have hself₃ := hinserted₂.inodes_self rfl
  refine ⟨hinserted₂.blockSize.trans hinserted₁.blockSize, htree₂.insert (.inr rfl) (by omega) hinserted₂, ?_, ?_, ?_⟩
  · exact (hagrees₁.trans hagrees₂).trans
      (htree₂.agrees_insert (fun _ hd => .inl hd) (.inr rfl) hn (by omega) hd' hnew₂ hinserted₂)
  · rw [hself₃, hinserted₂.permission_eq, hself₂, hinserted₁.permission_eq, hself₁]
    rfl
  · have hperm := (hinserted₂.live hsound₂ (by omega) hd').perm
    rw [hlive₂] at hperm
    rw [hself₃]
    exact hperm.trans (List.Perm.swap ..)

theorem ext2Mkdir_lookup_iff (hfs : SoundFs fs dirs) (habsolute : path.getD 0 0 = slash) (follow : Bool)
    (h : ext2Mkdir fs path mode = .ok (r, fs')) :
    ((∀ e, r = .error e → fs' = fs) ∧ ∀ c, r = .ok c → Makes fs path follow c fs' ∧ HasDots fs' c) ↔
      ∀ d, Target fs.ext2 path d → lastSlash path ≠ some 1 ∧ (nameOf path).length < 256 := by
  obtain ⟨target, hchecks, h⟩ := bind_eq_ok.1 h
  cases target with
  | error e =>
    obtain ⟨rfl, rfl⟩ := Prod.mk.inj (ok.inj h)
    exact iff_of_true ⟨fun _ _ => rfl, by rintro _ ⟨⟩⟩ fun d htarget => absurd htarget (no_target hchecks d)
  | ok p =>
    obtain ⟨d, name⟩ := p
    obtain ⟨rfl, htarget⟩ := createTarget_eq_ok hchecks
    obtain ⟨⟨n, groups⟩, hfind, h⟩ := bind_eq_ok.1 h
    obtain ⟨⟨r₁, ext2₂, new₂⟩, hallocate₁, h⟩ := bind_eq_ok.1 h
    obtain ⟨⟨r₂, ext2₃, new₃⟩, hallocate₂, h⟩ := bind_eq_ok.1 h
    obtain ⟨⟨r₃, ext2₄, ino'⟩, hallocate₃, h⟩ := bind_eq_ok.1 h
    obtain ⟨rfl, rfl⟩ := Prod.mk.inj (ok.inj h)
    obtain ⟨hn, hne, hclear, halloc⟩ := hfs.fresh hfind
    have hd := (hfs.parent habsolute htarget).1
    have hnd : n ≠ d := fun heq => hn (heq ▸ hd)
    have hnew := hfs.tree.newDirectory hd htarget.ne_zero hn hne hallocate₁ hallocate₂
    have henter := fun hshort => hfs.enter habsolute htarget hnew.agrees hnew.blockSize hnew.tree
      (fun _ hd => .inl hd) hne hshort hallocate₃
    -- the inode of the directory is stored already
    have hstored : (nameOf path).length < 256 → ext2InodeModifyM ext2₄ d ino' = ext2₄ := fun hshort => by
      rw [ext2InodeModifyM, ← (henter hshort).1.inodes_self rfl, Function.update_eq_self]
    constructor
    · rintro ⟨-, hmade⟩ d' -
      have hlookup := (hmade _ rfl).1.lookup
      have hshort := short_of_lookup habsolute htarget.name hne hlookup
      rw [hstored hshort] at hlookup
      exact ⟨(((henter hshort).2 follow).1 hlookup).1, hshort⟩
    · intro hcond
      obtain ⟨hone, hshort⟩ := hcond d htarget
      obtain ⟨hins, hlookup⟩ := henter hshort
      refine ⟨by rintro _ ⟨⟩, ?_⟩
      rintro _ ⟨⟩
      simp only [hstored hshort]
      refine ⟨⟨htarget.parent, hclear, halloc, (hlookup follow).2 ⟨hone, ?_⟩⟩, ?_⟩
      · rw [hins.inodes_of_ne hnd, hnew.permission]
        exact fun hlink => sIfdir_or_ne_link mode hlink.1
      · rw [HasDots, hnew.tree.liveEntries_of_ne (.inl hd) hins (.inr rfl) hnd]
        exact hnew.entries

def smallDrive : FileSystem := ⟨oneBlockExt2 [⟨2, 1024, 2, dot⟩], fiveFree⟩

theorem soundFs_smallDrive : SoundFs smallDrive (· = ext2RootInode) := by
  have hsound : Sound smallDrive.ext2 oneBlockInode := sound_oneBlock (by decide +kernel)
  have hlive : liveEntries smallDrive.ext2 oneBlockInode = [(dot, 2, 2)] := by decide +kernel
  refine ⟨⟨fun d _ => hsound, ?_⟩, fun d _ => ?_, rfl, ?_, ?_, consistent_fiveFree, ?_⟩
  · rintro d d' rfl rfl hne
    exact absurd rfl hne
  · exact (blockCount_oneBlock _).trans_lt (by decide)
  · intro d _ x hx _
    have hx' : x = (dot, 2, 2) := List.mem_singleton.1 (hlive ▸ hx)
    rw [hx']
    rfl
  · intro d _ x hx
    have hx' : x = (dot, 2, 2) := List.mem_singleton.1 (hlive ▸ hx)
    rw [hx']
    decide
  · rintro d rfl
    exact (by decide +kernel : Allocated fiveFree 2)

end CoreX.Ext2

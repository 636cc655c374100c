import CoreX.Base.Loop
import CoreX.Ext2.Getdents

/-!
# The walks over a block of any content

The walks of `ext2Traverse`, `ext2DirAllocate`, `ext2DirRemove` and `ext2Getdents64` go from entry to entry by the
size that each of them has on disk, and check nothing. Each is a `Loop.bounded` with a turn of its own, and returns if
and only if every entry that it comes to is sound for it (`walks_return_iff`): what is read is inside of the block,
and the size moves the walk on.
-/

namespace CoreX.Ext2

open Loop Memory Except Nat

variable {ext2 : Ext2} {names : Buf} {dir : Nat} {filename search : Bytes}

/-- What a walk reads of an entry is inside of the block: `inode` and `size`, and if the entry is live the length, and if
the lengths agree the name. -/
structure ReadsInside (ext2 : Ext2) (names : Buf) (dir : Nat) (filename : Bytes) : Prop where
  header : dir + 6 ≤ ext2.blockSize
  length : (entryAt names dir).inode ≠ 0 → dir + 7 ≤ ext2.blockSize
  name : (entryAt names dir).inode ≠ 0 → (entryAt names dir).filename.length = filename.length →
    dir + 8 + filename.length ≤ ext2.blockSize

def lookAt (ext2 : Ext2) (names : Buf) (dir : Nat) (filename : Bytes) : Except Fault (Ext2Directory × Bool) := do
  let entry ← dirGet ext2 names dir
  let found ← dirIs ext2 dir entry filename
  return (entry, found)

theorem dirGet_eq_ok {entry : Ext2Directory} :
    dirGet ext2 names dir = .ok entry ↔ dir + 6 ≤ ext2.blockSize ∧ entry = entryAt names dir := by
  unfold dirGet
  split_ifs with hle
  · simp [hle, eq_comm]
  · simp [hle]

theorem dirIs_of_inside (h : ReadsInside ext2 names dir filename) :
    dirIs ext2 dir (entryAt names dir) filename = .ok (decide ((entryAt names dir).Is filename)) := by
  unfold dirIs
  by_cases hlive : (entryAt names dir).inode = 0
  · rw [if_pos hlive, decide_eq_false fun hfound => hfound.1 hlive]
  rw [if_neg hlive, if_neg (not_lt.2 (h.length hlive))]
  by_cases hlength : (entryAt names dir).filename.length = filename.length
  · rw [if_pos hlength, if_pos (h.name hlive hlength)]
    simp [Ext2Directory.Is, hlive]
  · rw [if_neg hlength, decide_eq_false fun hfound => hlength (congrArg List.length hfound.2)]

theorem readsInside_of_dirIs {found : Bool} (hheader : dir + 6 ≤ ext2.blockSize)
    (h : dirIs ext2 dir (entryAt names dir) filename = .ok found) : ReadsInside ext2 names dir filename := by
  unfold dirIs at h
  split_ifs at h with hlive hbehind hlength hname
  · exact ⟨hheader, fun hne => absurd hlive hne, fun hne => absurd hlive hne⟩
  · exact ⟨hheader, fun _ => not_lt.1 hbehind, fun _ _ => hname⟩
  · exact ⟨hheader, fun _ => not_lt.1 hbehind, fun _ heq => absurd heq hlength⟩

theorem lookAt_eq_ok {x : Ext2Directory × Bool} : lookAt ext2 names dir filename = .ok x ↔
    ReadsInside ext2 names dir filename ∧ x = (entryAt names dir, decide ((entryAt names dir).Is filename)) := by
  rw [lookAt, bind_eq_ok]
  constructor
  · rintro ⟨entry, hget, hrest⟩
    obtain ⟨hheader, rfl⟩ := dirGet_eq_ok.1 hget
    obtain ⟨found, his, hx⟩ := bind_eq_ok.1 hrest
    have hinside := readsInside_of_dirIs hheader his
    rw [dirIs_of_inside hinside] at his
    obtain rfl := ok.inj his
    exact ⟨hinside, (ok.inj hx).symm⟩
  · rintro ⟨hinside, rfl⟩
    exact ⟨_, dirGet_eq_ok.2 ⟨hinside.header, rfl⟩, bind_eq_ok.2 ⟨_, dirIs_of_inside hinside, rfl⟩⟩

/-! ## `ext2Traverse` -/

def traverseTurn (ext2 : Ext2) (names : Buf) (search : Bytes) (dir : Nat) : Except Fault (Option UInt32 ⊕ Nat) := do
  let (entry, found) ← lookAt ext2 names dir search
  if found then return .inl (some entry.inode)
  return .inr (dir + entry.size)

theorem traverseWalk_eq_bounded (n dir : Nat) : traverseWalk ext2 names search n dir =
    bounded (· < ext2.blockSize) (traverseTurn ext2 names search) (fun _ => none) .diverges n dir := by
  induction n generalizing dir with
  | zero => rfl
  | succ n ih =>
    rw [traverseWalk, bounded]
    apply ite_congr rfl (fun _ => ?_) (fun _ => rfl)
    unfold traverseTurn lookAt
    cases dirGet ext2 names dir with
    | error fault => rfl
    | ok entry =>
      simp only [ok_bind]
      cases dirIs ext2 dir entry search with
      | error fault => rfl
      | ok found =>
        cases found with
        | true => rfl
        | false => exact ih _

/-- The reads are inside, and an entry that is passed over has a size. -/
def TraverseSound (ext2 : Ext2) (names : Buf) (search : Bytes) (dir : Nat) : Prop :=
  ReadsInside ext2 names dir search ∧ (¬ (entryAt names dir).Is search → (entryAt names dir).size ≠ 0)

theorem traverseTurn_eq_ok {x : Option UInt32 ⊕ Nat} : traverseTurn ext2 names search dir = .ok x ↔
    ReadsInside ext2 names dir search ∧
      x = if (entryAt names dir).Is search then .inl (some (entryAt names dir).inode)
        else .inr (dir + (entryAt names dir).size) := by
  rw [traverseTurn, bind_eq_ok]
  constructor
  · rintro ⟨y, hlook, hx⟩
    obtain ⟨hinside, rfl⟩ := lookAt_eq_ok.1 hlook
    refine ⟨hinside, ?_⟩
    by_cases hfound : (entryAt names dir).Is search <;> simpa [hfound, pure, Except.pure, eq_comm] using hx
  · rintro ⟨hinside, rfl⟩
    refine ⟨_, lookAt_eq_ok.2 ⟨hinside, rfl⟩, ?_⟩
    by_cases hfound : (entryAt names dir).Is search <;> simp [hfound, pure, Except.pure]

theorem moves_traverseTurn : Moves id (traverseTurn ext2 names search) dir ↔ TraverseSound ext2 names search dir := by
  constructor
  · rintro ⟨x, hx, hmoves⟩
    obtain ⟨hinside, rfl⟩ := traverseTurn_eq_ok.1 hx
    refine ⟨hinside, fun hfound hzero => ?_⟩
    have hlt := hmoves (dir + (entryAt names dir).size) (if_neg hfound)
    simp [hzero] at hlt
  · rintro ⟨hinside, hsize⟩
    refine ⟨_, traverseTurn_eq_ok.2 ⟨hinside, rfl⟩, fun t ht => ?_⟩
    by_cases hfound : (entryAt names dir).Is search
    · rw [if_pos hfound] at ht
      cases ht
    · rw [if_neg hfound] at ht
      cases ht
      have := hsize hfound
      simp only [id]
      omega

def traverseLoop (ext2 : Ext2) (names : Buf) (search : Bytes) : Nat → Option (Option UInt32 ⊕ Nat) :=
  boundedStep (· < ext2.blockSize) (traverseTurn ext2 names search) fun _ => none

/-! ## `ext2DirAllocate` -/

variable {type_ : UInt8} {inode hardlimit : UInt32} {block : UInt32}

section
variable (ext2 names filename type_ inode)

def allocateTurn (dir : Nat) : Except Fault (Walked ⊕ Nat) := do
  let (entry, found) ← lookAt ext2 names dir filename
  if found then return .inl .taken
  if ext2.blockSize < dir + 7 then throw .bounds
  let minOld := roundUp4 (8 + entry.filename.length)
  let minNew := roundUp4 (8 + filename.length)
  if entry.size < minOld then throw .overflow
  let remainder := entry.size - minOld
  if remainder < minNew then return .inr (dir + entry.size)
  else do
    let names := store16 names (dir + 4) (UInt16.ofNat minOld)
    let new := dir + (entryAt names dir).size
    let names ← dirPut ext2 names new ⟨inode, remainder, type_, filename⟩
    return .inl (.placed names)

def allocateLoop : Nat → Option (Walked ⊕ Nat) :=
  boundedStep (· < ext2.blockSize) (allocateTurn ext2 names filename type_ inode) fun _ => .full

end

theorem allocateWalk_eq_bounded (n dir : Nat) : allocateWalk ext2 names filename type_ inode n dir =
    bounded (· < ext2.blockSize) (allocateTurn ext2 names filename type_ inode) (fun _ => .full) .diverges n dir := by
  induction n generalizing dir with
  | zero => rfl
  | succ n ih =>
    rw [allocateWalk, bounded]
    apply ite_congr rfl (fun _ => ?_) (fun _ => rfl)
    unfold allocateTurn lookAt
    cases dirGet ext2 names dir with
    | error fault => rfl
    | ok entry =>
      simp only [ok_bind]
      cases dirIs ext2 dir entry filename with
      | error fault => rfl
      | ok found =>
        cases found with
        | true => rfl
        | false =>
          simp only [ok_bind, pure_bind, Bool.false_eq_true, if_false]
          by_cases hbehind : ext2.blockSize < dir + 7
          · simp only [if_pos hbehind]
            rfl
          simp only [if_neg hbehind]
          by_cases hsmall : entry.size < roundUp4 (8 + entry.filename.length)
          · simp only [if_pos hsmall]
            rfl
          by_cases hfull : entry.size - roundUp4 (8 + entry.filename.length) < roundUp4 (8 + filename.length)
          · simp only [if_neg hsmall, if_pos hfull]
            exact ih _
          · simp only [if_neg hsmall, if_neg hfull]
            cases dirPut ext2 _ _ _ with
            | error | ok => rfl

section
variable (ext2 names filename)

/-- The reads are inside, the entry is not smaller than its name, and a new one fits the block. -/
def AllocateSound (dir : Nat) : Prop :=
  ReadsInside ext2 names dir filename ∧ (¬ (entryAt names dir).Is filename →
    dir + 7 ≤ ext2.blockSize ∧ (entryAt names dir).minSize ≤ (entryAt names dir).size ∧
      (roundUp4 (8 + filename.length) ≤ (entryAt names dir).size - (entryAt names dir).minSize →
        dir + (entryAt names dir).minSize + 8 + filename.length ≤ ext2.blockSize))

theorem minSize_lt (dir : Nat) : (entryAt names dir).minSize < 2 ^ 16 := by
  have hlt := (names (dir + 6)).toNat_lt
  simp only [Ext2Directory.minSize, length_entryAt, roundUp4]
  omega

end

theorem readsInside_of_allocateTurn {x : Walked ⊕ Nat}
    (h : allocateTurn ext2 names filename type_ inode dir = .ok x) : ReadsInside ext2 names dir filename := by
  obtain ⟨y, hlook, -⟩ := bind_eq_ok.1 h
  exact (lookAt_eq_ok.1 hlook).1

theorem allocateTurn_eq (h : ReadsInside ext2 names dir filename) (type_ : UInt8) (inode : UInt32) :
    allocateTurn ext2 names filename type_ inode dir = if (entryAt names dir).Is filename then .ok (.inl .taken)
      else if ext2.blockSize < dir + 7 then .error .bounds
      else if (entryAt names dir).size < (entryAt names dir).minSize then .error .overflow
      else if (entryAt names dir).size - (entryAt names dir).minSize < roundUp4 (8 + filename.length) then
        .ok (.inr (dir + (entryAt names dir).size))
      else if dir + (entryAt names dir).minSize + 8 + filename.length ≤ ext2.blockSize then
        .ok (.inl (.placed (storeEntry (store16 names (dir + 4) (UInt16.ofNat (entryAt names dir).minSize))
          (dir + (entryAt names dir).minSize)
          ⟨inode, (entryAt names dir).size - (entryAt names dir).minSize, type_, filename⟩)))
      else .error .bounds := by
  have hmin : roundUp4 (8 + (entryAt names dir).filename.length) = (entryAt names dir).minSize := rfl
  rw [allocateTurn, lookAt_eq_ok.2 ⟨h, rfl⟩, ok_bind]
  simp only [decide_eq_true_eq, hmin]
  by_cases hfound : (entryAt names dir).Is filename
  · simp only [if_pos hfound]
    rfl
  by_cases hbehind : ext2.blockSize < dir + 7
  · simp only [if_pos hbehind]
    rfl
  by_cases hsmall : (entryAt names dir).size < (entryAt names dir).minSize
  · simp only [if_pos hsmall]
    rfl
  by_cases hfull : (entryAt names dir).size - (entryAt names dir).minSize < roundUp4 (8 + filename.length)
  · simp only [if_pos hfull]
    rfl
  simp only [if_neg hfull, entryAt_storeSize names dir (minSize_lt names dir), dirPut]
  split_ifs with hle
  · rfl
  · rfl

theorem moves_allocateTurn (type_ : UInt8) (inode : UInt32) :
    Moves id (allocateTurn ext2 names filename type_ inode) dir ↔ AllocateSound ext2 names filename dir := by
  constructor
  · rintro ⟨x, hx, -⟩
    have hinside := readsInside_of_allocateTurn hx
    refine ⟨hinside, fun hfound => ?_⟩
    rw [allocateTurn_eq hinside, if_neg hfound] at hx
    split_ifs at hx with hbehind hsmall hfull hle
    · exact ⟨by omega, by omega, fun hroom => absurd hroom (by omega)⟩
    · exact ⟨by omega, by omega, fun _ => hle⟩
  · rintro ⟨hinside, hsound⟩
    unfold Moves
    rw [allocateTurn_eq hinside]
    by_cases hfound : (entryAt names dir).Is filename
    · exact ⟨_, if_pos hfound, fun t ht => by cases ht⟩
    obtain ⟨hbehind, hsmall, hroom⟩ := hsound hfound
    rw [if_neg hfound, if_neg (by omega), if_neg (by omega)]
    by_cases hfull : (entryAt names dir).size - (entryAt names dir).minSize < roundUp4 (8 + filename.length)
    · refine ⟨_, if_pos hfull, fun t ht => ?_⟩
      cases ht
      have := (entryAt names dir).minSize_ge
      simp only [id]
      omega
    · rw [if_neg hfull, if_pos (hroom (by omega))]
      exact ⟨_, rfl, fun t ht => by cases ht⟩

/-! ## `ext2DirRemove` -/

structure Removing where
  ext2 : Ext2
  names : Buf
  before : Option Nat
  dir : Nat
  ret : Bool

def removeTurn (block : UInt32) (filename : Bytes) (s : Removing) : Except Fault ((Ext2 × Bool) ⊕ Removing) := do
  let (entry, found) ← lookAt s.ext2 s.names s.dir filename
  if found then
    let names ← removeEntry s.names s.before s.dir
    return .inr ⟨setDiskBytes s.ext2 block names, names, some s.dir, s.dir + (entryAt names s.dir).size, true⟩
  else return .inr { s with before := some s.dir, dir := s.dir + entry.size }

theorem removeWalk_eq_bounded (block : UInt32) (filename : Bytes) (n : Nat) (s : Removing) :
    removeWalk block filename n s.ext2 s.names s.before s.dir s.ret =
      bounded (fun s : Removing => s.dir < s.ext2.blockSize) (removeTurn block filename) (fun s => (s.ext2, s.ret))
        .diverges n s := by
  induction n generalizing s with
  | zero => rfl
  | succ n ih =>
    rw [removeWalk, bounded]
    apply ite_congr rfl (fun _ => ?_) (fun _ => rfl)
    unfold removeTurn lookAt
    cases dirGet s.ext2 s.names s.dir with
    | error fault => rfl
    | ok entry =>
      simp only [ok_bind]
      cases dirIs s.ext2 s.dir entry filename with
      | error fault => rfl
      | ok found =>
        cases found with
        | true =>
          cases removeEntry s.names s.before s.dir with
          | error fault => rfl
          | ok names' =>
            exact ih ⟨setDiskBytes s.ext2 block names', names', some s.dir, s.dir + (entryAt names' s.dir).size, true⟩
        | false => exact ih { s with before := some s.dir, dir := s.dir + entry.size }

/-- The reads are inside, and the entry that is left there has a size. -/
def RemoveSound (filename : Bytes) (s : Removing) : Prop :=
  ReadsInside s.ext2 s.names s.dir filename ∧
    (¬ (entryAt s.names s.dir).Is filename → (entryAt s.names s.dir).size ≠ 0) ∧
    ((entryAt s.names s.dir).Is filename → ∃ names', removeEntry s.names s.before s.dir = .ok names' ∧
      (entryAt names' s.dir).size ≠ 0)

variable {s t : Removing}

theorem removeTurn_eq_ok {x : (Ext2 × Bool) ⊕ Removing} :
    removeTurn block filename s = .ok x ↔ ReadsInside s.ext2 s.names s.dir filename ∧
      (¬ (entryAt s.names s.dir).Is filename ∧
          x = .inr { s with before := some s.dir, dir := s.dir + (entryAt s.names s.dir).size } ∨
        (entryAt s.names s.dir).Is filename ∧ ∃ names', removeEntry s.names s.before s.dir = .ok names' ∧
          x = .inr ⟨setDiskBytes s.ext2 block names', names', some s.dir, s.dir + (entryAt names' s.dir).size, true⟩) := by
  rw [removeTurn, bind_eq_ok]
  constructor
  · rintro ⟨y, hlook, hx⟩
    obtain ⟨hinside, rfl⟩ := lookAt_eq_ok.1 hlook
    refine ⟨hinside, ?_⟩
    simp only [decide_eq_true_eq] at hx
    split_ifs at hx with hfound
    · obtain ⟨names', hremove, hx⟩ := bind_eq_ok.1 hx
      exact .inr ⟨hfound, names', hremove, (ok.inj hx).symm⟩
    · exact .inl ⟨hfound, (ok.inj hx).symm⟩
  · rintro ⟨hinside, hx⟩
    refine ⟨_, lookAt_eq_ok.2 ⟨hinside, rfl⟩, ?_⟩
    simp only [decide_eq_true_eq]
    rcases hx with ⟨hfound, rfl⟩ | ⟨hfound, names', hremove, rfl⟩
    · rw [if_neg hfound]
      rfl
    · rw [if_pos hfound, hremove]
      rfl

theorem moves_removeTurn (block : UInt32) :
    Moves Removing.dir (removeTurn block filename) s ↔ RemoveSound filename s := by
  constructor
  · rintro ⟨x, hx, hmoves⟩
    obtain ⟨hinside, hcase⟩ := removeTurn_eq_ok.1 hx
    rcases hcase with ⟨hfound, rfl⟩ | ⟨hfound, names', hremove, rfl⟩
    · have hlt := hmoves _ rfl
      simp only at hlt
      exact ⟨hinside, fun _ => by omega, fun h => absurd h hfound⟩
    · have hlt := hmoves _ rfl
      simp only at hlt
      exact ⟨hinside, fun h => absurd hfound h, fun _ => ⟨names', hremove, by omega⟩⟩
  · rintro ⟨hinside, hsize, hremoved⟩
    by_cases hfound : (entryAt s.names s.dir).Is filename
    · obtain ⟨names', hremove, hne⟩ := hremoved hfound
      refine ⟨_, removeTurn_eq_ok.2 ⟨hinside, .inr ⟨hfound, names', hremove, rfl⟩⟩, fun t ht => ?_⟩
      cases ht
      simp only
      omega
    · have hne := hsize hfound
      refine ⟨_, removeTurn_eq_ok.2 ⟨hinside, .inl ⟨hfound, rfl⟩⟩, fun t ht => ?_⟩
      cases ht
      simp only
      omega

def removeLoop (block : UInt32) (filename : Bytes) : Removing → Option ((Ext2 × Bool) ⊕ Removing) :=
  boundedStep (fun s : Removing => s.dir < s.ext2.blockSize) (removeTurn block filename) fun s => (s.ext2, s.ret)

structure Stuck (filename : Bytes) (s : Removing) : Prop where
  inside : ReadsInside s.ext2 s.names s.dir filename
  before : s.before = some s.dir
  size : (entryAt s.names s.dir).size = 0

theorem Stuck.turn (h : Stuck filename s) : ∃ t, removeTurn block filename s = .ok (.inr t) ∧ Stuck filename t := by
  by_cases hfound : (entryAt s.names s.dir).Is filename
  · -- the size of the entry is added to itself
    obtain ⟨names', hnames'⟩ : ∃ names', names' = store16 s.names (s.dir + 4) (UInt16.ofNat 0) := ⟨_, rfl⟩
    have hremove : removeEntry s.names s.before s.dir = .ok names' := by
      rw [h.before, hnames']
      simp [removeEntry, h.size]
    have hentry : entryAt names' s.dir = entryAt s.names s.dir := by
      rw [hnames', entryAt_storeSize _ _ (by decide), ← h.size]
    have hinside : ReadsInside (setDiskBytes s.ext2 block names') names' s.dir filename :=
      ⟨h.inside.header, hentry.symm ▸ h.inside.length, hentry.symm ▸ h.inside.name⟩
    refine ⟨⟨setDiskBytes s.ext2 block names', names', some s.dir, s.dir, true⟩,
      removeTurn_eq_ok.2 ⟨h.inside, .inr ⟨hfound, names', hremove, ?_⟩⟩, hinside, rfl, ?_⟩
    · rw [hentry, h.size, add_zero]
    · exact (congrArg Ext2Directory.size hentry).trans h.size
  · refine ⟨_, removeTurn_eq_ok.2 ⟨h.inside, .inl ⟨hfound, rfl⟩⟩, ?_⟩
    rw [h.size, add_zero]
    exact ⟨h.inside, rfl, h.size⟩

theorem Stuck.of_turn (h : removeTurn block filename s = .ok (.inr t)) (hle : t.dir ≤ s.dir) : Stuck filename t := by
  obtain ⟨hinside, hcase⟩ := removeTurn_eq_ok.1 h
  rcases hcase with ⟨hfound, ht⟩ | ⟨hfound, names', hremove, ht⟩
  · cases ht
    simp only at hle
    have hzero : (entryAt s.names s.dir).size = 0 := by omega
    rw [hzero, add_zero]
    exact ⟨hinside, rfl, hzero⟩
  · cases ht
    simp only at hle
    have hzero : (entryAt names' s.dir).size = 0 := by omega
    rw [hzero, add_zero]
    exact ⟨⟨hinside.header, fun _ => hinside.length hfound.1,
      fun _ _ => hinside.name hfound.1 (congrArg List.length hfound.2)⟩, rfl, hzero⟩

theorem Stuck.endless (h : Stuck filename s) : Endless (removeLoop block filename) s := by
  refine endless_of_invariant (Stuck filename) (fun t ht => ?_) h
  obtain ⟨u, hu, hstuck⟩ := ht.turn
  have hheader := ht.inside.header
  exact ⟨u, boundedStep_eq_inr.2 ⟨by omega, hu⟩, hstuck⟩

theorem removeTurn_blockSize (h : removeTurn block filename s = .ok (.inr t)) :
    t.ext2.blockSize = s.ext2.blockSize := by
  rcases (removeTurn_eq_ok.1 h).2 with ⟨-, ht⟩ | ⟨-, names', -, ht⟩
  · cases ht
    rfl
  · cases ht
    rfl

/-! ## `ext2Getdents64` -/

section
variable (ext2 names)

structure Reporting where
  dir : Nat
  ptr : Nat
  dents : Dents

def getdentsTurn (hardlimit : UInt32) (s : Reporting) : Except Fault ((Bool × Nat × Dents) ⊕ Reporting) := do
  let entry ← dirGet ext2 names s.dir
  if entry.inode = 0 then return .inr { s with dir := s.dir + entry.size }
  else if ext2.blockSize < s.dir + 8 then throw .bounds
  else
    match dentsAdd s.dents hardlimit entry.filename entry.inode.toUInt64 (dtypeOf entry.type_) with
    | (.dentsNoSpace, dents) => return .inl (true, s.ptr, { dents with allocated := err 22 })
    | (.dentsReturn, dents) => return .inl (true, s.ptr, dents)
    | (.dentsSuccess, dents) =>
      if s.dir + 8 + entry.filename.length ≤ ext2.blockSize then
        return .inr ⟨s.dir + entry.size, s.ptr + entry.size, dents⟩
      else throw .bounds

def getdentsLoop (hardlimit : UInt32) : Reporting → Option ((Bool × Nat × Dents) ⊕ Reporting) :=
  boundedStep (fun s : Reporting => s.dir < ext2.blockSize) (getdentsTurn ext2 names hardlimit)
    fun s => (false, s.ptr, s.dents)

end

theorem getdentsWalk_eq_bounded (hardlimit : UInt32) (n : Nat) (s : Reporting) :
    getdentsWalk ext2 names hardlimit n s.dir s.ptr s.dents =
      bounded (fun s : Reporting => s.dir < ext2.blockSize) (getdentsTurn ext2 names hardlimit)
        (fun s => (false, s.ptr, s.dents)) .diverges n s := by
  induction n generalizing s with
  | zero => rfl
  | succ n ih =>
    rw [getdentsWalk, bounded]
    apply ite_congr rfl (fun _ => ?_) (fun _ => rfl)
    unfold getdentsTurn
    cases dirGet ext2 names s.dir with
    | error fault => rfl
    | ok entry =>
      simp only [ok_bind]
      by_cases hdeleted : entry.inode = 0
      · simp only [if_pos hdeleted]
        exact ih { s with dir := s.dir + entry.size }
      by_cases hbehind : ext2.blockSize < s.dir + 8
      · simp only [if_neg hdeleted, if_pos hbehind]
        rfl
      simp only [if_neg hdeleted, if_neg hbehind]
      obtain ⟨res, dents⟩ := dentsAdd s.dents hardlimit entry.filename entry.inode.toUInt64 (dtypeOf entry.type_)
      cases res with
      | dentsNoSpace | dentsReturn => rfl
      | dentsSuccess =>
        by_cases hname : s.dir + 8 + entry.filename.length ≤ ext2.blockSize
        · simp only [if_pos hname]
          exact ih ⟨s.dir + entry.size, s.ptr + entry.size, dents⟩
        · simp only [if_neg hname]
          rfl

def reportOf (e : Ext2Directory) : Bytes × UInt32 × UInt8 := (e.filename, e.inode, e.type_)

/-- The reads are inside, and a deleted entry has a size. -/
def GetdentsSound (ext2 : Ext2) (names : Buf) (hardlimit : UInt32) (s : Reporting) : Prop :=
  s.dir + 6 ≤ ext2.blockSize ∧
    ((entryAt names s.dir).inode = 0 → (entryAt names s.dir).size ≠ 0) ∧
    ((entryAt names s.dir).inode ≠ 0 → s.dir + 8 ≤ ext2.blockSize ∧
      (s.dents.HasRoom hardlimit (reportOf (entryAt names s.dir)) →
        s.dir + 8 + (entryAt names s.dir).filename.length ≤ ext2.blockSize))

instance {dents : Dents} {hardlimit : UInt32} {t : Bytes × UInt32 × UInt8} :
    Decidable (dents.HasRoom hardlimit t) := inferInstanceAs (Decidable (_ ≤ _))

theorem dentsAdd_eq (dents : Dents) (hardlimit : UInt32) (e : Ext2Directory) :
    dentsAdd dents hardlimit e.filename e.inode.toUInt64 (dtypeOf e.type_) =
      if dents.HasRoom hardlimit (reportOf e) then (.dentsSuccess, dents.add [reportOf e])
      else if dents.allocated ≠ 0 then (.dentsReturn, dents) else (.dentsNoSpace, dents) := by
  split_ifs with hroom hne
  · exact dentsAdd_of_room hroom
  · exact dentsAdd_of_not_room hroom hne
  · have hlt : hardlimit.toNat < dents.allocated + (23 + e.filename.length + 1) + 2 := Nat.lt_of_not_le hroom
    simp only [dentsAdd]
    rw [if_pos hlt, if_neg hne]

theorem getdentsTurn_eq (hardlimit : UInt32) {s : Reporting} (h : s.dir + 6 ≤ ext2.blockSize) :
    getdentsTurn ext2 names hardlimit s =
      if (entryAt names s.dir).inode = 0 then .ok (.inr { s with dir := s.dir + (entryAt names s.dir).size })
      else if ext2.blockSize < s.dir + 8 then .error .bounds
      else if s.dents.HasRoom hardlimit (reportOf (entryAt names s.dir)) then
        if s.dir + 8 + (entryAt names s.dir).filename.length ≤ ext2.blockSize then
          .ok (.inr ⟨s.dir + (entryAt names s.dir).size, s.ptr + (entryAt names s.dir).size,
            s.dents.add [reportOf (entryAt names s.dir)]⟩) else .error .bounds
      else if s.dents.allocated ≠ 0 then .ok (.inl (true, s.ptr, s.dents))
      else .ok (.inl (true, s.ptr, { s.dents with allocated := err 22 })) := by
  rw [getdentsTurn, dirGet_eq_ok.2 ⟨h, rfl⟩, ok_bind]
  simp only [dentsAdd_eq]
  split_ifs <;> rfl

theorem header_of_getdentsTurn {s : Reporting} {x : (Bool × Nat × Dents) ⊕ Reporting}
    (h : getdentsTurn ext2 names hardlimit s = .ok x) : s.dir + 6 ≤ ext2.blockSize := by
  obtain ⟨entry, hget, -⟩ := bind_eq_ok.1 h
  exact (dirGet_eq_ok.1 hget).1

def progress (hardlimit : UInt32) (s : Reporting) : Nat := s.dir + min s.dents.allocated hardlimit.toNat

theorem progress_report {s : Reporting} {t : Bytes × UInt32 × UInt8} (h : s.dents.HasRoom hardlimit t)
    (ptr size : Nat) : progress hardlimit s < progress hardlimit ⟨s.dir + size, ptr, s.dents.add [t]⟩ := by
  have hreclen : 24 ≤ reclenOf t := by
    unfold reclenOf
    omega
  unfold Dents.HasRoom at h
  simp only [progress, Dents.add, List.map_cons, List.map_nil, List.sum_cons, List.sum_nil]
  omega

theorem moves_getdentsTurn (hardlimit : UInt32) {s : Reporting} :
    Moves (progress hardlimit) (getdentsTurn ext2 names hardlimit) s ↔ GetdentsSound ext2 names hardlimit s := by
  constructor
  · rintro ⟨x, hx, hmoves⟩
    have hheader := header_of_getdentsTurn hx
    rw [getdentsTurn_eq hardlimit hheader] at hx
    refine ⟨hheader, fun hdeleted hzero => ?_, fun hlive => ?_⟩
    · rw [if_pos hdeleted, hzero] at hx
      cases hx
      have hlt := hmoves _ rfl
      simp [progress] at hlt
    · rw [if_neg hlive] at hx
      split_ifs at hx with hbehind hroom hname hne
      · exact ⟨by omega, fun _ => hname⟩
      · exact ⟨by omega, fun h => absurd h hroom⟩
      · exact ⟨by omega, fun h => absurd h hroom⟩
  · rintro ⟨hheader, hdeleted, hlive⟩
    unfold Moves
    rw [getdentsTurn_eq hardlimit hheader]
    by_cases hinode : (entryAt names s.dir).inode = 0
    · refine ⟨_, if_pos hinode, fun t ht => ?_⟩
      cases ht
      have := hdeleted hinode
      simp only [progress]
      omega
    obtain ⟨hbehind, hname⟩ := hlive hinode
    rw [if_neg hinode, if_neg (by omega)]
    by_cases hroom : s.dents.HasRoom hardlimit (reportOf (entryAt names s.dir))
    · rw [if_pos hroom, if_pos (hname hroom)]
      refine ⟨_, rfl, fun t ht => ?_⟩
      cases ht
      exact progress_report hroom _ _
    · rw [if_neg hroom]
      split_ifs <;> exact ⟨_, rfl, fun t ht => by cases ht⟩

/-! ## The four walks -/

/-- **Every content of a block**: each of the four walks returns if and only if every entry that it comes to inside of
the block is sound for it. -/
theorem walks_return_iff (ext2 : Ext2) (names : Buf) :
    (∀ search, (∃ r, traverseWalk ext2 names search ext2.blockSize 0 = .ok r) ↔
      ∀ dir, Visits (traverseLoop ext2 names search) 0 dir → dir < ext2.blockSize →
        TraverseSound ext2 names search dir) ∧
    (∀ filename type_ inode, (∃ r, allocateWalk ext2 names filename type_ inode ext2.blockSize 0 = .ok r) ↔
      ∀ dir, Visits (allocateLoop ext2 names filename type_ inode) 0 dir → dir < ext2.blockSize →
        AllocateSound ext2 names filename dir) ∧
    (∀ block filename ret, (∃ r, removeWalk block filename ext2.blockSize ext2 names none 0 ret = .ok r) ↔
      ∀ s, Visits (removeLoop block filename) ⟨ext2, names, none, 0, ret⟩ s → s.dir < s.ext2.blockSize →
        RemoveSound filename s) ∧
    (∀ hardlimit ptr dents, (∃ r, getdentsWalk ext2 names hardlimit (ext2.blockSize + hardlimit.toNat)
        (ptr % ext2.blockSize) ptr dents = .ok r) ↔
      ∀ s, Visits (getdentsLoop ext2 names hardlimit) ⟨ptr % ext2.blockSize, ptr, dents⟩ s →
        s.dir < ext2.blockSize → GetdentsSound ext2 names hardlimit s) := by
  refine ⟨fun search => ?_, fun filename type_ inode => ?_, fun block filename ret => ?_, fun hardlimit ptr dents => ?_⟩
  · simp only [traverseWalk_eq_bounded, ← moves_traverseTurn]
    refine bounded_ok_iff (fun _ _ hlt => hlt) (fun t u _ hlt hturn => ?_) (Nat.le_add_left ..)
    obtain ⟨-, hu⟩ := traverseTurn_eq_ok.1 hturn
    by_cases hfound : (entryAt names t).Is search
    · rw [if_pos hfound] at hu
      cases hu
    rw [if_neg hfound] at hu
    cases hu
    by_cases hzero : (entryAt names t).size = 0
    · rw [hzero, add_zero] at hturn ⊢
      exact .inr (endless_of_self (boundedStep_eq_inr.2 ⟨hlt, hturn⟩))
    · left
      simp only [id]
      omega
  · simp only [allocateWalk_eq_bounded, ← moves_allocateTurn type_ inode]
    refine bounded_ok_iff (fun _ _ hlt => hlt) (fun t u _ hlt hturn => .inl ?_) (Nat.le_add_left ..)
    -- a walk that goes on has met an entry that is not smaller than its name
    rw [allocateTurn_eq (readsInside_of_allocateTurn hturn)] at hturn
    split_ifs at hturn with hfound hbehind hsmall hfull hle
    · cases hturn
    · cases hturn
      have := (entryAt names t).minSize_ge
      simp only [id]
      omega
    · cases hturn
  · simp only [removeWalk_eq_bounded block filename ext2.blockSize ⟨ext2, names, none, 0, ret⟩,
      ← moves_removeTurn block]
    refine bounded_ok_iff (fun t ht hlt => ?_) (fun t u _ hlt hturn => ?_) (Nat.le_add_left ..)
    · have hsize : t.ext2.blockSize = ext2.blockSize := ht.invariant (fun t => t.ext2.blockSize = ext2.blockSize)
        (fun t u hinv hstep => (removeTurn_blockSize (boundedStep_eq_inr.1 hstep).2).trans hinv) rfl
      omega
    · by_cases hle : u.dir ≤ t.dir
      · exact .inr (Stuck.of_turn hturn hle).endless
      · exact .inl (by omega)
  · simp only [getdentsWalk_eq_bounded hardlimit _ ⟨ptr % ext2.blockSize, ptr, dents⟩, ← moves_getdentsTurn hardlimit]
    refine bounded_ok_iff (fun t _ hlt => ?_) (fun t u _ hlt hturn => ?_) (Nat.le_add_left ..)
    · simp only [progress]
      omega
    have heq : getdentsTurn ext2 names hardlimit t = _ := getdentsTurn_eq hardlimit (header_of_getdentsTurn hturn)
    rw [hturn] at heq
    split_ifs at heq with hdeleted hbehind hroom hname hne
    · cases heq
      by_cases hzero : (entryAt names t.dir).size = 0
      · rw [hzero, add_zero] at hturn ⊢
        exact .inr (endless_of_self (boundedStep_eq_inr.2 ⟨hlt, hturn⟩))
      · left
        simp only [progress]
        omega
    · cases heq
      exact .inl (progress_report hroom _ _)
    · cases heq
    · cases heq

def zeroBlockInode : Ext2Inode := ⟨0x4000, 1024, 2, fun i => if i = 0 then 5 else 0⟩

def zeroBlockExt2 : Ext2 := ⟨1024, fun _ _ => 0, fun _ => zeroBlockInode, [7], fun _ => 0⟩

/-- Three of the walks do not get over a block of zeros, and the slack of its first entry underflows. -/
theorem walks_of_zeros : ext2Traverse zeroBlockExt2 2 [97] = .error .diverges ∧
    ext2DirAllocate zeroBlockExt2 2 zeroBlockInode [97] 1 12 = .error .overflow ∧
    ext2DirRemove zeroBlockExt2 zeroBlockInode [97] = .error .diverges ∧
    ext2Getdents64 zeroBlockExt2 ⟨zeroBlockInode, ext2BlockFetchInit zeroBlockExt2, 0⟩ 4096 = .error .diverges := by
  have hdiverges {α : Type} {x : Except Fault α} (h : (x >>= fun _ => .ok ()) = .error .diverges) :
      x = .error .diverges := (bind_eq_error.1 h).resolve_right (by simp)
  exact ⟨by decide +kernel, rfl, hdiverges (by decide +kernel), hdiverges (by decide +kernel)⟩

end CoreX.Ext2

import CoreX.Ext2.DirAllocate

/-!
# Listing a directory (`ext2Getdents64` and `utilities/dents.rs`)

A call of `ext2Getdents64` reports entries until the buffer is full, and keeps in `ptr` where the next call goes on.
It does not move `ptr` over a deleted entry, so `ptr` falls behind the walk. That does no harm if no more than one
entry of the block is reported after a deleted one; at the end of a block `ptr` goes to the next one, unless nothing
of it was reported.
-/

namespace CoreX.Ext2

open Memory List Nat

inductive DentsRes where
  | dentsSuccess
  | dentsReturn
  | dentsNoSpace
  deriving DecidableEq

structure LinuxDirent64 where
  dIno : UInt64
  dReclen : UInt16
  dType : UInt8
  dName : Bytes
  deriving DecidableEq

structure Dents where
  records : List LinuxDirent64
  allocated : Nat

def dentsAdd (dents : Dents) (hardlimit : UInt32) (filename : Bytes) (inode : UInt64) (dtype : UInt8) :
    DentsRes × Dents :=
  let reclen := 23 + filename.length + 1
  if hardlimit.toNat < dents.allocated + reclen + 2 then
    if dents.allocated ≠ 0 then (.dentsReturn, dents) else (.dentsNoSpace, dents)
  else (.dentsSuccess,
    ⟨dents.records ++ [⟨inode, UInt16.ofNat reclen, dtype, filename⟩], dents.allocated + reclen⟩)

structure Ext2OpenFd where
  inode : Ext2Inode
  lookup : Ext2LookupControl
  ptr : Nat

def err (e : Nat) : Nat := 2 ^ 64 - e

def dtypeOf (type_ : UInt8) : UInt8 :=
  if type_ = 2 then 4 else if type_ = 7 then 10 else 8

def getdentsWalk (ext2 : Ext2) (names : Buf) (hardlimit : UInt32) :
    Nat → Nat → Nat → Dents → Except Fault (Bool × Nat × Dents)
  | 0, dir, ptr, dents => if dir < ext2.blockSize then .error .diverges else .ok (false, ptr, dents)
  | fuel + 1, dir, ptr, dents =>
    if dir < ext2.blockSize then do
      let entry ← dirGet ext2 names dir
      if entry.inode = 0 then getdentsWalk ext2 names hardlimit fuel (dir + entry.size) ptr dents
      -- `type_` is the last byte before the name
      else if ext2.blockSize < dir + 8 then .error .bounds
      else
        match dentsAdd dents hardlimit entry.filename entry.inode.toUInt64 (dtypeOf entry.type_) with
        | (.dentsNoSpace, dents) => .ok (true, ptr, { dents with allocated := err 22 })
        | (.dentsReturn, dents) => .ok (true, ptr, dents)
        | (.dentsSuccess, dents) =>
          -- the name is copied from the block
          if dir + 8 + entry.filename.length ≤ ext2.blockSize then
            getdentsWalk ext2 names hardlimit fuel (dir + entry.size) (ptr + entry.size) dents
          else .error .bounds
    else .ok (false, ptr, dents)

def roundPtr (ext2 : Ext2) (ptr : Nat) : Nat :=
  let rem := ptr % ext2.blockSize
  if rem ≠ 0 then ptr + (ext2.blockSize - rem) else ptr

/-- The loop over the blocks, which goes by `ptr`. A live entry of size zero is reported until the buffer is full, so a
walk can take more turns than a block has bytes: with the limit added, one that takes more does not end. -/
def getdentsBlocks (ext2 : Ext2) (hardlimit : UInt32) : Nat → Ext2OpenFd → Dents → Except Fault (Ext2OpenFd × Dents)
  | 0, edir, dents => .ok (edir, dents)
  | k + 1, edir, dents => do
    let (block, lookup) ← ext2BlockFetch ext2 edir.inode edir.lookup (edir.ptr / ext2.blockSize)
    if block = 0 then return ({ edir with lookup }, dents)
    let (left, ptr, dents) ← getdentsWalk ext2 (ext2.disk block) hardlimit (ext2.blockSize + hardlimit.toNat)
      (edir.ptr % ext2.blockSize) edir.ptr dents
    if left then return ({ edir with lookup, ptr }, dents)
    getdentsBlocks ext2 hardlimit k { edir with lookup, ptr := roundPtr ext2 ptr } dents

def ext2Getdents64 (ext2 : Ext2) (edir : Ext2OpenFd) (hardlimit : Nat) :
    Except Fault (Nat × List LinuxDirent64 × Ext2OpenFd) :=
  if edir.inode.permission &&& 0xF000 ≠ 0x4000 then .ok (err 20, [], edir)
  else do
    let blocks ← blockCount ext2 edir.inode
    let (edir, dents) ← getdentsBlocks ext2 (UInt32.ofNat hardlimit) blocks edir ⟨[], 0⟩
    return (dents.allocated, dents.records, edir)

def getdentsCalls (ext2 : Ext2) (limits : Nat → Nat) (edir : Ext2OpenFd) :
    Nat → Except Fault (List LinuxDirent64 × Ext2OpenFd)
  | 0 => .ok ([], edir)
  | n + 1 => do
    let (records, edir) ← getdentsCalls ext2 limits edir n
    let (_, new, edir) ← ext2Getdents64 ext2 edir (limits n)
    return (records ++ new, edir)

/-! ## Records -/

variable {ext2 : Ext2} {ino : Ext2Inode} {edir : Ext2OpenFd} {names : Buf} {hardlimit : UInt32} {dents : Dents}
  {dir off ptr : Nat} {e : Ext2Directory} {es rest skipped : List Ext2Directory} {t : Bytes × UInt32 × UInt8}
  {ts us left : List (Bytes × UInt32 × UInt8)} {back front : List UInt32} {lookup : Ext2LookupControl}

section
variable (t)

def reclenOf : Nat := 23 + t.1.length + 1

def direntOf : LinuxDirent64 :=
  ⟨t.2.1.toUInt64, UInt16.ofNat (reclenOf t), dtypeOf t.2.2, t.1⟩

end

def Dents.HasRoom (dents : Dents) (hardlimit : UInt32) (t : Bytes × UInt32 × UInt8) : Prop :=
  dents.allocated + reclenOf t + 2 ≤ hardlimit.toNat

section
variable (dents ts)

def Dents.add : Dents :=
  ⟨dents.records ++ ts.map direntOf, dents.allocated + (ts.map reclenOf).sum⟩

end

@[simp] theorem Dents.add_nil : dents.add [] = dents := by simp [Dents.add]

theorem Dents.add_add : (dents.add ts).add us = dents.add (ts ++ us) := by
  simp [Dents.add, add_assoc]

theorem sum_reclenOf_ne (h : ts ≠ []) : (ts.map reclenOf).sum ≠ 0 := by
  cases ts with
  | nil => exact absurd rfl h
  | cons t ts =>
    simp only [map_cons, sum_cons, reclenOf]
    omega

theorem Dents.allocated_add_ne (h : ts ≠ []) : (dents.add ts).allocated ≠ 0 := by
  have hne := sum_reclenOf_ne h
  simp only [Dents.add]
  omega

theorem dentsAdd_of_room (h : dents.HasRoom hardlimit t) :
    dentsAdd dents hardlimit t.1 t.2.1.toUInt64 (dtypeOf t.2.2) = (.dentsSuccess, dents.add [t]) := by
  simp only [Dents.HasRoom, reclenOf] at h
  simp only [dentsAdd]
  rw [if_neg (by omega)]
  simp [Dents.add, direntOf, reclenOf]

theorem dentsAdd_of_not_room (h : ¬ dents.HasRoom hardlimit t) (hne : dents.allocated ≠ 0) :
    dentsAdd dents hardlimit t.1 t.2.1.toUInt64 (dtypeOf t.2.2) = (.dentsReturn, dents) := by
  simp only [Dents.HasRoom, reclenOf] at h
  simp only [dentsAdd]
  rw [if_pos (by omega), if_pos hne]

/-! ## The walk over a block -/

theorem live_eq_nil_iff : live es = [] ↔ ∀ e ∈ es, e.inode = 0 := by
  simp [live, filter_eq_nil_iff]

/-- After a deleted entry of the block there is at most one live one. -/
def Resumable : List Ext2Directory → Prop
  | [] => True
  | e :: es => (e.inode = 0 → (live es).length ≤ 1) ∧ Resumable es

def decidableResumable : ∀ es : List Ext2Directory, Decidable (Resumable es)
  | [] => inferInstanceAs (Decidable True)
  | e :: es =>
    have := decidableResumable es
    inferInstanceAs (Decidable ((e.inode = 0 → (live es).length ≤ 1) ∧ Resumable es))

instance : Decidable (Resumable es) := decidableResumable es

theorem Resumable.live_eq_nil (h : Resumable (skipped ++ e :: rest)) (hskipped : skipped ≠ [])
    (hdeleted : ∀ e ∈ skipped, e.inode = 0) (he : e.inode ≠ 0) : live rest = [] := by
  cases skipped with
  | nil => exact absurd rfl hskipped
  | cons d skipped =>
    obtain ⟨hd, hdeleted⟩ := forall_mem_cons.1 hdeleted
    have hle : (live (skipped ++ e :: rest)).length ≤ 1 := h.1 hd
    rw [live_append, live_eq_nil_iff.2 hdeleted, live_cons_of_ne he] at hle
    exact length_eq_zero_iff.1 (by simpa using hle)

section Step
variable (h : Chain names dir (e :: rest) ext2.blockSize) (fuel : Nat) (ptr : Nat)
include h

theorem getdentsWalk_deleted (he : e.inode = 0) (dents : Dents) :
    getdentsWalk ext2 names hardlimit (fuel + 1) dir ptr dents =
      getdentsWalk ext2 names hardlimit fuel (dir + e.size) ptr dents := by
  obtain ⟨hlt, hget⟩ := h.dirGet_eq
  rw [getdentsWalk, if_pos hlt, hget, ok_bind, if_pos he]

theorem getdentsWalk_of_room (he : e.inode ≠ 0) (hroom : dents.HasRoom hardlimit (e.filename, e.inode, e.type_)) :
    getdentsWalk ext2 names hardlimit (fuel + 1) dir ptr dents =
      getdentsWalk ext2 names hardlimit fuel (dir + e.size) (ptr + e.size)
        (dents.add [(e.filename, e.inode, e.type_)]) := by
  obtain ⟨hlt, hget⟩ := h.dirGet_eq
  obtain ⟨-, hfits, hrest⟩ := h
  have hsize := hfits.le_size
  have hle := hrest.le
  have hadd := dentsAdd_of_room hroom
  rw [getdentsWalk, if_pos hlt, hget, ok_bind, if_neg he, if_neg (by omega), hadd]
  exact if_pos (by omega)

theorem getdentsWalk_of_not_room (he : e.inode ≠ 0) (hne : dents.allocated ≠ 0)
    (hroom : ¬ dents.HasRoom hardlimit (e.filename, e.inode, e.type_)) :
    getdentsWalk ext2 names hardlimit (fuel + 1) dir ptr dents = .ok (true, ptr, dents) := by
  obtain ⟨hlt, hget⟩ := h.dirGet_eq
  obtain ⟨-, hfits, hrest⟩ := h
  have hsize := hfits.le_size
  have hle := hrest.le
  have hadd := dentsAdd_of_not_room hroom hne
  rw [getdentsWalk, if_pos hlt, hget, ok_bind, if_neg he, if_neg (by omega), hadd]

end Step

theorem getdentsWalk_nil (h : Chain names dir [] ext2.blockSize) (fuel : Nat) :
    getdentsWalk ext2 names hardlimit fuel dir ptr dents = .ok (false, ptr, dents) := by
  have hend : dir = ext2.blockSize := h
  cases fuel <;> rw [getdentsWalk, if_neg (by omega)]

theorem getdentsWalk_of_live_eq_nil (h : Chain names dir rest ext2.blockSize) (hlive : live rest = []) {fuel : Nat}
    (hfuel : rest.length ≤ fuel) :
    getdentsWalk ext2 names hardlimit fuel dir ptr dents = .ok (false, ptr, dents) := by
  induction rest generalizing dir fuel with
  | nil => exact getdentsWalk_nil h fuel
  | cons e rest ih =>
    obtain ⟨he, hrest⟩ := forall_mem_cons.1 (live_eq_nil_iff.1 hlive)
    rw [length_cons] at hfuel
    cases fuel with
    | zero => omega
    | succ fuel =>
      rw [getdentsWalk_deleted h fuel ptr he]
      exact ih h.2.2 (live_eq_nil_iff.2 hrest) (by omega)

/-- How the walk over a block ends whose entries `left` are not reported yet. Either the buffer is full, and
`ptr` stands where the next entry can be found again. Or every entry is reported. -/
inductive WalkEnds (ext2 : Ext2) (names : Buf) (base off : Nat) (dents : Dents)
    (left : List (Bytes × UInt32 × UInt8)) : Bool × Nat × Dents → Prop where
  | full {ts us rest off'} : left = ts ++ us → us ≠ [] → (dents.add ts).allocated ≠ 0 →
      Chain names off' rest ext2.blockSize → Resumable rest → live rest = us →
      WalkEnds ext2 names base off dents left (true, base + off', dents.add ts)
  | ended {off'} : off' ≤ ext2.blockSize → (off' = 0 → off = 0 ∧ left = []) →
      WalkEnds ext2 names base off dents left (false, base + off', dents.add left)

theorem WalkEnds.cons {base size : Nat} {r : Bool × Nat × Dents} (hsize : 0 < size)
    (h : WalkEnds ext2 names base (off + size) (dents.add [t]) left r) :
    WalkEnds ext2 names base off dents (t :: left) r := by
  cases h with
  | full hleft hus hne hchain hres hlive =>
    rw [Dents.add_add] at hne ⊢
    exact .full (congrArg (t :: ·) hleft) hus hne hchain hres hlive
  | ended hle hzero =>
    rw [Dents.add_add]
    refine .ended hle fun hoff => ?_
    omega

/-- The induction is on the entries that are left to walk over. The walk is at `dir`, and between `ptr` and
it there are deleted entries only. -/
theorem getdentsWalk_ends (base : Nat) (hskipped : Chain names off skipped dir)
    (hdeleted : ∀ e ∈ skipped, e.inode = 0) (h : Chain names dir rest ext2.blockSize)
    (hres : Resumable (skipped ++ rest))
    (hroom : dents.allocated = 0 → ∀ t us, live rest = t :: us → dents.HasRoom hardlimit t) {fuel : Nat}
    (hfuel : rest.length ≤ fuel) : ∃ r, getdentsWalk ext2 names hardlimit fuel dir (base + off) dents = .ok r ∧
      WalkEnds ext2 names base off dents (live rest) r := by
  induction rest generalizing off skipped dir dents fuel with
  | nil =>
    have hle := hskipped.le
    have hend : dir = ext2.blockSize := h
    have hended : WalkEnds ext2 names base off dents [] (false, base + off, dents.add []) :=
      .ended (by omega) fun hoff => ⟨hoff, rfl⟩
    rw [Dents.add_nil] at hended
    exact ⟨_, getdentsWalk_nil h fuel, hended⟩
  | cons e rest ih =>
    rw [length_cons] at hfuel
    cases fuel with
    | zero => omega
    | succ fuel =>
      have hfuel' : rest.length ≤ fuel := le_of_succ_le_succ hfuel
      have hsize := h.2.1.le_size
      have hle := h.2.2.le
      have hle' := hskipped.le
      by_cases he : e.inode = 0
      · have hskipped' : Chain names off (skipped ++ [e]) (dir + e.size) :=
          chain_append.2 ⟨dir, hskipped, h.1, h.2.1, rfl⟩
        have hdeleted' : ∀ x ∈ skipped ++ [e], x.inode = 0 := by
          intro x hx
          rcases mem_append.1 hx with hx | hx
          · exact hdeleted x hx
          · exact mem_singleton.1 hx ▸ he
        rw [live_cons_of_eq he] at hroom ⊢
        obtain ⟨r, hwalk, hends⟩ := ih hskipped' hdeleted' h.2.2 (by simpa using hres) hroom hfuel'
        exact ⟨r, by rw [getdentsWalk_deleted h fuel _ he, hwalk], hends⟩
      · rw [live_cons_of_ne he] at hroom ⊢
        by_cases hfits : dents.HasRoom hardlimit (e.filename, e.inode, e.type_)
        · rw [getdentsWalk_of_room h fuel _ he hfits, add_assoc]
          by_cases hnone : skipped = []
          · -- `ptr` goes along with the walk
            subst hnone
            obtain rfl : off = dir := hskipped
            have hstart : Chain names (off + e.size) [] (off + e.size) := rfl
            have hne : (dents.add [(e.filename, e.inode, e.type_)]).allocated ≠ 0 := Dents.allocated_add_ne (by simp)
            obtain ⟨r, hwalk, hends⟩ := ih hstart (by simp) h.2.2 hres.2 (fun hzero => absurd hzero hne) hfuel'
            exact ⟨r, hwalk, hends.cons (by omega)⟩
          · -- `ptr` is behind from now on, but nothing of the block is left
            have hnil := hres.live_eq_nil hnone hdeleted he
            rw [hnil, getdentsWalk_of_live_eq_nil h.2.2 hnil hfuel']
            exact ⟨_, rfl, .ended (by omega) fun hzero => by omega⟩
        · have hne : dents.allocated ≠ 0 := fun hzero => hfits (hroom hzero _ _ rfl)
          have hlive : live (skipped ++ e :: rest) = (e.filename, e.inode, e.type_) :: live rest := by
            rw [live_append, live_eq_nil_iff.2 hdeleted, live_cons_of_ne he, nil_append]
          have hfull : WalkEnds ext2 names base off dents ((e.filename, e.inode, e.type_) :: live rest)
              (true, base + off, dents.add []) :=
            .full rfl (by simp) (by simpa using hne) (chain_append.2 ⟨dir, hskipped, h⟩) hres hlive
          rw [Dents.add_nil] at hfull
          exact ⟨_, getdentsWalk_of_not_room h fuel _ he hne hfits, hfull⟩

/-! ## The loop over the blocks -/

/-- A directory that calls with any limits list completely: after a deleted entry of a block there is at most
one live one, behind a block without live entries there are none, and the pointer behind the last block is in
reach and zero. -/
structure Resumes (ext2 : Ext2) (ino : Ext2Inode) : Prop where
  resumable : ∀ block ∈ dirBlocks ext2 ino, Resumable (blockEntries ext2.blockSize (ext2.disk block))
  order : ∀ front block back, dirBlocks ext2 ino = front ++ block :: back →
    live (blockEntries ext2.blockSize (ext2.disk block)) = [] → live (entriesOf ext2 back) = []
  reach : (dirBlocks ext2 ino).length < ext2.capacity
  behind : blockAt ext2 ino (dirBlocks ext2 ino).length = 0

inductive Position (ext2 : Ext2) (ino : Ext2Inode) :
    Nat → List UInt32 → List (Bytes × UInt32 × UInt8) → Prop where
  | behind : Position ext2 ino ((dirBlocks ext2 ino).length * ext2.blockSize) [] []
  | inside {front block back off rest} : dirBlocks ext2 ino = front ++ block :: back →
      Chain (ext2.disk block) off rest ext2.blockSize → off < ext2.blockSize → Resumable rest →
      Position ext2 ino (front.length * ext2.blockSize + off) (block :: back)
        (live rest ++ live (entriesOf ext2 back))

theorem Position.start (h : IsDirectory ext2 ino) (hresumes : Resumes ext2 ino) {back : List UInt32}
    (hsplit : dirBlocks ext2 ino = front ++ back) :
    Position ext2 ino (front.length * ext2.blockSize) back (live (entriesOf ext2 back)) := by
  cases back with
  | nil =>
    rw [append_nil] at hsplit
    rw [← hsplit]
    exact .behind
  | cons block back =>
    have hmem := mem_of_split hsplit
    rw [entriesOf_cons, live_append]
    exact .inside hsplit (h.wellFormed block hmem) h.pos (hresumes.resumable block hmem)

theorem Position.left_eq_nil (h : Position ext2 ino ptr back left) (hback : back = []) : left = [] := by
  cases h with
  | behind => rfl
  | inside => simp at hback

structure Reading (ext2 : Ext2) (ino : Ext2Inode) (edir : Ext2OpenFd) (back : List UInt32)
    (left : List (Bytes × UInt32 × UInt8)) : Prop where
  inode : edir.inode = ino
  serves : Serves ext2 ino edir.lookup
  position : Position ext2 ino edir.ptr back left

theorem roundPtr_mul_add {off : Nat} (k : Nat) (hle : off ≤ ext2.blockSize) :
    roundPtr ext2 (k * ext2.blockSize + off) = if off = 0 then k * ext2.blockSize else (k + 1) * ext2.blockSize := by
  simp only [roundPtr]
  rw [add_comm (k * ext2.blockSize), add_mul_mod_self_right, succ_mul]
  rcases lt_or_eq_of_le hle with hlt | rfl
  · rw [mod_eq_of_lt hlt]
    split_ifs <;> omega
  · rw [mod_self, if_neg (by simp)]
    split_ifs <;> omega

/-- What an iteration reports of the entries that are left. Either it is the last one, since the buffer is full
or nothing is left. Or the loop goes on with the next block, or does so no longer with anything left. -/
def Iterates (ext2 : Ext2) (ino : Ext2Inode) (hardlimit : UInt32) (edir : Ext2OpenFd) (dents : Dents)
    (back : List UInt32) (left : List (Bytes × UInt32 × UInt8)) : Prop :=
  ∃ edir' back' ts us, left = ts ++ us ∧ Reading ext2 ino edir' back' us ∧
    ((us ≠ [] → (dents.add ts).allocated ≠ 0) ∧
        (∀ k, getdentsBlocks ext2 hardlimit (k + 1) edir dents = .ok (edir', dents.add ts)) ∨
      (us = [] ∨ back'.length < back.length) ∧
        ∀ k, getdentsBlocks ext2 hardlimit (k + 1) edir dents =
          getdentsBlocks ext2 hardlimit k edir' (dents.add ts))

theorem getdentsBlocks_behind (hresumes : Resumes ext2 ino) (h : IsDirectory ext2 ino)
    (hserves : Serves ext2 ino lookup) :
    Iterates ext2 ino hardlimit ⟨ino, lookup, (dirBlocks ext2 ino).length * ext2.blockSize⟩ dents [] [] := by
  obtain ⟨lookup', hfetch, hserves', -⟩ := ext2BlockFetch_of_lt hserves hresumes.reach
  refine ⟨⟨ino, lookup', _⟩, [], [], [], rfl, ⟨rfl, hserves', .behind⟩, .inl ⟨fun hne => absurd rfl hne, fun k => ?_⟩⟩
  rw [getdentsBlocks]
  rw [Nat.mul_div_cancel _ h.pos, hfetch, ok_bind, hresumes.behind, Dents.add_nil]
  rfl

section
variable (h : IsDirectory ext2 ino) (hresumes : Resumes ext2 ino)
include h hresumes

theorem getdentsBlocks_inside (hserves : Serves ext2 ino lookup) {block : UInt32}
    (hsplit : dirBlocks ext2 ino = front ++ block :: back)
    (hchain : Chain (ext2.disk block) off rest ext2.blockSize) (hoff : off < ext2.blockSize)
    (hres : Resumable rest)
    (hroom : dents.allocated = 0 → ∀ t us, live rest = t :: us → dents.HasRoom hardlimit t) :
    Iterates ext2 ino hardlimit ⟨ino, lookup, front.length * ext2.blockSize + off⟩ dents (block :: back)
      (live rest ++ live (entriesOf ext2 back)) := by
  obtain ⟨hblock, hne⟩ := blockAt_of_blocksFrom_eq hsplit
  rw [zero_add] at hblock
  obtain ⟨lookup', hfetch, hserves', -⟩ := ext2BlockFetch_of_lt hserves (lt_capacity_of_blockAt_ne (hblock ▸ hne))
  have hle := hchain.le
  have hstart : Chain (ext2.disk block) off [] off := rfl
  have hfuel : rest.length ≤ ext2.blockSize + hardlimit.toNat := by omega
  obtain ⟨r, hwalk, hends⟩ := getdentsWalk_ends (front.length * ext2.blockSize) hstart (by simp) hchain hres
    hroom hfuel
  have hdiv : (front.length * ext2.blockSize + off) / ext2.blockSize = front.length := by
    rw [add_comm, add_mul_div_right _ _ h.pos, div_eq_of_lt hoff, zero_add]
  have hmod : (front.length * ext2.blockSize + off) % ext2.blockSize = off := by
    rw [add_comm, add_mul_mod_self_right, mod_eq_of_lt hoff]
  have hiteration : ∀ k,
      getdentsBlocks ext2 hardlimit (k + 1) ⟨ino, lookup, front.length * ext2.blockSize + off⟩ dents =
      if r.1 then .ok (⟨ino, lookup', r.2.1⟩, r.2.2)
      else getdentsBlocks ext2 hardlimit k ⟨ino, lookup', roundPtr ext2 r.2.1⟩ r.2.2 := by
    intro k
    rw [getdentsBlocks]
    rw [hdiv, hmod, hfetch, ok_bind, hblock]
    simp only
    rw [if_neg hne, hwalk]
    rfl
  cases hends with
  | @full ts us rest' off' hleft hus halloc hchain' hres' hlive =>
    have hoff' : off' < ext2.blockSize := by
      have hle' := hchain'.le
      cases rest' with
      | nil => exact absurd hlive.symm hus
      | cons e rest' =>
        rw [length_cons] at hle'
        omega
    refine ⟨⟨ino, lookup', _⟩, block :: back, ts, us ++ live (entriesOf ext2 back), ?_, ⟨rfl, hserves', ?_⟩,
      .inl ⟨fun _ => halloc, hiteration⟩⟩
    · rw [hleft, append_assoc]
    · rw [← hlive]
      exact .inside hsplit hchain' hoff' hres'
  | @ended off' hle' hzero =>
    refine ⟨⟨ino, lookup', roundPtr ext2 (front.length * ext2.blockSize + off')⟩, ?_⟩
    by_cases hoff' : off' = 0
    · -- nothing of the block was reported, and so nothing is left
      obtain ⟨rfl, hnil⟩ := hzero hoff'
      have hback : live (entriesOf ext2 back) = [] :=
        hresumes.order front block back hsplit (by rw [hchain.blockEntries_eq, hnil])
      have hpos := Position.inside hsplit hchain hoff hres
      rw [hnil, hback] at hpos
      refine ⟨block :: back, live rest, [], by rw [hback], ⟨rfl, hserves', ?_⟩, .inr ⟨.inl rfl, hiteration⟩⟩
      rw [roundPtr_mul_add _ hle', if_pos hoff']
      exact hpos
    · have hsplit' : dirBlocks ext2 ino = (front ++ [block]) ++ back := by
        rw [hsplit, append_assoc, singleton_append]
      have hpos := Position.start h hresumes hsplit'
      rw [length_append, length_singleton] at hpos
      refine ⟨back, live rest, live (entriesOf ext2 back), rfl, ⟨rfl, hserves', ?_⟩,
        .inr ⟨.inr (lt_succ_self _), hiteration⟩⟩
      rw [roundPtr_mul_add _ hle', if_neg hoff']
      exact hpos

theorem getdentsBlocks_iterates (hreading : Reading ext2 ino edir back left)
    (hroom : dents.allocated = 0 → ∀ t us, left = t :: us → dents.HasRoom hardlimit t) :
    Iterates ext2 ino hardlimit edir dents back left := by
  obtain ⟨inode, lookup, ptr⟩ := edir
  obtain ⟨rfl, hserves, hpos⟩ := hreading
  simp only at hserves hpos
  cases hpos with
  | behind => exact getdentsBlocks_behind hresumes h hserves
  | inside hsplit hchain hoff hres =>
    apply getdentsBlocks_inside h hresumes hserves hsplit hchain hoff hres
    intro hzero t us hlive
    exact hroom hzero t _ (by rw [hlive]; rfl)

/-- **What the loop over the blocks reports**: the first of the entries that are left, and all of them unless
the buffer is full. The induction is on the number of iterations; there are enough of them as long as
something is left. -/
theorem getdentsBlocks_reports (k : Nat) (hreading : Reading ext2 ino edir back left)
    (hback : left = [] ∨ back.length ≤ k)
    (hroom : dents.allocated = 0 → ∀ t us, left = t :: us → dents.HasRoom hardlimit t) :
    ∃ edir' back' ts us, getdentsBlocks ext2 hardlimit k edir dents = .ok (edir', dents.add ts) ∧
      left = ts ++ us ∧ Reading ext2 ino edir' back' us ∧ (us ≠ [] → (dents.add ts).allocated ≠ 0) := by
  induction k generalizing edir back left dents with
  | zero =>
    have hnil : left = [] := by
      rcases hback with hnil | hle
      · exact hnil
      · exact hreading.position.left_eq_nil (length_eq_zero_iff.1 (le_zero.1 hle))
    refine ⟨edir, back, [], left, ?_, rfl, hreading, fun hne => absurd hnil hne⟩
    rw [getdentsBlocks, Dents.add_nil]
  | succ k ih =>
    obtain ⟨edir', back', ts, us, rfl, hreading', ⟨halloc, hlast⟩ | ⟨hprog, hnext⟩⟩ :=
      getdentsBlocks_iterates h hresumes hreading hroom
    · exact ⟨edir', back', ts, us, hlast k, rfl, hreading', halloc⟩
    have hback' : us = [] ∨ back'.length ≤ k := by
      rcases hback with hnil | hle
      · exact .inl (append_eq_nil_iff.1 hnil).2
      · exact hprog.imp_right fun hlt => by omega
    have hroom' : (dents.add ts).allocated = 0 →
        ∀ t us', us = t :: us' → (dents.add ts).HasRoom hardlimit t := by
      intro hzero t us' hus
      have hnil : ts = [] := by
        by_contra hne
        exact Dents.allocated_add_ne hne hzero
      rw [hnil, Dents.add_nil] at hzero ⊢
      exact hroom hzero t us' (by rw [hnil, hus]; rfl)
    obtain ⟨edir'', back'', ts', us', hloop, rfl, hreading'', halloc⟩ := ih hreading' hback' hroom'
    rw [Dents.add_add] at hloop halloc
    exact ⟨edir'', back'', ts ++ ts', us', by rw [hnext, hloop], (append_assoc ..).symm, hreading'', halloc⟩

end

/-! ## Calls until nothing is left -/

theorem Position.length_le (h : Position ext2 ino ptr back left) :
    back.length ≤ Word.divRoundUp ino.size.toNat ext2.blockSize := by
  cases h with
  | behind => exact zero_le _
  | @inside front block back off rest hsplit =>
    have hle : (dirBlocks ext2 ino).length ≤ Word.divRoundUp ino.size.toNat ext2.blockSize := length_blocksFrom_le ..
    rw [hsplit, length_append] at hle
    omega

theorem ext2Getdents64_reports (h : IsDirectory ext2 ino) (hresumes : Resumes ext2 ino)
    (hperm : ino.permission &&& 0xF000 = 0x4000) (hreading : Reading ext2 ino edir back left) {limit : Nat}
    (hlimit : ∀ t us, left = t :: us → 26 + t.1.length ≤ limit % 2 ^ 32) :
    ∃ edir' back' ts us, ext2Getdents64 ext2 edir limit = .ok ((ts.map reclenOf).sum, ts.map direntOf, edir') ∧
      left = ts ++ us ∧ Reading ext2 ino edir' back' us ∧ (left ≠ [] → ts ≠ []) := by
  have hroom : (⟨[], 0⟩ : Dents).allocated = 0 → ∀ t us, left = t :: us →
      (⟨[], 0⟩ : Dents).HasRoom (UInt32.ofNat limit) t := by
    intro _ t us hleft
    have hle := hlimit t us hleft
    simp only [Dents.HasRoom, reclenOf, UInt32.toNat_ofNat']
    omega
  obtain ⟨edir', back', ts, us, hloop, rfl, hreading', halloc⟩ :=
    getdentsBlocks_reports h hresumes _ hreading (.inr hreading.position.length_le) hroom
  refine ⟨edir', back', ts, us, ?_, rfl, hreading', ?_⟩
  · rw [ext2Getdents64, hreading.inode, if_neg (by simpa using hperm), blockCount_eq h.pos, ok_bind, hloop]
    simp [Dents.add, ok_bind, pure, Except.pure]
  · rintro hne rfl
    exact halloc hne rfl

section
variable (ext2) (limits : Nat → Nat)

/-- After `n` calls the next one returns `ret`. -/
def Answers (edir : Ext2OpenFd) (n ret : Nat) : Prop :=
  ∃ records edir' new edir'', getdentsCalls ext2 limits edir n = .ok (records, edir') ∧
    ext2Getdents64 ext2 edir' (limits n) = .ok (ret, new, edir'')

/-- Every limit is large enough for the record of the next entry, after as many as were reported. -/
def LargeEnough (edir : Ext2OpenFd) : Prop :=
  ∀ n records edir', getdentsCalls ext2 limits edir n = .ok (records, edir') →
    ∀ t, (liveEntries ext2 edir.inode)[records.length]? = some t → 26 + t.1.length ≤ limits n % 2 ^ 32

end

/-- The calls from one on that has `left` to report. The induction is on how many entries these are. -/
theorem getdentsCalls_lists {limits : Nat → Nat} {edir' : Ext2OpenFd} (h : IsDirectory ext2 edir.inode)
    (hresumes : Resumes ext2 edir.inode) (hperm : edir.inode.permission &&& 0xF000 = 0x4000)
    (hlimits : LargeEnough ext2 limits edir) {i : Nat}
    (hcalls : getdentsCalls ext2 limits edir i = .ok (ts.map direntOf, edir'))
    (hreading : Reading ext2 edir.inode edir' back left) (hlive : liveEntries ext2 edir.inode = ts ++ left) :
    ∃ n edir'', getdentsCalls ext2 limits edir n = .ok ((liveEntries ext2 edir.inode).map direntOf, edir'') ∧
      Answers ext2 limits edir n 0 ∧ ∀ j, i ≤ j → j < n → ∃ ret, ret ≠ 0 ∧ Answers ext2 limits edir j ret := by
  induction hlength : left.length using Nat.strong_induction_on generalizing i ts left back edir' with
  | _ length ih =>
    have hlimit : ∀ t us, left = t :: us → 26 + t.1.length ≤ limits i % 2 ^ 32 := by
      intro t us hleft
      apply hlimits i _ edir' hcalls t
      rw [hlive, hleft, length_map, getElem?_append_right (Nat.le_refl _), Nat.sub_self]
      rfl
    obtain ⟨edir'', back', new, us, hcall, rfl, hreading', hprog⟩ :=
      ext2Getdents64_reports h hresumes hperm hreading hlimit
    have hanswers : Answers ext2 limits edir i (new.map reclenOf).sum := ⟨_, edir', _, edir'', hcalls, hcall⟩
    by_cases hnil : new ++ us = []
    · obtain ⟨rfl, rfl⟩ := append_eq_nil_iff.1 hnil
      rw [append_nil, append_nil] at hlive
      refine ⟨i, edir', ?_, hanswers, fun j hj hj' => by omega⟩
      rw [hlive]
      exact hcalls
    · have hnew : new ≠ [] := hprog hnil
      have hcalls' : getdentsCalls ext2 limits edir (i + 1) = .ok ((ts ++ new).map direntOf, edir'') := by
        rw [getdentsCalls, hcalls, ok_bind]
        simp only
        rw [hcall, ok_bind, map_append]
        rfl
      have hshorter : us.length < length := by
        have hpos := length_pos_iff.2 hnew
        rw [length_append] at hlength
        omega
      obtain ⟨n, edir₃, hdone, hzero, hnonzero⟩ :=
        ih us.length hshorter hcalls' hreading' (by rw [hlive, append_assoc]) rfl
      refine ⟨n, edir₃, hdone, hzero, fun j hj hj' => ?_⟩
      rcases eq_or_lt_of_le hj with rfl | hlt
      · exact ⟨_, sum_reclenOf_ne hnew, hanswers⟩
      · exact hnonzero j hlt hj'

/-- **A directory that resumes is listed completely**, whatever the limits of the calls are, as long as each is
large enough for one more entry. The calls until one returns `0` report every live entry once, in the order
of the directory. -/
theorem ext2Getdents64_lists (ext2 : Ext2) (edir : Ext2OpenFd) (limits : Nat → Nat)
    (h : IsDirectory ext2 edir.inode) (hpermission : edir.inode.permission &&& 0xF000 = 0x4000)
    (hserves : Serves ext2 edir.inode edir.lookup) (hptr : edir.ptr = 0) (hresumes : Resumes ext2 edir.inode)
    (hlimits : LargeEnough ext2 limits edir) :
    ∃ n edir', getdentsCalls ext2 limits edir n = .ok ((liveEntries ext2 edir.inode).map direntOf, edir') ∧
      Answers ext2 limits edir n 0 ∧ ∀ i < n, ∃ ret, ret ≠ 0 ∧ Answers ext2 limits edir i ret := by
  have hsplit : dirBlocks ext2 edir.inode = [] ++ dirBlocks ext2 edir.inode := rfl
  have hpos := Position.start h hresumes hsplit
  rw [length_nil, zero_mul] at hpos
  have hreading : Reading ext2 edir.inode edir (dirBlocks ext2 edir.inode) (liveEntries ext2 edir.inode) := by
    refine ⟨rfl, hserves, ?_⟩
    rw [hptr]
    exact hpos
  have hcalls : getdentsCalls ext2 limits edir 0 =
      .ok (([] : List (Bytes × UInt32 × UInt8)).map direntOf, edir) := rfl
  obtain ⟨n, edir', hdone, hzero, hnonzero⟩ := getdentsCalls_lists h hresumes hpermission hlimits hcalls hreading rfl
  exact ⟨n, edir', hdone, hzero, fun i hi => hnonzero i (zero_le _) hi⟩

theorem resumes_oneBlock {es : List Ext2Directory} (h : Resumable (blockEntries 1024 (blockOf es))) :
    Resumes (oneBlockExt2 es) oneBlockInode := by
  have hblocks := dirBlocks_oneBlock es
  refine ⟨fun block hblock => ?_, fun front block back hsplit _ => ?_, ?_, ?_⟩
  · rw [hblocks, mem_singleton] at hblock
    rw [hblock]
    exact h
  · have hlength := congrArg length (hblocks.symm.trans hsplit)
    simp only [length_append, length_cons, length_nil] at hlength
    rw [length_eq_zero_iff.1 (show back.length = 0 by omega)]
    rfl
  · rw [hblocks, length_singleton, capacity]
    omega
  · rw [hblocks]
    exact pointer_oneBlock es (.data 1)

def oneBlockFd : Ext2OpenFd := ⟨oneBlockInode, ⟨fun _ => 0, fun _ => 0, 0, 0⟩, 0⟩

/-- Two entries and a deleted one behind them, with room for one at a time. -/
theorem ext2Getdents64_lists_oneBlock :
    ∃ n edir', getdentsCalls (oneBlockExt2 [⟨11, 12, 1, [97]⟩, ⟨12, 12, 2, [98]⟩, ⟨0, 1000, 1, []⟩]) (fun _ => 27)
      oneBlockFd n = .ok ([⟨11, 25, 8, [97]⟩, ⟨12, 25, 4, [98]⟩], edir') := by
  have hdir : IsDirectory (oneBlockExt2 [⟨11, 12, 1, [97]⟩, ⟨12, 12, 2, [98]⟩, ⟨0, 1000, 1, []⟩]) oneBlockInode :=
    isDirectory_oneBlock (by decide +kernel)
  obtain ⟨n, edir', hcalls, -⟩ := ext2Getdents64_lists _ oneBlockFd (fun _ => 27) hdir (by decide)
    (ext2BlockFetchInit_serves _ _).1 rfl (resumes_oneBlock (by decide +kernel)) (by
      intro n records edir' _ t ht
      have hmem := mem_of_getElem? ht
      have hlength : ∀ x ∈ [(([97] : Bytes), (11 : UInt32), (1 : UInt8)), ([98], 12, 2)],
          26 + x.1.length ≤ 27 := by
        decide
      exact hlength t hmem)
  exact ⟨n, edir', hcalls⟩

/-- A deleted entry before two others: the first of them is reported twice. -/
theorem ext2Getdents64_twice :
    IsDirectory (oneBlockExt2 [⟨0, 12, 1, []⟩, ⟨11, 12, 1, [97]⟩, ⟨12, 1000, 1, [98]⟩]) oneBlockInode ∧
      liveEntries (oneBlockExt2 [⟨0, 12, 1, []⟩, ⟨11, 12, 1, [97]⟩, ⟨12, 1000, 1, [98]⟩]) oneBlockInode =
        [([97], 11, 1), ([98], 12, 1)] ∧
      Answers (oneBlockExt2 [⟨0, 12, 1, []⟩, ⟨11, 12, 1, [97]⟩, ⟨12, 1000, 1, [98]⟩]) (fun _ => 27) oneBlockFd 3 0 ∧
      ∃ edir', getdentsCalls (oneBlockExt2 [⟨0, 12, 1, []⟩, ⟨11, 12, 1, [97]⟩, ⟨12, 1000, 1, [98]⟩]) (fun _ => 27)
        oneBlockFd 3 = .ok ([⟨11, 25, 8, [97]⟩, ⟨11, 25, 8, [97]⟩, ⟨12, 25, 8, [98]⟩], edir') :=
  ⟨isDirectory_oneBlock (by decide +kernel), by decide +kernel, ⟨_, _, _, _, rfl, rfl⟩, _, rfl⟩

end CoreX.Ext2

import CoreX.Ext2.Path
import CoreX.Ext2.DirAllocate

/-!
# The components of a path (`filesystems/ext2/ext2-traverse.rs`)

The loop of `ext2TraversePath` is a walk over the components of a path (`traversePathLoop_names`). It is meant to look
up each one in the directory that the one before it is (`lookupPath`). But it takes for a directory what has the bit
of `S_IFDIR` in its type, and so have block devices and sockets.
-/

namespace CoreX.Ext2

open Memory List Except

def joinPath (names : List Bytes) : Bytes := names.flatMap (slash :: ·)

def IsLink (inode : Ext2Inode) : Prop := inode.permission &&& 0xF000 = ext2SIflnk

instance (inode : Ext2Inode) : Decidable (IsLink inode) := inferInstanceAs (Decidable (_ = _))

theorem joinPath_cons (name : Bytes) (names : List Bytes) :
    joinPath (name :: names) = slash :: (name ++ joinPath names) := flatMap_cons ..

/-! ## The loop goes over the components -/

def visit (ext2 : Ext2) (path : Bytes) (follow : Bool) (last : Prop) [Decidable last] (lastslash : Nat) (curr : UInt32)
    (name : Bytes) (next : UInt32 → Except Fault Traversed) : Except Fault Traversed := do
  let curr ← ext2Traverse ext2 curr name
  if curr = 0 then return ⟨0, none⟩
  let inode := ext2.inodes curr
  if IsLink inode ∧ (¬ last ∨ follow) then
    let target ← symlinkTarget ext2 inode path lastslash name.length
    return ⟨0, some target⟩
  if last then return ⟨curr, none⟩
  if inode.permission &&& sIfdir = 0 then return ⟨0, none⟩
  next curr

def traverseNames (ext2 : Ext2) (path : Bytes) (follow : Bool) :
    Nat → UInt32 → List Bytes → Except Fault Traversed
  | _, curr, [] => .ok ⟨curr, none⟩
  | lastslash, curr, name :: names =>
    visit ext2 path follow (names = []) lastslash curr name fun c =>
      traverseNames ext2 path follow (lastslash + 1 + name.length) c names

theorem visit_congr {ext2 : Ext2} {path : Bytes} {follow : Bool} {last last' : Prop} [Decidable last] [Decidable last']
    {next next' : UInt32 → Except Fault Traversed} (hlast : last ↔ last') (hnext : ¬ last → ∀ c, next c = next' c)
    (lastslash : Nat) (curr : UInt32) (name : Bytes) :
    visit ext2 path follow last lastslash curr name next = visit ext2 path follow last' lastslash curr name next' := by
  refine bind_congr fun c => ?_
  by_cases h : last
  · simp only [h, hlast.1 h, if_true]
  · simp only [h, mt hlast.2 h, hnext h]

section Loop
variable {ext2 : Ext2} {path : Bytes} {follow : Bool} {k i lastslash : Nat} {curr : UInt32} {s before rest : Bytes}
  {names : List Bytes}

theorem getD_component {j : Nat} (hj : j < s.length) :
    (before ++ slash :: (s ++ rest)).getD (before.length + 1 + j) 0 ∈ s := by
  rw [getD_append_right _ _ _ _ (by omega), show before.length + 1 + j - before.length = j + 1 by omega,
    getD_cons_succ, getD_append _ _ _ _ hj, getD_eq_getElem _ _ hj]
  exact getElem_mem hj

theorem getD_behind : (before ++ slash :: (s ++ rest)).getD (before.length + 1 + s.length) 0 = rest.getD 0 0 := by
  rw [getD_append_right _ _ _ _ (by omega),
    show before.length + 1 + s.length - before.length = s.length + 1 by omega, getD_cons_succ,
    getD_append_right _ _ _ _ (Nat.le_refl _), Nat.sub_self]

theorem component_eq : ((before ++ slash :: (s ++ rest)).drop (before.length + 1)).take s.length = s := by
  rw [drop_length_add_append, drop_succ_cons, drop_zero, take_left]

theorem traversePathLoop_skip_component {n : Nat} (hs : slash ∉ s) (hn : n ≤ s.length) (hend : n < s.length + rest.length)
    (k : Nat) :
    traversePathLoop ext2 (before ++ slash :: (s ++ rest)) follow (n + k) (before.length + 1) curr before.length =
      traversePathLoop ext2 (before ++ slash :: (s ++ rest)) follow k (before.length + 1 + n) curr before.length := by
  induction n generalizing k with
  | zero => rw [Nat.zero_add, Nat.add_zero]
  | succ n ih =>
    rw [Nat.add_assoc, Nat.add_comm 1, ih (by omega) (by omega), traversePathLoop, if_neg, Nat.add_assoc _ n 1]
    rintro (hslash | hlast)
    · exact hs (hslash ▸ getD_component (by omega))
    · simp only [length_append, length_cons] at hlast
      omega

theorem traversePathLoop_visit (hend : path.getD i 0 = slash ∨ i = path.length - 1)
    (hlength : (if i = path.length - 1 then i - lastslash - 1 + 1 else i - lastslash - 1) = s.length)
    (hname : (path.drop (lastslash + 1)).take s.length = s) :
    traversePathLoop ext2 path follow (k + 1) i curr lastslash =
      visit ext2 path follow (i = path.length - 1) lastslash curr s fun c =>
        traversePathLoop ext2 path follow k (i + 1) c i := by
  rw [traversePathLoop, if_pos hend]
  simp only [hlength]
  rw [hname]
  rfl

theorem one_lt_length_joinPath (names : List Bytes) (s : Bytes) (b : UInt8) :
    1 < (joinPath (names ++ [s ++ [b]])).length := by
  rw [joinPath, flatMap_append, length_append]
  simp
  omega

/-- **The loop over the bytes is the walk over the components.** The last one ends with the last byte of the path, also if
that is a slash. The induction is on the names, with the part of the path that is done in front. -/
theorem traversePathLoop_names (hnames : ∀ s ∈ names, slash ∉ s) (hs : slash ∉ s) (b : UInt8) (before : Bytes)
    (curr : UInt32) :
    traversePathLoop ext2 (before ++ joinPath (names ++ [s ++ [b]])) follow ((joinPath (names ++ [s ++ [b]])).length - 1)
        (before.length + 1) curr before.length =
      traverseNames ext2 (before ++ joinPath (names ++ [s ++ [b]])) follow before.length curr (names ++ [s ++ [b]]) := by
  induction names generalizing before curr with
  | nil =>
    have hpath : before ++ joinPath ([] ++ [s ++ [b]]) = before ++ slash :: (s ++ [b]) := by simp [joinPath]
    have hcount : (joinPath ([] ++ [s ++ [b]])).length - 1 = s.length + 1 := by simp [joinPath]
    have hlast : before.length + 1 + s.length = (before ++ slash :: (s ++ [b])).length - 1 := by
      simp only [length_append, length_cons, length_nil]
      omega
    have hname : ((before ++ slash :: (s ++ [b])).drop (before.length + 1)).take (s ++ [b]).length = s ++ [b] := by
      rw [drop_length_add_append, drop_succ_cons, drop_zero, take_length]
    rw [hpath, hcount, traversePathLoop_skip_component hs (Nat.le_refl _) (by simp),
      traversePathLoop_visit (.inr hlast) (by rw [if_pos hlast, length_append, length_singleton]; omega) hname]
    exact visit_congr (iff_of_true hlast rfl) (fun h => absurd hlast h) ..
  | cons name names ih =>
    obtain ⟨hslash, hrest⟩ := forall_mem_cons.1 hnames
    have hih := ih hrest (before ++ slash :: name)
    have hmore := one_lt_length_joinPath names s b
    have hfirst : (joinPath (names ++ [s ++ [b]])).getD 0 0 = slash := by
      cases names <;> rfl
    rw [cons_append, joinPath_cons name]
    generalize joinPath (names ++ [s ++ [b]]) = rest at *
    have hdone : (before ++ slash :: name).length = before.length + 1 + name.length := by
      rw [length_append, length_cons]
      omega
    have hpath : before ++ slash :: (name ++ rest) = (before ++ slash :: name) ++ rest := by simp
    have hnot : before.length + 1 + name.length ≠ (before ++ slash :: (name ++ rest)).length - 1 := by
      rw [hpath, length_append, hdone]
      omega
    have hcount : (slash :: (name ++ rest)).length - 1 = name.length + (rest.length - 1 + 1) := by
      rw [length_cons, length_append]
      omega
    rw [hcount, traversePathLoop_skip_component hslash (Nat.le_refl _) (by omega),
      traversePathLoop_visit (.inl (getD_behind.trans hfirst)) (by rw [if_neg hnot]; omega) component_eq]
    refine visit_congr (iff_of_false hnot (append_ne_nil_of_right_ne_nil _ (cons_ne_nil _ _))) (fun _ c => ?_) ..
    rw [hpath, ← hdone]
    exact hih c

theorem ext2TraversePath_split (hnames : ∀ s ∈ names, slash ∉ s) (hs : slash ∉ s) (b : UInt8) (initInode : UInt32) :
    ext2TraversePath ext2 (joinPath (names ++ [s ++ [b]])) initInode follow =
      traverseNames ext2 (joinPath (names ++ [s ++ [b]])) follow 0 initInode (names ++ [s ++ [b]]) := by
  rw [ext2TraversePath, if_neg (one_lt_length_joinPath names s b).ne']
  exact traversePathLoop_names hnames hs b [] initInode

theorem ext2TraversePath_names (hne : names ≠ []) (hnames : ∀ s ∈ names, s ≠ [] ∧ slash ∉ s) (initInode : UInt32) :
    ext2TraversePath ext2 (joinPath names) initInode follow =
      traverseNames ext2 (joinPath names) follow 0 initInode names := by
  rw [← dropLast_append_getLast hne] at hnames ⊢
  obtain ⟨hinit, hlast⟩ := forall_mem_append.1 hnames
  obtain ⟨hne', hslash⟩ := hlast _ mem_cons_self
  rw [← dropLast_append_getLast hne'] at hslash ⊢
  exact ext2TraversePath_split (fun s hs => (hinit s hs).2) (fun h => hslash (mem_append_left _ h)) _ initInode

end Loop

/-! ## The way to the last component -/

/-- The names lead from one directory to another, through directories only. -/
def Leads (ext2 : Ext2) : UInt32 → List Bytes → UInt32 → Prop
  | d, [], e => d = e
  | d, name :: names, e => ∃ c, ext2Traverse ext2 d name = .ok c ∧ c ≠ 0 ∧ ¬ IsLink (ext2.inodes c) ∧
      (ext2.inodes c).permission &&& sIfdir ≠ 0 ∧ Leads ext2 c names e

section Way
variable {ext2 : Ext2} {path name : Bytes} {follow : Bool} {curr c d e : UInt32} {names names' : List Bytes}
  {t : Traversed} {lastslash : Nat}

theorem visit_of_found {last : Prop} [Decidable last] (next : UInt32 → Except Fault Traversed)
    (hfound : ext2Traverse ext2 curr name = .ok c) (hne : c ≠ 0) (hlink : ¬ IsLink (ext2.inodes c)) :
    visit ext2 path follow last lastslash curr name next =
      if last then .ok ⟨c, none⟩ else if (ext2.inodes c).permission &&& sIfdir = 0 then .ok ⟨0, none⟩ else next c := by
  rw [visit, hfound, ok_bind, if_neg hne]
  rw [if_neg fun h => hlink h.1]
  rfl

theorem traverseNames_leads (hleads : Leads ext2 d names e) (hne : names' ≠ []) (lastslash : Nat) :
    traverseNames ext2 path follow lastslash d (names ++ names') =
      traverseNames ext2 path follow (lastslash + (joinPath names).length) e names' := by
  induction names generalizing d lastslash with
  | nil =>
    obtain rfl := hleads
    rfl
  | cons name names ih =>
    obtain ⟨c, hfound, hzero, hlink, hdir, hleads⟩ := hleads
    have hmore : names ++ names' ≠ [] := append_ne_nil_of_right_ne_nil _ hne
    have hlength : lastslash + 1 + name.length + (joinPath names).length =
        lastslash + (joinPath (name :: names)).length := by
      rw [joinPath_cons, length_cons, length_append]
      omega
    rw [cons_append, traverseNames, visit_of_found _ hfound hzero hlink, if_neg hmore, if_neg hdir, ih hleads, hlength]

theorem Leads.concat (hleads : Leads ext2 d names e) (hfound : ext2Traverse ext2 e name = .ok c) (hne : c ≠ 0)
    (hlink : ¬ IsLink (ext2.inodes c)) (hdir : (ext2.inodes c).permission &&& sIfdir ≠ 0) :
    Leads ext2 d (names ++ [name]) c := by
  induction names generalizing d with
  | nil =>
    obtain rfl := hleads
    exact ⟨c, hfound, hne, hlink, hdir, rfl⟩
  | cons name' names ih =>
    obtain ⟨c', hfound', hne', hlink', hdir', hleads⟩ := hleads
    exact ⟨c', hfound', hne', hlink', hdir', ih hleads⟩

theorem traverseNames_inv (h : traverseNames ext2 path follow lastslash curr (name :: names) = .ok t)
    (ht : t.inode ≠ 0) : ∃ c, ext2Traverse ext2 curr name = .ok c ∧ c ≠ 0 ∧
      ¬ (IsLink (ext2.inodes c) ∧ (names ≠ [] ∨ follow = true)) ∧
      if names = [] then t.inode = c else (ext2.inodes c).permission &&& sIfdir ≠ 0 ∧
        traverseNames ext2 path follow (lastslash + 1 + name.length) c names = .ok t := by
  obtain ⟨c, hfound, h⟩ := bind_eq_ok.1 h
  refine ⟨c, hfound, ?_⟩
  by_cases hzero : c = 0
  · rw [if_pos hzero] at h
    exact absurd (congrArg Traversed.inode (ok.inj h)).symm ht
  rw [if_neg hzero] at h
  refine ⟨hzero, ?_⟩
  by_cases hlink : IsLink (ext2.inodes c) ∧ (names ≠ [] ∨ follow = true)
  · rw [if_pos hlink] at h
    obtain ⟨target, -, h⟩ := bind_eq_ok.1 h
    exact absurd (congrArg Traversed.inode (ok.inj h)).symm ht
  rw [if_neg hlink] at h
  refine ⟨hlink, ?_⟩
  by_cases hlast : names = []
  · rw [if_pos hlast] at h ⊢
    exact (congrArg Traversed.inode (ok.inj h)).symm
  rw [if_neg hlast] at h ⊢
  by_cases hdir : (ext2.inodes c).permission &&& sIfdir = 0
  · rw [if_pos hdir] at h
    exact absurd (congrArg Traversed.inode (ok.inj h)).symm ht
  · rw [if_neg hdir] at h
    exact ⟨hdir, h⟩

/-- What a lookup has found is the last component, in the directory to which the others lead. -/
theorem traverseNames_found (h : traverseNames ext2 path follow lastslash d (names ++ [name]) = .ok t)
    (ht : t.inode ≠ 0) : ∃ e, Leads ext2 d names e ∧ ext2Traverse ext2 e name = .ok t.inode ∧
      ¬ (IsLink (ext2.inodes t.inode) ∧ follow = true) := by
  induction names generalizing d lastslash with
  | nil =>
    obtain ⟨c, hfound, -, hlink, hlast⟩ := traverseNames_inv h ht
    rw [if_pos rfl] at hlast
    rw [hlast]
    exact ⟨d, rfl, hfound, fun h => hlink ⟨h.1, .inr h.2⟩⟩
  | cons name' names ih =>
    have hmore : names ++ [name] ≠ [] := append_ne_nil_of_right_ne_nil _ (cons_ne_nil _ _)
    rw [cons_append] at h
    obtain ⟨c, hfound, hne, hlink, hrest⟩ := traverseNames_inv h ht
    rw [if_neg hmore] at hrest
    obtain ⟨e, hleads, hlast⟩ := ih hrest.2
    exact ⟨e, ⟨c, hfound, hne, fun h => hlink ⟨h, .inl hmore⟩, hrest.1, hleads⟩, hlast⟩

end Way

/-! ## Looking up the components -/

def IsDir (inode : Ext2Inode) : Prop := inode.permission &&& 0xF000 = sIfdir

instance (inode : Ext2Inode) : Decidable (IsDir inode) := inferInstanceAs (Decidable (_ = _))

def lookupPath (ext2 : Ext2) : UInt32 → List Bytes → Except Fault UInt32
  | curr, [] => .ok curr
  | curr, name :: names => do
    let curr ← ext2Traverse ext2 curr name
    if curr = 0 then return 0
    if names ≠ [] ∧ ¬ IsDir (ext2.inodes curr) then return 0
    lookupPath ext2 curr names

def canonicalPath (names : List Bytes) : Bytes := if names = [] then [slash] else joinPath names

/-- No component that is reached over directories is a link. -/
def NoLink (ext2 : Ext2) : UInt32 → List Bytes → Prop
  | _, [] => True
  | curr, name :: names => ∀ c, ext2Traverse ext2 curr name = .ok c → c ≠ 0 →
    ¬ IsLink (ext2.inodes c) ∧ (IsDir (ext2.inodes c) → NoLink ext2 c names)

/-- No directory, but with the bit of one. -/
def Disguised (inode : Ext2Inode) : Prop := ¬ IsDir inode ∧ inode.permission &&& sIfdir ≠ 0

/-- A link whose target is in the inode, or in one block. -/
def HasTarget (ext2 : Ext2) (inode : Ext2Inode) : Prop := 60 < inode.size.toNat → inode.size.toNat ≤ ext2.blockSize

/-- One of the names is not there, is a link, or lacks the bit of a directory and is not the last one. -/
def Lost (ext2 : Ext2) (follow : Bool) : UInt32 → List Bytes → Prop
  | _, [] => False
  | curr, name :: names => ∃ c, ext2Traverse ext2 curr name = .ok c ∧ (c = 0 ∨
    if IsLink (ext2.inodes c) ∧ (names ≠ [] ∨ follow = true) then HasTarget ext2 (ext2.inodes c)
    else names ≠ [] ∧ ((ext2.inodes c).permission &&& sIfdir = 0 ∨ Lost ext2 follow c names))

/-- If a component before the last one is disguised, one of the names behind it is lost. -/
def DeadEnds (ext2 : Ext2) (follow : Bool) : UInt32 → List Bytes → Prop
  | _, [] => True
  | curr, name :: names => names ≠ [] → ∀ c, ext2Traverse ext2 curr name = .ok c → c ≠ 0 →
    (IsDir (ext2.inodes c) → DeadEnds ext2 follow c names) ∧ (Disguised (ext2.inodes c) → Lost ext2 follow c names)

section Lookup
variable {ext2 : Ext2} {path : Bytes} {follow : Bool} {curr c : UInt32} {names : List Bytes}

theorem sIfdir_of_isDir {inode : Ext2Inode} (h : IsDir inode) : inode.permission &&& sIfdir ≠ 0 := by
  intro hzero
  have hmask : inode.permission &&& sIfdir = inode.permission &&& 0xF000 &&& sIfdir := by
    rw [UInt32.and_assoc]
    rfl
  rw [hmask, h] at hzero
  exact absurd hzero (by decide)

theorem symlinkTarget_isOk {inode : Ext2Inode} {lastslash length : Nat} :
    (∃ target, symlinkTarget ext2 inode path lastslash length = .ok target) ↔ HasTarget ext2 inode := by
  rw [symlinkTarget, HasTarget]
  by_cases hfar : 60 < inode.size.toNat ∧ ext2.blockSize < inode.size.toNat
  · simp only [if_pos hfar]
    exact iff_of_false nofun fun h => Nat.not_le_of_lt hfar.2 (h hfar.1)
  · simp only [if_neg hfar]
    refine iff_of_true ?_ fun hlong => by omega
    split_ifs <;> exact ⟨_, rfl⟩

theorem traverseNames_eq_zero_iff (hne : names ≠ []) (lastslash : Nat) :
    (traverseNames ext2 path follow lastslash curr names).map Traversed.inode = .ok 0 ↔ Lost ext2 follow curr names := by
  induction names generalizing lastslash curr with
  | nil => exact absurd rfl hne
  | cons name names ih =>
    rw [traverseNames, Lost, visit]
    cases ext2Traverse ext2 curr name with
    | error fault => exact iff_of_false nofun nofun
    | ok c =>
      simp only [ok_bind, ok.injEq, exists_eq_left']
      by_cases hzero : c = 0
      · exact iff_of_true (by rw [if_pos hzero]; rfl) (.inl hzero)
      rw [if_neg hzero, or_iff_right hzero]
      by_cases hlink : IsLink (ext2.inodes c) ∧ (names ≠ [] ∨ follow = true)
      · rw [if_pos hlink, if_pos hlink, ← symlinkTarget_isOk]
        cases symlinkTarget ext2 (ext2.inodes c) path lastslash name.length with
        | error fault => exact iff_of_false nofun nofun
        | ok target => exact iff_of_true rfl ⟨target, rfl⟩
      rw [if_neg hlink, if_neg hlink]
      by_cases hlast : names = []
      · rw [if_pos hlast]
        exact iff_of_false (fun h => hzero (ok.inj h)) fun h => h.1 hlast
      rw [if_neg hlast, and_iff_right hlast]
      by_cases hbit : (ext2.inodes c).permission &&& sIfdir = 0
      · rw [if_pos hbit]
        exact iff_of_true rfl (.inl hbit)
      · rw [if_neg hbit, ih hlast, or_iff_right hbit]

theorem traverseNames_lookup_iff (hlinks : NoLink ext2 curr names) (lastslash : Nat) :
    (traverseNames ext2 path follow lastslash curr names).map Traversed.inode = lookupPath ext2 curr names ↔
      DeadEnds ext2 follow curr names := by
  induction names generalizing lastslash curr with
  | nil => exact iff_of_true rfl trivial
  | cons name names ih =>
    rw [traverseNames, lookupPath, DeadEnds]
    cases hfound : ext2Traverse ext2 curr name with
    | error fault =>
      refine iff_of_true ?_ fun _ c hc => ?_
      · rw [visit, hfound]
        rfl
      · cases hc
    | ok c =>
      rw [ok_bind]
      by_cases hzero : c = 0
      · refine iff_of_true ?_ fun _ d hd hne => absurd ((ok.inj hd).symm.trans hzero) hne
        rw [visit, hfound, ok_bind, if_pos hzero, if_pos hzero]
        rfl
      obtain ⟨hlink, hdeeper⟩ := hlinks c hfound hzero
      rw [visit_of_found _ hfound hzero hlink, if_neg hzero]
      by_cases hlast : names = []
      · subst hlast
        exact iff_of_true (by simp [lookupPath, Except.map]) fun h => absurd rfl h
      rw [if_neg hlast]
      by_cases hdir : IsDir (ext2.inodes c)
      · rw [if_neg (sIfdir_of_isDir hdir), if_neg fun h => h.2 hdir, ih (hdeeper hdir)]
        constructor
        · rintro h - d hd -
          obtain rfl := ok.inj hd
          exact ⟨fun _ => h, fun hdis => absurd hdir hdis.1⟩
        · exact fun h => (h hlast c rfl hzero).1 hdir
      · rw [if_pos (And.intro hlast hdir)]
        by_cases hbit : (ext2.inodes c).permission &&& sIfdir = 0
        · rw [if_pos hbit]
          refine iff_of_true rfl ?_
          rintro - d hd -
          obtain rfl := ok.inj hd
          exact ⟨fun h => absurd h hdir, fun h => absurd hbit h.2⟩
        · rw [if_neg hbit]
          constructor
          · rintro h - d hd -
            obtain rfl := ok.inj hd
            exact ⟨fun h => absurd h hdir, fun _ => (traverseNames_eq_zero_iff hlast _).1 h⟩
          · exact fun h => (traverseNames_eq_zero_iff hlast _).2 ((h hlast c rfl hzero).2 ⟨hdir, hbit⟩)

section
variable (hblock : 0 < ext2.blockSize) (hlt : ext2.blockSize < 2 ^ 64)
include hblock hlt

theorem ext2Traverse_of_size_zero (hsize : (ext2.inodes c).size = 0) (name : Bytes) :
    ext2Traverse ext2 c name = .ok 0 := by
  have hcount : Word.divRoundUp (ext2.inodes c).size.toNat ext2.blockSize = 0 := by
    rw [hsize, UInt32.toNat_zero, Word.divRoundUp_eq hblock (by omega)]
    exact Nat.div_eq_of_lt (by omega)
  rw [ext2Traverse, blockCount_eq hblock, ok_bind, hcount]
  rfl

theorem deadEnds_of_size_zero (hsize : ∀ c, Disguised (ext2.inodes c) → (ext2.inodes c).size = 0) :
    DeadEnds ext2 follow curr names := by
  induction names generalizing curr with
  | nil => trivial
  | cons name names ih =>
    rintro hmore c hfound hne
    refine ⟨fun _ => ih, fun hdis => ?_⟩
    obtain ⟨name', names', rfl⟩ := exists_cons_of_ne_nil hmore
    exact ⟨0, ext2Traverse_of_size_zero hblock hlt (hsize c hdis) name', .inl rfl⟩

end

end Lookup

/-- **A path without links.** `ext2TraversePath` returns what looking up the components one by one gives if and only if
behind a component that only has the bit of a directory some name is lost; so it is if such inodes have no bytes. -/
theorem ext2TraversePath_lookup_iff {ext2 : Ext2} {names : List Bytes} (hnames : ∀ s ∈ names, s ≠ [] ∧ slash ∉ s)
    (hlinks : NoLink ext2 2 names) (follow : Bool) :
    ((ext2TraversePath ext2 (canonicalPath names) 2 follow).map Traversed.inode = lookupPath ext2 2 names ↔
      DeadEnds ext2 follow 2 names) ∧
    (0 < ext2.blockSize → ext2.blockSize < 2 ^ 64 → (∀ c, Disguised (ext2.inodes c) → (ext2.inodes c).size = 0) →
      DeadEnds ext2 follow 2 names) := by
  have hwalk : ext2TraversePath ext2 (canonicalPath names) 2 follow =
      traverseNames ext2 (canonicalPath names) follow 0 2 names := by
    cases names with
    | nil => rfl
    | cons name names => exact ext2TraversePath_names (cons_ne_nil _ _) hnames 2
  rw [hwalk]
  exact ⟨traverseNames_lookup_iff hlinks 0, fun hblock hlt hsize => deadEnds_of_size_zero hblock hlt hsize⟩

/-- The root has the entry `a`, which has the same block as the root. -/
def sharedBlock (permission size : UInt32) : Ext2 :=
  { oneBlockExt2 [⟨12, 1024, 1, [97]⟩] with
    inodes n := if n = 12 then { oneBlockInode with permission, size } else oneBlockInode }

/-- The path `/a/a`, where `a` is a block device without bytes. -/
theorem ext2TraversePath_lookup_iff_device :
    (ext2TraversePath (sharedBlock 0x6000 0) (canonicalPath [[97], [97]]) 2 true).map Traversed.inode =
      lookupPath (sharedBlock 0x6000 0) 2 [[97], [97]] := by
  have hfound : ext2Traverse (sharedBlock 0x6000 0) 2 [97] = .ok 12 := by decide +kernel
  have hlinks : NoLink (sharedBlock 0x6000 0) 2 [[97], [97]] := by
    intro c hc _
    obtain rfl : 12 = c := ok.inj (hfound.symm.trans hc)
    exact ⟨(by decide : ¬ (0x6000 : UInt32) &&& 0xF000 = ext2SIflnk), fun h => absurd h (by decide)⟩
  obtain ⟨hiff, hdead⟩ := ext2TraversePath_lookup_iff (by decide) hlinks true
  refine hiff.2 (hdead (by decide) (by decide) fun c hdis => ?_)
  by_cases hc : c = 12
  · rw [hc]
    rfl
  · have hroot : (sharedBlock 0x6000 0).inodes c = oneBlockInode := if_neg hc
    exact absurd (hroot ▸ (by decide : IsDir oneBlockInode)) hdis.1

/-- Where the device has bytes, the path leads to it. -/
theorem ext2TraversePath_device :
    ext2TraversePath (sharedBlock 0x6000 1024) (canonicalPath [[97], [97]]) 2 true = .ok ⟨12, none⟩ ∧
      lookupPath (sharedBlock 0x6000 1024) 2 [[97], [97]] = .ok 0 := by
  decide +kernel

end CoreX.Ext2

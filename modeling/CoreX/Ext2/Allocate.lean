import CoreX.Ext2.Assign
import CoreX.Ext2.Traverse

/-!
# Adding a directory entry

The walk of `ext2DirAllocate` ends at the first entry that is live and has the name, or whose slack takes the new
entry (`allocateWalk_cases`). If there is none, the new entry fills a new block (`appendBlock_appended`).
-/

namespace CoreX.Ext2

open Memory List

variable {ext2 : Ext2} {ino : Ext2Inode} {names : Buf} {dir stop mid : Nat} {e : Ext2Directory}
  {es before : List Ext2Directory} {filename : Bytes} {type_ : UInt8} {inode inodeNum block : UInt32}
  {blocks : List UInt32}

section
variable (e filename)

def Ext2Directory.HasRoom : Prop :=
  roundUp4 (8 + filename.length) ≤ e.size - e.minSize

instance (e : Ext2Directory) (filename : Bytes) : Decidable (e.HasRoom filename) :=
  inferInstanceAs (Decidable (_ ≤ _))

def slackEntry (type_ : UInt8) (inode : UInt32) : Ext2Directory :=
  ⟨inode, e.size - e.minSize, type_, filename⟩

end

section
variable (names dir e filename type_ inode)

def splitNames : Buf :=
  storeEntry (store16 names (dir + 4) (UInt16.ofNat e.minSize)) (dir + e.minSize)
    (slackEntry e filename type_ inode)

end

theorem Ext2Directory.Fits.minSize_lt (h : e.Fits) (hsize : e.size < 2 ^ 16) : e.minSize < 2 ^ 16 :=
  Nat.lt_of_le_of_lt h.2 hsize

theorem chain_splitNames (hentry : entryAt names dir = e) (hfits : e.Fits) (hroom : e.HasRoom filename)
    (hname : filename.length < 256) : Chain (splitNames names dir e filename type_ inode) dir
      [{ e with size := e.minSize }, slackEntry e filename type_ inode] (dir + e.size) := by
  have hsize : e.size < 2 ^ 16 := hentry ▸ size_entryAt_lt names dir
  have hmin := e.minSize_ge
  have hle := hfits.2
  have hroom' : roundUp4 (8 + filename.length) ≤ e.size - e.minSize := hroom
  have hfirst : entryAt (splitNames names dir e filename type_ inode) dir = { e with size := e.minSize } := by
    have hstored := entryAt_storeSize names dir (hfits.minSize_lt hsize)
    rw [hentry] at hstored
    rw [splitNames, entryAt_congr, hstored]
    intro i _ hi
    rw [hstored] at hi
    have hi' : i < dir + 8 + e.filename.length := hi
    exact storeEntry_of_notMem (by omega)
  have hsecond : entryAt (splitNames names dir e filename type_ inode) (dir + e.minSize) =
      slackEntry e filename type_ inode :=
    entryAt_storeEntry _ _ (by simp only [slackEntry]; omega) hname
  refine ⟨hfirst, ⟨four_dvd_roundUp4 _, Nat.le_refl _⟩, hsecond, ⟨?_, hroom'⟩, ?_⟩
  · exact Nat.dvd_sub hfits.1 (four_dvd_roundUp4 _)
  · show dir + e.minSize + (e.size - e.minSize) = dir + e.size
    omega

/-! ## The walk over a block -/

theorem allocateWalk_step (h : Chain names dir (e :: es) ext2.blockSize) (fuel : Nat) :
    allocateWalk ext2 names filename type_ inode (fuel + 1) dir = if e.Is filename then .ok .taken
      else if e.HasRoom filename then .ok (.placed (splitNames names dir e filename type_ inode))
      else allocateWalk ext2 names filename type_ inode fuel (dir + e.size) := by
  obtain ⟨hlt, hget⟩ := h.dirGet_eq
  have his := h.dirIs_eq filename
  obtain ⟨hentry, hfits, hrest⟩ := h
  have hsize : e.size < 2 ^ 16 := hentry ▸ size_entryAt_lt names dir
  have hmin : roundUp4 (8 + e.filename.length) = e.minSize := rfl
  have hle := hrest.le
  rw [allocateWalk, if_pos hlt, hget, ok_bind, his, ok_bind]
  by_cases hmatch : e.Is filename
  · rw [if_pos hmatch, decide_eq_true hmatch]
    rfl
  have hheader : ¬ ext2.blockSize < dir + 7 := by
    have := hfits.le_size
    omega
  rw [if_neg hmatch, decide_eq_false hmatch]
  simp only [hmin, if_neg hheader, if_neg (Nat.not_lt.2 hfits.2)]
  by_cases hroom : e.HasRoom filename
  · have hroom' : roundUp4 (8 + filename.length) ≤ e.size - e.minSize := hroom
    have hneed := le_roundUp4 (8 + filename.length)
    have hnew : (entryAt (store16 names (dir + 4) (UInt16.ofNat e.minSize)) dir).size = e.minSize := by
      rw [entryAt_storeSize names dir (hfits.minSize_lt hsize)]
    have hput : dirPut ext2 (store16 names (dir + 4) (UInt16.ofNat e.minSize)) (dir + e.minSize)
        ⟨inode, e.size - e.minSize, type_, filename⟩ =
        .ok (splitNames names dir e filename type_ inode) := by
      rw [dirPut, if_pos (by simp only; omega)]
      rfl
    rw [if_pos hroom, if_neg (Nat.not_lt.2 hroom'), hnew, hput]
    rfl
  · rw [if_neg hroom, if_pos (Nat.lt_of_not_le hroom)]
    rfl

def Stops (filename : Bytes) (e : Ext2Directory) : Prop := e.Is filename ∨ e.HasRoom filename

instance (filename : Bytes) (e : Ext2Directory) : Decidable (Stops filename e) :=
  inferInstanceAs (Decidable (_ ∨ _))

def FirstStop (filename : Bytes) (es before : List Ext2Directory) (e : Ext2Directory)
    (after : List Ext2Directory) : Prop :=
  es = before ++ e :: after ∧ (∀ x ∈ before, ¬ Stops filename x) ∧ Stops filename e

inductive WalkResult (names : Buf) (dir stop : Nat) (es : List Ext2Directory) (filename : Bytes)
    (type_ : UInt8) (inode : UInt32) : Walked → Prop where
  | full : (∀ x ∈ es, ¬ Stops filename x) → WalkResult names dir stop es filename type_ inode .full
  | taken {before e after} : FirstStop filename es before e after → e.Is filename →
      WalkResult names dir stop es filename type_ inode .taken
  | placed {before e after mid} : FirstStop filename es before e after → ¬ e.Is filename →
      Chain names dir before mid → Chain names mid (e :: after) stop →
      WalkResult names dir stop es filename type_ inode (.placed (splitNames names mid e filename type_ inode))

theorem allocateWalk_cases (h : Chain names dir es ext2.blockSize) {fuel : Nat} (hfuel : es.length ≤ fuel)
    (filename : Bytes) (type_ : UInt8) (inode : UInt32) :
    ∃ walked, allocateWalk ext2 names filename type_ inode fuel dir = .ok walked ∧
      WalkResult names dir ext2.blockSize es filename type_ inode walked := by
  induction es generalizing dir fuel with
  | nil =>
    have hend : dir = ext2.blockSize := h
    refine ⟨.full, ?_, .full (by simp)⟩
    cases fuel <;> rw [allocateWalk, if_neg (by omega)]
  | cons e es ih =>
    rw [length_cons] at hfuel
    cases fuel with
    | zero => omega
    | succ fuel =>
      rw [allocateWalk_step h]
      by_cases hmatch : e.Is filename
      · rw [if_pos hmatch]
        exact ⟨.taken, rfl, .taken ⟨(nil_append _).symm, by simp, .inl hmatch⟩ hmatch⟩
      rw [if_neg hmatch]
      by_cases hroom : e.HasRoom filename
      · rw [if_pos hroom]
        exact ⟨_, rfl, .placed ⟨(nil_append _).symm, by simp, .inr hroom⟩ hmatch rfl h⟩
      rw [if_neg hroom]
      have hstops : ¬ Stops filename e := fun hstop => hstop.elim hmatch hroom
      obtain ⟨hentry, hfits, hrest⟩ := h
      obtain ⟨walked, hwalk, hresult⟩ := ih hrest (Nat.le_of_succ_le_succ hfuel)
      refine ⟨walked, hwalk, ?_⟩
      cases hresult with
      | full hnone => exact .full (forall_mem_cons.2 ⟨hstops, hnone⟩)
      | taken hfirst hmatch' =>
        obtain ⟨rfl, hbefore, hstop⟩ := hfirst
        exact .taken ⟨cons_append.symm, forall_mem_cons.2 ⟨hstops, hbefore⟩, hstop⟩ hmatch'
      | placed hfirst hmatch' hchain hchain' =>
        obtain ⟨rfl, hbefore, hstop⟩ := hfirst
        exact .placed ⟨cons_append.symm, forall_mem_cons.2 ⟨hstops, hbefore⟩, hstop⟩ hmatch'
          ⟨hentry, hfits, hchain⟩ hchain'

theorem chain_placed {after : List Ext2Directory} (hbefore : Chain names dir before mid)
    (hafter : Chain names mid (e :: after) stop) (hroom : e.HasRoom filename) (hname : filename.length < 256)
    (type_ : UInt8) (inode : UInt32) : Chain (splitNames names mid e filename type_ inode) dir
      (before ++ [{ e with size := e.minSize }, slackEntry e filename type_ inode] ++ after) stop := by
  obtain ⟨hentry, hfits, hrest⟩ := hafter
  refine hbefore.splice (chain_splitNames hentry hfits hroom hname) hrest fun i hi => ?_
  have hroom' : roundUp4 (8 + filename.length) ≤ e.size - e.minSize := hroom
  have hneed := le_roundUp4 (8 + filename.length)
  rw [splitNames, storeEntry_of_notMem (by simp only [slackEntry]; omega), store16_of_notMem (by omega)]

theorem FirstStop.append {front es after : List Ext2Directory} (h : FirstStop filename es before e after)
    (hfront : ∀ x ∈ front, ¬ Stops filename x) : FirstStop filename (front ++ es) (front ++ before) e after := by
  obtain ⟨rfl, hbefore, hstop⟩ := h
  refine ⟨(append_assoc ..).symm, fun x hx => ?_, hstop⟩
  rcases mem_append.1 hx with hx | hx
  · exact hfront x hx
  · exact hbefore x hx

theorem FirstStop.append_right {es after : List Ext2Directory} (h : FirstStop filename es before e after)
    (back : List Ext2Directory) : FirstStop filename (es ++ back) before e (after ++ back) := by
  obtain ⟨rfl, hbefore, hstop⟩ := h
  exact ⟨by rw [append_assoc, cons_append], hbefore, hstop⟩

/-! ## The walk over the blocks -/

inductive ScanResult (ext2 : Ext2) (blocks : List UInt32) (filename : Bytes) (type_ : UInt8)
    (inode : UInt32) : Ext2 × (Bool ⊕ Unit) → Prop where
  | full : (∀ x ∈ entriesOf ext2 blocks, ¬ Stops filename x) →
      ScanResult ext2 blocks filename type_ inode (ext2, .inr ())
  | taken {before e after} : FirstStop filename (entriesOf ext2 blocks) before e after → e.Is filename →
      ScanResult ext2 blocks filename type_ inode (ext2, .inl false)
  | placed {block back before e after mid} (front) : blocks = front ++ block :: back →
      FirstStop filename (entriesOf ext2 blocks) (entriesOf ext2 front ++ before) e
        (after ++ entriesOf ext2 back) →
      ¬ e.Is filename → Chain (ext2.disk block) 0 before mid →
      Chain (ext2.disk block) mid (e :: after) ext2.blockSize →
      ScanResult ext2 blocks filename type_ inode
        (setDiskBytes ext2 block (splitNames (ext2.disk block) mid e filename type_ inode), .inl true)

theorem changesBlock_allocateBody (filename : Bytes) (type_ : UInt8) (inode : UInt32) :
    ChangesBlock (allocateBody filename type_ inode) := by
  intro ext2 block t ext2' x h
  obtain ⟨walked, -, hwalked⟩ := bind_eq_ok.1 h
  cases walked with
  | placed names => exact ⟨names, congrArg Prod.fst (Except.ok.inj hwalked).symm⟩
  | taken | full =>
    refine ⟨ext2.disk block, ?_⟩
    rw [setDiskBytes_disk]
    exact congrArg Prod.fst (Except.ok.inj hwalked).symm

theorem foldBlocks_allocateBody (h : BlocksWellFormed ext2 blocks) (filename : Bytes) (type_ : UInt8)
    (inode : UInt32) : ∃ r, foldBlocks (allocateBody filename type_ inode) blocks ext2 () = .ok r ∧
      ScanResult ext2 blocks filename type_ inode r := by
  induction blocks with
  | nil => exact ⟨_, rfl, .full (by simp)⟩
  | cons block blocks ih =>
    obtain ⟨hblock, hblocks⟩ := h.cons
    have hle := Chain.le hblock
    obtain ⟨walked, hwalk, hresult⟩ := allocateWalk_cases hblock (by omega : _ ≤ ext2.blockSize) filename type_ inode
    rw [foldBlocks, allocateBody, hwalk]
    cases hresult with
    | full hnone =>
      -- on to the next block
      obtain ⟨r, hfold, hscan⟩ := ih hblocks
      refine ⟨r, hfold, ?_⟩
      cases hscan with
      | full hnone' =>
        refine .full fun x hx => ?_
        rcases mem_append.1 hx with hx | hx
        · exact hnone x hx
        · exact hnone' x hx
      | taken hfirst hmatch => exact .taken (hfirst.append hnone) hmatch
      | placed front hsplit hfirst hmatch hchain hchain' =>
        refine .placed (block :: front) (congrArg (block :: ·) hsplit) ?_ hmatch hchain hchain'
        rw [entriesOf_cons, entriesOf_cons, append_assoc]
        exact hfirst.append hnone
    | taken hfirst hmatch => exact ⟨_, rfl, .taken (hfirst.append_right _) hmatch⟩
    | placed hfirst hmatch hchain hchain' =>
      exact ⟨_, rfl, .placed [] rfl (hfirst.append_right _) hmatch hchain hchain'⟩

theorem mem_of_split {front back : List UInt32} (h : blocks = front ++ block :: back) : block ∈ blocks := by
  rw [h]
  exact mem_append_right _ mem_cons_self

theorem entriesOf_placed {front back : List UInt32} {after : List Ext2Directory}
    (hnodup : (front ++ block :: back).Nodup) (hbefore : Chain (ext2.disk block) 0 before mid)
    (hafter : Chain (ext2.disk block) mid (e :: after) ext2.blockSize) (hroom : e.HasRoom filename)
    (hname : filename.length < 256) :
    entriesOf (setDiskBytes ext2 block (splitNames (ext2.disk block) mid e filename type_ inode))
        (front ++ block :: back) = entriesOf ext2 front ++
        (before ++ [{ e with size := e.minSize }, slackEntry e filename type_ inode] ++ after) ++
        entriesOf ext2 back := by
  obtain ⟨-, hnodup', hdisj⟩ := nodup_append.1 hnodup
  have hfront : block ∉ front := fun hmem => hdisj _ hmem _ mem_cons_self rfl
  have hback : block ∉ back := (nodup_cons.1 hnodup').1
  have hchain := chain_placed hbefore hafter hroom hname type_ inode
  set ext2' := setDiskBytes ext2 block (splitNames (ext2.disk block) mid e filename type_ inode)
  have hkept : ∀ b, b ≠ block → ext2'.disk b = ext2.disk b := fun b hb => setDiskBytes_of_ne hb _
  have hblock : blockEntries ext2'.blockSize (ext2'.disk block) =
      before ++ [{ e with size := e.minSize }, slackEntry e filename type_ inode] ++ after := by
    rw [setDiskBytes_self]
    exact hchain.blockEntries_eq
  have hfront' : entriesOf ext2' front = entriesOf ext2 front :=
    entriesOf_congr rfl fun b hb => hkept b fun h => hfront (h ▸ hb)
  have hback' : entriesOf ext2' back = entriesOf ext2 back :=
    entriesOf_congr rfl fun b hb => hkept b fun h => hback (h ▸ hb)
  rw [entriesOf_append, entriesOf_cons, hblock, hfront', hback', append_assoc (entriesOf ext2 front)]

end CoreX.Ext2

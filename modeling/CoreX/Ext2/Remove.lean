import CoreX.Ext2.Traverse

/-!
# Removing a directory entry

`ext2DirRemove` walks on from the entry that it removed. If that was added to the size of the one before it, the walk
stands in the slack of an entry, and a second removal from there only changes the slack. `removeFrom` says what
becomes of the entries of a block (`removeWalk_eq`).
-/

namespace CoreX.Ext2

open Memory Function

variable {ext2 : Ext2} {ino : Ext2Inode} {block : UInt32} {names names' : Buf} {before : Option Nat}
  {dir b pos stop : Nat} {e last : Ext2Directory} {es real rest : List Ext2Directory} {filename : Bytes}
  {direct : Bool}

def grow (real : List Ext2Directory) (size : Nat) : List Ext2Directory :=
  real.dropLast ++ real.getLast?.toList.map fun e => { e with size := e.size + size }

/-- The entries that are left of a chain. `real` are the ones before the walk, and `direct` says that it comes
from the last of them and not from their slack. -/
def removeFrom (filename : Bytes) : List Ext2Directory → Bool → List Ext2Directory → List Ext2Directory
  | real, _, [] => real
  | real, direct, e :: rest =>
    if e.Is filename then
      if real = [] then removeFrom filename [{ e with inode := 0, filename := [] }] true rest
      else if direct then removeFrom filename (grow real e.size) false rest
      else removeFrom filename (real ++ [e]) true rest
    else removeFrom filename (real ++ [e]) true rest

@[simp] theorem grow_append_singleton (size : Nat) :
    grow (es ++ [e]) size = es ++ [{ e with size := e.size + size }] := by
  simp [grow]

/-! ## The walk over a block -/

/-- Where the walk stands. The entries before it are a chain up to `dir`. It comes from the entry at `b`, which
is the last of them or stands in the slack of the last, and whose size leads to `dir`. -/
inductive Walking (names : Buf) : List Ext2Directory → Bool → Option Nat → Nat → Prop where
  | start (direct : Bool) : Walking names [] direct none 0
  | after {real : List Ext2Directory} {last : Ext2Directory} {pos b dir : Nat} {direct : Bool} :
      Chain names 0 real pos → Chain names pos [last] dir → b + 8 ≤ dir → b + (entryAt names b).size = dir →
      (if direct then b = pos else pos + last.minSize ≤ b) → Walking names (real ++ [last]) direct (some b) dir

theorem Walking.chain (h : Walking names real direct before dir) : Chain names 0 real dir := by
  cases h with
  | start => rfl
  | after hreal hlast => exact chain_append.2 ⟨_, hreal, hlast⟩

theorem Walking.pass (h : Chain names 0 real dir) (hrest : Chain names dir (e :: rest) stop) :
    Walking names (real ++ [e]) true (some dir) (dir + e.size) := by
  obtain ⟨hentry, hfits, -⟩ := hrest
  have hsize := hfits.le_size
  exact .after h ⟨hentry, hfits, rfl⟩ (by omega) (by rw [hentry]) rfl

theorem removeWalk_step (h : Chain names dir (e :: rest) ext2.blockSize) (fuel : Nat) (before : Option Nat)
    (ret : Bool) : removeWalk block filename (fuel + 1) ext2 names before dir ret = if e.Is filename then
        removeEntry names before dir >>= fun names' =>
          removeWalk block filename fuel (setDiskBytes ext2 block names') names' (some dir)
            (dir + (entryAt names' dir).size) true
      else removeWalk block filename fuel ext2 names (some dir) (dir + e.size) ret := by
  obtain ⟨hlt, hget⟩ := h.dirGet_eq
  rw [removeWalk, if_pos hlt, hget, ok_bind, h.dirIs_eq filename, ok_bind]
  by_cases hmatch : e.Is filename
  · rw [if_pos hmatch, decide_eq_true hmatch]
    rfl
  · rw [if_neg hmatch, decide_eq_false hmatch]
    rfl

/-- What a removal leaves: the chain before the walk, the entries behind it as they were, and an entry to walk
on from. -/
structure Removed (filename : Bytes) (real : List Ext2Directory) (direct : Bool) (dir : Nat)
    (e : Ext2Directory) (rest : List Ext2Directory) (stop : Nat) (names' : Buf) : Prop where
  size : (entryAt names' dir).size = e.size
  chain : Chain names' (dir + e.size) rest stop
  walking : ∃ real' direct', Walking names' real' direct' (some dir) (dir + e.size) ∧
    removeFrom filename real direct (e :: rest) = removeFrom filename real' direct' rest

theorem removeEntry_first (hmatch : e.Is filename) (h : Chain names 0 (e :: rest) stop) :
    ∃ names', removeEntry names none 0 = .ok names' ∧ Removed filename [] direct 0 e rest stop names' := by
  obtain ⟨hentry, hfits, hrest⟩ := h
  have hsize := hfits.le_size
  have hblank := entryAt_blank names 0
  rw [hentry] at hblank
  refine ⟨update (store32 names 0 0) (0 + 6) 0, rfl, ?_⟩
  have hchain : Chain (update (store32 names 0 0) (0 + 6) 0) (0 + e.size) rest stop := by
    apply hrest.congr
    intro i hi _
    rw [update_of_ne (by omega), store32_of_notMem (by omega)]
  have hfits' : Ext2Directory.Fits { e with inode := 0, filename := [] } := by
    refine ⟨hfits.1, ?_⟩
    have hle : 8 ≤ e.size := by omega
    simpa [Ext2Directory.minSize, roundUp4] using hle
  have hnil : Chain (update (store32 names 0 0) (0 + 6) 0) 0 [] 0 := rfl
  refine ⟨by rw [hblank], hchain, [] ++ [{ e with inode := 0, filename := [] }], true, ?_, ?_⟩
  · exact .after hnil ⟨hblank, hfits', rfl⟩ (show 0 + 8 ≤ 0 + e.size by omega) (by rw [hblank]) rfl
  · rw [removeFrom, if_pos hmatch, if_pos rfl, List.nil_append]

theorem removeEntry_after (hmatch : e.Is filename) (hreal : Chain names 0 real pos)
    (hlast : Chain names pos [last] dir) (hb : b + 8 ≤ dir) (hsize : b + (entryAt names b).size = dir)
    (hfrom : if direct then b = pos else pos + last.minSize ≤ b) (h : Chain names dir (e :: rest) stop)
    (hstop : stop < 2 ^ 16) : ∃ names', removeEntry names (some b) dir = .ok names' ∧
      Removed filename (real ++ [last]) direct dir e rest stop names' := by
  obtain ⟨hentry, hfits, hrest⟩ := h
  obtain ⟨hentry', hfits', hend⟩ := hlast
  have hend' : pos + last.size = dir := hend
  have hle := hfits.le_size
  have hle' := hrest.le
  have hmin := last.minSize_ge
  have hmin' := hfits'.2
  have hlt : (entryAt names b).size + e.size < 2 ^ 16 := by omega
  set names' := store16 names (b + 4) (UInt16.ofNat ((entryAt names b).size + e.size)) with hnames'
  have hsame : ∀ i, ¬(b + 4 ≤ i ∧ i < b + 4 + 2) → names' i = names i := fun i hi => store16_of_notMem hi
  have hremove : removeEntry names (some b) dir = .ok names' := by
    rw [removeEntry, hentry]
    exact if_pos hlt
  have hposb : pos ≤ b := by
    cases direct
    · exact (Nat.le_add_right _ _).trans hfrom
    · exact Nat.le_of_eq (Eq.symm hfrom)
  have hreal' : Chain names' 0 real pos := hreal.congr fun i _ hi => hsame i (by omega)
  have hentrydir : entryAt names' dir = e := by
    rw [← hentry]
    exact entryAt_congr fun i hi _ => hsame i (by omega)
  have hchain : Chain names' (dir + e.size) rest stop := hrest.congr fun i hi _ => hsame i (by omega)
  refine ⟨names', hremove, by rw [hentrydir], hchain, ?_⟩
  cases direct with
  | true =>
    -- the last entry grows over the removed one, in whose slack the walk goes on
    obtain rfl : b = pos := hfrom
    have hgrown : entryAt names' b = { last with size := last.size + e.size } := by
      rw [hnames', entryAt_storeSize names b hlt, hentry']
    refine ⟨real ++ [{ last with size := last.size + e.size }], false, ?_, ?_⟩
    · refine .after hreal' ⟨hgrown, ⟨?_, ?_⟩, ?_⟩ (by omega) (by rw [hentrydir]) ?_
      · exact Nat.dvd_add hfits'.1 hfits.1
      · exact hmin'.trans (Nat.le_add_right _ _)
      · show b + (last.size + e.size) = dir + e.size
        omega
      · show b + last.minSize ≤ dir
        omega
    · rw [removeFrom, if_pos hmatch, if_neg (by simp), if_pos rfl, grow_append_singleton]
  | false =>
    -- only the slack of the last entry changes
    have hfrom' : pos + last.minSize ≤ b := hfrom
    have hkept : entryAt names' pos = last := by
      rw [← hentry']
      exact entryAt_congr fun i _ hi => hsame i (by rw [hentry'] at hi; omega)
    refine ⟨real ++ [last] ++ [e], true, ?_, ?_⟩
    · exact .after (chain_append.2 ⟨pos, hreal', hkept, hfits', hend⟩) ⟨hentrydir, hfits, rfl⟩ (by omega)
        (by rw [hentrydir]) rfl
    · rw [removeFrom, if_pos hmatch, if_neg (by simp), if_neg (by simp)]

theorem removeEntry_removed (hmatch : e.Is filename) (hwalking : Walking names real direct before dir)
    (h : Chain names dir (e :: rest) stop) (hstop : stop < 2 ^ 16) :
    ∃ names', removeEntry names before dir = .ok names' ∧ Removed filename real direct dir e rest stop names' := by
  cases hwalking with
  | start => exact removeEntry_first hmatch h
  | after hreal hlast hb hsize hfrom => exact removeEntry_after hmatch hreal hlast hb hsize hfrom h hstop

theorem setDiskBytes_setDiskBytes (ext2 : Ext2) (block : UInt32) (buf buf' : Buf) :
    setDiskBytes (setDiskBytes ext2 block buf) block buf' = setDiskBytes ext2 block buf' := by
  rw [setDiskBytes, setDiskBytes, update_idem]
  rfl

/-- **The walk over a block** writes the entries that `removeFrom` leaves. The induction is on the entries
that are left to walk over. -/
theorem removeWalk_eq (ext2 : Ext2) (hlt : ext2.blockSize < 2 ^ 16) (hwalking : Walking names real direct before dir)
    (h : Chain names dir rest ext2.blockSize) (hdisk : ext2.disk block = names) {fuel : Nat}
    (hfuel : rest.length ≤ fuel) (ret : Bool) : ∃ names', removeWalk block filename fuel ext2 names before dir ret =
        .ok (setDiskBytes ext2 block names', ret || rest.any fun e => e.Is filename) ∧
      Chain names' 0 (removeFrom filename real direct rest) ext2.blockSize := by
  induction rest generalizing ext2 names real direct before dir fuel ret with
  | nil =>
    have hend : dir = ext2.blockSize := h
    refine ⟨names, ?_, hend ▸ hwalking.chain⟩
    rw [← hdisk, setDiskBytes_disk]
    cases fuel <;> rw [removeWalk, if_neg (by omega)] <;> simp
  | cons e rest ih =>
    rw [List.length_cons] at hfuel
    cases fuel with
    | zero => omega
    | succ fuel =>
      rw [removeWalk_step h]
      by_cases hmatch : e.Is filename
      · obtain ⟨names₁, hremove, hremoved⟩ := removeEntry_removed hmatch hwalking h hlt
        obtain ⟨real', direct', hwalking', hleft⟩ := hremoved.walking
        obtain ⟨names', hwalk, hchain⟩ := ih (setDiskBytes ext2 block names₁) hlt hwalking' hremoved.chain
          (setDiskBytes_self ..) (Nat.le_of_succ_le_succ hfuel) true
        refine ⟨names', ?_, ?_⟩
        · rw [if_pos hmatch, hremove, ok_bind, hremoved.size, hwalk, setDiskBytes_setDiskBytes]
          simp [hmatch]
        · rw [hleft]
          exact hchain
      · have hpass := Walking.pass hwalking.chain h
        obtain ⟨names', hwalk, hchain⟩ := ih ext2 hlt hpass h.2.2 hdisk (Nat.le_of_succ_le_succ hfuel) ret
        refine ⟨names', ?_, ?_⟩
        · rw [if_neg hmatch, hwalk, List.any_cons, decide_eq_false hmatch, Bool.false_or]
        · rw [removeFrom, if_neg hmatch]
          exact hchain

end CoreX.Ext2

import CoreX.Ext2.Dirs

/-!
# Chains of directory entries

`Chain names off es stop`: from `off` on the buffer holds the entries `es`, one behind the other, and they end at
`stop`. The directory functions put another piece of chain in the place of one (`Chain.splice`): an entry that is
split, one that grows over the next, or one that is blanked.
-/

namespace CoreX.Ext2

open Memory Function List UInt16

variable {names names' : Buf} {off dir mid stop : Nat} {e : Ext2Directory} {es fs : List Ext2Directory}

theorem le_roundUp4 (x : Nat) : x ≤ roundUp4 x := by
  unfold roundUp4
  omega

theorem four_dvd_roundUp4 (x : Nat) : 4 ∣ roundUp4 x := Nat.dvd_mul_left 4 _

section
variable (e)

def Ext2Directory.minSize : Nat := roundUp4 (8 + e.filename.length)

def Ext2Directory.Fits : Prop := 4 ∣ e.size ∧ e.minSize ≤ e.size

instance (e : Ext2Directory) : Decidable e.Fits := inferInstanceAs (Decidable (_ ∧ _))

def Ext2Directory.Is (filename : Bytes) : Prop := e.inode ≠ 0 ∧ e.filename = filename

instance (e : Ext2Directory) (filename : Bytes) : Decidable (e.Is filename) :=
  inferInstanceAs (Decidable (_ ∧ _))

theorem Ext2Directory.minSize_ge : 8 + e.filename.length ≤ e.minSize := le_roundUp4 _

end

theorem Ext2Directory.Fits.le_size (h : e.Fits) : 8 + e.filename.length ≤ e.size := e.minSize_ge.trans h.2

section
variable (names dir)

theorem length_entryAt : (entryAt names dir).filename.length = (names (dir + 6)).toNat := length_slice ..

theorem size_entryAt_lt : (entryAt names dir).size < 2 ^ 16 := toNat_lt _

end

theorem entryAt_congr (h : ∀ i, dir ≤ i → i < dir + 8 + (entryAt names dir).filename.length → names' i = names i) :
    entryAt names' dir = entryAt names dir := by
  rw [length_entryAt] at h
  have hinode : load32 names' dir = load32 names dir := load32_congr fun i hi hi' => h i hi (by omega)
  have hsize : load16 names' (dir + 4) = load16 names (dir + 4) :=
    load16_congr fun i hi hi' => h i (by omega) (by omega)
  have hlength : names' (dir + 6) = names (dir + 6) := h _ (by omega) (by omega)
  have htype : names' (dir + 7) = names (dir + 7) := h _ (by omega) (by omega)
  have hname : slice names' (dir + 8) (names (dir + 6)).toNat = slice names (dir + 8) (names (dir + 6)).toNat :=
    slice_congr fun i hi hi' => h i (by omega) hi'
  simp only [entryAt, hinode, hsize, hlength, htype, hname]

theorem storeEntry_of_notMem {new i : Nat} (h : ¬(new ≤ i ∧ i < new + 8 + e.filename.length)) :
    storeEntry names new e i = names i := by
  simp only [storeEntry]
  rw [storeSlice_of_notMem (by omega), store32_of_notMem (by omega), update_of_ne (by omega),
    update_of_ne (by omega), store16_of_notMem (by omega)]

theorem entryAt_storeEntry (names : Buf) (new : Nat) (hsize : e.size < 2 ^ 16)
    (hname : e.filename.length < 256) : entryAt (storeEntry names new e) new = e := by
  -- the stores before the last one, and what each of the fields is in them
  set b₁ := store16 names (new + 4) (ofNat e.size) with hb₁
  set b₂ := update b₁ (new + 7) e.type_ with hb₂
  set b₃ := update b₂ (new + 6) (UInt8.ofNat e.filename.length) with hb₃
  set b₄ := store32 b₃ new e.inode with hb₄
  have hstore : storeEntry names new e = storeSlice b₄ (new + 8) e.filename := rfl
  have hhead : ∀ i, i < new + 8 → storeSlice b₄ (new + 8) e.filename i = b₄ i := fun i hi =>
    storeSlice_of_notMem (by omega)
  have hhead₄ : ∀ i, new + 4 ≤ i → b₄ i = b₃ i := fun i hi => store32_of_notMem (by omega)
  have hinode : load32 (storeEntry names new e) new = e.inode := by
    rw [hstore, load32_congr fun i _ hi => hhead i (by omega), hb₄, load32_store32]
  have hsize' : load16 (storeEntry names new e) (new + 4) = ofNat e.size := by
    have hbytes : ∀ i, new + 4 ≤ i → i < new + 4 + 2 → storeEntry names new e i = b₁ i := by
      intro i hi hi'
      rw [hstore, hhead i (by omega), hhead₄ i hi, hb₃, update_of_ne (by omega), hb₂, update_of_ne (by omega)]
    rw [load16_congr hbytes, hb₁, load16_store16]
  have hlength : storeEntry names new e (new + 6) = UInt8.ofNat e.filename.length := by
    rw [hstore, hhead _ (by omega), hhead₄ _ (by omega), hb₃, update_self]
  have htype : storeEntry names new e (new + 7) = e.type_ := by
    rw [hstore, hhead _ (by omega), hhead₄ _ (by omega), hb₃, update_of_ne (by omega), hb₂, update_self]
  have hname' : slice (storeEntry names new e) (new + 8) e.filename.length = e.filename := by
    rw [hstore, slice_storeSlice]
  simp only [entryAt, hinode, hsize', hlength, htype, toNat_ofNat_of_lt' hsize,
    UInt8.toNat_ofNat_of_lt' hname, hname']

theorem entryAt_storeSize (names : Buf) (dir : Nat) {size : Nat} (hsize : size < 2 ^ 16) :
    entryAt (store16 names (dir + 4) (ofNat size)) dir = { entryAt names dir with size } := by
  have hkept : ∀ i, ¬(dir + 4 ≤ i ∧ i < dir + 4 + 2) →
      store16 names (dir + 4) (ofNat size) i = names i := fun i hi => store16_of_notMem hi
  have hinode : load32 (store16 names (dir + 4) (ofNat size)) dir = load32 names dir :=
    load32_congr fun i _ _ => hkept i (by omega)
  have hname : slice (store16 names (dir + 4) (ofNat size)) (dir + 8) (names (dir + 6)).toNat =
      slice names (dir + 8) (names (dir + 6)).toNat := slice_congr fun i _ _ => hkept i (by omega)
  simp only [entryAt, hinode, load16_store16, toNat_ofNat_of_lt' hsize, hkept (dir + 6) (by omega),
    hkept (dir + 7) (by omega), hname]

theorem entryAt_blank (names : Buf) (dir : Nat) : entryAt (update (store32 names dir 0) (dir + 6) 0) dir =
      { entryAt names dir with inode := 0, filename := [] } := by
  have hkept : ∀ i, dir + 4 ≤ i → i ≠ dir + 6 →
      update (store32 names dir 0) (dir + 6) 0 i = names i := fun i hi hne => by
    rw [update_of_ne hne, store32_of_notMem (by omega)]
  have hinode : load32 (update (store32 names dir 0) (dir + 6) 0) dir = 0 := by
    rw [load32_congr fun i _ _ => update_of_ne (by omega) _ _, load32_store32]
  have hsize : load16 (update (store32 names dir 0) (dir + 6) 0) (dir + 4) = load16 names (dir + 4) :=
    load16_congr fun i _ _ => hkept i (by omega) (by omega)
  have hlength : update (store32 names dir 0) (dir + 6) 0 (dir + 6) = 0 := update_self ..
  simp only [entryAt, hinode, hsize, hkept (dir + 7) (by omega) (by omega), hlength]
  rfl

def Chain (names : Buf) : Nat → List Ext2Directory → Nat → Prop
  | off, [], stop => off = stop
  | off, e :: es, stop => entryAt names off = e ∧ e.Fits ∧ Chain names (off + e.size) es stop

def decidableChain (names : Buf) : ∀ (off : Nat) (es : List Ext2Directory) (stop : Nat),
    Decidable (Chain names off es stop)
  | off, [], stop => inferInstanceAs (Decidable (off = stop))
  | off, e :: es, stop =>
    have := decidableChain names (off + e.size) es stop
    inferInstanceAs (Decidable (entryAt names off = e ∧ e.Fits ∧ Chain names (off + e.size) es stop))

instance : Decidable (Chain names off es stop) := decidableChain names off es stop

theorem Chain.le (h : Chain names off es stop) : off + 8 * es.length ≤ stop := by
  induction es generalizing off with
  | nil =>
    have heq : off = stop := h
    simp [heq]
  | cons e es ih =>
    obtain ⟨-, hfits, hrest⟩ := h
    have hsize := hfits.le_size
    have hle := ih hrest
    rw [length_cons]
    omega

theorem chain_append : Chain names off (es ++ fs) stop ↔ ∃ mid, Chain names off es mid ∧ Chain names mid fs stop := by
  induction es generalizing off with
  | nil =>
    constructor
    · exact fun h => ⟨off, rfl, h⟩
    · rintro ⟨mid, hmid, h⟩
      have heq : off = mid := hmid
      rwa [heq]
  | cons e es ih =>
    constructor
    · rintro ⟨hentry, hfits, hrest⟩
      obtain ⟨mid, hes, hfs⟩ := ih.1 hrest
      exact ⟨mid, ⟨hentry, hfits, hes⟩, hfs⟩
    · rintro ⟨mid, ⟨hentry, hfits, hes⟩, hfs⟩
      exact ⟨hentry, hfits, ih.2 ⟨mid, hes, hfs⟩⟩

theorem Chain.congr (h : Chain names off es stop) (hsame : ∀ i, off ≤ i → i < stop → names' i = names i) :
    Chain names' off es stop := by
  induction es generalizing off with
  | nil => exact h
  | cons e es ih =>
    obtain ⟨rfl, hfits, hrest⟩ := h
    have hsize := hfits.le_size
    have hle := hrest.le
    refine ⟨entryAt_congr fun i hi hi' => hsame i hi (by omega), hfits, ?_⟩
    exact ih hrest fun i hi hi' => hsame i (by omega) hi'

theorem Chain.splice {before piece after : List Ext2Directory} {a b : Nat}
    (hbefore : Chain names off before a) (hpiece : Chain names' a piece b) (hafter : Chain names b after stop)
    (hsame : ∀ i, ¬(a ≤ i ∧ i < b) → names' i = names i) : Chain names' off (before ++ piece ++ after) stop := by
  refine chain_append.2 ⟨b, chain_append.2 ⟨a, ?_, hpiece⟩, ?_⟩
  · exact hbefore.congr fun i _ hi => hsame i (by omega)
  · exact hafter.congr fun i hi _ => hsame i (by omega)

/-! ## Well-formed blocks -/

def entriesFrom (names : Buf) (blockSize : Nat) : Nat → Nat → List Ext2Directory
  | 0, _ => []
  | fuel + 1, off =>
    if off < blockSize then
      entryAt names off :: entriesFrom names blockSize fuel (off + (entryAt names off).size)
    else []

def blockEntries (blockSize : Nat) (names : Buf) : List Ext2Directory := entriesFrom names blockSize blockSize 0

def WellFormed (blockSize : Nat) (names : Buf) : Prop := Chain names 0 (blockEntries blockSize names) blockSize

instance (blockSize : Nat) (names : Buf) : Decidable (WellFormed blockSize names) :=
  inferInstanceAs (Decidable (Chain ..))

theorem Chain.entriesFrom_eq (h : Chain names off es stop) {fuel : Nat} (hfuel : es.length ≤ fuel) :
    entriesFrom names stop fuel off = es := by
  induction es generalizing off fuel with
  | nil =>
    have heq : off = stop := h
    cases fuel with
    | zero => rfl
    | succ fuel => rw [entriesFrom, if_neg (by omega)]
  | cons e es ih =>
    obtain ⟨rfl, hfits, hrest⟩ := h
    have hsize := hfits.le_size
    have hle := hrest.le
    rw [length_cons] at hfuel
    cases fuel with
    | zero => omega
    | succ fuel => rw [entriesFrom, if_pos (by omega), ih hrest (by omega)]

theorem Chain.blockEntries_eq (h : Chain names 0 es stop) : blockEntries stop names = es := by
  have hle := h.le
  exact h.entriesFrom_eq (by omega)

theorem Chain.wellFormed (h : Chain names 0 es stop) : WellFormed stop names := by
  rw [WellFormed, h.blockEntries_eq]
  exact h

def live (es : List Ext2Directory) : List (Bytes × UInt32 × UInt8) :=
  (es.filter fun e => e.inode ≠ 0).map fun e => (e.filename, e.inode, e.type_)

@[simp] theorem live_append : live (es ++ fs) = live es ++ live fs := by
  simp [live]

theorem live_cons_of_ne (h : e.inode ≠ 0) : live (e :: es) = (e.filename, e.inode, e.type_) :: live es := by
  simp [live, h]

theorem live_cons_of_eq (h : e.inode = 0) : live (e :: es) = live es := by
  simp [live, h]

theorem inode_ne_zero_of_mem_live {x : Bytes × UInt32 × UInt8} (h : x ∈ live es) : x.2.1 ≠ 0 := by
  obtain ⟨e, he, rfl⟩ := mem_map.1 h
  simpa using (mem_filter.1 he).2

/-! ## One step of a walk -/

section
variable {ext2 : Ext2} (h : Chain names dir (e :: es) ext2.blockSize)
include h

theorem Chain.dirGet_eq : dir < ext2.blockSize ∧ dirGet ext2 names dir = .ok e := by
  obtain ⟨rfl, hfits, hrest⟩ := h
  have hsize := hfits.le_size
  have hle := hrest.le
  refine ⟨by omega, ?_⟩
  rw [dirGet, if_pos (by omega)]

theorem Chain.dirIs_eq (filename : Bytes) : dirIs ext2 dir e filename = .ok (decide (e.Is filename)) := by
  obtain ⟨-, hfits, hrest⟩ := h
  have hsize := hfits.le_size
  have hle := hrest.le
  rw [dirIs]
  by_cases hlive : e.inode = 0
  · rw [if_pos hlive, decide_eq_false fun his => his.1 hlive]
  rw [if_neg hlive, if_neg (by omega)]
  by_cases hlength : e.filename.length = filename.length
  · rw [if_pos hlength, if_pos (by omega)]
    congr 1
    exact decide_eq_decide.2 ⟨fun heq => ⟨hlive, heq⟩, And.right⟩
  · rw [if_neg hlength, decide_eq_false fun his => hlength (congrArg length his.2)]

end

end CoreX.Ext2

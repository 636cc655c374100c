import CoreX.Ext2.Getdents

/-!
# The records of a directory buffer (`utilities/dents.rs`)

`dentsAdd` writes a header of 19 bytes and the name with its zero, and leaves the rest of the record as it was. `Laid`
says that records lie one behind the other; a call puts one more behind them (`represents_dentsAdd`), so that a walk
by `d_reclen` reads what the calls have added (`dentsAdd_walk`).
-/

namespace CoreX.Dents

open Memory Function List Nat
open Ext2 (DentsRes LinuxDirent64)

structure Buffer where
  mem : Buf
  dirp : Nat
  allocatedlimit : Nat

structure Call where
  filename : Bytes
  inode : UInt64
  dtype : UInt8
  rand : Int32

def Call.reclen (c : Call) : Nat := 23 + c.filename.length + 1

def writeRecord (mem : Buf) (a : Nat) (c : Call) : Buf :=
  let mem := store16 mem (a + 16) (UInt16.ofNat c.reclen)
  let mem := store64 mem a c.inode
  let mem := store64 mem (a + 8) c.rand.toInt64.toUInt64
  let mem := Function.update mem (a + 18) c.dtype
  let mem := storeSlice mem (a + 19) c.filename
  Function.update mem (a + 19 + c.filename.length) 0

def dentsAdd (hardlimit : UInt32) (b : Buffer) (c : Call) : DentsRes × Buffer :=
  if hardlimit.toNat < b.allocatedlimit + c.reclen + 2 then
    if b.allocatedlimit ≠ 0 then (.dentsReturn, b) else (.dentsNoSpace, b)
  else (.dentsSuccess, ⟨writeRecord b.mem b.dirp c, b.dirp + c.reclen, b.allocatedlimit + c.reclen⟩)

def dentsAddAll (hardlimit : UInt32) : Buffer → List Call → List DentsRes × Buffer
  | b, [] => ([], b)
  | b, c :: cs =>
    let rest := dentsAddAll hardlimit (dentsAdd hardlimit b c).2 cs
    ((dentsAdd hardlimit b c).1 :: rest.1, rest.2)

def readName (mem : Buf) : Nat → Nat → Option Bytes
  | _, 0 => none
  | a, n + 1 => if mem a = 0 then some [] else (readName mem (a + 1) n).map (mem a :: ·)

def recordAt (mem : Buf) (a : Nat) : Option LinuxDirent64 :=
  (readName mem (a + 19) ((load16 mem (a + 16)).toNat - 19)).map fun name =>
    ⟨load64 mem a, load16 mem (a + 16), mem (a + 18), name⟩

/-- Walks from `a` by `d_reclen` and has to come to `stop`. -/
def walk (mem : Buf) (stop : Nat) : Nat → Nat → Option (List LinuxDirent64)
  | 0, a => if a = stop then some [] else none
  | fuel + 1, a =>
    if a = stop then some []
    else if stop < a then none
    else (recordAt mem a).bind fun r => (walk mem stop fuel (a + r.dReclen.toNat)).map (r :: ·)

def Laid (mem : Buf) : Nat → List LinuxDirent64 → Prop
  | _, [] => True
  | a, r :: rs => recordAt mem a = some r ∧ Laid mem (a + r.dReclen.toNat) rs

def size (rs : List LinuxDirent64) : Nat := (rs.map fun r => r.dReclen.toNat).sum

@[simp] theorem size_nil : size [] = 0 := rfl

@[simp] theorem size_cons (r : LinuxDirent64) (rs : List LinuxDirent64) : size (r :: rs) = r.dReclen.toNat + size rs := rfl

@[simp] theorem size_append (rs ss : List LinuxDirent64) : size (rs ++ ss) = size rs + size ss := by simp [size]

variable {mem mem' : Buf} {a n : Nat} {r : LinuxDirent64} {rs ss : List LinuxDirent64} {name : Bytes} {c : Call}

theorem readName_congr (h : ∀ i, a ≤ i → i < a + n → mem' i = mem i) : readName mem' a n = readName mem a n := by
  induction n generalizing a with
  | zero => rfl
  | succ n ih =>
    have hrest : readName mem' (a + 1) n = readName mem (a + 1) n := ih fun i hi hi' => h i (by omega) (by omega)
    rw [readName, readName, h a (le_refl _) (by omega), hrest]

theorem readName_eq (hname : 0 ∉ name) (hslice : slice mem a name.length = name) (hzero : mem (a + name.length) = 0)
    (hn : name.length < n) : readName mem a n = some name := by
  induction name generalizing a n with
  | nil =>
    obtain ⟨n, rfl⟩ := exists_eq_succ_of_ne_zero (ne_zero_of_lt hn)
    rw [readName]
    exact if_pos hzero
  | cons x xs ih =>
    obtain ⟨n, rfl⟩ := exists_eq_succ_of_ne_zero (ne_zero_of_lt hn)
    rw [length_cons, slice_succ, List.cons.injEq] at hslice
    rw [mem_cons, not_or] at hname
    have hrest : readName mem (a + 1) n = some xs := by
      refine ih hname.2 hslice.2 ?_ (lt_of_succ_lt_succ hn)
      rwa [add_assoc, add_comm 1]
    rw [readName, hslice.1, if_neg (Ne.symm hname.1), hrest]
    rfl

theorem dReclen_of_recordAt (h : recordAt mem a = some r) : 19 < r.dReclen.toNat := by
  obtain ⟨name, hname, rfl⟩ := Option.map_eq_some_iff.1 h
  by_contra hshort
  rw [Nat.sub_eq_zero_of_le (Nat.le_of_not_lt hshort)] at hname
  cases hname

theorem recordAt_congr (h : ∀ i, a ≤ i → i < a + r.dReclen.toNat → mem' i = mem i) (hr : recordAt mem a = some r) :
    recordAt mem' a = some r := by
  have hlong := dReclen_of_recordAt hr
  rw [← hr]
  obtain ⟨name, -, rfl⟩ := Option.map_eq_some_iff.1 hr
  dsimp only at h hlong
  have hreclen : load16 mem' (a + 16) = load16 mem (a + 16) := load16_congr fun i hi hi' => h i (by omega) (by omega)
  have hino : load64 mem' a = load64 mem a := load64_congr fun i hi hi' => h i (by omega) (by omega)
  have htype : mem' (a + 18) = mem (a + 18) := h _ (by omega) (by omega)
  have hname : readName mem' (a + 19) ((load16 mem (a + 16)).toNat - 19) =
      readName mem (a + 19) ((load16 mem (a + 16)).toNat - 19) := readName_congr fun i hi hi' => h i (by omega) (by omega)
  rw [recordAt, recordAt, hreclen, hino, htype, hname]

theorem Laid.congr (h : ∀ i, a ≤ i → i < a + size rs → mem' i = mem i) (hrs : Laid mem a rs) : Laid mem' a rs := by
  induction rs generalizing a with
  | nil => trivial
  | cons r rs ih =>
    rw [size_cons] at h
    refine ⟨recordAt_congr (fun i hi hi' => h i hi (by omega)) hrs.1, ih (fun i hi hi' => h i ?_ ?_) hrs.2⟩
    · omega
    · omega

theorem Laid.append (hrs : Laid mem a rs) (hss : Laid mem (a + size rs) ss) : Laid mem a (rs ++ ss) := by
  induction rs generalizing a with
  | nil => exact hss
  | cons r rs ih =>
    rw [size_cons, ← add_assoc] at hss
    exact ⟨hrs.1, ih hrs.2 hss⟩

theorem Laid.eq_nil_of_size (hrs : Laid mem a rs) (hsize : size rs = 0) : rs = [] := by
  cases rs with
  | nil => rfl
  | cons r rs =>
    have hlong := dReclen_of_recordAt hrs.1
    rw [size_cons] at hsize
    omega

theorem walk_of_laid (hrs : Laid mem a rs) {fuel : Nat} (hfuel : size rs ≤ fuel) :
    walk mem (a + size rs) fuel a = some rs := by
  induction rs generalizing a fuel with
  | nil => cases fuel <;> exact if_pos rfl
  | cons r rs ih =>
    have hlong := dReclen_of_recordAt hrs.1
    rw [size_cons] at hfuel ⊢
    obtain ⟨fuel, rfl⟩ := exists_eq_succ_of_ne_zero (show fuel ≠ 0 by omega)
    have hrest : walk mem (a + (r.dReclen.toNat + size rs)) fuel (a + r.dReclen.toNat) = some rs := by
      rw [← add_assoc]
      exact ih hrs.2 (by omega)
    rw [walk, if_neg (by omega), if_neg (by omega), hrs.1, Option.bind_some, hrest]
    rfl

/-! ## What a call writes -/

def Call.dirent (c : Call) : LinuxDirent64 := ⟨c.inode, UInt16.ofNat c.reclen, c.dtype, c.filename⟩

/-- A name that fits an entry. -/
def Call.Named (c : Call) : Prop := c.filename.length ≤ 255 ∧ 0 ∉ c.filename

theorem Call.Named.dReclen (hc : c.Named) : c.dirent.dReclen.toNat = c.reclen := by
  have hlength := hc.1
  rw [dirent, UInt16.toNat_ofNat']
  exact mod_eq_of_lt (by unfold reclen; omega)

theorem writeRecord_of_notMem {i : Nat} (h : ¬(a ≤ i ∧ i < a + c.reclen)) : writeRecord mem a c i = mem i := by
  rw [Call.reclen] at h
  unfold writeRecord
  rw [update_of_ne (by omega), storeSlice_of_notMem (by omega), update_of_ne (by omega),
    store64_of_notMem (by omega), store64_of_notMem (by omega), store16_of_notMem (by omega)]

theorem recordAt_writeRecord (hc : c.Named) : recordAt (writeRecord mem a c) a = some c.dirent := by
  have hreclen : load16 (writeRecord mem a c) (a + 16) = UInt16.ofNat c.reclen := by
    rw [← load16_store16 mem (a + 16) (UInt16.ofNat c.reclen)]
    refine load16_congr fun i hi hi' => ?_
    unfold writeRecord
    rw [update_of_ne (by omega), storeSlice_of_notMem (by omega), update_of_ne (by omega),
      store64_of_notMem (by omega), store64_of_notMem (by omega)]
  have hino : load64 (writeRecord mem a c) a = c.inode := by
    rw [← load64_store64 (store16 mem (a + 16) (UInt16.ofNat c.reclen)) a c.inode]
    refine load64_congr fun i hi hi' => ?_
    unfold writeRecord
    rw [update_of_ne (by omega), storeSlice_of_notMem (by omega), update_of_ne (by omega),
      store64_of_notMem (by omega)]
  have htype : writeRecord mem a c (a + 18) = c.dtype := by
    unfold writeRecord
    rw [update_of_ne (by omega), storeSlice_of_notMem (by omega), update_self]
  have hslice : slice (writeRecord mem a c) (a + 19) c.filename.length = c.filename := by
    have hframe : ∀ m : Buf, slice (update (storeSlice m (a + 19) c.filename)
        (a + 19 + c.filename.length) 0) (a + 19) c.filename.length = c.filename := fun m =>
      (slice_congr fun i hi hi' => update_of_ne (by omega) ..).trans (slice_storeSlice m (a + 19) c.filename)
    exact hframe _
  have hzero : writeRecord mem a c (a + 19 + c.filename.length) = 0 := update_self ..
  have hlong : c.filename.length < (UInt16.ofNat c.reclen).toNat - 19 := by
    have htoNat : (UInt16.ofNat c.reclen).toNat = c.reclen := hc.dReclen
    rw [htoNat, Call.reclen]
    omega
  rw [recordAt, hreclen, hino, htype, readName_eq hc.2 hslice hzero hlong]
  rfl

/-! ## Sequences of calls -/

def successes (calls : List Call) (results : List DentsRes) : List Call :=
  ((calls.zip results).filter fun p => p.2 = .dentsSuccess).map Prod.fst

/-- The buffer holds records, as the list model of `dentsAdd` has them, from where it started. -/
structure Represents (hardlimit : UInt32) (start b : Buffer) (dents : Ext2.Dents) : Prop where
  laid : Laid b.mem start.dirp dents.records
  total : dents.allocated = size dents.records
  allocated : b.allocatedlimit = dents.allocated
  dirp : b.dirp = start.dirp + dents.allocated
  fits : dents.allocated ≤ hardlimit.toNat
  outside : ∀ i, ¬(start.dirp ≤ i ∧ i < start.dirp + dents.allocated) → b.mem i = start.mem i

variable {hardlimit : UInt32} {start b b' : Buffer} {dents : Ext2.Dents} {calls : List Call} {results : List DentsRes}

theorem ext2_dentsAdd (dents : Ext2.Dents) (hardlimit : UInt32) (c : Call) :
    Ext2.dentsAdd dents hardlimit c.filename c.inode c.dtype =
      if hardlimit.toNat < dents.allocated + c.reclen + 2 then
        if dents.allocated ≠ 0 then (.dentsReturn, dents) else (.dentsNoSpace, dents)
      else (.dentsSuccess, ⟨dents.records ++ [c.dirent], dents.allocated + c.reclen⟩) := rfl

theorem represents_dentsAdd (hb : Represents hardlimit start b dents) (hc : c.Named) :
    (dentsAdd hardlimit b c).1 = (Ext2.dentsAdd dents hardlimit c.filename c.inode c.dtype).1 ∧
    Represents hardlimit start (dentsAdd hardlimit b c).2
      (Ext2.dentsAdd dents hardlimit c.filename c.inode c.dtype).2 := by
  rw [ext2_dentsAdd, dentsAdd, hb.allocated]
  by_cases hroom : hardlimit.toNat < dents.allocated + c.reclen + 2
  · rw [if_pos hroom, if_pos hroom]
    by_cases hne : dents.allocated ≠ 0
    · rw [if_pos hne, if_pos hne]
      exact ⟨rfl, hb⟩
    · rw [if_neg hne, if_neg hne]
      exact ⟨rfl, hb⟩
  · rw [if_neg hroom, if_neg hroom]
    refine ⟨rfl, ⟨?_, ?_, rfl, ?_, ?_, ?_⟩⟩
    · -- what was there before is not touched, and the new record is read back
      have hold : Laid (writeRecord b.mem b.dirp c) start.dirp dents.records :=
        hb.laid.congr fun i hi hi' => writeRecord_of_notMem (by rw [hb.dirp, hb.total]; omega)
      refine hold.append ⟨?_, trivial⟩
      rw [← hb.total, ← hb.dirp]
      exact recordAt_writeRecord hc
    · rw [size_append, ← hb.total, size_cons, hc.dReclen, size_nil, add_zero]
    · rw [hb.dirp, add_assoc]
    · dsimp only
      omega
    · intro i hi
      dsimp only at hi
      have hold := hb.outside i (by omega)
      rw [← hold]
      exact writeRecord_of_notMem (by rw [hb.dirp]; omega)

theorem represents_start (hstart : start.allocatedlimit = 0) : Represents hardlimit start start ⟨[], 0⟩ where
  laid := trivial
  total := rfl
  allocated := hstart
  dirp := rfl
  fits := zero_le _
  outside _ _ := rfl

theorem ext2_dentsAdd_records (dents : Ext2.Dents) (hardlimit : UInt32) (c : Call) :
    (Ext2.dentsAdd dents hardlimit c.filename c.inode c.dtype).2.records = dents.records ++
      if (Ext2.dentsAdd dents hardlimit c.filename c.inode c.dtype).1 = .dentsSuccess then [c.dirent] else [] := by
  rw [ext2_dentsAdd]
  by_cases hroom : hardlimit.toNat < dents.allocated + c.reclen + 2
  · by_cases hne : dents.allocated ≠ 0
    · simp [hroom, hne]
    · simp [hroom, hne]
  · simp [hroom]

theorem successes_cons (c : Call) (r : DentsRes) (calls : List Call) (results : List DentsRes) :
    successes (c :: calls) (r :: results) = (if r = .dentsSuccess then [c] else []) ++ successes calls results := by
  by_cases hr : r = .dentsSuccess
  · simp [successes, hr]
  · simp [successes, hr]

theorem represents_dentsAddAll (hb : Represents hardlimit start b dents) (hcalls : ∀ c ∈ calls, c.Named)
    (hrun : dentsAddAll hardlimit b calls = (results, b')) :
    Represents hardlimit start b' ⟨dents.records ++ (successes calls results).map Call.dirent, b'.allocatedlimit⟩ := by
  induction calls generalizing b dents results with
  | nil =>
    obtain ⟨rfl, rfl⟩ := Prod.mk.inj hrun
    rw [hb.allocated]
    exact (append_nil dents.records).symm ▸ hb
  | cons c calls ih =>
    obtain ⟨hc, hcalls⟩ := forall_mem_cons.1 hcalls
    obtain ⟨rfl, hrest⟩ := Prod.mk.inj hrun
    obtain ⟨hresult, hnext⟩ := represents_dentsAdd hb hc
    have hafter := ih hnext hcalls (Prod.ext rfl hrest)
    rw [ext2_dentsAdd_records, ← hresult, append_assoc] at hafter
    have hmap : (if (dentsAdd hardlimit b c).1 = .dentsSuccess then [c.dirent] else []) =
        (if (dentsAdd hardlimit b c).1 = .dentsSuccess then [c] else []).map Call.dirent := by
      split_ifs <;> rfl
    rwa [hmap, ← map_append, ← successes_cons] at hafter

theorem dentsAdd_failed (hardlimit : UInt32) (b : Buffer) (c : Call) :
    ((dentsAdd hardlimit b c).1 ≠ .dentsSuccess → (dentsAdd hardlimit b c).2 = b) ∧
    ((dentsAdd hardlimit b c).1 = .dentsNoSpace → b.allocatedlimit = 0) := by
  unfold dentsAdd
  split_ifs with hroom hne
  · exact ⟨fun _ => rfl, fun h => absurd h (by decide)⟩
  · exact ⟨fun _ => rfl, fun _ => not_not.1 hne⟩
  · exact ⟨fun h => absurd rfl h, fun h => absurd h (by decide)⟩

/-- **The buffer of `getdents64`.** After any calls, a walk by `d_reclen` reads the records of the calls that have
succeeded and ends behind `allocatedlimit` bytes, which are within `hardlimit`; no other byte has been written. A call
that does not succeed changes nothing, and returns `DENTS_NO_SPACE` only if none has succeeded. -/
theorem dentsAdd_walk (hstart : start.allocatedlimit = 0) (hcalls : ∀ c ∈ calls, c.Named)
    (hrun : dentsAddAll hardlimit start calls = (results, b)) :
    walk b.mem (start.dirp + b.allocatedlimit) b.allocatedlimit start.dirp =
      some ((successes calls results).map Call.dirent) ∧
    b.allocatedlimit = ((successes calls results).map Call.reclen).sum ∧ b.dirp = start.dirp + b.allocatedlimit ∧
    b.allocatedlimit ≤ hardlimit.toNat ∧
    (∀ i, ¬(start.dirp ≤ i ∧ i < start.dirp + b.allocatedlimit) → b.mem i = start.mem i) ∧
    ∀ c, ((dentsAdd hardlimit b c).1 ≠ .dentsSuccess → (dentsAdd hardlimit b c).2 = b) ∧
      ((dentsAdd hardlimit b c).1 = .dentsNoSpace → successes calls results = []) := by
  have hb := represents_dentsAddAll (represents_start hstart) hcalls hrun
  have htotal : b.allocatedlimit = size ((successes calls results).map Call.dirent) := hb.total
  have hlaid : Laid b.mem start.dirp ((successes calls results).map Call.dirent) := hb.laid
  refine ⟨?_, ?_, hb.dirp, hb.fits, hb.outside, fun c => ⟨(dentsAdd_failed hardlimit b c).1, fun hspace => ?_⟩⟩
  · rw [htotal]
    exact walk_of_laid hlaid (le_refl _)
  · rw [htotal, size, map_map]
    congr 1
    refine map_congr_left fun c hc => Call.Named.dReclen (hcalls c ?_)
    obtain ⟨p, hp, rfl⟩ := mem_map.1 hc
    exact (of_mem_zip (mem_filter.1 hp).1).1
  · have hzero := (dentsAdd_failed hardlimit b c).2 hspace
    exact map_eq_nil_iff.1 (hlaid.eq_nil_of_size (htotal ▸ hzero))

/-- Two names in a buffer of 60 bytes: the first call succeeds, the second has no room. -/
theorem dentsAdd_walk_two : ∃ b, dentsAddAll 60 ⟨fun _ => 0, 100, 0⟩
        [⟨[97], 11, 8, 5⟩, ⟨[98, 99, 100, 101, 102, 103, 104, 105, 106, 107], 12, 4, -1⟩] =
      ([.dentsSuccess, .dentsReturn], b) ∧ walk b.mem 125 25 100 = some [⟨11, 25, 8, [97]⟩] := by
  have hrun : dentsAddAll 60 ⟨fun _ => 0, 100, 0⟩
      [⟨[97], 11, 8, 5⟩, ⟨[98, 99, 100, 101, 102, 103, 104, 105, 106, 107], 12, 4, -1⟩] = (_, _) := rfl
  exact ⟨_, hrun, (dentsAdd_walk rfl (by simp [Call.Named]) hrun).1⟩

end CoreX.Dents

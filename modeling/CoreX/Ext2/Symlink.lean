import CoreX.Ext2.Components

/-!
# Symbolic links on a path (`filesystems/ext2/ext2-traverse.rs`)

For a link that has to be followed, `ext2TraversePath` returns 0 and leaves a buffer in `*symlinkResolve`. The copies
stay inside of it. But nothing writes a zero behind them, and for an absolute link the rest of the path is not copied.
-/

namespace CoreX.Ext2

open Memory List Option

/-! ## The buffer -/

/-- `copy_nonoverlapping(.., target.add(off), ..)`, where `size` bytes are allocated. -/
def copyInto (size : Nat) (target : Buf) (off : Nat) (bytes : Bytes) : Except Fault Buf :=
  if off + bytes.length ≤ size then .ok (storeSlice target off bytes) else .error .bounds

section
variable (ext2 : Ext2) (inode : Ext2Inode)

def linkStart : Buf :=
  if 60 < inode.size.toNat then ext2.disk (inode.blocks 0) else blocksBytes inode

def linkText : Bytes := slice (linkStart ext2 inode) 0 inode.size.toNat

def targetLen (path : Bytes) : Nat := path.length + inode.size.toNat + 2

end

def symlinkBuffer (fresh : Buf) (ext2 : Ext2) (inode : Ext2Inode) (path : Bytes) (lastslash length : Nat) :
    Except Fault Buf :=
  let symlinkLen := inode.size.toNat
  let text := linkText ext2 inode
  if 60 < symlinkLen ∧ ext2.blockSize < symlinkLen then .error .bounds
  else if linkStart ext2 inode 0 ≠ slash then do
    let target ← copyInto (targetLen inode path) fresh 0 (path.take (lastslash + 1))
    let target ← copyInto (targetLen inode path) target (lastslash + 1) text
    copyInto (targetLen inode path) target (lastslash + 1 + symlinkLen) (path.drop (lastslash + 1 + length))
  else do
    let target ← copyInto (targetLen inode path) fresh 0 [0x21]
    copyInto (targetLen inode path) target 1 text

/-- The buffer has the string and a zero behind it. -/
def HoldsString (target : Buf) (size : Nat) (s : Bytes) : Prop :=
  s.length < size ∧ slice target 0 (s.length + 1) = s ++ [0]

instance (target : Buf) (size : Nat) (s : Bytes) : Decidable (HoldsString target size s) :=
  inferInstanceAs (Decidable (_ ∧ _))

section Buffer
variable {ext2 : Ext2} {inode : Ext2Inode} {path before rest name : Bytes} {fresh : Buf}

section
variable (ext2 inode)

@[simp] theorem length_linkText : (linkText ext2 inode).length = inode.size.toNat := length_slice ..

theorem copyInto_of_le {size off : Nat} {target : Buf} {bytes : Bytes} (h : off + bytes.length ≤ size) :
    copyInto size target off bytes = .ok (storeSlice target off bytes) := if_pos h

def written (before rest : Bytes) : Bytes :=
  if linkStart ext2 inode 0 = slash then 0x21 :: linkText ext2 inode
  else before ++ slash :: linkText ext2 inode ++ rest

def notCopied (rest : Bytes) : Bytes :=
  if linkStart ext2 inode 0 = slash then rest else []

end

/-- The string that the caller should get: a relative text in place of the component, an absolute one behind a mark
and before the rest of the path. -/
def resolved (text before rest : Bytes) : Bytes :=
  if text.head? = some slash then 0x21 :: text ++ rest else before ++ slash :: text ++ rest

theorem take_component : (before ++ slash :: (name ++ rest)).take (before.length + 1) = before ++ [slash] := by
  rw [take_length_add_append, take_succ_cons, take_zero]

theorem drop_component : (before ++ slash :: (name ++ rest)).drop (before.length + 1 + name.length) = rest := by
  rw [Nat.add_assoc, drop_length_add_append, Nat.add_comm 1, drop_succ_cons, drop_left]

theorem symlinkTarget_eq (before rest name : Bytes) (hsize : inode.size.toNat ≤ ext2.blockSize) :
    symlinkTarget ext2 inode (before ++ slash :: (name ++ rest)) before.length name.length =
      .ok (written ext2 inode before rest) := by
  rw [symlinkTarget, take_component, drop_component, written, if_neg (by omega)]
  by_cases habs : linkStart ext2 inode 0 = slash
  · rw [if_pos habs]
    exact if_neg (not_not_intro habs)
  · rw [if_neg habs]
    refine (if_pos habs).trans ?_
    simp only [append_assoc, cons_append, nil_append, linkText, linkStart]

theorem symlinkBuffer_eq (hsize : inode.size.toNat ≤ ext2.blockSize) (fresh : Buf) :
    symlinkBuffer fresh ext2 inode (before ++ slash :: (name ++ rest)) before.length name.length =
      .ok (storeSlice fresh 0 (written ext2 inode before rest)) := by
  have hlen : targetLen inode (before ++ slash :: (name ++ rest)) =
      before.length + 1 + name.length + rest.length + inode.size.toNat + 2 := by
    simp only [targetLen, length_append, length_cons]
    omega
  rw [symlinkBuffer, written]
  simp only [take_component, drop_component, hlen]
  rw [if_neg (by omega)]
  by_cases habs : linkStart ext2 inode 0 = slash
  · rw [if_pos habs, if_neg (not_not_intro habs), copyInto_of_le (by simp), ok_bind,
      copyInto_of_le (by rw [length_linkText]; omega)]
    exact congrArg Except.ok (storeSlice_append fresh 0 [0x21] (linkText ext2 inode))
  have hfirst := storeSlice_append fresh 0 (before ++ [slash]) (linkText ext2 inode)
  have hsecond := storeSlice_append fresh 0 (before ++ [slash] ++ linkText ext2 inode) rest
  simp only [Nat.zero_add, length_append, length_singleton, length_linkText] at hfirst hsecond
  rw [if_neg habs, if_pos habs,
    copyInto_of_le (by simp only [length_append, length_singleton]; omega), ok_bind,
    copyInto_of_le (by rw [length_linkText]; omega), ok_bind, copyInto_of_le (by omega), hfirst, hsecond]
  simp only [append_assoc, cons_append, nil_append]

theorem slice_storeSlice_append (fresh : Buf) (s t : Bytes) :
    slice (storeSlice fresh 0 s) 0 (s ++ t).length = s ++ t ↔ slice fresh s.length t.length = t := by
  have hbehind : slice (storeSlice fresh 0 s) s.length t.length = slice fresh s.length t.length :=
    slice_congr fun i hi _ => storeSlice_of_notMem (by omega)
  rw [length_append, slice_add, slice_storeSlice, Nat.zero_add, hbehind, append_cancel_left_eq]

theorem resolved_eq (h : inode.size.toNat = 0 → linkStart ext2 inode 0 ≠ slash) :
    resolved (linkText ext2 inode) before rest = written ext2 inode before rest ++ notCopied ext2 inode rest := by
  have hhead : (linkText ext2 inode).head? = some slash ↔ linkStart ext2 inode 0 = slash := by
    rw [linkText]
    cases hsize : inode.size.toNat with
    | zero => exact iff_of_false (by simp [slice]) (h hsize)
    | succ n => rw [slice_succ, head?_cons, some_inj]
  rw [resolved, written, notCopied]
  by_cases habs : linkStart ext2 inode 0 = slash
  · rw [if_pos (hhead.2 habs), if_pos habs, if_pos habs]
  · rw [if_neg (mt hhead.1 habs), if_neg habs, if_neg habs, append_nil]

theorem holdsString_iff (name : Bytes) (hbefore : before = [] ∨ before.head? = some slash) (fresh : Buf) :
    HoldsString (storeSlice fresh 0 (written ext2 inode before rest))
        (targetLen inode (before ++ slash :: (name ++ rest))) (resolved (linkText ext2 inode) before rest) ↔
      (inode.size.toNat = 0 → linkStart ext2 inode 0 ≠ slash) ∧
        slice fresh (written ext2 inode before rest).length ((notCopied ext2 inode rest).length + 1) =
          notCopied ext2 inode rest ++ [0] := by
  have hlen : (resolved (linkText ext2 inode) before rest).length <
      targetLen inode (before ++ slash :: (name ++ rest)) := by
    rw [resolved, targetLen]
    split <;>
      · simp only [length_append, length_cons, length_linkText]
        omega
  rw [HoldsString, and_iff_right hlen]
  by_cases hempty : inode.size.toNat = 0 → linkStart ext2 inode 0 ≠ slash
  · have hsplit := slice_storeSlice_append fresh (written ext2 inode before rest) (notCopied ext2 inode rest ++ [0])
    simp only [length_append, length_singleton] at hsplit
    rw [and_iff_right hempty, resolved_eq hempty, append_assoc, length_append, Nat.add_assoc]
    exact hsplit
  · -- an empty text that is taken for an absolute one: the mark stands in place of the first slash
    rw [iff_false_right fun h => hempty h.1]
    obtain ⟨hsize, habs⟩ := Classical.not_imp.1 hempty
    rw [not_not] at habs
    have htext : linkText ext2 inode = [] := by rw [← length_eq_zero_iff, length_linkText, hsize]
    intro hholds
    have hfirst := congrArg head? hholds
    rw [slice_succ, head?_cons, written, if_pos habs, htext, resolved, if_neg (by simp)] at hfirst
    have hmark : storeSlice fresh 0 [0x21] 0 = 0x21 := rfl
    rw [hmark] at hfirst
    rcases hbefore with rfl | hhead
    · exact absurd (some_inj.1 hfirst) (by decide)
    · obtain ⟨b, before, rfl⟩ := exists_cons_of_ne_nil (show before ≠ [] by rintro rfl; simp at hhead)
      obtain rfl := some_inj.1 hhead
      exact absurd (some_inj.1 hfirst) (by decide)

end Buffer

/-! ## The walk to the link -/

/-- On the path of the names, `name` is the first link that must be followed. -/
structure FirstLink (ext2 : Ext2) (initInode : UInt32) (follow : Bool) (before : List Bytes) (name : Bytes)
    (after : List Bytes) (c : UInt32) : Prop where
  names : ∀ s ∈ before ++ name :: after, s ≠ [] ∧ slash ∉ s
  leads : ∃ d, Leads ext2 initInode before d ∧ ext2Traverse ext2 d name = .ok c
  found : c ≠ 0
  link : IsLink (ext2.inodes c)
  followed : after ≠ [] ∨ follow = true
  size : (ext2.inodes c).size.toNat ≤ ext2.blockSize

section Walk
variable {ext2 : Ext2} {path name : Bytes} {follow : Bool} {c d : UInt32} {after : List Bytes}

theorem joinPath_append (names names' : List Bytes) :
    joinPath (names ++ names') = joinPath names ++ joinPath names' := flatMap_append ..

theorem joinPath_head (names : List Bytes) : joinPath names = [] ∨ (joinPath names).head? = some slash := by
  cases names with
  | nil => exact .inl rfl
  | cons name names => exact .inr (by rw [joinPath_cons, head?_cons])

theorem ext2TraversePath_firstLink {initInode : UInt32} {before : List Bytes}
    (h : FirstLink ext2 initInode follow before name after c) :
    ext2TraversePath ext2 (joinPath (before ++ name :: after)) initInode follow =
      .ok ⟨0, some (written ext2 (ext2.inodes c) (joinPath before) (joinPath after))⟩ := by
  obtain ⟨hnames, ⟨d, hleads, hfound⟩, hne, hlink, hfollow, hsize⟩ := h
  have hsome : name :: after ≠ [] := cons_ne_nil _ _
  rw [ext2TraversePath_names (append_ne_nil_of_right_ne_nil _ hsome) hnames, traverseNames_leads hleads hsome,
    Nat.zero_add, joinPath_append, joinPath_cons, traverseNames, visit, hfound, ok_bind, if_neg hne,
    if_pos ⟨hlink, hfollow⟩, symlinkTarget_eq (joinPath before) (joinPath after) name hsize, ok_bind]
  rfl

end Walk

/-- **Symbolic links.** At the first link of a path that must be followed, the lookup returns 0, with a buffer written
inside of its bounds. It holds the right string if and only if the fresh memory behind the copied bytes holds what has
not been copied, and a zero. -/
theorem ext2TraversePath_symlink_iff {ext2 : Ext2} {initInode : UInt32} {follow : Bool} {before : List Bytes}
    {name : Bytes} {after : List Bytes} {c : UInt32}
    (h : FirstLink ext2 initInode follow before name after c) (fresh : Buf) : ∃ bytes target,
      ext2TraversePath ext2 (joinPath (before ++ name :: after)) initInode follow = .ok ⟨0, some bytes⟩ ∧
      symlinkBuffer fresh ext2 (ext2.inodes c) (joinPath (before ++ name :: after)) (joinPath before).length name.length =
        .ok target ∧ slice target 0 bytes.length = bytes ∧
      (HoldsString target (targetLen (ext2.inodes c) (joinPath (before ++ name :: after)))
          (resolved (linkText ext2 (ext2.inodes c)) (joinPath before) (joinPath after)) ↔
        ((ext2.inodes c).size.toNat = 0 → linkStart ext2 (ext2.inodes c) 0 ≠ slash) ∧
          slice fresh bytes.length ((notCopied ext2 (ext2.inodes c) (joinPath after)).length + 1) =
            notCopied ext2 (ext2.inodes c) (joinPath after) ++ [0]) := by
  refine ⟨written ext2 (ext2.inodes c) (joinPath before) (joinPath after),
    storeSlice fresh 0 (written ext2 (ext2.inodes c) (joinPath before) (joinPath after)),
    ext2TraversePath_firstLink h, ?_, slice_storeSlice .., ?_⟩
  · rw [joinPath_append, joinPath_cons]
    exact symlinkBuffer_eq h.size fresh
  · rw [joinPath_append, joinPath_cons]
    exact holdsString_iff name (joinPath_head before) fresh

def linkDrive (text size : UInt32) : Ext2 :=
  { oneBlockExt2 [⟨12, 1024, 7, [97]⟩] with
    inodes n := if n = 12 then ⟨0xA1FF, size, 0, fun i => if i = 0 then text else 0⟩ else oneBlockInode }

/-- The path `/a`, where `a` is a link to `b`, in memory that is all zero. -/
theorem ext2TraversePath_symlink_iff_zero :
    ext2TraversePath (linkDrive 0x62 1) (joinPath [[97]]) 2 true = .ok ⟨0, some [slash, 98]⟩ ∧
      ∃ target, symlinkBuffer (fun _ => 0) (linkDrive 0x62 1) ((linkDrive 0x62 1).inodes 12) (joinPath [[97]]) 0 1 =
        .ok target ∧ HoldsString target 5 [slash, 98] := by
  have hfirst : FirstLink (linkDrive 0x62 1) 2 true [] [97] [] 12 :=
    ⟨by decide, ⟨2, rfl, by decide +kernel⟩, by decide, (by decide : (0xA1FF : UInt32) &&& 0xF000 = ext2SIflnk), .inr rfl,
      by decide⟩
  obtain ⟨bytes, target, hcall, hbuffer, -, hiff⟩ := ext2TraversePath_symlink_iff hfirst fun _ => 0
  exact ⟨by decide +kernel, target, hbuffer, hiff.2 ⟨by decide, rfl⟩⟩

/-- A link to `b` in memory that was used before: the result goes on behind its end with what was there. And a link to
`/b` in memory that is all zero: the rest of the path `/a/c` is lost. -/
theorem ext2TraversePath_unterminated :
    ext2TraversePath (linkDrive 0x62 1) (joinPath [[97]]) 2 true = .ok ⟨0, some [slash, 98]⟩ ∧
      (symlinkBuffer (fun _ => 120) (linkDrive 0x62 1) ((linkDrive 0x62 1).inodes 12) (joinPath [[97]]) 0 1).map
        (fun target => (slice target 0 5, decide (HoldsString target 5 [slash, 98]))) =
          .ok ([slash, 98, 120, 120, 120], false) ∧
      ext2TraversePath (linkDrive 0x622F 2) (joinPath [[97], [99]]) 2 true = .ok ⟨0, some [0x21, slash, 98]⟩ ∧
      (symlinkBuffer (fun _ => 0) (linkDrive 0x622F 2) ((linkDrive 0x622F 2).inodes 12) (joinPath [[97], [99]]) 0 1).map
        (fun target => (slice target 0 8, decide (HoldsString target 8 [0x21, slash, 98, slash, 99]))) =
          .ok ([0x21, slash, 98, 0, 0, 0, 0, 0], false) := by
  decide +kernel

end CoreX.Ext2

import CoreX.Ext2.Dirs

/-!
# The blocks of a directory

The loop of the directory functions fetches one pointer after the other. Its body changes at most the block at hand,
and no pointer is stored in that block. So the loop is a fold over the list of blocks (`forBlocks_spec`).
-/

namespace CoreX.Ext2

open List

variable {ext2 : Ext2} {ino : Ext2Inode} {control : Ext2LookupControl} {block : UInt32} {ext2' : Ext2} {start i : Nat}

def HoldsNoPointers (ext2 : Ext2) (ino : Ext2Inode) (block : UInt32) : Prop :=
  ∀ s : Slot, (∀ i, s ≠ .data i) → s.Valid ext2 → pointer ext2 ino s ≠ 0 → pointer ext2 ino s ≠ block

theorem lt_capacity_of_blockAt_ne (h : blockAt ext2 ino i ≠ 0) : i < ext2.capacity :=
  Nat.lt_of_not_le fun hle => h (blockAt_of_le hle)

theorem Distinct.holdsNoPointers (h : Distinct ext2 ino) (hne : blockAt ext2 ino i ≠ 0) :
    HoldsNoPointers ext2 ino (blockAt ext2 ino i) :=
  fun s hs hvalid hne' heq => hs i (h s (.data i) hvalid (lt_capacity_of_blockAt_ne hne) hne' heq)

theorem Unused.holdsNoPointers (h : Unused ext2 ino block) : HoldsNoPointers ext2 ino block :=
  fun s _ hvalid _ => h.2 s hvalid

theorem Distinct.blockAt_inj (h : Distinct ext2 ino) {j : Nat} (hne : blockAt ext2 ino i ≠ 0)
    (heq : blockAt ext2 ino i = blockAt ext2 ino j) : i = j := by
  have hi := lt_capacity_of_blockAt_ne hne
  have hj := lt_capacity_of_blockAt_ne (heq ▸ hne)
  exact Slot.data.inj (h (.data i) (.data j) hi hj hne heq)

theorem setDiskBytes_disk (ext2 : Ext2) (block : UInt32) : setDiskBytes ext2 block (ext2.disk block) = ext2 := by
  rw [setDiskBytes, Function.update_eq_self]

section
variable (h : HoldsNoPointers ext2 ino block) (buf : Buf)
include h

theorem pointer_setDiskBytes (s : Slot) : pointer (setDiskBytes ext2 block buf) ino s = pointer ext2 ino s := by
  apply pointer_congr
  · rfl
  · rfl
  · intro s hs hvalid hne
    exact setDiskBytes_of_ne (h s hs hvalid hne) buf

theorem blockAt_setDiskBytes : blockAt (setDiskBytes ext2 block buf) ino = blockAt ext2 ino :=
  funext fun i => pointer_setDiskBytes h buf (.data i)

end

theorem Distinct.setDiskBytes (hdist : Distinct ext2 ino) (h : HoldsNoPointers ext2 ino block) (buf : Buf) :
    Distinct (setDiskBytes ext2 block buf) ino := hdist.congr rfl (pointer_setDiskBytes h buf)

theorem Holds.setDiskBytes (hholds : Holds ext2 ino control) (h : HoldsNoPointers ext2 ino block) (buf : Buf) :
    Holds (setDiskBytes ext2 block buf) ino control := by
  refine ⟨hholds.tmp1, hholds.tmp2.imp_right ?_⟩
  rintro ⟨i, hi, heq⟩
  exact ⟨i, hi, heq.trans (pointer_setDiskBytes h buf (.child i)).symm⟩

theorem Serves.setDiskBytes (hserves : Serves ext2 ino control) (hholds : Holds ext2 ino control)
    (h : HoldsNoPointers ext2 ino block) (buf : Buf) : Serves (setDiskBytes ext2 block buf) ino control := by
  refine ⟨?_, ?_⟩
  · intro hne i hi
    have hblock : control.tmp1Block ≠ block := by
      rcases hholds.tmp1 with hzero | heq | heq
      · exact absurd hzero hne
      · rw [heq] at hne ⊢
        exact h .single (by simp) trivial hne
      · rw [heq] at hne ⊢
        exact h .double (by simp) trivial hne
    rw [setDiskBytes_of_ne hblock]
    exact hserves.tmp1 hne i hi
  · intro j hj heq hne i hi
    rw [pointer_setDiskBytes h] at heq
    have hblock : control.tmp2Block ≠ block := heq ▸ h (.child j) (by simp) hj (heq ▸ hne)
    rw [setDiskBytes_of_ne hblock]
    exact hserves.tmp2 j hj heq hne i hi

/-! ## The list of blocks -/

def blocksFrom (ext2 : Ext2) (ino : Ext2Inode) : Nat → Nat → List UInt32
  | _, 0 => []
  | start, k + 1 =>
    if blockAt ext2 ino start = 0 then [] else blockAt ext2 ino start :: blocksFrom ext2 ino (start + 1) k

/-- The blocks of a directory: its size says how many there are, and they end at the first hole, where every
walk over the directory ends. -/
def dirBlocks (ext2 : Ext2) (ino : Ext2Inode) : List UInt32 :=
  blocksFrom ext2 ino 0 (Word.divRoundUp ino.size.toNat ext2.blockSize)

theorem blocksFrom_of_eq (h : blockAt ext2 ino start = 0) (k : Nat) :
    blocksFrom ext2 ino start (k + 1) = [] := by rw [blocksFrom, if_pos h]

theorem blocksFrom_of_ne (h : blockAt ext2 ino start ≠ 0) (k : Nat) :
    blocksFrom ext2 ino start (k + 1) = blockAt ext2 ino start :: blocksFrom ext2 ino (start + 1) k := by
  rw [blocksFrom, if_neg h]

theorem blocksFrom_congr {ino' : Ext2Inode} {k : Nat}
    (h : ∀ i, start ≤ i → i < start + k → blockAt ext2' ino' i = blockAt ext2 ino i) :
    blocksFrom ext2' ino' start k = blocksFrom ext2 ino start k := by
  induction k generalizing start with
  | zero => rfl
  | succ k ih =>
    rw [blocksFrom, blocksFrom, h start (Nat.le_refl _) (by omega)]
    rw [ih fun i hi hi' => h i (by omega) (by omega)]

theorem dirBlocks_congr (hsize : ext2'.blockSize = ext2.blockSize) (h : blockAt ext2' ino = blockAt ext2 ino) :
    dirBlocks ext2' ino = dirBlocks ext2 ino := by
  rw [dirBlocks, hsize]
  exact blocksFrom_congr fun i _ _ => congrFun h i

theorem mem_blocksFrom {k : Nat} (h : block ∈ blocksFrom ext2 ino start k) :
    ∃ i, start ≤ i ∧ i < start + k ∧ blockAt ext2 ino i = block ∧ block ≠ 0 := by
  induction k generalizing start with
  | zero => exact absurd h (by simp [blocksFrom])
  | succ k ih =>
    by_cases hzero : blockAt ext2 ino start = 0
    · rw [blocksFrom_of_eq hzero] at h
      exact absurd h (by simp)
    · rw [blocksFrom_of_ne hzero] at h
      rcases mem_cons.1 h with rfl | h
      · exact ⟨start, Nat.le_refl _, by omega, rfl, hzero⟩
      · obtain ⟨i, hi, hi', hblock⟩ := ih h
        exact ⟨i, by omega, by omega, hblock⟩

theorem blockAt_of_blocksFrom_eq {k : Nat} {front back : List UInt32}
    (h : blocksFrom ext2 ino start k = front ++ block :: back) :
    blockAt ext2 ino (start + front.length) = block ∧ block ≠ 0 := by
  induction k generalizing start front with
  | zero => exact absurd h (by simp [blocksFrom])
  | succ k ih =>
    by_cases hzero : blockAt ext2 ino start = 0
    · rw [blocksFrom_of_eq hzero] at h
      exact absurd h (by simp)
    rw [blocksFrom_of_ne hzero] at h
    cases front with
    | nil =>
      obtain ⟨rfl, -⟩ := List.cons.inj h
      exact ⟨rfl, hzero⟩
    | cons b front =>
      rw [length_cons, Nat.add_comm front.length, ← Nat.add_assoc]
      exact ih (List.cons.inj h).2

theorem nodup_blocksFrom (h : Distinct ext2 ino) (start k : Nat) : (blocksFrom ext2 ino start k).Nodup := by
  induction k generalizing start with
  | zero => exact nodup_nil
  | succ k ih =>
    by_cases hzero : blockAt ext2 ino start = 0
    · rw [blocksFrom_of_eq hzero]
      exact nodup_nil
    · rw [blocksFrom_of_ne hzero]
      refine nodup_cons.2 ⟨fun hmem => ?_, ih (start + 1)⟩
      obtain ⟨i, hi, -, heq, -⟩ := mem_blocksFrom hmem
      have := h.blockAt_inj hzero heq.symm
      omega

theorem length_blocksFrom_le (start k : Nat) : (blocksFrom ext2 ino start k).length ≤ k := by
  induction k generalizing start with
  | zero => exact Nat.le_refl 0
  | succ k ih =>
    by_cases hzero : blockAt ext2 ino start = 0
    · rw [blocksFrom_of_eq hzero]
      exact Nat.zero_le _
    · rw [blocksFrom_of_ne hzero, length_cons]
      exact Nat.succ_le_succ (ih (start + 1))

theorem blocksFrom_succ {k : Nat} (h : (blocksFrom ext2 ino start k).length = k)
    (hne : blockAt ext2 ino (start + k) ≠ 0) :
    blocksFrom ext2 ino start (k + 1) = blocksFrom ext2 ino start k ++ [blockAt ext2 ino (start + k)] := by
  induction k generalizing start with
  | zero => exact blocksFrom_of_ne hne 0
  | succ k ih =>
    by_cases hzero : blockAt ext2 ino start = 0
    · rw [blocksFrom_of_eq hzero] at h
      exact absurd h (by simp)
    · rw [blocksFrom_of_ne hzero, length_cons, Nat.add_right_cancel_iff] at h
      have hnext : start + 1 + k = start + (k + 1) := by omega
      rw [blocksFrom_of_ne hzero, ih h (by rwa [hnext]), hnext, blocksFrom_of_ne hzero, cons_append]

theorem length_blocksFrom {k : Nat} (h : ∀ i < k, blockAt ext2 ino (start + i) ≠ 0) :
    (blocksFrom ext2 ino start k).length = k := by
  induction k generalizing start with
  | zero => rfl
  | succ k ih =>
    have hstart : blockAt ext2 ino start ≠ 0 := h 0 (by omega)
    rw [blocksFrom_of_ne hstart, length_cons, ih]
    intro i hi
    have hnext := h (i + 1) (by omega)
    rwa [show start + 1 + i = start + (i + 1) by omega]

/-! ## The loop as a fold -/

section Loop
variable {ρ τ : Type} (body : Ext2 → UInt32 → Buf → τ → Except Fault (Ext2 × (ρ ⊕ τ)))

def foldBlocks : List UInt32 → Ext2 → τ → Except Fault (Ext2 × (ρ ⊕ τ))
  | [], ext2, t => .ok (ext2, .inr t)
  | block :: blocks, ext2, t =>
    match body ext2 block (ext2.disk block) t with
    | .error fault => .error fault
    | .ok (ext2', .inl r) => .ok (ext2', .inl r)
    | .ok (ext2', .inr t') => foldBlocks blocks ext2' t'

def ChangesBlock : Prop :=
  ∀ ext2 block t ext2' x, body ext2 block (ext2.disk block) t = .ok (ext2', x) →
    ∃ buf, ext2' = setDiskBytes ext2 block buf

/-- What the loop returns, given what the fold returns: the same, except that the loop may fault where it
fetches a pointer behind the reach of `ext2BlockFetch`. -/
def Loops (k : Nat) (ext2 : Ext2) (ino : Ext2Inode) (scan : Scan) (t : τ) : Prop :=
  match foldBlocks body (blocksFrom ext2 ino scan.blockNum k) ext2 t with
  | .error fault => forBlocks ino body k ext2 scan t = .error fault
  | .ok (ext2', .inl r) => forBlocks ino body k ext2 scan t = .ok (ext2', .inl r)
  | .ok (ext2', .inr t') =>
    (∃ scan', forBlocks ino body k ext2 scan t = .ok (ext2', .inr (scan', t')) ∧
      scan'.blockNum = scan.blockNum + (blocksFrom ext2 ino scan.blockNum k).length ∧
      Serves ext2' ino scan'.control ∧ Holds ext2' ino scan'.control) ∨
    (ext2.capacity < scan.blockNum + k ∧
      ∃ fault, fault ≠ .overflow ∧ forBlocks ino body k ext2 scan t = .error fault)

variable {body}

theorem forBlocks_of_ne {k : Nat} {scan : Scan} {t : τ}
    (hfetch : ext2BlockFetch ext2 ino scan.control scan.blockNum = .ok (block, control)) (hne : block ≠ 0) :
    forBlocks ino body (k + 1) ext2 scan t =
      body ext2 block (ext2.disk block) t >>= fun r => r.2.elim (fun x => .ok (r.1, .inl x)) fun t' =>
        forBlocks ino body k r.1 ⟨scan.blockNum + 1, control, ext2.disk block⟩ t' := by
  rw [forBlocks, hfetch, ok_bind]
  simp only
  rw [if_neg hne]
  rcases body ext2 block (ext2.disk block) t with fault | ⟨ext2', r | t'⟩ <;> rfl

/-- **The loop is a fold over the blocks of the directory.** The induction is on the number of iterations; a
step keeps the pointers, so it keeps the list of the blocks that are left. -/
theorem forBlocks_spec (hbody : ChangesBlock body) (k : Nat) (ext2 : Ext2) (scan : Scan) (t : τ)
    (hdist : Distinct ext2 ino) (hserves : Serves ext2 ino scan.control)
    (hholds : Holds ext2 ino scan.control) : Loops body k ext2 ino scan t := by
  induction k generalizing ext2 scan t with
  | zero => exact .inl ⟨scan, rfl, rfl, hserves, hholds⟩
  | succ k ih =>
    rcases ext2BlockFetch_spec hserves scan.blockNum with
      ⟨control, hfetch, hserves', hholds'⟩ | ⟨hcap, fault, hfault, hfetch⟩
    · by_cases hzero : blockAt ext2 ino scan.blockNum = 0
      · rw [Loops, blocksFrom_of_eq hzero]
        refine .inl ⟨{ scan with control }, ?_, rfl, hserves', hholds' hholds⟩
        rw [forBlocks, hfetch, hzero]
        rfl
      · rw [Loops, blocksFrom_of_ne hzero, foldBlocks, forBlocks_of_ne hfetch hzero]
        cases hrun : body ext2 (blockAt ext2 ino scan.blockNum) (ext2.disk (blockAt ext2 ino scan.blockNum)) t with
        | error fault => rfl
        | ok r =>
          obtain ⟨ext2', r | t'⟩ := r
          · rfl
          obtain ⟨buf, rfl⟩ := hbody ext2 _ t ext2' _ hrun
          have hno := hdist.holdsNoPointers hzero
          have hrest := ih (setDiskBytes ext2 (blockAt ext2 ino scan.blockNum) buf)
            ⟨scan.blockNum + 1, control, ext2.disk (blockAt ext2 ino scan.blockNum)⟩ t'
            (hdist.setDiskBytes hno buf) (hserves'.setDiskBytes (hholds' hholds) hno buf)
            ((hholds' hholds).setDiskBytes hno buf)
          have hsame : blocksFrom (setDiskBytes ext2 (blockAt ext2 ino scan.blockNum) buf) ino
              (scan.blockNum + 1) k = blocksFrom ext2 ino (scan.blockNum + 1) k :=
            blocksFrom_congr fun i _ _ => congrFun (blockAt_setDiskBytes hno buf) i
          rw [Loops, hsame] at hrest
          simp only [length_cons]
          rw [show scan.blockNum + (k + 1) = scan.blockNum + 1 + k by omega,
            show scan.blockNum + ((blocksFrom ext2 ino (scan.blockNum + 1) k).length + 1) =
              scan.blockNum + 1 + (blocksFrom ext2 ino (scan.blockNum + 1) k).length by omega]
          exact hrest
    · -- the pointer is out of reach, and so the list of blocks ends here
      rw [Loops, blocksFrom_of_eq (blockAt_of_le hcap)]
      refine .inr ⟨by omega, fault, hfault, ?_⟩
      rw [forBlocks, hfetch]
      rfl

end Loop

end CoreX.Ext2

import CoreX.Ext2.Blocks

/-!
# Assigning a block pointer

`ext2BlockAssign` writes one pointer of an inode and moves no other, apart from a new singly indirect block
(`Assigned`). The first buffer of the lookup control is written through. The second goes stale if it holds the
indirect block that is written (`ext2BlockAssign_stale`).
-/

namespace CoreX.Ext2

open Memory Function

/-! ## What an assignment changes -/

/-- The inode points to `val` at the index, and otherwise where it pointed before. The singly indirect block
may be new; it is the only block whose contents change. -/
structure Assigned (ext2 : Ext2) (ino : Ext2Inode) (inodeNum : UInt32) (curr : Nat) (val : UInt32)
    (ext2' : Ext2) (ino' : Ext2Inode) : Prop where
  blockSize : ext2'.blockSize = ext2.blockSize
  heap : ext2'.heap = ext2.heap
  inodes : ∀ i, i ≠ inodeNum → ext2'.inodes i = ext2.inodes i
  size : ino'.size = ino.size
  permission : ino'.permission = ino.permission
  assigned : pointer ext2' ino' (.data curr) = val
  other : ∀ s : Slot, s ≠ .data curr → s ≠ .single → pointer ext2' ino' s = pointer ext2 ino s
  single : (pointer ext2' ino' .single = pointer ext2 ino .single ∧ ext2'.found = ext2.found) ∨
    (pointer ext2 ino .single = 0 ∧ ext2.found = pointer ext2' ino' .single :: ext2'.found)
  disk : ∀ b, b ≠ pointer ext2' ino' .single → ext2'.disk b = ext2.disk b

structure Apart (ext2 : Ext2) (ino : Ext2Inode) (block : UInt32) : Prop where
  double : ino.blocks 13 ≠ 0 → ino.blocks 13 ≠ block
  child : ∀ i < ext2.perBlock, pointer ext2 ino (.child i) ≠ 0 → pointer ext2 ino (.child i) ≠ block

/-- The singly indirect block, or the one that `ext2BlockFind` is about to return for it, is apart from the
blocks behind the doubly indirect pointer. -/
structure Separate (ext2 : Ext2) (ino : Ext2Inode) : Prop where
  single : Apart ext2 ino (ino.blocks 12)
  found : ino.blocks 12 = 0 → ∀ b, ext2.found.head? = some b → b ≠ 0 ∧ Apart ext2 ino b

variable {block : UInt32}

theorem Unused.apart {ext2 : Ext2} {ino : Ext2Inode} (h : Unused ext2 ino block) : Apart ext2 ino block :=
  ⟨fun _ => h.2 .double trivial, fun i hi _ => h.2 (.child i) hi⟩

theorem Distinct.separate {ext2 : Ext2} {ino : Ext2Inode} (hdist : Distinct ext2 ino)
    (hfound : ∀ b, ext2.found.head? = some b → Unused ext2 ino b) : Separate ext2 ino := by
  refine ⟨⟨fun h13 heq => ?_, fun i hi hne heq => ?_⟩, fun _ b hb => ⟨(hfound b hb).1, (hfound b hb).apart⟩⟩
  · exact absurd (hdist .double .single trivial trivial h13 heq) (by simp)
  · exact absurd (hdist (.child i) .single hi trivial hne heq) (by simp)

section Assign
variable {ext2 : Ext2} {ino : Ext2Inode} {inodeNum : UInt32} {control : Ext2LookupControl} {curr i : Nat}
  {val : UInt32} {control' : Ext2LookupControl} {ino' : Ext2Inode} {ext2' : Ext2}

theorem ext2BlockAssign_direct (hcurr : curr < 12) : ext2BlockAssign ext2 ino inodeNum control curr val =
      .ok (ext2InodeModifyM ext2 inodeNum (ino.setBlock curr val), ino.setBlock curr val, control) := by
  simp only [ext2BlockAssign]
  rw [if_pos hcurr]

def writtenTmp1 (ext2 : Ext2) (control : Ext2LookupControl) (block : UInt32) (curr : Nat) (val : UInt32) : Buf :=
  store32 (fetchTmp1 ext2 control block).tmp1 (4 * (curr - 12)) val

theorem ext2BlockAssign_singly (hcurr : 12 ≤ curr) (hcurr' : curr < 12 + ext2.perBlock) (h12 : ino.blocks 12 ≠ 0) :
    ext2BlockAssign ext2 ino inodeNum control curr val =
      .ok (setDiskBytes ext2 (ino.blocks 12) (writtenTmp1 ext2 control (ino.blocks 12) curr val), ino,
        { fetchTmp1 ext2 control (ino.blocks 12) with
          tmp1 := writtenTmp1 ext2 control (ino.blocks 12) curr val }) := by
  simp only [ext2BlockAssign]
  rw [if_neg (by omega), if_pos (by exact hcurr'), if_neg h12]
  rfl

def freshTmp1 (ext2 : Ext2) (control : Ext2LookupControl) (block : UInt32) (curr : Nat) (val : UInt32) : Buf :=
  store32 (memset (fetchTmp1 ext2 control block).tmp1 0 0 ext2.blockSize) (4 * (curr - 12)) val

inductive AssignResult (ext2 : Ext2) (ino : Ext2Inode) (inodeNum : UInt32) (control : Ext2LookupControl)
    (curr : Nat) (val : UInt32) : Except Fault (Ext2 × Ext2Inode × Ext2LookupControl) → Prop where
  | direct : curr < 12 → AssignResult ext2 ino inodeNum control curr val
      (.ok (ext2InodeModifyM ext2 inodeNum (ino.setBlock curr val), ino.setBlock curr val, control))
  | singly : 12 ≤ curr → curr < 12 + ext2.perBlock → ino.blocks 12 ≠ 0 →
      AssignResult ext2 ino inodeNum control curr val
        (.ok (setDiskBytes ext2 (ino.blocks 12) (writtenTmp1 ext2 control (ino.blocks 12) curr val), ino,
          { fetchTmp1 ext2 control (ino.blocks 12) with
            tmp1 := writtenTmp1 ext2 control (ino.blocks 12) curr val }))
  | fresh {block rest} : 12 ≤ curr → curr < 12 + ext2.perBlock → ino.blocks 12 = 0 → ext2.found = block :: rest →
      AssignResult ext2 ino inodeNum control curr val
        (.ok (setDiskBytes (ext2InodeModifyM { ext2 with found := rest } inodeNum (ino.setBlock 12 block)) block
            (freshTmp1 ext2 control block curr val),
          ino.setBlock 12 block,
          { fetchTmp1 ext2 control block with tmp1 := freshTmp1 ext2 control block curr val }))
  | panic : ino.blocks 12 = 0 ∧ ext2.found = [] ∨ 12 + ext2.perBlock ≤ curr →
      AssignResult ext2 ino inodeNum control curr val (.error .panic)

theorem ext2BlockAssign_result {r : Except Fault (Ext2 × Ext2Inode × Ext2LookupControl)}
    (h : ext2BlockAssign ext2 ino inodeNum control curr val = r) :
    AssignResult ext2 ino inodeNum control curr val r := by
  subst h
  rcases Nat.lt_or_ge curr 12 with hcurr | hcurr
  · rw [ext2BlockAssign_direct hcurr]
    exact .direct hcurr
  by_cases hcurr' : curr < 12 + ext2.perBlock
  · by_cases h12 : ino.blocks 12 = 0
    · simp only [ext2BlockAssign]
      rw [if_neg (by omega), if_pos (by exact hcurr'), if_pos h12, ext2BlockFind]
      cases hrest : ext2.found with
      | nil => exact .panic (.inl ⟨h12, hrest⟩)
      | cons block rest => exact .fresh hcurr hcurr' h12 hrest
    · rw [ext2BlockAssign_singly hcurr hcurr' h12]
      exact .singly hcurr hcurr' h12
  · simp only [ext2BlockAssign]
    rw [if_neg (by omega), if_neg (by exact hcurr')]
    exact .panic (.inr (not_lt.1 hcurr'))

theorem load32_store_pointer {tmp : Buf} {j : Nat} :
    load32 (store32 tmp (4 * i) val) (4 * j) = if j = i then val else load32 tmp (4 * j) := by
  by_cases hij : j = i
  · rw [if_pos hij, hij, load32_store32]
  · rw [if_neg hij]
    exact load32_congr fun k hk hk' => store32_of_notMem (by omega)

theorem assigned_direct (hcurr : curr < 12) : Assigned ext2 ino inodeNum curr val
      (ext2InodeModifyM ext2 inodeNum (ino.setBlock curr val)) (ino.setBlock curr val) where
  blockSize := rfl
  heap := rfl
  inodes i hi := update_of_ne hi _ _
  size := rfl
  permission := rfl
  assigned := by rw [pointer, blockAt_direct hcurr, setBlock_self]
  other s hs hs' := by
    have h12 : (ino.setBlock curr val).blocks 12 = ino.blocks 12 := setBlock_of_ne (by omega) val
    have h13 : (ino.setBlock curr val).blocks 13 = ino.blocks 13 := setBlock_of_ne (by omega) val
    cases s with
    | single => exact absurd rfl hs'
    | double => exact h13
    | child i =>
      rw [pointer, pointer, h13]
      rfl
    | data i =>
      rw [pointer, pointer]
      rcases Nat.lt_or_ge i 12 with hi | hi
      · rw [blockAt_direct hi, blockAt_direct hi, setBlock_of_ne fun h => hs (congrArg Slot.data h)]
      · have hne : ¬ i < 12 := by omega
        simp only [blockAt, hne, if_false, h12, h13]
        rfl
  single := .inl ⟨setBlock_of_ne (by omega) val, rfl⟩
  disk b _ := rfl

/-- The part that the two singly indirect cases share. The singly indirect block is `block` now and holds
`tmp1`, and no pointer that is kept is in it. -/
theorem assigned_indirect {tmp1 : Buf} (hcurr : 12 ≤ curr) (hcurr' : curr < 12 + ext2.perBlock)
    (hsize : ext2'.blockSize = ext2.blockSize) (hheap : ext2'.heap = ext2.heap)
    (hinodes : ∀ i, i ≠ inodeNum → ext2'.inodes i = ext2.inodes i)
    (hdisk : ext2'.disk = update ext2.disk block tmp1) (hblock : block ≠ 0) (hino : ino' = ino.setBlock 12 block)
    (hsingle : (block = ino.blocks 12 ∧ ext2'.found = ext2.found) ∨ (ino.blocks 12 = 0 ∧ ext2.found = block :: ext2'.found))
    (hapart : Apart ext2 ino block)
    (htmp1 : ∀ i < ext2.perBlock, load32 tmp1 (4 * i) = if i = curr - 12 then val else indirect ext2 (ino.blocks 12) i) :
    Assigned ext2 ino inodeNum curr val ext2' ino' := by
  subst hino
  have hp : ext2'.perBlock = ext2.perBlock := by rw [perBlock, perBlock, hsize]
  have hcap := capacity_congr hsize
  have h12 : (ino.setBlock 12 block).blocks 12 = block := setBlock_self 12 block
  have h13 : (ino.setBlock 12 block).blocks 13 = ino.blocks 13 := setBlock_of_ne (by omega) block
  have hkept : ∀ b, b ≠ block → ext2'.disk b = ext2.disk b := fun b hb => by
    rw [hdisk, update_of_ne hb]
  have hchild' : ∀ i, pointer ext2' (ino.setBlock 12 block) (.child i) = pointer ext2 ino (.child i) :=
    pointer_child_congr h13 fun h => hkept _ (hapart.double h)
  have hsingly : ∀ i < ext2.perBlock, indirect ext2' block i =
      if i = curr - 12 then val else indirect ext2 (ino.blocks 12) i := by
    intro i hi
    rw [indirect_of_ne hblock, hdisk, update_self]
    exact htmp1 i hi
  refine ⟨hsize, hheap, hinodes, rfl, rfl, ?_, fun s hs hs' => ?_, ?_, ?_⟩
  · rw [pointer, blockAt_singly hcurr (by rwa [hp]), h12, hsingly _ (by omega), if_pos rfl]
  · cases s with
    | single => exact absurd rfl hs'
    | double => exact h13
    | child i => exact hchild' i
    | data i =>
      have hne : i ≠ curr := fun h => hs (congrArg Slot.data h)
      rw [pointer, pointer]
      rcases Nat.lt_or_ge i 12 with hi | hi
      · rw [blockAt_direct hi, blockAt_direct hi, setBlock_of_ne (by omega)]
      rcases Nat.lt_or_ge i (12 + ext2.perBlock) with hi' | hi'
      · rw [blockAt_singly hi (by rwa [hp]), blockAt_singly hi hi', h12, hsingly _ (by omega), if_neg (by omega)]
      rcases Nat.lt_or_ge i ext2.capacity with hi'' | hi''
      · rw [blockAt_doubly (by rwa [hp]) (by rwa [hcap]), blockAt_doubly hi' hi'', hp, hchild']
        exact indirect_congr (fun h => hkept _ (hapart.child _ (doubly_index_lt hi' hi'').1 h)) _
      · rw [blockAt_of_le (by rwa [hcap]), blockAt_of_le hi'']
  · rw [pointer, pointer, h12]
    exact hsingle
  · rw [pointer, h12]
    exact hkept

theorem load32_freshTmp1 (hi : i < ext2.perBlock) :
    load32 (freshTmp1 ext2 control block curr val) (4 * i) = if i = curr - 12 then val else 0 := by
  have hle := four_mul_perBlock_le hi
  have hzero : load32 (memset (fetchTmp1 ext2 control block).tmp1 0 0 ext2.blockSize) (4 * i) = 0 :=
    load32_zeros fun j hj => memset_of_mem (by omega)
  rw [freshTmp1, load32_store_pointer, hzero]

section
variable (hcurr : 12 ≤ curr) (hcurr' : curr < 12 + ext2.perBlock)
include hcurr hcurr'

theorem assigned_singly (h12 : ino.blocks 12 ≠ 0) (hapart : Apart ext2 ino (ino.blocks 12))
    (hcoh : Coherent ext2 control.tmp1Block control.tmp1) : Assigned ext2 ino inodeNum curr val
      (setDiskBytes ext2 (ino.blocks 12) (writtenTmp1 ext2 control (ino.blocks 12) curr val)) ino := by
  have hino : ino = ino.setBlock 12 (ino.blocks 12) := by
    rw [Ext2Inode.setBlock, update_eq_self]
  refine assigned_indirect hcurr hcurr' rfl rfl (fun _ _ => rfl) rfl h12 hino (.inl ⟨rfl, rfl⟩) hapart ?_
  intro i hi
  have hget := tmpGet_of_coherent (fetchTmp1_coherent hcoh (ino.blocks 12)) h12 hi
  rw [tmpGet, if_pos (four_mul_perBlock_le hi), Except.ok.injEq] at hget
  rw [writtenTmp1, load32_store_pointer, hget]

theorem assigned_fresh (h12 : ino.blocks 12 = 0) {rest : List UInt32} (hfound : ext2.found = block :: rest)
    (hblock : block ≠ 0) (hapart : Apart ext2 ino block) : Assigned ext2 ino inodeNum curr val (setDiskBytes
        (ext2InodeModifyM { ext2 with found := rest } inodeNum (ino.setBlock 12 block))
        block (freshTmp1 ext2 control block curr val)) (ino.setBlock 12 block) := by
  refine assigned_indirect hcurr hcurr' rfl rfl (fun i hi => update_of_ne hi _ _) rfl hblock rfl
    (.inr ⟨h12, hfound⟩) hapart ?_
  intro i hi
  rw [load32_freshTmp1 hi, h12, indirect_zero]

end

theorem ext2BlockAssign_assigned (hseparate : Separate ext2 ino)
    (hcoh : Coherent ext2 control.tmp1Block control.tmp1)
    (h : ext2BlockAssign ext2 ino inodeNum control curr val = .ok (ext2', ino', control')) :
    Assigned ext2 ino inodeNum curr val ext2' ino' := by
  cases ext2BlockAssign_result h with
  | direct hcurr => exact assigned_direct hcurr
  | singly hcurr hcurr' h12 => exact assigned_singly hcurr hcurr' h12 hseparate.single hcoh
  | fresh hcurr hcurr' h12 hrest =>
    obtain ⟨hblock, hapart⟩ := hseparate.found h12 _ (by rw [hrest, List.head?_cons])
    exact assigned_fresh hcurr hcurr' h12 hrest hblock hapart

theorem ext2BlockAssign_control (hcoh : Coherent ext2 control.tmp1Block control.tmp1)
    (h : ext2BlockAssign ext2 ino inodeNum control curr val = .ok (ext2', ino', control')) :
    Coherent ext2' control'.tmp1Block control'.tmp1 ∧ control'.tmp2Block = control.tmp2Block ∧
      control'.tmp2 = control.tmp2 := by
  have hwritten : ∀ (e : Ext2) (block : UInt32) (buf : Buf), Coherent (setDiskBytes e block buf) block buf := by
    intro e block buf _ i _
    rw [setDiskBytes_self]
  cases ext2BlockAssign_result h with
  | direct => exact ⟨hcoh, rfl, rfl⟩
  | singly | fresh => exact ⟨by rw [fetchTmp1_tmp1Block]; exact hwritten _ _ _, fetchTmp1_tmp2Block _, fetchTmp1_tmp2 _⟩

theorem ext2BlockAssign_disk {b : UInt32}
    (h : ext2BlockAssign ext2 ino inodeNum control curr val = .ok (ext2', ino', control'))
    (hb : curr < 12 ∨ b ≠ ino'.blocks 12) : ext2'.disk b = ext2.disk b := by
  cases ext2BlockAssign_result h with
  | direct => rfl
  | singly hcurr | fresh hcurr => exact setDiskBytes_of_ne (hb.resolve_left (by omega)) _

section
variable (ino inodeNum control val)

theorem ext2BlockAssign_isOk (hcurr : curr < 12 + ext2.perBlock) (hfound : ext2.found ≠ []) : ∃ ext2' ino' control',
      ext2BlockAssign ext2 ino inodeNum control curr val = .ok (ext2', ino', control') := by
  generalize hcall : ext2BlockAssign ext2 ino inodeNum control curr val = r
  cases ext2BlockAssign_result hcall with
  | direct | singly | fresh => exact ⟨_, _, _, rfl⟩
  | panic hnone =>
    rcases hnone with ⟨-, hnil⟩ | hle
    · exact absurd hnil hfound
    · omega

end

section
variable (h : Assigned ext2 ino inodeNum curr val ext2' ino') (hseparate : Separate ext2 ino)
include h hseparate

theorem Assigned.apart : Apart ext2 ino (pointer ext2' ino' .single) := by
  rcases h.single with ⟨hsingle, -⟩ | ⟨hzero, hnew⟩
  · rw [hsingle]
    exact hseparate.single
  · exact (hseparate.found hzero _ (by rw [hnew, List.head?_cons])).2

/-! ## Reading after an assignment -/

theorem Assigned.serves (hserves : Serves ext2 ino control)
    (htmp1 : Coherent ext2' control'.tmp1Block control'.tmp1) (hblock : control'.tmp2Block = control.tmp2Block)
    (htmp2 : control'.tmp2 = control.tmp2) : Serves ext2' ino' control' := by
  refine ⟨htmp1, fun i hi heq => ?_⟩
  have hi' : i < ext2.perBlock := by rwa [perBlock, ← h.blockSize]
  rw [h.other (.child i) (by simp) (by simp), hblock] at heq
  rw [hblock, htmp2]
  -- the second buffer holds a child of the doubly indirect block, which is not the block written
  intro hne j hj
  have hsame := h.disk control.tmp2Block (heq ▸ (h.apart hseparate).child i hi' (heq ▸ hne))
  rw [hsame]
  exact hserves.tmp2 i hi' heq hne j (by rwa [← h.blockSize])

end

theorem ext2BlockAssign_serves (hserves : Serves ext2 ino control) (hseparate : Separate ext2 ino)
    (h : ext2BlockAssign ext2 ino inodeNum control curr val = .ok (ext2', ino', control')) :
    Serves ext2' ino' control' := by
  have hset := ext2BlockAssign_assigned hseparate hserves.tmp1 h
  obtain ⟨htmp1, hblock, htmp2⟩ := ext2BlockAssign_control hserves.tmp1 h
  exact hset.serves hseparate hserves htmp1 hblock htmp2

/-- **Reading back an assigned pointer**: through the same control `ext2BlockFetch` returns the new value at the index
and the old value at every other index. The buffers of the control are coherent, the second one if it does not hold
the block that is written. -/
theorem ext2BlockFetch_assign (ext2 : Ext2) (ino : Ext2Inode) (inodeNum : UInt32)
    (control : Ext2LookupControl) (curr : Nat) (val : UInt32) (htmp1 : Coherent ext2 control.tmp1Block control.tmp1)
    (htmp2 : Coherent ext2 control.tmp2Block control.tmp2) (hdistinct : Distinct ext2 ino)
    {block : UInt32} {rest : List UInt32} (hfound : ext2.found = block :: rest)
    (hunused : Unused ext2 ino block) (hcurr : curr < 12 + ext2.perBlock) : ∃ ext2' ino' control',
      ext2BlockAssign ext2 ino inodeNum control curr val = .ok (ext2', ino', control') ∧
      (∃ c, ext2BlockFetch ext2' ino' control' curr = .ok (val, c)) ∧
      (∀ other, other ≠ curr → other < 12 + ext2.perBlock + ext2.perBlock * ext2.perBlock →
        ∃ v c c', ext2BlockFetch ext2 ino control other = .ok (v, c) ∧
          ext2BlockFetch ext2' ino' control' other = .ok (v, c')) ∧ Coherent ext2' control'.tmp1Block control'.tmp1 ∧
      (curr < 12 ∨ control.tmp2Block ≠ ino'.blocks 12 → Coherent ext2' control'.tmp2Block control'.tmp2) := by
  have hserves : Serves ext2 ino control := ⟨htmp1, fun _ _ _ => htmp2⟩
  have hhead : ∀ b, ext2.found.head? = some b → Unused ext2 ino b := by
    intro b hb
    rw [hfound, List.head?_cons, Option.some.injEq] at hb
    exact hb ▸ hunused
  obtain ⟨ext2', ino', control', h⟩ := ext2BlockAssign_isOk ino inodeNum control val hcurr (by simp [hfound])
  have hseparate := hdistinct.separate hhead
  have hset := ext2BlockAssign_assigned hseparate htmp1 h
  have hserves' := ext2BlockAssign_serves hserves hseparate h
  obtain ⟨htmp1', hblock, hbuf⟩ := ext2BlockAssign_control htmp1 h
  have hcap := capacity_congr hset.blockSize
  refine ⟨ext2', ino', control', h, ?_, fun other hne hother => ?_, htmp1', fun hkept => ?_⟩
  · have hlt : curr < ext2'.capacity := by
      rw [hcap, capacity]
      omega
    have hval : blockAt ext2' ino' curr = val := hset.assigned
    obtain ⟨c, hc, -⟩ := ext2BlockFetch_of_lt hserves' hlt
    exact ⟨c, by rw [hc, hval]⟩
  · have hsame : blockAt ext2' ino' other = blockAt ext2 ino other :=
      hset.other (.data other) (by simpa using hne) (by simp)
    have hlt : other < ext2'.capacity := by rwa [hcap]
    obtain ⟨c, hc, -⟩ := ext2BlockFetch_of_lt hserves hother
    obtain ⟨c', hc', -⟩ := ext2BlockFetch_of_lt hserves' hlt
    exact ⟨_, c, c', hc, by rw [hc', hsame]⟩
  · rw [hblock, hbuf]
    intro hne j hj
    rw [ext2BlockAssign_disk h hkept]
    exact htmp2 hne j (by rwa [← hset.blockSize])

end Assign

/-! ## A file system with one indirect block -/

def blankExt2 : Ext2 := ⟨1024, fun _ _ => 0, fun _ => ⟨0, 0, 0, fun _ => 0⟩, [7], fun _ => 0⟩

section
variable (block)

def indirectInode : Ext2Inode := ⟨0, 0, 0, fun i => if i = 12 then block else 0⟩

theorem pointer_indirectInode (s : Slot) :
    pointer blankExt2 (indirectInode block) s = if s = .single then block else 0 := by
  have hzero : ∀ b i, indirect blankExt2 b i = 0 := by
    intro b i
    by_cases hb : b = 0
    · rw [hb, indirect_zero]
    · rw [indirect_of_ne hb]
      exact load32_zeros fun _ _ => rfl
  cases s with
  | single | double => rfl
  | child i => exact hzero _ _
  | data i =>
    simp only [pointer, blockAt, hzero, indirectInode, ite_self, reduceCtorEq, if_false]
    by_cases hi : i < 12
    · rw [if_pos hi, if_neg (by omega)]
    · rw [if_neg hi]

theorem distinct_indirectInode : Distinct blankExt2 (indirectInode block) := by
  intro s t _ _ hne heq
  simp only [pointer_indirectInode] at hne heq
  by_cases hs : s = .single
  · by_cases ht : t = .single
    · rw [hs, ht]
    · rw [if_neg ht] at heq
      exact absurd heq hne
  · exact absurd (if_neg hs) hne

end

theorem unused_indirectInode (h : block ≠ 7) : Unused blankExt2 (indirectInode block) 7 := by
  refine ⟨by decide, fun s _ => ?_⟩
  rw [pointer_indirectInode]
  by_cases hs : s = .single
  · rwa [if_pos hs]
  · rw [if_neg hs]
    decide

theorem ext2BlockFetch_assign_blankExt2 : ∃ ext2' ino' control',
      ext2BlockAssign blankExt2 (indirectInode 0) 2 (ext2BlockFetchInit blankExt2) 13 9 =
        .ok (ext2', ino', control') ∧ ∃ c, ext2BlockFetch ext2' ino' control' 13 = .ok (9, c) := by
  obtain ⟨ext2', ino', control', h, hfetch, -⟩ :=
    ext2BlockFetch_assign blankExt2 (indirectInode 0) 2 (ext2BlockFetchInit blankExt2) 13 9
      (fun h => absurd rfl h) (fun h => absurd rfl h) (distinct_indirectInode 0) rfl
      (unused_indirectInode (by decide)) (by decide)
  exact ⟨ext2', ino', control', h, hfetch⟩

/-- The second buffer holds the singly indirect block, as it stands on the disk. After an assignment it holds
what the block held before. -/
theorem ext2BlockAssign_stale : ∃ control : Ext2LookupControl,
      Coherent blankExt2 control.tmp1Block control.tmp1 ∧ Coherent blankExt2 control.tmp2Block control.tmp2 ∧
      Distinct blankExt2 (indirectInode 5) ∧ blankExt2.found = [7] ∧ Unused blankExt2 (indirectInode 5) 7 ∧
      ∃ ext2' ino' control',
        ext2BlockAssign blankExt2 (indirectInode 5) 2 control 12 9 = .ok (ext2', ino', control') ∧
        ¬ Coherent ext2' control'.tmp2Block control'.tmp2 := by
  refine ⟨⟨fun _ => 0, fun _ => 0, 0, 5⟩, fun h => absurd rfl h, fun _ _ _ => rfl, distinct_indirectInode 5, rfl,
    unused_indirectInode (by decide), _, _, _, ext2BlockAssign_singly (by decide) (by decide) (by decide), ?_⟩
  intro hcoh
  have hbyte := hcoh (by decide) 0 (by decide)
  exact absurd hbyte (by decide +kernel)

end CoreX.Ext2

import CoreX.Ext2.Assign

/-!
# Several lookup controls on one inode

Every open descriptor of a file has a lookup control of its own, named by `ι`. `latest` is what they should agree on:
the value that was assigned last at each index, or what the inode pointed to at first. An assignment writes the
indirect block and the buffer of its own control; another control that has the block in its first buffer keeps it as
it was.
-/

namespace CoreX.Ext2

open Memory Run Function Option

structure Shared (ι : Type) where
  ext2 : Ext2
  ino : Ext2Inode
  control : ι → Ext2LookupControl
  latest : Nat → UInt32

inductive BlockCall (ι : Type) where
  | fetch (i : ι) (curr : Nat)
  | assign (i : ι) (curr : Nat) (val : UInt32)

section Shared
variable {ι : Type} [DecidableEq ι]

def Shared.step (inodeNum : UInt32) (s : Shared ι) : BlockCall ι → Option (Shared ι)
  | .fetch i curr =>
    match ext2BlockFetch s.ext2 s.ino (s.control i) curr with
    | .ok (_, control) => some { s with control := Function.update s.control i control }
    | .error _ => none
  | .assign i curr val =>
    match ext2BlockAssign s.ext2 s.ino inodeNum (s.control i) curr val with
    | .ok (ext2, ino, control) =>
      some ⟨ext2, ino, Function.update s.control i control, Function.update s.latest curr val⟩
    | .error _ => none

/-- The control does not have the indirect block of the index. -/
def Shared.Lacks (s : Shared ι) (i : ι) (curr : Nat) : Prop :=
  curr < 12 ∨ s.ino.blocks 12 = 0 ∨ (s.control i).tmp1Block ≠ s.ino.blocks 12

/-- No other control has the indirect block that an assignment changes. -/
def BlockCall.Alone (s : Shared ι) : BlockCall ι → Prop
  | .fetch _ _ => True
  | .assign i curr _ => ∀ j, j ≠ i → s.Lacks j curr

/-- All controls answer for the inode and hold blocks of this inode only, and the inode points where the last
assignments say. -/
structure Shared.Valid (s : Shared ι) : Prop where
  serves : ∀ i, Serves s.ext2 s.ino (s.control i)
  holds : ∀ i, Holds s.ext2 s.ino (s.control i)
  separate : Separate s.ext2 s.ino
  latest : ∀ curr, blockAt s.ext2 s.ino curr = s.latest curr

variable {ext2 ext2' : Ext2} {ino ino' : Ext2Inode} {inodeNum : UInt32} {control control' : Ext2LookupControl}
  {curr : Nat} {val : UInt32}

section
variable (h : Assigned ext2 ino inodeNum curr val ext2' ino')
include h

theorem Assigned.perBlock_eq : ext2'.perBlock = ext2.perBlock := by rw [perBlock, perBlock, h.blockSize]

theorem Assigned.apart_of {block : UInt32} (hapart : Apart ext2 ino block) : Apart ext2' ino' block := by
  have hdouble : ino'.blocks 13 = ino.blocks 13 := h.other .double (by simp) (by simp)
  refine ⟨?_, fun i hi => ?_⟩
  · rw [hdouble]
    exact hapart.double
  · rw [h.other (.child i) (by simp) (by simp)]
    exact hapart.child i (h.perBlock_eq ▸ hi)

theorem Assigned.separate (hsep : Separate ext2 ino) : Separate ext2' ino' := by
  refine ⟨h.apart_of (h.apart hsep), fun hzero b hb => ?_⟩
  rcases h.single with ⟨hsame, hfound⟩ | ⟨hold, hnew⟩
  · rw [hfound] at hb
    obtain ⟨hne, hapart⟩ := hsep.found (hsame.symm.trans hzero) b hb
    exact ⟨hne, h.apart_of hapart⟩
  · -- the block that was found is not `0`
    exact absurd hzero (hsep.found hold (pointer ext2' ino' .single) (by rw [hnew, List.head?_cons])).1

theorem Assigned.holds (hholds : Holds ext2 ino control) : Holds ext2' ino' control := by
  have hdouble : ino'.blocks 13 = ino.blocks 13 := h.other .double (by simp) (by simp)
  refine ⟨?_, ?_⟩
  · rcases hholds.tmp1 with hzero | hsingle | hdouble'
    · exact .inl hzero
    · rcases h.single with ⟨hsame, -⟩ | ⟨hold, -⟩
      · exact .inr (.inl (hsingle.trans hsame.symm))
      · exact .inl (hsingle.trans hold)
    · exact .inr (.inr (hdouble'.trans hdouble.symm))
  · rcases hholds.tmp2 with hzero | ⟨i, hi, hchild⟩
    · exact .inl hzero
    · refine .inr ⟨i, h.perBlock_eq ▸ hi, ?_⟩
      rw [hchild, h.other (.child i) (by simp) (by simp)]

end

theorem ext2BlockAssign_tmp1Block
    (h : ext2BlockAssign ext2 ino inodeNum control curr val = .ok (ext2', ino', control')) :
    (control'.tmp1Block = control.tmp1Block ∨ control'.tmp1Block = ino'.blocks 12) ∧
      control'.tmp2Block = control.tmp2Block := by
  cases ext2BlockAssign_result h with
  | direct => exact ⟨.inl rfl, rfl⟩
  | singly => exact ⟨.inr (fetchTmp1_tmp1Block _), fetchTmp1_tmp2Block _⟩
  | fresh =>
    rw [setBlock_self]
    exact ⟨.inr (fetchTmp1_tmp1Block _), fetchTmp1_tmp2Block _⟩

theorem ext2BlockAssign_holds (hholds : Holds ext2 ino control)
    (hset : Assigned ext2 ino inodeNum curr val ext2' ino')
    (h : ext2BlockAssign ext2 ino inodeNum control curr val = .ok (ext2', ino', control')) :
    Holds ext2' ino' control' := by
  have hholds' := hset.holds hholds
  obtain ⟨htmp1, htmp2⟩ := ext2BlockAssign_tmp1Block h
  refine ⟨?_, ?_⟩
  · rcases htmp1 with hkept | hsingle
    · rw [hkept]
      exact hholds'.tmp1
    · exact .inr (.inl hsingle)
  · rw [htmp2]
    exact hholds'.tmp2

theorem serves_other {other : Ext2LookupControl} (hsep : Separate ext2 ino)
    (hset : Assigned ext2 ino inodeNum curr val ext2' ino') (hserves : Serves ext2 ino other)
    (h : ext2BlockAssign ext2 ino inodeNum control curr val = .ok (ext2', ino', control'))
    (hother : curr < 12 ∨ other.tmp1Block = 0 ∨ other.tmp1Block ≠ ino'.blocks 12) : Serves ext2' ino' other := by
  refine hset.serves hsep hserves ?_ rfl rfl
  intro hne j hj
  have hkept : curr < 12 ∨ other.tmp1Block ≠ ino'.blocks 12 := hother.imp_right (·.resolve_left hne)
  rw [ext2BlockAssign_disk h hkept]
  exact hserves.tmp1 hne j (by rwa [← hset.blockSize])

/-! ## Runs of calls -/

variable {s s' : Shared ι} {i : ι}

theorem Shared.step_fetch_eq_some (h : s.step inodeNum (.fetch i curr) = some s') :
    ∃ v control', ext2BlockFetch s.ext2 s.ino (s.control i) curr = .ok (v, control') ∧
      s' = { s with control := update s.control i control' } := by
  simp only [Shared.step] at h
  split at h
  · next v control' hfetch => exact ⟨v, control', hfetch, (some.inj h).symm⟩
  · cases h

theorem Shared.step_assign_eq_some (h : s.step inodeNum (.assign i curr val) = some s') : ∃ ext2' ino' control',
      ext2BlockAssign s.ext2 s.ino inodeNum (s.control i) curr val = .ok (ext2', ino', control') ∧
      s' = ⟨ext2', ino', update s.control i control', update s.latest curr val⟩ := by
  simp only [Shared.step] at h
  split at h
  · next ext2' ino' control' hassign => exact ⟨ext2', ino', control', hassign, (some.inj h).symm⟩
  · cases h

theorem Shared.Valid.fetch (hs : s.Valid) (h : s.step inodeNum (.fetch i curr) = some s') : s'.Valid := by
  obtain ⟨v, control', hfetch, rfl⟩ := step_fetch_eq_some h
  rcases ext2BlockFetch_spec (hs.serves i) curr with ⟨c, hc, hserves, hholds⟩ | ⟨-, fault, -, hfault⟩
  · obtain ⟨-, rfl⟩ := Prod.mk.inj (Except.ok.inj (hfetch.symm.trans hc))
    refine ⟨?_, ?_, hs.separate, hs.latest⟩
    · rw [forall_update_iff s.control fun _ control => Serves s.ext2 s.ino control]
      exact ⟨hserves, fun j _ => hs.serves j⟩
    · rw [forall_update_iff s.control fun _ control => Holds s.ext2 s.ino control]
      exact ⟨hholds (hs.holds i), fun j _ => hs.holds j⟩
  · rw [hfetch] at hfault
    cases hfault

theorem Assigned.blockAt_eq {latest : Nat → UInt32} (h : Assigned ext2 ino inodeNum curr val ext2' ino')
    (hlatest : ∀ i, blockAt ext2 ino i = latest i) (i : Nat) : blockAt ext2' ino' i = update latest curr val i := by
  by_cases hi : i = curr
  · rw [hi, update_self]
    exact h.assigned
  · rw [update_of_ne hi, ← hlatest]
    exact h.other (.data i) (by simpa using hi) (by simp)

omit [DecidableEq ι] in
theorem Shared.Valid.tmp1Block_ne (hs : s.Valid) {j : ι}
    (hassigned : Assigned s.ext2 s.ino inodeNum curr val ext2' ino') (hlacks : s.Lacks j curr) :
    curr < 12 ∨ (s.control j).tmp1Block = 0 ∨ (s.control j).tmp1Block ≠ ino'.blocks 12 := by
  rcases hlacks with hdirect | hlacks
  · exact .inl hdirect
  refine .inr ?_
  rcases hassigned.single with ⟨hsame, -⟩ | ⟨hzero, -⟩
  · have hsame : ino'.blocks 12 = s.ino.blocks 12 := hsame
    rw [hsame]
    rcases hlacks with hzero | hne
    · rw [hzero]
      exact em _
    · exact .inr hne
  · -- the block is new, and the control holds nothing or the doubly indirect block
    rcases (hs.holds j).tmp1 with hheld | hheld | hheld
    · exact .inl hheld
    · exact .inl (hheld.trans hzero)
    · by_cases h13 : s.ino.blocks 13 = 0
      · exact .inl (hheld.trans h13)
      · exact .inr (hheld ▸ (hassigned.apart hs.separate).double h13)

theorem Shared.Valid.assign (hs : s.Valid) (halone : (BlockCall.assign i curr val).Alone s)
    (h : s.step inodeNum (.assign i curr val) = some s') : s'.Valid := by
  obtain ⟨ext2', ino', control', hassign, rfl⟩ := step_assign_eq_some h
  have hset := ext2BlockAssign_assigned hs.separate (hs.serves i).tmp1 hassign
  refine ⟨?_, ?_, hset.separate hs.separate, hset.blockAt_eq hs.latest⟩
  · rw [forall_update_iff s.control fun _ control => Serves ext2' ino' control]
    refine ⟨ext2BlockAssign_serves (hs.serves i) hs.separate hassign, fun j hj => ?_⟩
    exact serves_other hs.separate hset (hs.serves j) hassign (hs.tmp1Block_ne hset (halone j hj))
  · rw [forall_update_iff s.control fun _ control => Holds ext2' ino' control]
    exact ⟨ext2BlockAssign_holds (hs.holds i) hset hassign, fun j _ => hset.holds (hs.holds j)⟩

theorem Shared.Valid.step (hs : s.Valid) {call : BlockCall ι} (halone : call.Alone s)
    (h : s.step inodeNum call = some s') : s'.Valid := by
  cases call with
  | fetch i curr => exact hs.fetch h
  | assign i curr val => exact hs.assign halone h

theorem ext2BlockFetch_held (hserves : Serves ext2 ino control) (h12 : ino.blocks 12 ≠ 0)
    (hheld : control.tmp1Block = ino.blocks 12) (hsize : ext2'.blockSize = ext2.blockSize)
    (hsingle : ino'.blocks 12 = ino.blocks 12) (hcurr : 12 ≤ curr) (hcurr' : curr < 12 + ext2.perBlock) :
    ext2BlockFetch ext2' ino' control curr = .ok (blockAt ext2 ino curr, control) := by
  have hp : ext2'.blockSize / 4 = ext2.perBlock := by rw [hsize, perBlock]
  have hkept : fetchTmp1 ext2' control (ino.blocks 12) = control := if_neg (not_not_intro hheld)
  have hcoh := hserves.tmp1
  rw [hheld] at hcoh
  have hget : tmpGet ext2' control.tmp1 (curr - 12) = tmpGet ext2 control.tmp1 (curr - 12) := by
    rw [tmpGet, tmpGet, hsize]
  simp only [ext2BlockFetch, hp]
  rw [if_neg (by omega), if_pos hcurr', hsingle, if_neg h12, hkept, hget,
    tmpGet_of_coherent hcoh h12 (by omega), blockAt_singly hcurr hcurr']
  rfl

theorem fetch_other_iff (hs : s.Valid) {j : ι} (hj : j ≠ i) (hcurr : curr < 12 + s.ext2.perBlock)
    (h : s.step inodeNum (.assign i curr val) = some s') :
    (∃ control', ext2BlockFetch s'.ext2 s'.ino (s'.control j) curr = .ok (val, control')) ↔
      s.Lacks j curr ∨ s.latest curr = val := by
  obtain ⟨ext2', ino', control', hassign, rfl⟩ := Shared.step_assign_eq_some h
  have hset := ext2BlockAssign_assigned hs.separate (hs.serves i).tmp1 hassign
  have hcontrol : update s.control i control' j = s.control j := update_of_ne hj ..
  simp only [hcontrol]
  by_cases hlacks : s.Lacks j curr
  · have hserves := serves_other hs.separate hset (hs.serves j) hassign (hs.tmp1Block_ne hset hlacks)
    have hreach : curr < ext2'.capacity := by
      rw [capacity_congr hset.blockSize, capacity]
      omega
    obtain ⟨c, hfetch, -⟩ := ext2BlockFetch_of_lt hserves hreach
    have hval : blockAt ext2' ino' curr = val := hset.assigned
    exact iff_of_true ⟨c, by rw [hfetch, hval]⟩ (.inl hlacks)
  · obtain ⟨hdirect, h12, hheld⟩ : ¬ curr < 12 ∧ s.ino.blocks 12 ≠ 0 ∧ (s.control j).tmp1Block = s.ino.blocks 12 := by
      simpa only [Shared.Lacks, not_or, not_not] using hlacks
    have hsingle : ino'.blocks 12 = s.ino.blocks 12 := by
      rcases hset.single with ⟨hsame, -⟩ | ⟨hzero, -⟩
      · exact hsame
      · exact absurd hzero h12
    rw [ext2BlockFetch_held (hs.serves j) h12 hheld hset.blockSize hsingle (by omega) hcurr, hs.latest]
    constructor
    · rintro ⟨c, hc⟩
      exact .inr (Prod.mk.inj (Except.ok.inj hc)).1
    · intro hsame
      exact ⟨s.control j, by rw [hsame.resolve_left hlacks]⟩

/-- **Controls that agree.** If no assignment to an indirect pointer found the indirect block in the buffer of another
control, a lookup through any control returns the value that was assigned last. The next assignment is seen through
another control if and only if that one lacks the block, or the value is the old one. -/
theorem ext2BlockFetch_latest (inodeNum : UInt32) {s s' : Shared ι} (hs : s.Valid) {calls : List (BlockCall ι)}
    (halone : Along (Shared.step inodeNum) (fun s call => call.Alone s) s calls)
    (hrun : run (Shared.step inodeNum) s calls = some s') : (∀ i curr, curr < s'.ext2.capacity →
      ∃ control', ext2BlockFetch s'.ext2 s'.ino (s'.control i) curr = .ok (s'.latest curr, control')) ∧
    (∀ i j, j ≠ i → ∀ curr val s'', curr < 12 + s'.ext2.perBlock → s'.step inodeNum (.assign i curr val) = some s'' →
      ((∃ control', ext2BlockFetch s''.ext2 s''.ino (s''.control j) curr = .ok (val, control')) ↔
        s'.Lacks j curr ∨ s'.latest curr = val)) := by
  have hs' : s'.Valid := run_invariant_along (fun _ _ _ hs halone h => hs.step halone h) hs halone hrun
  refine ⟨fun i curr hcurr => ?_, fun i j hj curr val s'' hcurr hstep => fetch_other_iff hs' hj hcurr hstep⟩
  obtain ⟨control', hfetch, -⟩ := ext2BlockFetch_of_lt (hs'.serves i) hcurr
  exact ⟨control', by rw [hfetch, hs'.latest]⟩

def Shared.opened (ext2 : Ext2) (ino : Ext2Inode) : Shared ι :=
  ⟨ext2, ino, fun _ => ext2BlockFetchInit ext2, blockAt ext2 ino⟩

omit [DecidableEq ι] in
theorem Shared.opened_valid (hseparate : Separate ext2 ino) : (Shared.opened ext2 ino : Shared ι).Valid where
  serves _ := (ext2BlockFetchInit_serves ext2 ino).1
  holds _ := (ext2BlockFetchInit_serves ext2 ino).2
  separate := hseparate
  latest _ := rfl

end Shared

/-! ## Two descriptors of a file with one indirect block -/

theorem separate_indirectInode : Separate blankExt2 (indirectInode 5) := by
  refine (distinct_indirectInode 5).separate fun b hb => ?_
  obtain rfl := some.inj hb
  exact unused_indirectInode (by decide)

/-- An assignment through the first descriptor is read through the second one, which has not been used before. -/
theorem ext2BlockFetch_latest_blankExt2 :
    ∃ s' : Shared Bool, run (Shared.step 2) (.opened blankExt2 (indirectInode 5)) [.assign true 12 9] = some s' ∧
      s'.latest 12 = 9 ∧
      ∃ control', ext2BlockFetch s'.ext2 s'.ino (s'.control false) 12 = .ok (s'.latest 12, control') := by
  have halone : Along (Shared.step 2) (fun s call => call.Alone s)
      (.opened blankExt2 (indirectInode 5) : Shared Bool) [.assign true 12 9] :=
    ⟨fun j _ => .inr (.inr (show (0 : UInt32) ≠ 5 by decide)), fun _ _ => trivial⟩
  refine ⟨_, rfl, rfl, ?_⟩
  exact (ext2BlockFetch_latest 2 (Shared.opened_valid separate_indirectInode) halone rfl).1 false 12 (by decide)

/-- The second descriptor has read the indirect block before the assignment. A lookup through it returns the old
value. If it then assigns another pointer, its buffer is written to the disk, and the first assignment is lost
there too. -/
theorem ext2BlockFetch_stale : ∃ s' s'' : Shared Bool,
      run (Shared.step 2) (.opened blankExt2 (indirectInode 5)) [.fetch false 12, .assign true 12 9] = some s' ∧
      s'.latest 12 = 9 ∧ (∃ control', ext2BlockFetch s'.ext2 s'.ino (s'.control false) 12 = .ok (0, control')) ∧
      s'.step 2 (.assign false 13 8) = some s'' ∧ s''.latest 12 = 9 ∧ blockAt s''.ext2 s''.ino 12 = 0 :=
  ⟨_, _, rfl, rfl, ⟨_, rfl⟩, rfl, rfl, by decide +kernel⟩

end CoreX.Ext2

import Mathlib.Algebra.Order.BigOperators.Group.Finset
import CoreX.Ext2.Inodes

/-!
# Finding and deleting inodes

`Consistent`: the counters agree with the bitmaps. Both functions keep this, and what `ext2InodeFind` returns was free
(`inodeRun_handsOut`).
-/

namespace CoreX.Ext2

open Finset UInt32 Nat Bits Option

variable {ext2 ext2' : Ext2Groups} {group k g : Nat} {buff : Buf} {free total x : UInt32}
  {groupSuggestion inode : Nat} {s : Ext2Groups × List Nat} {ret : UInt32}

section
variable (ext2 group)

def inodeBits : Nat → BitVec 8 := bits (ext2.disk (ext2.bgdts group).inodeBitmap)

def freeInodesOf : Finset Nat :=
  Bits.clear (inodeBits ext2 group) (8 * ext2.blockSize)

end

/-- The counters agree with the bitmaps. Every bit behind the inodes of a group is set, every group has its
own bitmap and an `i32` number, and every inode has a `u32` number. -/
structure Consistent (ext2 : Ext2Groups) : Prop where
  groups : ext2.blockGroups ≤ 2 ^ 31
  numbers : ext2.blockGroups * ext2.superblock.inodesPerGroup.toNat < 2 ^ 32
  distinct : ∀ g < ext2.blockGroups, ∀ h < ext2.blockGroups,
    (ext2.bgdts g).inodeBitmap = (ext2.bgdts h).inodeBitmap → g = h
  padding : ∀ g < ext2.blockGroups, ∀ k < 8 * ext2.blockSize, ext2.superblock.inodesPerGroup.toNat ≤ k →
    Bits.get (inodeBits ext2 g) k = true
  free : ∀ g < ext2.blockGroups, (ext2.bgdts g).freeInodes.toNat = (freeInodesOf ext2 g).card
  total : ext2.superblock.freeInodes.toNat = ∑ g ∈ range ext2.blockGroups, (freeInodesOf ext2 g).card

theorem Consistent.lt_inodesPerGroup (h : Consistent ext2) (hgroup : group < ext2.blockGroups)
    (hk : k ∈ freeInodesOf ext2 group) : k < ext2.superblock.inodesPerGroup.toNat := by
  obtain ⟨hlt, hclear⟩ := mem_clear.1 hk
  by_contra hle
  have hset := h.padding group hgroup k hlt (by omega)
  exact absurd hset (by simp [hclear])

theorem inodeBitmap_putInodes (g : Nat) :
    ((putInodes ext2 group buff free total).bgdts g).inodeBitmap = (ext2.bgdts g).inodeBitmap := by
  by_cases hg : g = group
  · subst hg
    simp [putInodes]
  · simp [putInodes, hg]

theorem inodeBits_putInodes (h : Consistent ext2) (hgroup : group < ext2.blockGroups) (hg : g < ext2.blockGroups) :
    inodeBits (putInodes ext2 group buff free total) g = if g = group then bits buff else inodeBits ext2 g := by
  rw [inodeBits, inodeBitmap_putInodes]
  by_cases heq : g = group
  · rw [if_pos heq, heq]
    exact congrArg bits (Function.update_self ..)
  · rw [if_neg heq]
    exact congrArg bits (Function.update_of_ne (fun hblock => heq (h.distinct g hg group hgroup hblock)) ..)

theorem Consistent.putInodes (h : Consistent ext2) (hgroup : group < ext2.blockGroups)
    (hpadding : ∀ k < 8 * ext2.blockSize, ext2.superblock.inodesPerGroup.toNat ≤ k → get (bits buff) k = true)
    (hfree : free.toNat = (clear (bits buff) (8 * ext2.blockSize)).card)
    (htotal : total.toNat + (freeInodesOf ext2 group).card = ext2.superblock.freeInodes.toNat + free.toNat) :
    Consistent (putInodes ext2 group buff free total) := by
  have hbits : ∀ g < ext2.blockGroups, inodeBits (Ext2.putInodes ext2 group buff free total) g =
      if g = group then bits buff else inodeBits ext2 g := fun g hg => inodeBits_putInodes h hgroup hg
  have hself : freeInodesOf (Ext2.putInodes ext2 group buff free total) group =
      clear (bits buff) (8 * ext2.blockSize) := by
    rw [freeInodesOf, hbits group hgroup, if_pos rfl]
    rfl
  have hother : ∀ g < ext2.blockGroups, g ≠ group →
      freeInodesOf (Ext2.putInodes ext2 group buff free total) g = freeInodesOf ext2 g := by
    intro g hg hne
    rw [freeInodesOf, hbits g hg, if_neg hne]
    rfl
  refine ⟨h.groups, h.numbers, fun g hg g' hg' => ?_, fun g hg k hk hk' => ?_, fun g hg => ?_, ?_⟩
  · rw [inodeBitmap_putInodes, inodeBitmap_putInodes]
    exact h.distinct g hg g' hg'
  · rw [hbits g hg]
    split_ifs
    · exact hpadding k hk hk'
    · exact h.padding g hg k hk hk'
  · by_cases hne : g = group
    · rw [hne, hself, ← hfree]
      simp [Ext2.putInodes]
    · rw [hother g hg hne, ← h.free g hg]
      simp [Ext2.putInodes, hne]
  · have hsum := sum_add_eq (fun g => (freeInodesOf ext2 g).card)
      (fun g => (freeInodesOf (Ext2.putInodes ext2 group buff free total) g).card) (mem_range.2 hgroup)
      fun g hg hne => congrArg card (hother g (mem_range.1 hg) hne)
    have hold := h.total
    simp only [hself, ← hfree] at hsum
    show total.toNat = ∑ g ∈ range ext2.blockGroups, _
    omega

/-! ## Taking and releasing an inode -/

structure Marked (ext2 : Ext2Groups) (group k : Nat) (value : Bool) (ext2' : Ext2Groups) : Prop where
  consistent : Consistent ext2'
  blockSize : ext2'.blockSize = ext2.blockSize
  blockGroups : ext2'.blockGroups = ext2.blockGroups
  inodesPerGroup : ext2'.superblock.inodesPerGroup = ext2.superblock.inodesPerGroup
  bits : ∀ g < ext2.blockGroups, inodeBits ext2' g =
    if g = group then Bits.put (inodeBits ext2 group) k value else inodeBits ext2 g

theorem Marked.get_eq {value : Bool} (h : Marked ext2 group k value ext2') (hg : g < ext2.blockGroups) (j : Nat) :
    get (inodeBits ext2' g) j = if g = group ∧ j = k then value else get (inodeBits ext2 g) j := by
  rw [h.bits g hg]
  by_cases heq : g = group
  · rw [if_pos heq, get_put, heq]
    simp
  · rw [if_neg heq, if_neg fun hand => heq hand.1]

section
variable (h : Consistent ext2) (hgroup : group < ext2.blockGroups)
include h hgroup

theorem Consistent.card_le : (freeInodesOf ext2 group).card ≤ ext2.superblock.inodesPerGroup.toNat := by
  rw [← card_range ext2.superblock.inodesPerGroup.toNat]
  exact card_le_card fun k hk => mem_range.2 (h.lt_inodesPerGroup hgroup hk)

theorem Consistent.card_le_total : (freeInodesOf ext2 group).card ≤ ext2.superblock.freeInodes.toNat := by
  rw [h.total]
  exact single_le_sum (f := fun g => (freeInodesOf ext2 g).card) (fun _ _ => zero_le _) (mem_range.2 hgroup)

end

theorem toNat_sub_one (h : 0 < x.toNat) : (x - 1).toNat = x.toNat - 1 :=
  UInt32.toNat_sub_of_le _ _ (UInt32.le_iff_toNat_le.2 h)

theorem toNat_add_one (h : x.toNat + 1 < 2 ^ 32) : (x + 1).toNat = x.toNat + 1 := by
  rw [UInt32.toNat_add]
  exact mod_eq_of_lt h

theorem take_marked (h : Consistent ext2) (hgroup : group < ext2.blockGroups) (hk : k ∈ freeInodesOf ext2 group)
    (hbuff : bits buff = put (inodeBits ext2 group) k true) :
    Marked ext2 group k true (putInodes ext2 group buff ((ext2.bgdts group).freeInodes - 1)
      (ext2.superblock.freeInodes - 1)) := by
  have hpos : 0 < (freeInodesOf ext2 group).card := card_pos.2 ⟨k, hk⟩
  have hcount := h.free group hgroup
  have hle := h.card_le_total hgroup
  have hfree : ((ext2.bgdts group).freeInodes - 1).toNat = (freeInodesOf ext2 group).card - 1 := by
    rw [toNat_sub_one (by omega), hcount]
  have htotal : (ext2.superblock.freeInodes - 1).toNat = ext2.superblock.freeInodes.toNat - 1 :=
    toNat_sub_one (by omega)
  have hclear : clear (bits buff) (8 * ext2.blockSize) = (freeInodesOf ext2 group).erase k := by
    rw [hbuff, clear_put_true]
    rfl
  refine ⟨h.putInodes hgroup (fun j hj hj' => ?_) ?_ (by omega), rfl, rfl, rfl, fun g hg => ?_⟩
  · rw [hbuff, get_put]
    split_ifs
    · rfl
    · exact h.padding group hgroup j hj hj'
  · rw [hfree, hclear, card_erase_of_mem hk]
  · rw [inodeBits_putInodes h hgroup hg, hbuff]

section
variable (h : Consistent ext2) (hgroup : group < ext2.blockGroups) (hk : k < ext2.superblock.inodesPerGroup.toNat)
include h hgroup hk

theorem release_marked (hk' : k < 8 * ext2.blockSize) (hset : get (inodeBits ext2 group) k = true)
    (hbuff : bits buff = put (inodeBits ext2 group) k false) :
    Marked ext2 group k false (putInodes ext2 group buff ((ext2.bgdts group).freeInodes + 1)
      (ext2.superblock.freeInodes + 1)) := by
  have hnotMem : k ∉ freeInodesOf ext2 group := fun hmem => by
    have hclear := (mem_clear.1 hmem).2
    exact absurd hset (by simp [hclear])
  have hclear : clear (bits buff) (8 * ext2.blockSize) = insert k (freeInodesOf ext2 group) := by
    rw [hbuff, clear_put_false hk']
    rfl
  -- there is room for one more in the group, and so in the drive
  have hcard : (freeInodesOf ext2 group).card < ext2.superblock.inodesPerGroup.toNat := by
    rw [← card_range ext2.superblock.inodesPerGroup.toNat]
    refine card_lt_card (ssubset_iff_of_subset ?_ |>.2 ⟨k, mem_range.2 hk, hnotMem⟩)
    exact fun j hj => mem_range.2 (h.lt_inodesPerGroup hgroup hj)
  have hsum : ext2.superblock.freeInodes.toNat < ext2.blockGroups * ext2.superblock.inodesPerGroup.toNat := by
    calc ext2.superblock.freeInodes.toNat = ∑ g ∈ range ext2.blockGroups, (freeInodesOf ext2 g).card := h.total
      _ < ∑ _g ∈ range ext2.blockGroups, ext2.superblock.inodesPerGroup.toNat :=
        sum_lt_sum (fun g hg => h.card_le (mem_range.1 hg)) ⟨group, mem_range.2 hgroup, hcard⟩
      _ = ext2.blockGroups * ext2.superblock.inodesPerGroup.toNat := by simp
  have hnumbers := h.numbers
  have hcount := h.free group hgroup
  have hipg := ext2.superblock.inodesPerGroup.toNat_lt
  have hfree : ((ext2.bgdts group).freeInodes + 1).toNat = (freeInodesOf ext2 group).card + 1 := by
    rw [toNat_add_one (by omega), hcount]
  have htotal : (ext2.superblock.freeInodes + 1).toNat = ext2.superblock.freeInodes.toNat + 1 :=
    toNat_add_one (by omega)
  refine ⟨h.putInodes hgroup (fun j hj hj' => ?_) ?_ (by omega), rfl, rfl, rfl, fun g hg => ?_⟩
  · rw [hbuff, get_put, if_neg (by omega)]
    exact h.padding group hgroup j hj hj'
  · rw [hfree, hclear, card_insert_of_notMem hnotMem]
  · rw [inodeBits_putInodes h hgroup hg, hbuff]

/-! ## `ext2InodeFind` -/

def Seen (ext2 : Ext2Groups) (group k : Nat) : Prop :=
  k ∈ freeInodesOf ext2 group ∧ firstIndex ext2 group ≤ k ∧
    ¬ Hidden (inodeBits ext2 group) (firstIndex ext2 group) k

structure Found (ext2 : Ext2Groups) (group k : Nat) (ret : UInt32) (ext2' : Ext2Groups) : Prop where
  group_lt : group < ext2.blockGroups
  seen : Seen ext2 group k
  number : ret.toNat = group * ext2.superblock.inodesPerGroup.toNat + k + 1
  marked : Marked ext2 group k true ext2'

theorem Consistent.number_lt : group * ext2.superblock.inodesPerGroup.toNat + k + 1 < 2 ^ 32 := by
  have hnumbers := h.numbers
  have hmul : (group + 1) * ext2.superblock.inodesPerGroup.toNat ≤
      ext2.blockGroups * ext2.superblock.inodesPerGroup.toNat := mul_le_mul_right _ hgroup
  rw [succ_mul] at hmul
  omega

theorem toNat_number : (ofNat group * ext2.superblock.inodesPerGroup + ofNat k + 1).toNat =
      group * ext2.superblock.inodesPerGroup.toNat + k + 1 := by
  have hgroups := h.groups
  have hlt := h.number_lt hgroup hk
  have hmul : (ofNat group * ext2.superblock.inodesPerGroup).toNat =
      group * ext2.superblock.inodesPerGroup.toNat := by
    rw [UInt32.toNat_mul, UInt32.toNat_ofNat_of_lt' (by simp only [UInt32.size]; omega)]
    exact mod_eq_of_lt (by omega)
  have hadd : (ofNat group * ext2.superblock.inodesPerGroup + ofNat k).toNat =
      group * ext2.superblock.inodesPerGroup.toNat + k := by
    rw [UInt32.toNat_add, hmul, UInt32.toNat_ofNat_of_lt' (by simp only [UInt32.size]; omega)]
    exact mod_eq_of_lt (by omega)
  rw [toNat_add_one (by omega), hadd]

end

theorem firstIndex_lt (ext2 : Ext2Groups) (group : Nat) : firstIndex ext2 group < 2 ^ 32 := by
  rw [firstIndex]
  split_ifs
  · exact ext2.superblock.firstInode.toNat_lt
  · decide

theorem ext2InodeFindL_spec (h : Consistent ext2) (hgroup : group < ext2.blockGroups) :
    (ext2InodeFindL ext2 group = .ok (0, ext2) ∧ ∀ k, ¬ Seen ext2 group k) ∨
      ∃ k ret ext2', ext2InodeFindL ext2 group = .ok (ret, ext2') ∧ ret ≠ 0 ∧ Found ext2 group k ret ext2' := by
  have hcount := h.free group hgroup
  rw [ext2InodeFindL, if_neg (by omega)]
  by_cases hnone : (ext2.bgdts group).freeInodes < 1
  · refine .inl ⟨if_pos hnone, fun k hseen => ?_⟩
    have hzero : (ext2.bgdts group).freeInodes.toNat < 1 := lt_iff_toNat_lt.1 hnone
    have hpos : 0 < (freeInodesOf ext2 group).card := card_pos.2 ⟨k, hseen.1⟩
    omega
  simp only
  rw [if_neg hnone]
  set buff := ext2.disk (ext2.bgdts group).inodeBitmap with hbuff
  have hfree : ∀ k < 8 * ext2.blockSize, get (bits buff) k = false → k ∈ freeInodesOf ext2 group :=
    fun k hk hclear => mem_clear.2 ⟨hk, hclear⟩
  have hfirst := firstIndex_lt ext2 group
  have hipg := ext2.superblock.inodesPerGroup.toNat_lt
  have hlt : ∀ k < 8 * (firstIndex ext2 group / 8 + (ext2.blockSize - firstIndex ext2 group / 8)),
      get (bits buff) k = false → k < 2 ^ 32 := by
    intro k hk hclear
    by_cases hk' : k < 8 * ext2.blockSize
    · exact (h.lt_inodesPerGroup hgroup (hfree k hk' hclear)).trans hipg
    · omega
  rcases findLoop_spec hlt (le_refl _) with ⟨hzero, hall⟩ | ⟨k, hret, hne, hsmall, hle, hk, hclear, hseen⟩
  · refine .inl ⟨by rw [hzero]; rfl, fun k hseen => ?_⟩
    obtain ⟨hmem, hle, hnot⟩ := hseen
    obtain ⟨hk, hclear⟩ := mem_clear.1 hmem
    exact hnot (hall k hle (by omega) (by omega) hclear)
  · have hmem := hfree k (by omega) hclear
    have hk' := h.lt_inodesPerGroup hgroup hmem
    have htoNat : (ofNat k).toNat = k := toNat_ofNat_of_lt' hsmall
    have hret' : ofNat k ≠ 0 := by
      rw [Ne, ← UInt32.toNat_inj, htoNat]
      exact hne
    refine .inr ⟨k, _, _, by rw [hret, if_pos hret'], ?_, hgroup, ⟨hmem, hle, hseen⟩, toNat_number h hgroup hk', ?_⟩
    · rw [Ne, ← UInt32.toNat_inj, toNat_number h hgroup hk']
      exact succ_ne_zero _
    · rw [htoNat]
      exact take_marked h hgroup hmem (bits_or_bitMask buff k)

theorem findOther_spec (h : Consistent ext2) (groupSuggestion : Nat) {is : List Nat}
    (his : ∀ i ∈ is, i < ext2.blockGroups) : (findOther ext2 groupSuggestion is = .error .panic ∧
      ∀ i ∈ is, i ≠ groupSuggestion → ∀ k, ¬ Seen ext2 i k) ∨ ∃ group k ret ext2',
        findOther ext2 groupSuggestion is = .ok (ret, ext2') ∧ Found ext2 group k ret ext2' := by
  induction is with
  | nil => exact .inl ⟨rfl, by simp⟩
  | cons i is ih =>
    obtain ⟨hi, his⟩ := List.forall_mem_cons.1 his
    have hrest (hnone : i ≠ groupSuggestion → ∀ k, ¬ Seen ext2 i k) :=
      (ih his).imp_left fun h => And.intro h.1 (List.forall_mem_cons.2 ⟨hnone, h.2⟩)
    rw [findOther]
    by_cases hsame : i = groupSuggestion
    · rw [if_pos hsame]
      exact hrest fun hne => absurd hsame hne
    · rw [if_neg hsame]
      rcases ext2InodeFindL_spec h hi with ⟨hzero, hnone⟩ | ⟨k, ret, ext2', hok, hne, hfound⟩
      · rw [hzero, ok_bind]
        simp only
        rw [if_neg (by simp)]
        exact hrest fun _ => hnone
      · refine .inr ⟨i, k, ret, ext2', ?_, hfound⟩
        rw [hok, ok_bind]
        exact if_pos hne

theorem ext2InodeFind_spec (h : Consistent ext2) (hsuggestion : groupSuggestion < ext2.blockGroups) :
    (ext2InodeFind ext2 groupSuggestion = .error .panic ∧ ∀ group < ext2.blockGroups, ∀ k, ¬ Seen ext2 group k) ∨
      ∃ group k ret ext2', ext2InodeFind ext2 groupSuggestion = .ok (ret, ext2') ∧ Found ext2 group k ret ext2' := by
  rw [ext2InodeFind]
  by_cases hfull : ext2.superblock.freeInodes < 1
  · refine .inl ⟨if_pos hfull, fun group hgroup k hseen => ?_⟩
    have hzero : ext2.superblock.freeInodes.toNat < 1 := lt_iff_toNat_lt.1 hfull
    have hpos : 0 < (freeInodesOf ext2 group).card := card_pos.2 ⟨k, hseen.1⟩
    have hle := h.card_le_total hgroup
    omega
  rw [if_neg hfull]
  rcases ext2InodeFindL_spec h hsuggestion with ⟨hzero, hnone⟩ | ⟨k, ret, ext2', hok, hne, hfound⟩
  · rw [hzero, ok_bind]
    simp only
    rw [if_neg (by simp)]
    rcases findOther_spec h groupSuggestion fun i hi => List.mem_range.1 hi with ⟨hpanic, hnone'⟩ | hfound
    · refine .inl ⟨hpanic, fun group hgroup => ?_⟩
      by_cases hsame : group = groupSuggestion
      · rw [hsame]
        exact hnone
      · exact hnone' group (List.mem_range.2 hgroup) hsame
    · exact .inr hfound
  · refine .inr ⟨groupSuggestion, k, ret, ext2', ?_, hfound⟩
    rw [hok, ok_bind]
    exact if_pos hne

theorem hidden_iff {first : Nat} (hk : k ∈ freeInodesOf ext2 group) :
    Hidden (inodeBits ext2 group) first k ↔ k < 8 ∧ first = 0 ∧ 0 ∈ freeInodesOf ext2 group := by
  have hlt := (mem_clear.1 hk).1
  rw [Hidden, freeInodesOf, mem_clear, and_iff_right (show 0 < 8 * ext2.blockSize by omega)]

/-- **When `ext2InodeFind` returns**: exactly if some group has a free inode that the scan of it sees. A free
inode is not seen if its index is below `8` and the inode with index `0` of the same group is free, unless
the scan of the group starts behind that. -/
theorem ext2InodeFind_returns_iff (ext2 : Ext2Groups) (groupSuggestion : Nat) (h : Consistent ext2)
    (hsuggestion : groupSuggestion < ext2.blockGroups) :
    (∃ ret ext2', ext2InodeFind ext2 groupSuggestion = .ok (ret, ext2')) ↔
      ∃ group < ext2.blockGroups, ∃ k ∈ freeInodesOf ext2 group, firstIndex ext2 group ≤ k ∧
        ¬ (k < 8 ∧ firstIndex ext2 group = 0 ∧ 0 ∈ freeInodesOf ext2 group) := by
  rcases ext2InodeFind_spec h hsuggestion with ⟨hpanic, hnone⟩ | ⟨group, k, ret, ext2', hok, hfound⟩
  · constructor
    · rintro ⟨ret, ext2', hok⟩
      exact absurd (hok.symm.trans hpanic) (by simp)
    · rintro ⟨group, hgroup, k, hk, hfirst, hnot⟩
      refine absurd ⟨hk, hfirst, ?_⟩ (hnone group hgroup k)
      rw [hidden_iff hk]
      exact hnot
  · constructor
    · intro _
      obtain ⟨hk, hfirst, hnot⟩ := hfound.seen
      rw [hidden_iff hk] at hnot
      exact ⟨group, hfound.group_lt, k, hk, hfirst, hnot⟩
    · intro _
      exact ⟨ret, ext2', hok⟩

/-- Three groups of sixteen inodes, which are in use but for some of one byte of a bitmap. -/
def threeGroups (group byte : Nat) (value : UInt8) (free : UInt32) : Ext2Groups where
  blockSize := 1024
  blockGroups := 3
  bgdts g := ⟨20 + ofNat g, if g = group then free else 0⟩
  superblock := ⟨free, 16, 11⟩
  disk block i := if block = 20 + ofNat group ∧ i = byte then value else 0xff

theorem consistent_threeGroups {byte : Nat} {value : UInt8} (hbyte : byte < 2)
    (hfree : ∀ g < 3, (if g = group then free else 0).toNat =
      (clear (inodeBits (threeGroups group byte value free) g) 16).card)
    (htotal : free.toNat = ∑ g ∈ range 3, (clear (inodeBits (threeGroups group byte value free) g) 16).card) :
    Consistent (threeGroups group byte value free) := by
  have hset (g k : Nat) (hk : 16 ≤ k) : get (inodeBits (threeGroups group byte value free) g) k = true :=
    get_bits_of_eq (if_neg fun h => by omega)
  have hclear (g : Nat) : freeInodesOf (threeGroups group byte value free) g =
      clear (inodeBits (threeGroups group byte value free) g) 16 := by
    ext k
    rw [freeInodesOf, mem_clear, mem_clear]
    refine and_congr_left fun hk => ⟨fun _ => by_contra fun h => ?_, fun h => h.trans (show 16 < 8 * 1024 by decide)⟩
    simp [hset g k (by omega)] at hk
  refine ⟨show 3 ≤ 2 ^ 31 by decide, show 3 * 16 < 2 ^ 32 by decide,
    show ∀ g < 3, ∀ h < 3, 20 + ofNat g = 20 + ofNat h → g = h by decide, fun g _ k _ => hset g k, fun g hg => ?_, ?_⟩
  · rw [hclear]
    exact hfree g hg
  · simp only [hclear]
    exact htotal

def fiveFree : Ext2Groups := threeGroups 0 1 0x07 5

theorem consistent_fiveFree : Consistent fiveFree :=
  consistent_threeGroups (by decide) (by decide +kernel) (by decide +kernel)

/-- Bit `11` of the first group is clear. -/
theorem ext2InodeFind_returns_iff_fiveFree : ∃ ret ext2', ext2InodeFind fiveFree 1 = .ok (ret, ext2') :=
  (ext2InodeFind_returns_iff fiveFree 1 consistent_fiveFree (by decide)).2
    ⟨0, by decide, 11, mem_clear.2 (by decide), by decide, by decide⟩

def fourHidden : Ext2Groups := threeGroups 1 0 0xf0 4

/-- There are free inodes, and `ext2InodeFind` panics. -/
theorem ext2InodeFind_full : Consistent fourHidden ∧ 3 ∈ freeInodesOf fourHidden 1 ∧ firstIndex fourHidden 1 ≤ 3 ∧
      ext2InodeFind fourHidden 0 = .error .panic := by
  have hpanic : (ext2InodeFind fourHidden 0 >>= fun _ => .ok ()) = .error .panic := by decide +kernel
  exact ⟨consistent_threeGroups (by decide) (by decide +kernel) (by decide +kernel), mem_clear.2 (by decide), by decide,
    (bind_eq_error.1 hpanic).resolve_right (by simp)⟩

/-! ## `ext2InodeDelete` -/

section
variable (ext2 inode)

def inodeBit : Bool :=
  Bits.get (inodeBits ext2 (inodeToBlockGroup ext2 inode)) (inodeToIndex ext2 inode)

/-- An inode of the drive whose bit is set. -/
def Allocated : Prop :=
  inode ≠ 0 ∧ 0 < ext2.superblock.inodesPerGroup.toNat ∧ inodeToBlockGroup ext2 inode < ext2.blockGroups ∧
    inodeToIndex ext2 inode < 8 * ext2.blockSize ∧ inodeBit ext2 inode = true

end

instance (ext2 : Ext2Groups) (inode : Nat) : Decidable (Allocated ext2 inode) :=
  inferInstanceAs (Decidable (_ ∧ _))

theorem ext2InodeDelete_marked (h : Consistent ext2) (halloc : Allocated ext2 inode) :
    ∃ ext2', ext2InodeDelete ext2 inode = .ok ext2' ∧
      Marked ext2 (inodeToBlockGroup ext2 inode) (inodeToIndex ext2 inode) false ext2' := by
  obtain ⟨hne, hpos, hgroup, hindex, hset⟩ := halloc
  have hipg : ext2.superblock.inodesPerGroup ≠ 0 := by
    rintro hzero
    rw [hzero] at hpos
    exact absurd hpos (by decide)
  refine ⟨_, ?_, release_marked h hgroup (mod_lt _ hpos) hindex hset (bits_and_bitMask _ _)⟩
  rw [ext2InodeDelete, if_neg hipg, if_neg hne]
  exact if_neg (by omega)

/-! ## Runs -/

inductive InodeOp where
  | find (groupSuggestion : Nat)
  | delete (inode : Nat)

def inodeStep (s : Ext2Groups × List Nat) : InodeOp → Option (Ext2Groups × List Nat)
  | .find groupSuggestion =>
    match ext2InodeFind s.1 groupSuggestion with
    | .ok (ret, ext2) => some (ext2, ret.toNat :: s.2)
    | .error _ => none
  | .delete inode =>
    if Allocated s.1 inode then
      match ext2InodeDelete s.1 inode with
      | .ok ext2 => some (ext2, s.2.erase inode)
      | .error _ => none
    else none

/-- The inode was free and not a reserved one, and is allocated. -/
structure HandsOut (ext2 : Ext2Groups) (inode : Nat) (ext2' : Ext2Groups) : Prop where
  clear : inodeBit ext2 inode = false
  allocated : Allocated ext2' inode
  group : inodeToBlockGroup ext2 inode < ext2.blockGroups
  first : firstIndex ext2 (inodeToBlockGroup ext2 inode) ≤ inodeToIndex ext2 inode

section Marked
variable {value : Bool} (h : Marked ext2 group k value ext2')
include h

theorem Marked.inodeToBlockGroup_eq (inode : Nat) : inodeToBlockGroup ext2' inode = inodeToBlockGroup ext2 inode := by
  rw [inodeToBlockGroup, inodeToBlockGroup, h.inodesPerGroup]

theorem Marked.inodeToIndex_eq (inode : Nat) : inodeToIndex ext2' inode = inodeToIndex ext2 inode := by
  rw [inodeToIndex, inodeToIndex, h.inodesPerGroup]

theorem Marked.inodeBit_eq (hgroup : inodeToBlockGroup ext2 inode < ext2.blockGroups) : inodeBit ext2' inode =
      if inodeToBlockGroup ext2 inode = group ∧ inodeToIndex ext2 inode = k then value else inodeBit ext2 inode := by
  rw [inodeBit, h.inodeToBlockGroup_eq, h.inodeToIndex_eq, h.get_eq hgroup]
  rfl

theorem Marked.allocated (halloc : Allocated ext2 inode)
    (hkept : value = true ∨ ¬ (inodeToBlockGroup ext2 inode = group ∧ inodeToIndex ext2 inode = k)) :
    Allocated ext2' inode := by
  obtain ⟨hne, hpos, hgroup, hindex, hset⟩ := halloc
  refine ⟨hne, ?_, ?_, ?_, ?_⟩
  · rw [h.inodesPerGroup]
    exact hpos
  · rw [h.inodeToBlockGroup_eq, h.blockGroups]
    exact hgroup
  · rw [h.inodeToIndex_eq, h.blockSize]
    exact hindex
  · rw [h.inodeBit_eq hgroup]
    split_ifs with hsame
    · exact hkept.resolve_right fun hnot => hnot hsame
    · exact hset

end Marked

theorem Found.handsOut (h : Consistent ext2) (hfound : Found ext2 group k ret ext2') :
    HandsOut ext2 ret.toNat ext2' := by
  have hmem := hfound.seen.1
  have hk := h.lt_inodesPerGroup hfound.group_lt hmem
  obtain ⟨hk', hclear⟩ := mem_clear.1 hmem
  have hgroup : inodeToBlockGroup ext2 ret.toNat = group := by
    rw [hfound.number, inodeToBlockGroup, Nat.add_sub_cancel, Nat.add_comm, Nat.add_mul_div_right _ _ (by omega),
      div_eq_of_lt hk, zero_add]
  have hindex : inodeToIndex ext2 ret.toNat = k := by
    rw [hfound.number, inodeToIndex, Nat.add_sub_cancel, Nat.add_comm, Nat.add_mul_mod_self_right, Nat.mod_eq_of_lt hk]
  have hlt : inodeToBlockGroup ext2 ret.toNat < ext2.blockGroups := by
    rw [hgroup]
    exact hfound.group_lt
  refine ⟨?_, ⟨?_, ?_, ?_, ?_, ?_⟩, hlt, ?_⟩
  · rw [inodeBit, hgroup, hindex]
    exact hclear
  · rw [hfound.number]
    exact succ_ne_zero _
  · rw [hfound.marked.inodesPerGroup]
    omega
  · rw [hfound.marked.inodeToBlockGroup_eq, hfound.marked.blockGroups]
    exact hlt
  · rw [hfound.marked.inodeToIndex_eq, hfound.marked.blockSize, hindex]
    exact hk'
  · rw [hfound.marked.inodeBit_eq hlt, if_pos ⟨hgroup, hindex⟩]
  · rw [hgroup, hindex]
    exact hfound.seen.2.1

structure InodesValid (s : Ext2Groups × List Nat) : Prop where
  consistent : Consistent s.1
  nodup : s.2.Nodup
  allocated : ∀ inode ∈ s.2, Allocated s.1 inode

theorem HandsOut.not_allocated (h : HandsOut ext2 inode ext2') : ¬ Allocated ext2 inode := by
  rintro ⟨-, -, -, -, hset⟩
  simp [h.clear] at hset

theorem number_inj {inode' : Nat} (hne : inode ≠ 0) (hne' : inode' ≠ 0)
    (hgroup : inodeToBlockGroup ext2 inode = inodeToBlockGroup ext2 inode')
    (hindex : inodeToIndex ext2 inode = inodeToIndex ext2 inode') : inode = inode' := by
  have hdiv := div_add_mod (inode - 1) ext2.superblock.inodesPerGroup.toNat
  have hdiv' := div_add_mod (inode' - 1) ext2.superblock.inodesPerGroup.toNat
  rw [inodeToBlockGroup, inodeToBlockGroup] at hgroup
  rw [inodeToIndex, inodeToIndex] at hindex
  rw [hgroup, hindex] at hdiv
  omega

theorem lt_of_ext2InodeFind {r : UInt32 × Ext2Groups} (h : ext2InodeFind ext2 groupSuggestion = .ok r) :
    groupSuggestion < ext2.blockGroups := by
  by_contra hle
  rw [ext2InodeFind] at h
  split_ifs at h
  obtain ⟨r', hfind, -⟩ := bind_eq_ok.1 h
  rw [ext2InodeFindL, if_pos (by omega)] at hfind
  exact absurd hfind (by simp)

theorem ext2InodeFind_found (h : Consistent ext2) (hok : ext2InodeFind ext2 groupSuggestion = .ok (ret, ext2')) :
    ∃ group k, Found ext2 group k ret ext2' ∧ HandsOut ext2 ret.toNat ext2' := by
  rcases ext2InodeFind_spec h (lt_of_ext2InodeFind hok) with ⟨hpanic, -⟩ | ⟨group, k, ret', ext2'', hok', hfound⟩
  · exact absurd (hok.symm.trans hpanic) (by simp)
  · obtain ⟨rfl, rfl⟩ := Prod.mk.inj (Except.ok.inj (hok.symm.trans hok'))
    exact ⟨group, k, hfound, hfound.handsOut h⟩

theorem InodesValid.find (hs : InodesValid s) (hok : ext2InodeFind s.1 groupSuggestion = .ok (ret, ext2')) :
    InodesValid (ext2', ret.toNat :: s.2) := by
  obtain ⟨group, k, hfound, hhands⟩ := ext2InodeFind_found hs.consistent hok
  refine ⟨hfound.marked.consistent, List.nodup_cons.2 ⟨fun hret => hhands.not_allocated (hs.allocated _ hret), hs.nodup⟩, ?_⟩
  intro inode hinode
  rcases List.mem_cons.1 hinode with rfl | hinode
  · exact hhands.allocated
  · exact hfound.marked.allocated (hs.allocated inode hinode) (.inl rfl)

theorem InodesValid.delete (hs : InodesValid s) (halloc : Allocated s.1 inode)
    (hok : ext2InodeDelete s.1 inode = .ok ext2') : InodesValid (ext2', s.2.erase inode) := by
  obtain ⟨ext2'', hok', hmarked⟩ := ext2InodeDelete_marked hs.consistent halloc
  obtain rfl := Except.ok.inj (hok.symm.trans hok')
  refine ⟨hmarked.consistent, hs.nodup.erase inode, ?_⟩
  intro other hother
  obtain ⟨hne, hmem⟩ := hs.nodup.mem_erase_iff.1 hother
  have hother' := hs.allocated other hmem
  apply hmarked.allocated hother'
  exact .inr fun hsame => hne (number_inj hother'.1 halloc.1 hsame.1 hsame.2)

theorem inodeStep_valid (s : Ext2Groups × List Nat) (op : InodeOp) (s' : Ext2Groups × List Nat)
    (hs : InodesValid s) (hstep : inodeStep s op = some s') : InodesValid s' := by
  cases op with
  | find groupSuggestion =>
    rw [inodeStep] at hstep
    cases hcall : ext2InodeFind s.1 groupSuggestion with
    | error fault =>
      rw [hcall] at hstep
      exact absurd hstep (by simp)
    | ok r =>
      rw [hcall] at hstep
      exact some.inj hstep ▸ hs.find hcall
  | delete inode =>
    rw [inodeStep] at hstep
    split_ifs at hstep with halloc
    cases hcall : ext2InodeDelete s.1 inode with
    | error fault =>
      rw [hcall] at hstep
      exact absurd hstep (by simp)
    | ok ext2' =>
      rw [hcall] at hstep
      exact some.inj hstep ▸ hs.delete halloc hcall

/-- **Inodes over any sequence of calls.** The counters keep agreeing with the bitmaps, and no inode is handed
out twice without being deleted. Whatever `ext2InodeFind` returns after the sequence was free and is now
allocated, and it is no reserved inode. -/
theorem inodeRun_handsOut (ext2 : Ext2Groups) (h : Consistent ext2) (ops : List InodeOp)
    (s' : Ext2Groups × List Nat) (hrun : Run.run inodeStep (ext2, []) ops = some s') :
    Consistent s'.1 ∧ s'.2.Nodup ∧ (∀ inode ∈ s'.2, Allocated s'.1 inode) ∧
      ∀ groupSuggestion ret ext2', ext2InodeFind s'.1 groupSuggestion = .ok (ret, ext2') →
        HandsOut s'.1 ret.toNat ext2' ∧ ret.toNat ∉ s'.2 := by
  have hstart : InodesValid (ext2, []) := ⟨h, List.nodup_nil, by simp⟩
  have hvalid := Run.run_invariant inodeStep_valid hstart hrun
  refine ⟨hvalid.consistent, hvalid.nodup, hvalid.allocated, fun groupSuggestion ret ext2' hok => ?_⟩
  obtain ⟨-, -, -, hhands⟩ := ext2InodeFind_found hvalid.consistent hok
  exact ⟨hhands, fun hret => hhands.not_allocated (hvalid.allocated _ hret)⟩

/-- Two inodes are found, and the first of them is deleted and found again. -/
theorem inodeRun_handsOut_fiveFree :
    ∃ s', Run.run inodeStep (fiveFree, []) [.find 1, .find 0, .delete 12, .find 0] = some s' ∧
      s'.2 = [12, 13] ∧ Consistent s'.1 := by
  exact (exists_of_any (p := fun s' => s'.2 = [12, 13]) (by decide +kernel)).imp fun s' h =>
    ⟨h.1, h.2, (inodeRun_handsOut fiveFree consistent_fiveFree _ _ h.1).1⟩

end CoreX.Ext2

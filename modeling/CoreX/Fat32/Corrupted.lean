import CoreX.Fat32.Listing

/-!
# Listing a directory of any content

`fat32Getdents64` goes by bytes of the disk that nothing has checked. It returns if and only if the positions it looks
at are harmless up to where the chain is over, or up to where their entries are more than the buffer has room for
(`fat32Getdents64_returns_iff`).
-/

namespace CoreX.Fat32

open Memory Option Nat

variable {v : Volume} {cache : Cache} {fd : FAT32OpenFd} {hardlimit : UInt32} {n : Nat}

/-- The walk stops at the end of the chain, or at the first entry that does not fit. -/
theorem exists_stops (hbefore : ∀ j < n, 2 ≤ clusterAt v cache fd j ∧ Harmless (dirAt v cache fd) j)
    (hend : clusterAt v cache fd n = 0 ∨ ¬ Fits v cache fd hardlimit n) :
    ∃ m, (∀ l < m, Passes v cache fd hardlimit l) ∧ Stops v cache fd hardlimit m := by
  have hpass (k : Nat) (hk : k ≤ n) (hfits : Fits v cache fd hardlimit k) : ∀ l < k, Passes v cache fd hardlimit l :=
    fun l hl => ⟨(hbefore l (hl.trans_le hk)).1, (hbefore l (hl.trans_le hk)).2, hfits.of_le hl⟩
  by_cases hfits : Fits v cache fd hardlimit n
  · exact ⟨n, hpass n (le_refl n) hfits, .inl (hend.resolve_right (not_not.2 hfits))⟩
  clear hend
  induction n with
  | zero => exact absurd (.inl rfl) hfits
  | succ n ih =>
    by_cases hbefore' : Fits v cache fd hardlimit n
    · obtain ⟨htwo, hsafe⟩ := hbefore n (lt_succ_self n)
      exact ⟨n, hpass n (le_succ n) hbefore', .inr ⟨htwo, hsafe, hfits⟩⟩
    · exact ih (fun j hj => hbefore j (hj.trans (lt_succ_self n))) (fun k hk => hpass k (hk.trans (le_succ n)))
        hbefore'

/-- **Every content of a directory, and every table**: a call returns if and only if there is nothing to list, or the
positions lie in clusters and are harmless up to one where the chain is over or the entries before do not fit. A part
of a long name that is stored is inside of the buffer in any case. -/
theorem fat32Getdents64_returns_iff (v : Volume) (cache : Cache) (fd : FAT32OpenFd) (hardlimit : UInt32) :
    ((∃ fuel out, fat32Getdents64 v fuel cache fd hardlimit = some out) ↔
      fd.dirEnt.attrib &&& fatAttribDirectory = 0 ∨ fd.directoryCurr = 0 ∨
        v.bytesPerCluster ≠ 0 ∧ ∃ n, (∀ j < n, 2 ≤ clusterAt v cache fd j ∧ Harmless (dirAt v cache fd) j) ∧
          (clusterAt v cache fd n = 0 ∨ ¬ Fits v cache fd hardlimit n)) ∧
    ∀ dir s s', isLfn dir = true → visitLfn dir s = some s' →
      ∃ index ≤ 19, index * 13 + 13 ≤ lfnMaxTotalChars ∧ slotNumber dir = index + 1 ∧
        s'.lfnName = storeSlice s.lfnName (index * 13) ([1, 3, 5, 7, 9, 13, 15, 17, 19, 21, 23, 28, 30].map dir) := by
  refine ⟨⟨?_, ?_⟩, ?_⟩
  · rintro ⟨fuel, out, hcall⟩
    by_cases hdir : fd.dirEnt.attrib &&& fatAttribDirectory = 0
    · exact .inl hdir
    by_cases hcurr : fd.directoryCurr = 0
    · exact .inr (.inl hcurr)
    have hsize : v.bytesPerCluster ≠ 0 := fun hsize => by
      rw [fat32Getdents64, if_neg hdir, if_neg hcurr, if_pos hsize] at hcall
      cases hcall
    obtain ⟨n, hpass, hstops, -⟩ := fat32Getdents64_some hdir hsize hcall
    have hbefore : ∀ j < n, 2 ≤ clusterAt v cache fd j ∧ Harmless (dirAt v cache fd) j := fun j hj =>
      ⟨(hpass j hj).cluster, (hpass j hj).harmless⟩
    rcases hstops with hzero | ⟨htwo, hsafe, hfull⟩
    · exact .inr (.inr ⟨hsize, n, hbefore, .inl hzero⟩)
    · refine .inr (.inr ⟨hsize, n + 1, fun j hj => ?_, .inr hfull⟩)
      rcases Nat.lt_succ_iff_lt_or_eq.1 hj with hlt | rfl
      · exact hbefore j hlt
      · exact ⟨htwo, hsafe⟩
  · intro hcond
    by_cases hdir : fd.dirEnt.attrib &&& fatAttribDirectory = 0
    · exact ⟨0, _, if_pos hdir⟩
    rcases hcond.resolve_left hdir with hcurr | ⟨hsize, n, hbefore, hend⟩
    · exact ⟨0, _, by rw [fat32Getdents64, if_neg hdir, if_pos hcurr]⟩
    · obtain ⟨m, hpass, hstops⟩ := exists_stops hbefore hend
      obtain ⟨cache', hcall⟩ := fat32Getdents64_eq hdir hsize hpass hstops
        (lt_of_lt_of_le (lt_succ_self _) (Nat.le_add_left ..))
      exact ⟨_, _, hcall⟩
  · intro dir s s' hlfn hstored
    rw [visitLfn_of_lfn hlfn] at hstored
    by_cases hslot : 1 ≤ slotNumber dir ∧ slotNumber dir ≤ 20
    · rw [if_pos hslot] at hstored
      refine ⟨slotNumber dir - 1, by omega, ?_, by omega, congrArg DirWalk.lfnName (some.inj hstored).symm⟩
      unfold lfnMaxTotalChars
      omega
    · rw [if_neg hslot] at hstored
      cases hstored

def deletedSlot : Volume := directoryVolume fun a => if a = 0 then 0xE5 else if a = 11 then fatAttribLfn else 0

def selfLinked : Volume := { twoClusters with disk a := if a = 520 then 2 else 0 }

theorem chainAt_selfLinked (d : Nat) : (chainAt selfLinked mountCache directoryFd d).1 = 2 ∧
    Coherent selfLinked (chainAt selfLinked mountCache directoryFd d).2 := by
  induction d with
  | zero => exact ⟨rfl, coherent_mountCache _⟩
  | succ d ih =>
    have hfits : selfLinked.FatFits := show 1 + 2 ^ 21 ≤ 0xFFFFFFFF by decide
    obtain ⟨cache', hfind, hcoh⟩ := fat32FATtraverse_eq hfits ih.2 (show 2 < 2 ^ 28 by decide)
    rw [chainAt, ih.1, hfind]
    exact ⟨show (selfLinked.next 2).getD 0 = 2 by decide, hcoh⟩

theorem found_selfLinked (n : Nat) : found selfLinked mountCache directoryFd n = [] := by
  have hbytes : clusterBytes selfLinked 2 = fun _ => 0 := by
    funext i
    change memcpy selfLinked.heap 0 (fun i => selfLinked.disk (2 * 512 + i)) (1 * 512) i = 0
    by_cases hi : i < 512
    · rw [memcpy_of_mem (show 0 ≤ i ∧ i < 0 + 1 * 512 by omega)]
      exact if_neg (show 2 * 512 + (i - 0) ≠ 520 by omega)
    · rw [memcpy_of_notMem (show ¬ (0 ≤ i ∧ i < 0 + 1 * 512) by omega)]
      rfl
  induction n with
  | zero => rfl
  | succ n ih =>
    have hentry : isEntry (dirAt selfLinked mountCache directoryFd n) = false := by
      unfold dirAt clusterAt
      rw [(chainAt_selfLinked _).1, hbytes]
      rfl
    rw [found_succ, ih, hentry]
    rfl

theorem fat32Getdents64_eq_none (hdir : fd.dirEnt.attrib &&& fatAttribDirectory ≠ 0) (hsize : v.bytesPerCluster ≠ 0)
    (h : ∀ n, (∀ l < n, Passes v cache fd hardlimit l) → ¬ Stops v cache fd hardlimit n) (fuel : Nat) :
    fat32Getdents64 v fuel cache fd hardlimit = none := by
  by_contra hsome
  obtain ⟨out, hout⟩ := ne_none_iff_exists'.1 hsome
  obtain ⟨n, hpass, hstops, -⟩ := fat32Getdents64_some hdir hsize hout
  exact h n hpass hstops

/-- A deleted part of a long name makes a call panic, and a chain that leads back to itself keeps it for ever. -/
theorem fat32Getdents64_stops : (∀ fuel, fat32Getdents64 deletedSlot fuel mountCache directoryFd 100 = none) ∧
    ∀ fuel, fat32Getdents64 selfLinked fuel mountCache directoryFd 100 = none := by
  constructor
  · apply fat32Getdents64_eq_none (by decide) (by decide)
    have hharm : ¬ Harmless (dirAt deletedSlot mountCache directoryFd) 0 := by decide
    intro n hpass hstops
    cases n with
    | zero =>
      rcases hstops with hzero | ⟨-, hsafe, -⟩
      · exact absurd hzero (by decide)
      · exact hharm hsafe
    | succ n => exact hharm (hpass 0 (succ_pos n)).harmless
  · apply fat32Getdents64_eq_none (by decide) (by decide)
    rintro n - (hzero | ⟨-, -, hfull⟩)
    · rw [clusterAt, (chainAt_selfLinked _).1] at hzero
      cases hzero
    · exact hfull (.inl (found_selfLinked _))

end CoreX.Fat32

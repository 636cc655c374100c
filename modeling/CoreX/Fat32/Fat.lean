import CoreX.Base.Links
import CoreX.Base.Sectors
import Mathlib.Data.List.Iterate

/-!
# The file allocation table (`filesystems/fat32/fat32-fat.rs`)

The table has four bytes for each cluster: the number of the cluster that follows it in its file. `fat32FATtraverse`
reads one entry, through a cache of eight sectors, and `fat32FATchain` a number of them in a row. With a cache that
shows the disk, both give what the disk says (`fat32FATtraverse_eq`, `fat32FATchain_eq`). The disk does not change. A
result `none` is an integer overflow.
-/

namespace CoreX.Fat32

open Links Memory Sectors List Option

structure Volume where
  offsetFats : Nat
  offsetClusters : Nat
  sectorsPerCluster : Nat
  disk : Buf
  /-- What a buffer from `malloc` holds. -/
  heap : Buf
  sectors_lt : sectorsPerCluster < 2 ^ 8 := by decide

structure Cache where
  cacheBase : Nat → Nat
  cache : Nat → Nat → UInt8
  cacheCurr : Nat

def cacheBad : Nat := 0xFFFFFFFF

def cacheMax : Nat := 8

def fat32FATcacheLookup (cache : Cache) (offset : Nat) : Option Nat :=
  (List.range cacheMax).find? fun i => cache.cacheBase i = offset

def fat32FATcacheAdd (cache : Cache) (offset : Nat) (bytes : Buf) : Cache :=
  let idx := if cacheMax ≤ cache.cacheCurr then 0 else cache.cacheCurr
  { cacheBase := Function.update cache.cacheBase idx offset
    cache := Function.update cache.cache idx (memcpy (cache.cache idx) 0 bytes 512)
    cacheCurr := idx + 1 }

section
variable (v : Volume) (cache : Cache)

def fat32FATfetch (offsetSector : Nat) : Buf × Cache :=
  match fat32FATcacheLookup cache offsetSector with
  | some i => (memcpy v.heap 0 (cache.cache i) 512, cache)
  | none =>
    let bytes := readSectors v.disk v.heap offsetSector 1
    (bytes, fat32FATcacheAdd cache offsetSector bytes)

def fat32FATtraverse (offset : Nat) : Option (Nat × Cache) :=
  let offsetFat := offset * 4
  let offsetSector := v.offsetFats + offsetFat / 512
  if 2 ^ 32 ≤ offsetFat ∨ 2 ^ 32 ≤ offsetSector then none
  else
    let (bytes, cache) := fat32FATfetch v cache offsetSector
    let ret := (load32 bytes (offsetFat % 512)).toNat % 2 ^ 28
    if 0x0FFFFFF8 ≤ ret then some (0, cache)
    else if ret = 0x0FFFFFF7 then some (0, cache)
    else some (ret, cache)

def chainLoop (v : Volume) : Nat → Cache → Nat → Option (List Nat × Cache)
  | 0, cache, _ => some ([], cache)
  | n + 1, cache, prev => do
    let (next, cache) ← fat32FATtraverse v cache prev
    let (rest, cache) ← chainLoop v n cache next
    some (next :: rest, cache)

def fat32FATchain (offsetStart amount : Nat) : Option (List Nat × Cache) :=
  (chainLoop v amount cache offsetStart).map fun (rest, cache) => (offsetStart :: rest, cache)

def fat32ClusterToLBA (cluster : Nat) : Option Nat :=
  if cluster < 2 then none else some ((v.offsetClusters + (cluster - 2) * v.sectorsPerCluster) % 2 ^ 32)

def Volume.bytesPerCluster : Nat := v.sectorsPerCluster * 512

/-! ## What the disk says -/

def Volume.next (cluster : Nat) : Option Nat :=
  let ret := (load32 v.disk (v.offsetFats * 512 + cluster * 4)).toNat % 2 ^ 28
  if ret = 0 ∨ 0x0FFFFFF7 ≤ ret then none else some ret

/-- The sectors of the table, for any entry of 28 bits, are numbered below `FAT32_CACHE_BAD`. -/
def Volume.FatFits : Prop := v.offsetFats + 2 ^ 21 ≤ cacheBad

/-- Every sector in the cache is as on the disk. -/
def Coherent : Prop :=
  ∀ i < cacheMax, cache.cacheBase i ≠ cacheBad → ∀ j < 512, cache.cache i j = v.disk (cache.cacheBase i * 512 + j)

end

variable {v : Volume} {cache : Cache} {offset : Nat}

theorem coherent_cacheAdd {bytes : Buf} (h : Coherent v cache)
    (hbytes : ∀ j < 512, bytes j = v.disk (offset * 512 + j)) : Coherent v (fat32FATcacheAdd cache offset bytes) := by
  intro i hi hbase j hj
  unfold fat32FATcacheAdd at hbase ⊢
  generalize (if cacheMax ≤ cache.cacheCurr then 0 else cache.cacheCurr) = idx at hbase ⊢
  by_cases heq : i = idx
  · subst heq
    simp only [Function.update_self]
    rw [memcpy_of_mem (by omega), Nat.sub_zero, hbytes j hj]
  · simp only [Function.update_of_ne heq] at hbase ⊢
    exact h i hi hbase j hj

theorem fat32FATfetch_spec {sector : Nat} (h : Coherent v cache) (hsector : sector ≠ cacheBad) :
    (∀ j < 512, (fat32FATfetch v cache sector).1 j = v.disk (sector * 512 + j)) ∧
      Coherent v (fat32FATfetch v cache sector).2 := by
  unfold fat32FATfetch
  cases hlookup : fat32FATcacheLookup cache sector with
  | some i =>
    have hi : i < cacheMax := mem_range.1 (mem_of_find?_eq_some hlookup)
    have hbase : cache.cacheBase i = sector := by simpa using find?_some hlookup
    refine ⟨fun j hj => ?_, h⟩
    change memcpy v.heap 0 (cache.cache i) 512 j = _
    rw [memcpy_of_mem (by omega), Nat.sub_zero, h i hi (hbase ▸ hsector) j hj, hbase]
  | none =>
    have hbytes : ∀ j < 512, readSectors v.disk v.heap sector 1 j = v.disk (sector * 512 + j) :=
      fun j hj => readSectors_of_lt (by omega)
    exact ⟨hbytes, coherent_cacheAdd h hbytes⟩

theorem fat32FATtraverse_eq (hfits : v.FatFits) (h : Coherent v cache) (hoffset : offset < 2 ^ 28) :
    ∃ cache', fat32FATtraverse v cache offset = some ((v.next offset).getD 0, cache') ∧ Coherent v cache' := by
  unfold Volume.FatFits cacheBad at hfits
  have hsector : v.offsetFats + offset * 4 / 512 ≠ cacheBad := by
    unfold cacheBad
    omega
  obtain ⟨hbytes, hcoh⟩ := fat32FATfetch_spec h hsector
  have hload : load32 (fat32FATfetch v cache (v.offsetFats + offset * 4 / 512)).1 (offset * 4 % 512) =
      load32 v.disk (v.offsetFats * 512 + offset * 4) := by
    rw [load32, load32, load_shift]
    intro i hi
    rw [hbytes _ (by omega)]
    exact congrArg v.disk (by omega)
  refine ⟨_, ?_, hcoh⟩
  unfold fat32FATtraverse Volume.next
  rw [if_neg (by omega)]
  simp only [hload]
  generalize (load32 v.disk (v.offsetFats * 512 + offset * 4)).toNat % 2 ^ 28 = ret
  by_cases hend : 0x0FFFFFF7 ≤ ret
  · rw [if_pos (show ret = 0 ∨ 0x0FFFFFF7 ≤ ret from .inr hend), getD_none]
    split_ifs
    · rfl
    · rfl
    · omega
  · rw [if_neg (by omega), if_neg (by omega)]
    by_cases hzero : ret = 0
    · rw [if_pos (show ret = 0 ∨ 0x0FFFFFF7 ≤ ret from .inl hzero), hzero]
      rfl
    · rw [if_neg (by omega)]
      rfl

theorem Volume.next_lt {cluster c : Nat} (h : v.next cluster = some c) : 0 < c ∧ c < 2 ^ 28 := by
  unfold Volume.next at h
  dsimp only at h
  split_ifs at h
  obtain rfl := some.inj h
  omega

theorem Volume.getD_next_lt (cluster : Nat) : (v.next cluster).getD 0 < 2 ^ 28 := by
  cases h : v.next cluster with
  | none => decide
  | some c => exact (Volume.next_lt h).2

theorem fat32FATchain_eq (hfits : v.FatFits) (h : Coherent v cache) (hoffset : offset < 2 ^ 28) (amount : Nat) :
    ∃ cache', fat32FATchain v cache offset amount =
      some (iterate (fun c => (v.next c).getD 0) offset (amount + 1), cache') ∧ Coherent v cache' := by
  have hloop : ∀ n cache offset, Coherent v cache → offset < 2 ^ 28 → ∃ cache', chainLoop v n cache offset =
        some (iterate (fun c => (v.next c).getD 0) ((v.next offset).getD 0) n, cache') ∧
        Coherent v cache' := by
    intro n
    induction n with
    | zero => exact fun cache _ h _ => ⟨cache, rfl, h⟩
    | succ n ih =>
      intro cache offset h hoffset
      obtain ⟨cache', hfind, h'⟩ := fat32FATtraverse_eq hfits h hoffset
      obtain ⟨cache'', hrest, h''⟩ := ih cache' _ h' (v.getD_next_lt offset)
      refine ⟨cache'', ?_, h''⟩
      simp only [chainLoop, hfind, bind_eq_bind, bind_some, hrest]
      rfl
  obtain ⟨cache', hrest, h'⟩ := hloop amount cache offset h hoffset
  refine ⟨cache', ?_, h'⟩
  rw [fat32FATchain, hrest]
  rfl

theorem getElem?_iterate_next {p : Option Nat} {cs : List Nat} (h : Linked v.next p cs) {i n : Nat} (hi : i < n)
    (hle : i ≤ cs.length) : (iterate (fun c => (v.next c).getD 0) (p.getD 0) n)[i]? = some (cs[i]?.getD 0) := by
  induction i generalizing p cs n with
  | zero =>
    obtain ⟨n, rfl⟩ := Nat.exists_eq_add_of_le' hi
    have hhead : cs[0]? = p := head?_eq_getElem?.symm.trans h.head?_eq
    rw [hhead]
    rfl
  | succ i ih =>
    obtain ⟨n, rfl⟩ := Nat.exists_eq_add_of_le' (Nat.one_le_of_lt hi)
    cases cs with
    | nil => cases hle
    | cons c cs =>
      rw [h.1, getD_some, iterate, getElem?_cons_succ, getElem?_cons_succ]
      exact ih h.2 (Nat.lt_of_succ_lt_succ hi) (Nat.le_of_succ_le_succ hle)

end CoreX.Fat32

import CoreX.Base.Run
import CoreX.Fat32.Fat

/-!
# The cache of the table is not seen (`filesystems/fat32/fat32-fat.rs`, `filesystems/fat32/fat32.rs`)

`fat32Mount` leaves a cache without a sector. From then on the cache shows the disk, in whatever order slots are used
again. So every answer is that of a read of the table itself (`fatCalls_direct`).
-/

namespace CoreX.Fat32

open Run Option

structure FAT32BootSector where
  bytesPerSector : UInt16
  sectorsPerCluster : UInt8
  reservedSectorCount : UInt16
  tableCount : UInt8
  tableSize32 : UInt32

def fat32Mount (offsetBase : UInt32) (bootsec : FAT32BootSector) (disk heap : Buf) : Option (Volume × Cache) :=
  let offsetFats := offsetBase.toNat + bootsec.reservedSectorCount.toNat
  let tables := bootsec.tableCount.toNat * bootsec.tableSize32.toNat
  if bootsec.bytesPerSector ≠ 512 then none
  else if 2 ^ 32 ≤ offsetFats ∨ 2 ^ 32 ≤ tables ∨ 2 ^ 32 ≤ offsetFats + tables then none
  else
    let v : Volume := ⟨offsetFats, offsetFats + tables, bootsec.sectorsPerCluster.toNat, disk, heap,
      bootsec.sectorsPerCluster.toNat_lt⟩
    some (v, ⟨fun _ => cacheBad, fun _ j => if j < v.bytesPerCluster then 0 else heap j, 0⟩)

inductive FatCall where
  | traverse (offset : Nat)
  | chain (offsetStart amount : Nat)

inductive FatAnswer where
  | cluster (c : Nat)
  | array (cs : List Nat)
  deriving DecidableEq

def fatCall (v : Volume) (cache : Cache) : FatCall → Option (FatAnswer × Cache)
  | .traverse offset => (fat32FATtraverse v cache offset).map fun r => (.cluster r.1, r.2)
  | .chain offsetStart amount =>
    if 2 ^ 32 ≤ amount + 1 then none
    else (fat32FATchain v cache offsetStart amount).map fun r => (.array r.1, r.2)

/-! ## Without the cache -/

def Volume.entry (v : Volume) (cluster : Nat) : Nat := (v.next cluster).getD 0

def directCall (v : Volume) : FatCall → Option FatAnswer
  | .traverse offset => some (.cluster (v.entry offset))
  | .chain offsetStart amount =>
    if 2 ^ 32 ≤ amount + 1 then none else some (.array (List.iterate v.entry offsetStart (amount + 1)))

def FatCall.start : FatCall → Nat
  | .traverse offset => offset
  | .chain offsetStart _ => offsetStart

variable {v : Volume} {cache : Cache}

theorem coherent_fat32Mount {offsetBase : UInt32} {bootsec : FAT32BootSector} {disk heap : Buf}
    (hmount : fat32Mount offsetBase bootsec disk heap = some (v, cache)) : Coherent v cache := by
  unfold fat32Mount at hmount
  dsimp only at hmount
  split_ifs at hmount
  obtain ⟨-, rfl⟩ := Prod.mk.inj (some.inj hmount)
  exact fun i _ hbase => absurd rfl hbase

theorem fatCall_eq (hfits : v.FatFits) (h : Coherent v cache) {call : FatCall} (hstart : call.start < 2 ^ 28) :
    match directCall v call with
    | none => fatCall v cache call = none
    | some answer => ∃ cache', fatCall v cache call = some (answer, cache') ∧ Coherent v cache' := by
  cases call with
  | traverse offset =>
    obtain ⟨cache', heq, h'⟩ := fat32FATtraverse_eq hfits h (show offset < 2 ^ 28 from hstart)
    exact ⟨cache', by rw [fatCall, heq]; rfl, h'⟩
  | chain offsetStart amount =>
    by_cases hover : 2 ^ 32 ≤ amount + 1
    · simp only [directCall, fatCall, if_pos hover]
    · obtain ⟨cache', heq, h'⟩ := fat32FATchain_eq hfits h (show offsetStart < 2 ^ 28 from hstart) amount
      simp only [directCall, fatCall, if_neg hover]
      exact ⟨cache', by rw [heq]; rfl, h'⟩

theorem run_fatCall (hfits : v.FatFits) (calls : List FatCall) : ∀ (answers : List FatAnswer) (cache : Cache),
    Coherent v cache → (∀ call ∈ calls, call.start < 2 ^ 28) →
      (run (logged (fatCall v)) (answers, cache) calls).map Prod.fst =
        (calls.mapM (directCall v)).map (answers ++ ·) := by
  induction calls with
  | nil =>
    intro answers cache _ _
    exact congrArg some (List.append_nil answers).symm
  | cons call calls ih =>
    intro answers cache h hstarts
    obtain ⟨hstart, hstarts⟩ := List.forall_mem_cons.1 hstarts
    have hcall := fatCall_eq hfits h hstart
    rw [run, List.mapM_cons]
    cases hdirect : directCall v call with
    | none =>
      rw [hdirect] at hcall
      rw [logged, hcall]
      rfl
    | some answer =>
      rw [hdirect] at hcall
      obtain ⟨cache', heq, h'⟩ := hcall
      rw [logged, heq, map_some, bind_some, ih _ cache' h' hstarts]
      cases calls.mapM (directCall v) with
      | none => rfl
      | some rest => exact congrArg some (List.append_cons answers answer rest).symm

/-- **The cache is not seen.** On a volume whose table has its sectors below `FAT32_CACHE_BAD`, every sequence of
calls from the state after mounting answers as reads of the table on the disk do, and fails where they fail. -/
theorem fatCalls_direct {offsetBase : UInt32} {bootsec : FAT32BootSector} {disk heap : Buf}
    (hmount : fat32Mount offsetBase bootsec disk heap = some (v, cache)) (hfits : v.FatFits) {calls : List FatCall}
    (hstarts : ∀ call ∈ calls, call.start < 2 ^ 28) :
    (run (logged (fatCall v)) ([], cache) calls).map Prod.fst = calls.mapM (directCall v) := by
  rw [run_fatCall hfits calls [] cache (coherent_fat32Mount hmount) hstarts]
  exact map_id'

/-- A table from sector 32 on. The cluster 2 is followed by 130, 258 and so on, each with its entry in the next
sector. -/
def linkedTable (a : Nat) : UInt8 :=
  let next := 130 + 128 * (a / 512 - 32)
  if a % 512 = 8 then UInt8.ofNat next else if a % 512 = 9 then UInt8.ofNat (next / 256) else 0

/-- The chain has its entries in nine sectors, so the cache has lost the first one when it is read again. -/
theorem fatCalls_direct_linkedTable :
    ∃ v cache, fat32Mount 0 ⟨512, 8, 32, 2, 100⟩ linkedTable (fun _ => 0) = some (v, cache) ∧
      (run (logged (fatCall v)) ([], cache) [.chain 2 9, .traverse 2]).map Prod.fst =
        some [.array (List.iterate (· + 128) 2 10), .cluster 130] := by
  obtain ⟨v, cache, hmount, hfits, hanswers⟩ : ∃ v cache,
      fat32Mount 0 ⟨512, 8, 32, 2, 100⟩ linkedTable (fun _ => 0) = some (v, cache) ∧ v.FatFits ∧
        [.chain 2 9, .traverse 2].mapM (directCall v) = some [.array (List.iterate (· + 128) 2 10), .cluster 130] :=
    ⟨_, _, rfl, show 32 + 2 ^ 21 ≤ 0xFFFFFFFF by decide, by decide +kernel⟩
  exact ⟨v, cache, hmount, (fatCalls_direct hmount hfits (by simp [FatCall.start])).trans hanswers⟩

end CoreX.Fat32

import CoreX.Ext2.Blocks

/-!
# The block cache of a file (`filesystems/ext2/ext2-cache.rs`)

`ext2CacheAddSecurely` puts a range of cached blocks into the doubly linked list of an open file. An address in the
kernel's heap is a number and a null pointer is `none`. `live` are the addresses in use; the allocator returns one
that is not (`Allocator`). A loop that has gone through all live objects does not end (`Fault.diverges`). A sum or
product that does not fit in a `usize` is `Fault.overflow`.
-/

namespace CoreX.Ext2.Cache

structure Entry where
  blockIndex : Nat
  blocks : Nat
  /-- The address of the buffer. -/
  buff : Nat
  deriving DecidableEq

structure CacheObject extends Entry where
  prev : Option Nat
  next : Option Nat

structure Allocator where
  calloc : List Nat → Nat
  fresh : ∀ live, calloc live ∉ live

structure FoundObject where
  heap : Nat → CacheObject
  live : List Nat
  firstCacheObj : Option Nat
  blocksCached : Nat

section
variable (global : FoundObject) (a : Nat)

def FoundObject.setPrev (prev : Option Nat) : FoundObject :=
  { global with heap := Function.update global.heap a { global.heap a with prev } }

def FoundObject.setNext (next : Option Nat) : FoundObject :=
  { global with heap := Function.update global.heap a { global.heap a with next } }

def inRange (obj : CacheObject) (entry : Entry) : Except Fault Bool :=
  if obj.blockIndex ≥ entry.blockIndex then
    if entry.blockIndex + entry.blocks ≥ 2 ^ 64 then .error .overflow
    else .ok (obj.blockIndex < entry.blockIndex + entry.blocks)
  else .ok false

def catchLoop (heap : Nat → CacheObject) (entry : Entry) :
    Nat → Option Nat → Option Nat → Except Fault (Option Nat × Option Nat)
  | _, none, lastCaught => .ok (none, lastCaught)
  | 0, some _, _ => .error .diverges
  | fuel + 1, some cacheObj, lastCaught => do
    if ← inRange (heap cacheObj) entry then return (some cacheObj, lastCaught)
    else catchLoop heap entry fuel (heap cacheObj).next (some cacheObj)

def browseLoop (heap : Nat → CacheObject) (blockIndex : Nat) :
    Nat → Option Nat → Bool → Except Fault (Option Nat × Bool)
  | _, none, allAreSmaller => .ok (none, allAreSmaller)
  | 0, some _, _ => .error .diverges
  | fuel + 1, some browse, allAreSmaller =>
    if (heap browse).blockIndex < blockIndex then browseLoop heap blockIndex fuel (heap browse).next true
    -- "blockIndex already cached"
    else if (heap browse).blockIndex = blockIndex then .error .panic
    else .ok ((heap browse).prev, allAreSmaller)

def insertTarget (target : Nat) (browse lastCaught : Option Nat) (allAreSmaller : Bool) : Except Fault FoundObject :=
  match global.firstCacheObj, browse, allAreSmaller, lastCaught with
  | none, _, _, _ => .ok { global with firstCacheObj := some target }
  | some _, some browse, _, _ =>
    let next := (global.heap browse).next
    let global := ((global.setNext browse (some target)).setPrev target (some browse)).setNext target next
    match next with
    | some next => .ok (global.setPrev next (some target))
    | none => .ok global
  | some _, none, true, some lastCaught =>
    .ok ((global.setNext lastCaught (some target)).setPrev target (some lastCaught))
  | some first, none, false, _ =>
    .ok ({ global.setNext target (some first) with firstCacheObj := some target }.setPrev first (some target))
  -- "invalid cache insert state"
  | some _, none, true, none => .error .panic

/-- `DivRoundUp((blocks + 1) * blockSize, BLOCK_SIZE)`, the number of pages that `VirtualFree` gets. -/
def buffPages (blockSize blocks : Nat) : Except Fault Nat :=
  if blocks + 1 ≥ 2 ^ 64 ∨ (blocks + 1) * blockSize + 4096 ≥ 2 ^ 64 then .error .overflow
  else .ok (((blocks + 1) * blockSize + 4096 - 1) / 4096)

def unlink (browse : Nat) : FoundObject :=
  let next := (global.heap browse).next
  match (global.heap browse).prev with
  | none =>
    let global := { global with firstCacheObj := next }
    match next with
    | some next => global.setPrev next none
    | none => global
  | some prev =>
    let global := global.setNext prev next
    match next with
    | some next => global.setPrev next (some prev)
    | none => global

def removeObj (browse : Nat) : FoundObject :=
  let global := unlink { global with blocksCached := global.blocksCached - (global.heap browse).blocks } browse
  { global with live := global.live.erase browse }

def removeLoop (blockSize : Nat) (entry : Entry) : Nat → FoundObject → Option Nat → Except Fault FoundObject
  | _, global, none => .ok global
  | 0, _, some _ => .error .diverges
  | fuel + 1, global, some browse => do
    if ← inRange (global.heap browse) entry then
      let _ ← buffPages blockSize (global.heap browse).blocks
      if global.blocksCached < (global.heap browse).blocks then .error .overflow
      else removeLoop blockSize entry fuel (removeObj global browse) (global.heap browse).next
    else return global

def addNew (alloc : Allocator) (global : FoundObject) (entry : Entry) (lastCaught : Option Nat) :
    Except Fault FoundObject := do
  let (browse, allAreSmaller) ←
    browseLoop global.heap entry.blockIndex global.live.length global.firstCacheObj false
  let target := alloc.calloc global.live
  if global.blocksCached + entry.blocks ≥ 2 ^ 64 then .error .overflow
  else
    let global : FoundObject := ⟨Function.update global.heap target ⟨entry, none, none⟩, target :: global.live,
      global.firstCacheObj, global.blocksCached + entry.blocks⟩
    insertTarget global target browse lastCaught allAreSmaller

def ext2CacheAddSecurely (alloc : Allocator) (blockSize : Nat) : Nat → FoundObject → Entry → Except Fault FoundObject
  | 0, _, _ => .error .diverges
  | fuel + 1, global, entry => do
    let (cacheObj, lastCaught) ←
      catchLoop global.heap entry global.live.length global.firstCacheObj global.firstCacheObj
    match cacheObj with
    | none => addNew alloc global entry lastCaught
    | some cacheObj => do
      let global ← removeLoop blockSize entry global.live.length global (some cacheObj)
      ext2CacheAddSecurely alloc blockSize fuel global entry

/-! ## What can be observed -/

def walk (heap : Nat → CacheObject) : Nat → Option Nat → List Entry
  | 0, _ => []
  | _ + 1, none => []
  | fuel + 1, some a => (heap a).toEntry :: walk heap fuel (heap a).next

def FoundObject.entries : List Entry :=
  walk global.heap global.live.length global.firstCacheObj

end

def total (entries : List Entry) : Nat := (entries.map Entry.blocks).sum

def add (entries : List Entry) (entry : Entry) : List Entry :=
  entries.filter (·.blockIndex < entry.blockIndex) ++
    entry :: entries.filter (entry.blockIndex + entry.blocks ≤ ·.blockIndex)

end CoreX.Ext2.Cache

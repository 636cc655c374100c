import CoreX.Base.Word
import CoreX.Base.Memory
import CoreX.Base.Bits

/-!
# The block bitmap (`utilities/data_structures/bitmap.rs`)

A bitmap manages `bitmapSizeInBlocks` blocks of 4096 bytes from `memStart` on, one bit a block, set when
the block is used. The bytes behind the `Bitmap` pointer are a memory without bounds, as the pointer
arithmetic of the source sees them. `usize` arithmetic wraps.
-/

namespace CoreX.Bitmap

def blockSize : Nat := 4096

def blocksPerByte : Nat := 8

def invalidBlock : Nat := 2 ^ 64 - 1

structure DSBitmap where
  bitmap : Nat → BitVec 8
  (bitmapSizeInBlocks bitmapSizeInBytes memStart allocatedSizeInBlocks lastDeepFragmented : Nat)

/-! ## Conversion -/

section
variable (b : DSBitmap) (block : Nat)

def toPtr : Nat := Word.add b.memStart (Word.mul block blockSize)

def toBlock (ptr : Nat) : Nat := Word.sub ptr b.memStart / blockSize

def toBlockRoundUp (ptr : Nat) : Nat := Word.divRoundUp (Word.sub ptr b.memStart) blockSize

/-! ## Bitmap core -/

def bitmapGet : Bool :=
  (b.bitmap (block / blocksPerByte) &&& (1#8 <<< (block % blocksPerByte))) != 0#8

def bitmapSet (value : Bool) : DSBitmap :=
  let addr := block / blocksPerByte
  let offset := block % blocksPerByte
  { b with
    bitmap := Function.update b.bitmap addr
      (if value then b.bitmap addr ||| (1#8 <<< offset) else b.bitmap addr &&& ~~~(1#8 <<< offset)) }

/-! ## Region marking -/

def setBlocks (start stop : Nat) (val : Bool) : DSBitmap :=
  (List.range' start (stop - start)).foldl (fun b i => bitmapSet b i val) b

def markBlocks (start size : Nat) (val : Bool) : DSBitmap :=
  let hinted := if !val && start < b.lastDeepFragmented then
    { b with lastDeepFragmented := start } else b
  let marked := setBlocks hinted start (Word.add start size) val
  if val then
    { marked with allocatedSizeInBlocks := Word.add marked.allocatedSizeInBlocks size }
  else
    { marked with allocatedSizeInBlocks := Word.sub marked.allocatedSizeInBlocks size }

/-- First block and number of blocks that `MarkRegion` marks: outward rounding of the size for a used
region, inward rounding of both ends for a free one. -/
def regionBlocks (basePtr sizeBytes : Nat) (isUsed : Bool) : Nat × Nat :=
  if isUsed then (toBlock b basePtr, Word.divRoundUp sizeBytes blockSize)
  else (toBlockRoundUp b basePtr, sizeBytes / blockSize)

def markRegion (basePtr sizeBytes : Nat) (isUsed : Bool) : DSBitmap :=
  let r := regionBlocks b basePtr sizeBytes isUsed
  markBlocks b r.1 r.2 isUsed

/-! ## Allocation -/

def findLoop (blocks : Nat) : (left i regionStart regionSize : Nat) → DSBitmap → Nat × DSBitmap
  | 0, _, _, _, b => (invalidBlock, b)
  | left + 1, i, regionStart, regionSize, b =>
    if bitmapGet b i then findLoop blocks left (i + 1) (i + 1) 0 b
    else
      let b := if blocks = 1 then { b with lastDeepFragmented := regionStart + 1 } else b
      if regionSize + 1 ≥ blocks then (regionStart, b)
      else findLoop blocks left (i + 1) regionStart (regionSize + 1) b

def findFreeRegion (blocks : Nat) : Nat × DSBitmap :=
  findLoop blocks (b.bitmapSizeInBlocks - b.lastDeepFragmented) b.lastDeepFragmented
    b.lastDeepFragmented 0 b

def bitmapAllocate (blocks : Nat) : Nat × DSBitmap :=
  if blocks = 0 then (0, b)
  else
    let (region, b) := findFreeRegion b blocks
    if region = invalidBlock then (0, b)
    else
      let b := markBlocks b region blocks true
      (toPtr b region, b)

def bitmapFree (base blocks : Nat) : DSBitmap := markRegion b base (Word.mul blockSize blocks) false

/-! ## Pageframes -/

def bitmapAllocatePageframe : Nat × DSBitmap :=
  let (region, b) := findFreeRegion b 1
  let b := markBlocks b region 1 true
  (Word.add b.memStart (Word.mul region blockSize), b)

def bitmapFreePageframe (addr : Nat) : DSBitmap := markRegion b addr blockSize false

/-! ## Bits -/

theorem bitmapGet_eq (i : Nat) : bitmapGet b i = (b.bitmap (i / 8)).getLsbD (i % 8) :=
  Bits.and_one_shiftLeft_ne_zero _ (Nat.mod_lt i (by decide : 0 < 8))

theorem bitmapGet_bitmapSet (i j : Nat) (v : Bool) :
    bitmapGet (bitmapSet b i v) j = if j = i then v else bitmapGet b j := by
  rw [bitmapGet_eq, bitmapGet_eq]
  exact Bits.get_put b.bitmap i j v

end

end CoreX.Bitmap

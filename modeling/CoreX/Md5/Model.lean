import CoreX.Md5.Rfc

/-!
# The message digest of `utilities/md5.rs`

The context keeps the bytes that do not fill a block in `buffer`. A range that does not exist, or a
source of another length, is a panic: `none`.
-/

namespace CoreX.Md5

open Slices

structure MD5Ctx extends Registers where
  lo : UInt32
  hi : UInt32
  buffer : List.Vector UInt8 64
  block : Fin 16 → UInt32

def MD5Ctx.default : MD5Ctx :=
  { a := 0, b := 0, c := 0, d := 0, lo := 0, hi := 0, buffer := List.Vector.replicate 64 0, block := fun _ => 0 }

section
variable (x y z : UInt32)

def F : UInt32 := z ^^^ (x &&& (y ^^^ z))

def G : UInt32 := y ^^^ (z &&& (x ^^^ y))

def H : UInt32 := x ^^^ y ^^^ z

def H2 : UInt32 := x ^^^ (y ^^^ z)

def I : UInt32 := y ^^^ (x ||| ~~~z)

end

def step (f : UInt32 → UInt32 → UInt32 → UInt32) (a b c d x t : UInt32) (s : Nat) : UInt32 :=
  rotateLeft (a + f b c d + x + t) s + b

section Steps
variable (f : UInt32 → UInt32 → UInt32 → UInt32) (x t : UInt32) (s : Nat)

section
variable (r : Registers)

def Registers.stepA : Registers := { r with a := step f r.a r.b r.c r.d x t s }

def Registers.stepD : Registers := { r with d := step f r.d r.a r.b r.c x t s }

def Registers.stepC : Registers := { r with c := step f r.c r.d r.a r.b x t s }

def Registers.stepB : Registers := { r with b := step f r.b r.c r.d r.a x t s }

end

end Steps

section
variable (block : Fin 16 → UInt32) (r : Registers)

def round1 : Registers :=
  r
    |>.stepA F (block 0) 0xd76aa478 7
    |>.stepD F (block 1) 0xe8c7b756 12
    |>.stepC F (block 2) 0x242070db 17
    |>.stepB F (block 3) 0xc1bdceee 22
    |>.stepA F (block 4) 0xf57c0faf 7
    |>.stepD F (block 5) 0x4787c62a 12
    |>.stepC F (block 6) 0xa8304613 17
    |>.stepB F (block 7) 0xfd469501 22
    |>.stepA F (block 8) 0x698098d8 7
    |>.stepD F (block 9) 0x8b44f7af 12
    |>.stepC F (block 10) 0xffff5bb1 17
    |>.stepB F (block 11) 0x895cd7be 22
    |>.stepA F (block 12) 0x6b901122 7
    |>.stepD F (block 13) 0xfd987193 12
    |>.stepC F (block 14) 0xa679438e 17
    |>.stepB F (block 15) 0x49b40821 22

def round2 : Registers :=
  r
    |>.stepA G (block 1) 0xf61e2562 5
    |>.stepD G (block 6) 0xc040b340 9
    |>.stepC G (block 11) 0x265e5a51 14
    |>.stepB G (block 0) 0xe9b6c7aa 20
    |>.stepA G (block 5) 0xd62f105d 5
    |>.stepD G (block 10) 0x02441453 9
    |>.stepC G (block 15) 0xd8a1e681 14
    |>.stepB G (block 4) 0xe7d3fbc8 20
    |>.stepA G (block 9) 0x21e1cde6 5
    |>.stepD G (block 14) 0xc33707d6 9
    |>.stepC G (block 3) 0xf4d50d87 14
    |>.stepB G (block 8) 0x455a14ed 20
    |>.stepA G (block 13) 0xa9e3e905 5
    |>.stepD G (block 2) 0xfcefa3f8 9
    |>.stepC G (block 7) 0x676f02d9 14
    |>.stepB G (block 12) 0x8d2a4c8a 20

def round3 : Registers :=
  r
    |>.stepA H (block 5) 0xfffa3942 4
    |>.stepD H2 (block 8) 0x8771f681 11
    |>.stepC H (block 11) 0x6d9d6122 16
    |>.stepB H2 (block 14) 0xfde5380c 23
    |>.stepA H (block 1) 0xa4beea44 4
    |>.stepD H2 (block 4) 0x4bdecfa9 11
    |>.stepC H (block 7) 0xf6bb4b60 16
    |>.stepB H2 (block 10) 0xbebfbc70 23
    |>.stepA H (block 13) 0x289b7ec6 4
    |>.stepD H2 (block 0) 0xeaa127fa 11
    |>.stepC H (block 3) 0xd4ef3085 16
    |>.stepB H2 (block 6) 0x04881d05 23
    |>.stepA H (block 9) 0xd9d4d039 4
    |>.stepD H2 (block 12) 0xe6db99e5 11
    |>.stepC H (block 15) 0x1fa27cf8 16
    |>.stepB H2 (block 2) 0xc4ac5665 23

def round4 : Registers :=
  r
    |>.stepA I (block 0) 0xf4292244 6
    |>.stepD I (block 7) 0x432aff97 10
    |>.stepC I (block 14) 0xab9423a7 15
    |>.stepB I (block 5) 0xfc93a039 21
    |>.stepA I (block 12) 0x655b59c3 6
    |>.stepD I (block 3) 0x8f0ccc92 10
    |>.stepC I (block 10) 0xffeff47d 15
    |>.stepB I (block 1) 0x85845dd1 21
    |>.stepA I (block 8) 0x6fa87e4f 6
    |>.stepD I (block 15) 0xfe2ce6e0 10
    |>.stepC I (block 6) 0xa3014314 15
    |>.stepB I (block 13) 0x4e0811a1 21
    |>.stepA I (block 4) 0xf7537e82 6
    |>.stepD I (block 11) 0xbd3af235 10
    |>.stepC I (block 2) 0x2ad7d2bb 15
    |>.stepB I (block 9) 0xeb86d391 21

end

def getU32Le (input : Bytes) (index : Nat) : Option UInt32 := do
  let i := index * 4
  let b0 ← input[i]?
  let b1 ← input[i + 1]?
  let b2 ← input[i + 2]?
  let b3 ← input[i + 3]?
  return b0.toUInt32 ||| b1.toUInt32 <<< 8 ||| b2.toUInt32 <<< 16 ||| b3.toUInt32 <<< 24

def loadBlock (chunk : Bytes) (block : Fin 16 → UInt32) : Option (Fin 16 → UInt32) :=
  (List.finRange 16).foldlM (fun block i => (getU32Le chunk i.val).map (Function.update block i)) block

def bodyChunk (s : Registers × (Fin 16 → UInt32)) (chunk : Bytes) : Option (Registers × (Fin 16 → UInt32)) := do
  let block ← loadBlock chunk s.2
  let r := round4 block (round3 block (round2 block (round1 block s.1)))
  return (⟨r.a + s.1.a, r.b + s.1.b, r.c + s.1.c, r.d + s.1.d⟩, block)

section
variable (ctx : MD5Ctx) (data : Bytes)

def body : Option MD5Ctx := do
  let s ← (chunksExact 64 data).foldlM bodyChunk (ctx.toRegisters, ctx.block)
  return { ctx with toRegisters := s.1, block := s.2 }

/-! ## The interface -/

def md5Init : MD5Ctx :=
  { ctx with a := 0x67452301, b := 0xefcdab89, c := 0x98badcfe, d := 0x10325476, lo := 0, hi := 0 }

def used (lo : UInt32) : Nat := (lo &&& 0x3f).toNat

def clearLow (n : Nat) : Nat := n - (n &&& 0x3f)

def bodyBlocks (offset blocks : Nat) : Option (MD5Ctx × Nat) :=
  if 0 < blocks then do
    let part ← slice data offset (offset + blocks)
    let ctx ← body ctx part
    return (ctx, offset + blocks)
  else some (ctx, offset)

def updateBlocks (offset : Nat) : Option MD5Ctx := do
  let remaining := data.length - offset
  let p ← bodyBlocks ctx data offset (clearLow remaining)
  let rest ← slice data p.2 data.length
  let buffer ← copyFromSlice p.1.buffer 0 (remaining - clearLow remaining) rest
  return { p.1 with buffer }

def count : MD5Ctx :=
  let lo := ctx.lo + UInt32.ofNat data.length
  let hi := if lo < ctx.lo then ctx.hi + 1 else ctx.hi
  { ctx with lo := lo, hi := hi + UInt32.ofNat data.length >>> 29 }

def md5Update : Option MD5Ctx :=
  let savedLo := ctx.lo
  let ctx := count ctx data
  let used := used savedLo
  if used ≠ 0 then
    let available := 64 - used
    if data.length < available then do
      let buffer ← copyFromSlice ctx.buffer used (used + data.length) data
      return { ctx with buffer }
    else do
      let head ← slice data 0 available
      let buffer ← copyFromSlice ctx.buffer used 64 head
      let ctx ← body { ctx with buffer } buffer.val
      updateBlocks ctx data available
  else updateBlocks ctx data 0

def toLeBytes (x : UInt32) : Bytes := [x.toUInt8, (x >>> 8).toUInt8, (x >>> 16).toUInt8, (x >>> 24).toUInt8]

def finalPad : Option MD5Ctx := do
  let used := used ctx.lo
  let buffer ← copyFromSlice ctx.buffer used (used + 1) [0x80]
  let available := 64 - used
  if available < 8 then
    let buffer ← fill buffer (used + 1) 64 0
    let ctx ← body { ctx with buffer } buffer.val
    return { ctx with buffer := List.Vector.replicate 64 0 }
  else
    let buffer ← fill buffer (used + 1) 56 0
    return { ctx with buffer }

def md5Final : Option (Bytes × MD5Ctx) := do
  let ctx ← finalPad ctx
  let bitLenLo := ctx.lo <<< 3
  let bitLenHi := ctx.hi
  let buffer ← copyFromSlice ctx.buffer 56 60 (toLeBytes bitLenLo)
  let buffer ← copyFromSlice buffer 60 64 (toLeBytes bitLenHi)
  let ctx ← body { ctx with buffer } buffer.val
  return (toLeBytes ctx.a ++ toLeBytes ctx.b ++ toLeBytes ctx.c ++ toLeBytes ctx.d, MD5Ctx.default)

end

end CoreX.Md5

import Mathlib.Analysis.Complex.Trigonometric
import CoreX.Base.Slices
import CoreX.Base.Memory

/-!
# The MD5 message digest (RFC 1321)

The algorithm as section 3 of the RFC describes it, over lists of bytes. The table `T` is defined by
the sine, so nothing here can be run; the digits of `T` are computed in `Md5/Block`.
-/

namespace CoreX.Md5

structure Registers where
  (a b c d : UInt32)
  deriving DecidableEq

def rotateLeft (x : UInt32) (s : Nat) : UInt32 := ⟨x.toBitVec.rotateLeft s⟩

namespace Rfc

def littleEndian (width v : Nat) : Bytes := (List.range width).map fun i => UInt8.ofNat (v / 256 ^ i)

/-! ## Steps 1 and 2: the padding -/

/-- How many zero bytes bring the length to 56 modulo 64, after a first byte that is always added. -/
def zeros (length : Nat) : Nat := (119 - length % 64) % 64

def pad (message : Bytes) : Bytes :=
  message ++ 0x80 :: List.replicate (zeros message.length) 0 ++ littleEndian 8 (8 * message.length)

/-! ## Step 3: the buffer -/

def initial : Registers := ⟨0x67452301, 0xefcdab89, 0x98badcfe, 0x10325476⟩

/-! ## Step 4: the blocks -/

section
variable (x y z : UInt32)

def f : UInt32 := x &&& y ||| ~~~x &&& z

def g : UInt32 := x &&& z ||| y &&& ~~~z

def h : UInt32 := x ^^^ y ^^^ z

def i : UInt32 := y ^^^ (x ||| ~~~z)

end

def roundFunction : Nat → UInt32 → UInt32 → UInt32 → UInt32
  | 0 => f
  | 1 => g
  | 2 => h
  | _ => i

def wordIndex (n : Nat) : Nat :=
  match n / 16 with
  | 0 => n % 16
  | 1 => (5 * n + 1) % 16
  | 2 => (3 * n + 5) % 16
  | _ => 7 * n % 16

def shift (n : Nat) : Nat :=
  match n / 16 with
  | 0 => [7, 12, 17, 22].getD (n % 4) 0
  | 1 => [5, 9, 14, 20].getD (n % 4) 0
  | 2 => [4, 11, 16, 23].getD (n % 4) 0
  | _ => [6, 10, 15, 21].getD (n % 4) 0

/-- `T[i]`, the integer part of `4294967296` times `abs(sin(i))`. -/
noncomputable def sineTable (n : Nat) : UInt32 := UInt32.ofNat ⌊4294967296 * |Real.sin n|⌋₊

/-- `[abcd k s i]` denotes `a = b + ((a + F(b,c,d) + X[k] + T[i]) <<< s)`. -/
def operate (f : UInt32 → UInt32 → UInt32 → UInt32) (x t : UInt32) (s : Nat) (a b c d : UInt32) : UInt32 :=
  b + rotateLeft (a + f b c d + x + t) s

/-- The operations of the four rounds, from 0. The registers take turns: ABCD, DABC, CDAB, BCDA. -/
noncomputable def operation (x : Nat → UInt32) (r : Registers) (n : Nat) : Registers :=
  let op := operate (roundFunction (n / 16)) (x (wordIndex n)) (sineTable (n + 1)) (shift n)
  match n % 4 with
  | 0 => { r with a := op r.a r.b r.c r.d }
  | 1 => { r with d := op r.d r.a r.b r.c }
  | 2 => { r with c := op r.c r.d r.a r.b }
  | _ => { r with b := op r.b r.c r.d r.a }

def word (block : Bytes) (k : Nat) : UInt32 :=
  UInt32.ofNat ((block.getD (4 * k) 0).toNat + 256 * (block.getD (4 * k + 1) 0).toNat +
    65536 * (block.getD (4 * k + 2) 0).toNat + 16777216 * (block.getD (4 * k + 3) 0).toNat)

/-- The four rounds for one block, and the registers as they were before added. -/
noncomputable def processBlock (r : Registers) (block : Bytes) : Registers :=
  let r' := (List.range 64).foldl (operation (word block)) r
  ⟨r'.a + r.a, r'.b + r.b, r'.c + r.c, r'.d + r.d⟩

/-! ## Step 5: the output -/

def output (r : Registers) : Bytes :=
  littleEndian 4 r.a.toNat ++ littleEndian 4 r.b.toNat ++ littleEndian 4 r.c.toNat ++ littleEndian 4 r.d.toNat

noncomputable def md5 (message : Bytes) : Bytes :=
  output ((Slices.chunksExact 64 (pad message)).foldl processBlock initial)

end Rfc

end CoreX.Md5

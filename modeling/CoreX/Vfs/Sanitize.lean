import CoreX.Base.Segments
import CoreX.Base.Memory

/-!
# Path sanitising (`filesystems/vfs/vfs-sanitize.rs`)

A string is the list of its UTF-8 bytes. `none` is a panic: an index that is out of bounds, or a slice or
a range that is reversed or does not start and end between two characters.
-/

namespace CoreX.Vfs

def slash : UInt8 := 47
def dot : UInt8 := 46

/-- `bytes[i] as char`, pushed to a string: the character with the code of the byte. -/
def pushByte (b : UInt8) : Bytes :=
  if b < 128 then [b] else [(0xC0 : UInt8) ||| (b >>> 6), (0x80 : UInt8) ||| (b &&& 0x3F)]

/-- The loop of `fs_sanitize_copy_safe` from byte `i` on: what it pushes. The bytes `c` and `d` are
`bytes[i]` and `bytes[i + 1]`. -/
def copySafeLoop : Bytes → Option Bytes
  | [] => some []
  | [c] => if c = slash then some [] else some (pushByte c)
  | c :: d :: rest =>
    if c = slash ∧ d = slash then copySafeLoop (d :: rest)
    else if c = slash ∧ d = dot then
      -- `bytes[i + 2]` is read before `i + 2 == bytes.len()` is asked
      match rest.head? with
      | none => none
      | some e => if e = slash then copySafeLoop rest else (copySafeLoop (d :: rest)).map (pushByte c ++ ·)
    else (copySafeLoop (d :: rest)).map (pushByte c ++ ·)

def fsSanitizeCopySafe (filename : Bytes) : Option Bytes :=
  (copySafeLoop filename).map fun safe => if safe = [] then [slash] else safe

def isCharBoundary (s : Bytes) (i : Nat) : Bool :=
  match s[i]? with
  | none => i == s.length
  | some b => i == 0 || b &&& 0xC0 != 0x80

def sliceTo (s : Bytes) (i : Nat) : Option Bytes :=
  if isCharBoundary s i then some (s.take i) else none

def removeRange (s : Bytes) (start stop : Nat) : Option Bytes :=
  if start ≤ stop ∧ isCharBoundary s start ∧ isCharBoundary s stop then
    some (s.take start ++ s.drop stop)
  else none

def resolveLoop : Nat → Bytes → Option Bytes
  | 0, _ => none
  | fuel + 1, safe =>
    match Segments.find [slash, dot, dot, slash] safe with
    | some pos =>
      (sliceTo safe pos).bind fun head =>
        (removeRange safe ((Segments.rfind slash head).getD 0) (pos + 3)).bind (resolveLoop fuel)
    | none =>
      if [slash, dot, dot].isSuffixOf safe then
        (sliceTo safe (safe.length - 3)).bind fun head =>
          (removeRange safe ((Segments.rfind slash head).getD 0) safe.length).bind (resolveLoop fuel)
      else some safe

def fsSanitize (pre filename : Bytes) : Option Bytes :=
  (if filename.head? ≠ some slash then
    (fsSanitizeCopySafe filename).bind fun safe =>
      fsSanitizeCopySafe (pre ++ (if pre.getLast? = some slash then [] else [slash]) ++ safe)
  else fsSanitizeCopySafe filename).bind fun safe =>
    (resolveLoop (safe.length + 1) safe).map fun safe => if safe = [] then [slash] else safe

end CoreX.Vfs

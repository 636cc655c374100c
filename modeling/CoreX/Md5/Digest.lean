import CoreX.Base.Run
import CoreX.Md5.Block

/-!
# The digest of a message

The message that the context has taken is `full ++ tail`: the blocks of `full` are processed, and `tail` is in the
buffer (`Absorbed`). Every update keeps this, wherever the pieces are cut (`md5Update_absorbs`).
-/

namespace CoreX.Md5

open Slices List Nat

/-- The state after some message: its blocks are processed and the rest is in the buffer. -/
structure Absorbed (ctx : MD5Ctx) (full tail : Bytes) : Prop where
  dvd : 64 ∣ full.length
  short : tail.length < 64
  registers : ctx.toRegisters = (chunksExact 64 full).foldl Rfc.processBlock Rfc.initial
  buffer : ctx.buffer.val.take tail.length = tail
  lo : ctx.lo.toNat = full.length + tail.length
  hi : ctx.hi = 0

theorem and_low (n : Nat) : n &&& 0x3f = n % 64 := and_two_pow_sub_one_eq_mod n 6

theorem clearLow_eq (n : Nat) : clearLow n = n / 64 * 64 := by
  rw [clearLow, and_low]
  omega

theorem Absorbed.used_eq {ctx : MD5Ctx} {full tail : Bytes} (h : Absorbed ctx full tail) :
    used ctx.lo = tail.length := by
  obtain ⟨k, hk⟩ := h.dvd
  have hShort := h.short
  have hMask : UInt32.toNat 0x3f = 0x3f := rfl
  rw [used, UInt32.toNat_and, hMask, and_low, h.lo]
  omega

theorem count_eq {ctx : MD5Ctx} {n : Nat} {data : Bytes} (hLo : ctx.lo.toNat = n) (hHi : ctx.hi = 0)
    (h : n + data.length < 2 ^ 29) : (count ctx data).lo.toNat = n + data.length ∧ (count ctx data).hi = 0 ∧
      (count ctx data).toRegisters = ctx.toRegisters ∧ (count ctx data).buffer = ctx.buffer := by
  have hAdd : (ctx.lo + UInt32.ofNat data.length).toNat = n + data.length := by
    rw [UInt32.toNat_add, UInt32.toNat_ofNat', hLo]
    omega
  have hWrap : ¬ ctx.lo + UInt32.ofNat data.length < ctx.lo := by
    rw [UInt32.lt_iff_toNat_lt, hAdd, hLo]
    omega
  have hShift : UInt32.ofNat data.length >>> 29 = 0 := by
    apply UInt32.toNat_inj.1
    rw [UInt32.toNat_shiftRight, UInt32.toNat_ofNat', shiftRight_eq_div_pow]
    have hTwentyNine : UInt32.toNat 29 % 32 = 29 := by decide
    rw [hTwentyNine]
    have hLength : data.length % 2 ^ 32 / 2 ^ 29 = 0 := by omega
    rw [hLength]
    rfl
  refine ⟨hAdd, ?_, rfl, rfl⟩
  simp only [count, if_neg hWrap, hHi, hShift]
  rfl

/-! ## Updates -/

theorem bodyBlocks_eq (ctx : MD5Ctx) {data : Bytes} {offset blocks : Nat} (h : offset + blocks ≤ data.length) :
    ∃ block, bodyBlocks ctx data offset blocks =
      some (ctx.processed ((data.drop offset).take blocks) block, offset + blocks) := by
  by_cases hPos : 0 < blocks
  · obtain ⟨block, hBody⟩ := body_eq ctx ((data.drop offset).take blocks)
    have hSlice : slice data offset (offset + blocks) = some ((data.drop offset).take blocks) := by
      rw [slice_eq_some (Nat.le_add_right _ _) h, drop_take, Nat.add_sub_cancel_left]
    refine ⟨block, ?_⟩
    rw [bodyBlocks, if_pos hPos, hSlice]
    simp only [Option.bind_eq_bind, Option.bind_some, hBody]
    rfl
  · have hZero : blocks = 0 := by omega
    refine ⟨ctx.block, ?_⟩
    rw [bodyBlocks, if_neg hPos, hZero, take_zero]
    rfl

theorem updateBlocks_absorbs (ctx : MD5Ctx) {full : Bytes} (data : Bytes) {offset : Nat}
    (hOffset : offset ≤ data.length) (hDvd : 64 ∣ full.length)
    (hRegs : ctx.toRegisters = (chunksExact 64 full).foldl Rfc.processBlock Rfc.initial)
    (hLo : ctx.lo.toNat = full.length + (data.length - offset)) (hHi : ctx.hi = 0) :
    ∃ ctx' full' tail', updateBlocks ctx data offset = some ctx' ∧
      full' ++ tail' = full ++ data.drop offset ∧ Absorbed ctx' full' tail' := by
  set remaining := data.length - offset with hRemaining
  set blocks := clearLow remaining with hBlocks
  have hBlocksEq : blocks = remaining / 64 * 64 := clearLow_eq _
  have hTake : ((data.drop offset).take blocks).length = blocks := by
    rw [length_take, length_drop]
    omega
  have hDrop : ((data.drop offset).drop blocks).length = remaining - blocks := by
    rw [length_drop, length_drop]
  obtain ⟨block, hBody⟩ := bodyBlocks_eq ctx (show offset + blocks ≤ data.length by omega)
  have hSlice : slice data (offset + blocks) data.length = some ((data.drop offset).drop blocks) := by
    rw [slice_eq_some (by omega) (le_refl _), take_length, drop_drop]
  obtain ⟨buffer, hCopy, hVal⟩ := copyFromSlice_eq_some ctx.buffer _ (zero_le _)
    (show remaining - blocks ≤ 64 by omega) (hDrop.trans (Nat.sub_zero _).symm)
  refine ⟨{ ctx.processed ((data.drop offset).take blocks) block with buffer },
    full ++ (data.drop offset).take blocks, (data.drop offset).drop blocks, ?_, ?_, ?_⟩
  · rw [updateBlocks]
    simp only [← hRemaining, ← hBlocks, hBody, Option.bind_eq_bind, Option.bind_some, hSlice]
    rw [MD5Ctx.processed_buffer, hCopy]
    rfl
  · rw [append_assoc, take_append_drop]
  · constructor
    · rw [length_append, hTake, hBlocksEq]
      exact dvd_add hDvd (dvd_mul_left 64 _)
    · omega
    · rw [chunksExact_append hDvd, foldl_append, ← hRegs]
      rfl
    · rw [hVal, take_zero, nil_append, take_left]
    · rw [MD5Ctx.processed_lo, hLo, length_append, hTake, hDrop]
      omega
    · exact hHi

section Update
variable {ctx : MD5Ctx} {full tail data : Bytes} (h : Absorbed ctx full tail)
  (hLength : full.length + tail.length + data.length < 2 ^ 29)
include h hLength

theorem md5Update_fits (hUsed : tail.length ≠ 0) (hFits : data.length < 64 - tail.length) :
    ∃ ctx', md5Update ctx data = some ctx' ∧ Absorbed ctx' full (tail ++ data) := by
  obtain ⟨hLo, hHi, hRegs, hBuffer⟩ := count_eq h.lo h.hi hLength
  obtain ⟨buffer, hCopy, hVal⟩ := copyFromSlice_eq_some (count ctx data).buffer data
    (le_add_right tail.length data.length) (by omega) (by omega)
  refine ⟨{ count ctx data with buffer }, ?_, ?_⟩
  · rw [md5Update]
    simp only [h.used_eq]
    rw [if_pos hUsed, if_pos hFits, hCopy]
    rfl
  · constructor
    · exact h.dvd
    · rw [length_append]
      omega
    · exact hRegs.trans h.registers
    · rw [hVal, hBuffer, h.buffer, take_left]
    · rw [hLo, length_append, add_assoc]
    · exact hHi

theorem md5Update_fills (hUsed : tail.length ≠ 0) (hFits : ¬ data.length < 64 - tail.length) :
    ∃ ctx' full' tail', md5Update ctx data = some ctx' ∧ full' ++ tail' = full ++ tail ++ data ∧
      Absorbed ctx' full' tail' := by
  obtain ⟨hLo, hHi, hRegs, hBuffer⟩ := count_eq h.lo h.hi hLength
  have hShort := h.short
  have hSize := ctx.buffer.property
  have hHead : (data.take (64 - tail.length)).length = 64 - tail.length := by
    rw [length_take]
    omega
  have hSlice : slice data 0 (64 - tail.length) = some (data.take (64 - tail.length)) := by
    rw [slice_eq_some (zero_le _) (by omega), drop_zero]
  obtain ⟨buffer, hCopy, hVal⟩ := copyFromSlice_eq_some (count ctx data).buffer _
    (show tail.length ≤ 64 by omega) le_rfl hHead
  have hBlock : buffer.val = tail ++ data.take (64 - tail.length) := by
    rw [hVal, hBuffer, h.buffer, drop_eq_nil_of_le hSize.le, append_nil]
  obtain ⟨block, hBody⟩ := body_eq { count ctx data with buffer } buffer.val
  have hDvd : 64 ∣ (full ++ buffer.val).length := by
    rw [length_append, buffer.property]
    exact dvd_add h.dvd (dvd_refl 64)
  have hProcessed : (chunksExact 64 buffer.val).foldl Rfc.processBlock (count ctx data).toRegisters =
      (chunksExact 64 (full ++ buffer.val)).foldl Rfc.processBlock Rfc.initial := by
    rw [chunksExact_append h.dvd, foldl_append, hRegs, h.registers]
  have hCount : (count ctx data).lo.toNat =
      (full ++ buffer.val).length + (data.length - (64 - tail.length)) := by
    rw [length_append, buffer.property, hLo]
    omega
  obtain ⟨ctx', full', tail', hUpdate, hMessage, hAbsorbed⟩ := updateBlocks_absorbs
    (MD5Ctx.processed { count ctx data with buffer } buffer.val block) data
    (show 64 - tail.length ≤ data.length by omega) hDvd hProcessed hCount hHi
  refine ⟨ctx', full', tail', ?_, ?_, hAbsorbed⟩
  · rw [md5Update]
    simp only [h.used_eq]
    rw [if_pos hUsed, if_neg hFits, hSlice]
    simp only [Option.bind_eq_bind, Option.bind_some, hCopy, hBody]
    exact hUpdate
  · rw [hMessage, hBlock, append_assoc, append_assoc, take_append_drop, append_assoc]

theorem md5Update_absorbs :
    ∃ ctx' full' tail', md5Update ctx data = some ctx' ∧ full' ++ tail' = full ++ tail ++ data ∧
      Absorbed ctx' full' tail' := by
  by_cases hUsed : tail.length ≠ 0
  · by_cases hFits : data.length < 64 - tail.length
    · obtain ⟨ctx', hUpdate, hAbsorbed⟩ := md5Update_fits h hLength hUsed hFits
      exact ⟨ctx', full, tail ++ data, hUpdate, (append_assoc _ _ _).symm, hAbsorbed⟩
    · exact md5Update_fills h hLength hUsed hFits
  · -- the buffer is empty
    obtain ⟨hLo, hHi, hRegs, -⟩ := count_eq h.lo h.hi hLength
    have hNil : tail = [] := length_eq_zero_iff.1 (not_not.1 hUsed)
    subst hNil
    obtain ⟨ctx', full', tail', hUpdate, hMessage, hAbsorbed⟩ := updateBlocks_absorbs
      (count ctx data) data (zero_le _) h.dvd (hRegs.trans h.registers)
      (by simpa using hLo) hHi
    refine ⟨ctx', full', tail', ?_, ?_, hAbsorbed⟩
    · rw [md5Update]
      simp only [h.used_eq]
      rw [if_neg hUsed]
      exact hUpdate
    · rw [hMessage, drop_zero, append_nil]

end Update

theorem run_md5Update_absorbs {ctx : MD5Ctx} {full tail : Bytes} (pieces : List Bytes)
    (h : Absorbed ctx full tail) (hLength : full.length + tail.length + pieces.flatten.length < 2 ^ 29) :
    ∃ ctx' full' tail', Run.run md5Update ctx pieces = some ctx' ∧
      full' ++ tail' = full ++ tail ++ pieces.flatten ∧ Absorbed ctx' full' tail' := by
  induction pieces generalizing ctx full tail with
  | nil => exact ⟨ctx, full, tail, rfl, (append_nil _).symm, h⟩
  | cons data pieces ih =>
    rw [flatten_cons, length_append] at hLength
    obtain ⟨ctx₁, full₁, tail₁, hStep, hMessage₁, h₁⟩ :=
      md5Update_absorbs h (show full.length + tail.length + data.length < 2 ^ 29 by omega)
    have hLength₁ := congrArg length hMessage₁
    simp only [length_append] at hLength₁
    obtain ⟨ctx₂, full₂, tail₂, hRun, hMessage₂, h₂⟩ := ih h₁ (by omega)
    refine ⟨ctx₂, full₂, tail₂, Run.run_cons.2 ⟨ctx₁, hStep, hRun⟩, ?_, h₂⟩
    rw [hMessage₂, hMessage₁, flatten_cons, append_assoc]

/-! ## The end of the message -/

theorem littleEndian_append_zeros {v : Nat} (hv : v < 2 ^ 32) :
    Rfc.littleEndian 8 v = Rfc.littleEndian 4 v ++ Rfc.littleEndian 4 0 := by
  have hHigh (i : Nat) : v / 256 ^ (4 + i) = 0 / 256 ^ i := by
    rw [Nat.pow_add, ← Nat.div_div_eq_div_mul, Nat.div_eq_of_lt (show v < 256 ^ 4 by omega)]
  have hRange : range 8 = range 4 ++ (range 4).map (4 + ·) := by decide
  rw [Rfc.littleEndian, hRange, map_append, map_map]
  congr 1
  apply map_congr_left
  intro i _
  rw [Function.comp_apply, hHigh]

theorem toLeBytes_eq (x : UInt32) : toLeBytes x = Rfc.littleEndian 4 x.toNat := by
  have hShift (k : Nat) (hk : k < 32) : (x >>> UInt32.ofNat k).toUInt8 = UInt8.ofNat (x.toNat / 2 ^ k) := by
    apply UInt8.toNat_inj.1
    rw [UInt32.toNat_toUInt8, UInt32.toNat_shiftRight, UInt32.toNat_ofNat', UInt8.toNat_ofNat',
      shiftRight_eq_div_pow, mod_eq_of_lt (show k < 2 ^ 32 by omega), mod_eq_of_lt hk]
  have h0 : x.toUInt8 = UInt8.ofNat (x.toNat / 2 ^ 0) := by
    apply UInt8.toNat_inj.1
    rw [UInt32.toNat_toUInt8, UInt8.toNat_ofNat', Nat.pow_zero, Nat.div_one]
  have h8 := hShift 8 (by decide)
  have h16 := hShift 16 (by decide)
  have h24 := hShift 24 (by decide)
  exact cons_eq_cons.2 ⟨h0, cons_eq_cons.2 ⟨h8, cons_eq_cons.2 ⟨h16, cons_eq_cons.2 ⟨h24, rfl⟩⟩⟩⟩

theorem finalPad_none {ctx : MD5Ctx} {full tail : Bytes} (h : Absorbed ctx full tail)
    (hTail : tail.length = 56) : finalPad ctx = none := by
  obtain ⟨buffer, hCopy, -⟩ := copyFromSlice_eq_some ctx.buffer [0x80]
    (le_add_right 56 1) (by decide) rfl
  rw [finalPad, h.used_eq, hTail]
  simp only [hCopy, Option.bind_eq_bind, Option.bind_some]
  rw [if_neg (by decide), fill, copyFromSlice, dif_neg (by decide)]
  rfl

/-- The bytes after the message, up to the length, are those of the RFC. What is not processed yet is
in the first 56 bytes of the buffer. -/
structure Padded (ctx : MD5Ctx) (message : Bytes) (ctx' : MD5Ctx) (full front : Bytes) : Prop where
  message_eq : full ++ front = message ++ 0x80 :: List.replicate (Rfc.zeros message.length) 0
  dvd : 64 ∣ full.length
  length : front.length = 56
  registers : ctx'.toRegisters = (chunksExact 64 full).foldl Rfc.processBlock Rfc.initial
  buffer : ctx'.buffer.val.take 56 = front
  lo : ctx'.lo = ctx.lo
  hi : ctx'.hi = ctx.hi

section FinalPad
variable {ctx : MD5Ctx} {full tail : Bytes} (h : Absorbed ctx full tail)
include h

theorem mark_eq : ∃ marked : List.Vector UInt8 64,
    copyFromSlice ctx.buffer tail.length (tail.length + 1) [0x80] = some marked ∧
      marked.val.take (tail.length + 1) = tail ++ [0x80] := by
  have hShort := h.short
  obtain ⟨marked, hMark, hMarked⟩ := copyFromSlice_eq_some ctx.buffer [0x80]
    (Nat.le_add_right tail.length 1) (by omega) (Nat.add_sub_cancel_left _ _).symm
  refine ⟨marked, hMark, ?_⟩
  rw [hMarked, h.buffer]
  exact take_left' (by simp)

theorem zeros_eq : Rfc.zeros (full ++ tail).length = (119 - tail.length) % 64 := by
  obtain ⟨k, hk⟩ := h.dvd
  have hShort := h.short
  rw [Rfc.zeros, length_append, show (full.length + tail.length) % 64 = tail.length by omega]

theorem finalPad_closes (hAvailable : 64 - tail.length < 8) :
    ∃ ctx' full' front, finalPad ctx = some ctx' ∧ Padded ctx (full ++ tail) ctx' full' front := by
  have hShort := h.short
  obtain ⟨marked, hMark, hTake⟩ := mark_eq h
  obtain ⟨buffer, hFill, hVal⟩ := copyFromSlice_eq_some marked
    (replicate (64 - (tail.length + 1)) (0 : UInt8)) (show tail.length + 1 ≤ 64 by omega) le_rfl
    length_replicate
  rw [hTake, drop_eq_nil_of_le marked.property.le, append_nil] at hVal
  obtain ⟨block, hBody⟩ := body_eq { ctx with buffer } buffer.val
  refine ⟨{ MD5Ctx.processed { ctx with buffer } buffer.val block with
      buffer := List.Vector.replicate 64 0 }, full ++ buffer.val, replicate 56 0, ?_,
    ?_, ?_, length_replicate, ?_, rfl, rfl, rfl⟩
  · rw [finalPad, h.used_eq]
    simp only [hMark, Option.bind_eq_bind, Option.bind_some]
    rw [if_pos hAvailable, fill, hFill]
    simp only [Option.bind_some, hBody]
    rfl
  · have hZeros : (119 - tail.length) % 64 = 64 - (tail.length + 1) + 56 := by omega
    rw [zeros_eq h, hVal, hZeros, replicate_add]
    simp
  · rw [length_append, buffer.property]
    exact dvd_add h.dvd (dvd_refl 64)
  · rw [chunksExact_append h.dvd, foldl_append, ← h.registers]
    rfl

theorem finalPad_fits (hTail : tail.length < 56) :
    ∃ ctx' full' front, finalPad ctx = some ctx' ∧ Padded ctx (full ++ tail) ctx' full' front := by
  obtain ⟨marked, hMark, hTake⟩ := mark_eq h
  obtain ⟨buffer, hFill, hVal⟩ := copyFromSlice_eq_some marked
    (replicate (56 - (tail.length + 1)) (0 : UInt8)) (show tail.length + 1 ≤ 56 by omega) (by decide)
    length_replicate
  rw [hTake] at hVal
  have hFront : (tail ++ [0x80] ++ replicate (56 - (tail.length + 1)) (0 : UInt8)).length = 56 := by
    simp only [length_append, length_replicate, length_singleton]
    omega
  refine ⟨{ ctx with buffer }, full, _, ?_, ?_, h.dvd, hFront, h.registers, ?_, rfl, rfl⟩
  · rw [finalPad, h.used_eq]
    simp only [hMark, Option.bind_eq_bind, Option.bind_some]
    rw [if_neg (by omega), fill, hFill]
    rfl
  · have hZeros : (119 - tail.length) % 64 = 56 - (tail.length + 1) := by omega
    rw [zeros_eq h, hZeros]
    simp
  · rw [hVal]
    exact take_left' hFront

theorem finalPad_some (hTail : tail.length ≠ 56) :
    ∃ ctx' full' front, finalPad ctx = some ctx' ∧ Padded ctx (full ++ tail) ctx' full' front := by
  by_cases hAvailable : 64 - tail.length < 8
  · exact finalPad_closes h hAvailable
  · exact finalPad_fits h (by omega)

end FinalPad

theorem md5Final_eq {ctx : MD5Ctx} {full tail : Bytes} (h : Absorbed ctx full tail)
    (hLength : full.length + tail.length < 2 ^ 29) :
    md5Final ctx = if tail.length = 56 then none else some (Rfc.md5 (full ++ tail), MD5Ctx.default) := by
  by_cases hTail : tail.length = 56
  · rw [if_pos hTail, md5Final, finalPad_none h hTail]
    rfl
  obtain ⟨ctx', full', front, hPad, hMessage, hDvd, hFront, hRegs, hBuffer, hLo, hHi⟩ := finalPad_some h hTail
  have hBits : (ctx'.lo <<< 3).toNat = 8 * (full.length + tail.length) := by
    have hThree : UInt32.toNat 3 % 32 = 3 := by decide
    rw [UInt32.toNat_shiftLeft, hThree, hLo, h.lo, shiftLeft_eq]
    omega
  have hZero : ctx'.hi = 0 := hHi.trans h.hi
  obtain ⟨low, hCopyLow, hLow⟩ := copyFromSlice_eq_some ctx'.buffer (toLeBytes (ctx'.lo <<< 3))
    (show 56 ≤ 60 by decide) (by decide) rfl
  obtain ⟨buffer, hCopyHigh, hHigh⟩ := copyFromSlice_eq_some low (toLeBytes ctx'.hi)
    (show 60 ≤ 64 by decide) (by decide) rfl
  obtain ⟨block, hBody⟩ := body_eq { ctx' with buffer } buffer.val
  have hBlock : full' ++ buffer.val = Rfc.pad (full ++ tail) := by
    have hTake : low.val.take 60 = front ++ toLeBytes (ctx'.lo <<< 3) := by
      rw [hLow, hBuffer]
      exact take_left' (by simp [hFront, toLeBytes])
    rw [hHigh, hTake, drop_eq_nil_of_le low.property.le, append_nil, toLeBytes_eq, toLeBytes_eq,
      hBits, hZero, ← append_assoc, ← append_assoc, hMessage, Rfc.pad, length_append,
      littleEndian_append_zeros (by omega), append_assoc]
    rfl
  rw [if_neg hTail, md5Final, hPad]
  simp only [Option.bind_eq_bind, Option.bind_some, hCopyLow, hCopyHigh, hBody]
  have hDigest : (chunksExact 64 (Rfc.pad (full ++ tail))).foldl Rfc.processBlock Rfc.initial =
      (MD5Ctx.processed { ctx' with buffer } buffer.val block).toRegisters := by
    rw [← hBlock, chunksExact_append hDvd, foldl_append, ← hRegs]
    rfl
  rw [Rfc.md5, hDigest, Rfc.output, ← toLeBytes_eq, ← toLeBytes_eq, ← toLeBytes_eq, ← toLeBytes_eq]
  rfl

/-! ## The whole message -/

section
variable (ctx : MD5Ctx) (pieces : List Bytes)

def md5Pieces : Option Bytes :=
  ((Run.run md5Update (md5Init ctx) pieces).bind md5Final).map Prod.fst

theorem md5Pieces_eq (h : pieces.flatten.length < 2 ^ 29) :
    md5Pieces ctx pieces = if pieces.flatten.length % 64 = 56 then none else some (Rfc.md5 pieces.flatten) := by
  have hInit : Absorbed (md5Init ctx) [] [] := ⟨⟨0, rfl⟩, by decide, rfl, rfl, rfl, rfl⟩
  obtain ⟨ctx', full, tail, hRun, hMessage, hAbsorbed⟩ := run_md5Update_absorbs pieces hInit (by simpa using h)
  rw [nil_append, nil_append] at hMessage
  have hLength := congrArg length hMessage
  rw [length_append] at hLength
  obtain ⟨k, hk⟩ := hAbsorbed.dvd
  have hShort := hAbsorbed.short
  have hTail : pieces.flatten.length % 64 = 56 ↔ tail.length = 56 := by omega
  rw [md5Pieces, hRun, Option.bind_some, md5Final_eq hAbsorbed (by omega), hMessage]
  by_cases h56 : tail.length = 56
  · rw [if_pos h56, if_pos (hTail.2 h56)]
    rfl
  · rw [if_neg h56, if_neg (mt hTail.1 h56)]
    rfl

end

-- a test vector of the RFC: the digest of `abc`
example : md5Pieces MD5Ctx.default [[0x61], [0x62, 0x63]] =
    some [0x90, 0x01, 0x50, 0x98, 0x3c, 0xd2, 0x4f, 0xb0, 0xd6, 0x96, 0x3f, 0x7d, 0x28, 0xe1, 0x7f, 0x72] := by
  decide +kernel

/-- **Messages below `2 ^ 29` bytes**: however the message is cut, the digest is that of the RFC exactly
if the length is not 56 modulo 64. -/
theorem md5Pieces_rfc_iff (ctx : MD5Ctx) (pieces : List Bytes) (h : pieces.flatten.length < 2 ^ 29) :
    md5Pieces ctx pieces = some (Rfc.md5 pieces.flatten) ↔ pieces.flatten.length % 64 ≠ 56 := by
  rw [md5Pieces_eq ctx pieces h]
  by_cases h56 : pieces.flatten.length % 64 = 56
  · rw [if_pos h56]
    exact ⟨fun hNone => absurd hNone (by simp), fun hNot => absurd h56 hNot⟩
  · rw [if_neg h56]
    exact ⟨fun _ => h56, fun _ => rfl⟩

/-- The text `message digest`, in two pieces. -/
theorem md5Pieces_rfc_iff_text :
    [[0x6D, 0x65, 0x73, 0x73, 0x61, 0x67, 0x65], [0x20, 0x64, 0x69, 0x67, 0x65, 0x73, 0x74]].flatten.length %
        64 ≠ 56 ∧ md5Pieces MD5Ctx.default
        [[0x6D, 0x65, 0x73, 0x73, 0x61, 0x67, 0x65], [0x20, 0x64, 0x69, 0x67, 0x65, 0x73, 0x74]] =
      some (Rfc.md5 [0x6D, 0x65, 0x73, 0x73, 0x61, 0x67, 0x65, 0x20, 0x64, 0x69, 0x67, 0x65, 0x73, 0x74]) :=
  ⟨by decide, (md5Pieces_rfc_iff MD5Ctx.default
    [[0x6D, 0x65, 0x73, 0x73, 0x61, 0x67, 0x65], [0x20, 0x64, 0x69, 0x67, 0x65, 0x73, 0x74]]
    (by decide)).2 (by decide)⟩

/-- A message of 56 bytes ends in a panic. -/
theorem md5Pieces_panics : md5Pieces MD5Ctx.default [List.replicate 56 0x61] = none := by
  decide +kernel

end CoreX.Md5

import CoreX.Base.Bits
import CoreX.Base.Sine
import CoreX.Md5.Model

/-!
# One block

The sixteen steps of each round are the sixteen operations that the RFC lists for it, with the
functions in another form and the digits of `T` written out.
-/

namespace CoreX.Md5

open Slices List UInt32

def sineDigits : List Nat :=
  [ 0xd76aa478, 0xe8c7b756, 0x242070db, 0xc1bdceee, 0xf57c0faf, 0x4787c62a, 0xa8304613, 0xfd469501,
    0x698098d8, 0x8b44f7af, 0xffff5bb1, 0x895cd7be, 0x6b901122, 0xfd987193, 0xa679438e, 0x49b40821,
    0xf61e2562, 0xc040b340, 0x265e5a51, 0xe9b6c7aa, 0xd62f105d, 0x02441453, 0xd8a1e681, 0xe7d3fbc8,
    0x21e1cde6, 0xc33707d6, 0xf4d50d87, 0x455a14ed, 0xa9e3e905, 0xfcefa3f8, 0x676f02d9, 0x8d2a4c8a,
    0xfffa3942, 0x8771f681, 0x6d9d6122, 0xfde5380c, 0xa4beea44, 0x4bdecfa9, 0xf6bb4b60, 0xbebfbc70,
    0x289b7ec6, 0xeaa127fa, 0xd4ef3085, 0x04881d05, 0xd9d4d039, 0xe6db99e5, 0x1fa27cf8, 0xc4ac5665,
    0xf4292244, 0x432aff97, 0xab9423a7, 0xfc93a039, 0x655b59c3, 0x8f0ccc92, 0xffeff47d, 0x85845dd1,
    0x6fa87e4f, 0xfe2ce6e0, 0xa3014314, 0x4e0811a1, 0xf7537e82, 0xbd3af235, 0x2ad7d2bb, 0xeb86d391 ]

theorem sineDigits_enclosed : ∀ n : Fin 64, sineDigits.getD n 0 * Sine.scale ^ (n.val + 1) * Sine.precision +
        4294967296 * (n.val + 1) * 21 * Sine.scale ^ (n.val + 1) ≤
      4294967296 * (Sine.power (n.val + 1)).2.natAbs * Sine.precision ∧
    4294967296 * (Sine.power (n.val + 1)).2.natAbs * Sine.precision +
        4294967296 * (n.val + 1) * 21 * Sine.scale ^ (n.val + 1) <
      (sineDigits.getD n 0 + 1) * Sine.scale ^ (n.val + 1) * Sine.precision := by
  decide +kernel

theorem sineTable_eq {n : Nat} (h : n < 64) : Rfc.sineTable (n + 1) = ofNat (sineDigits.getD n 0) := by
  obtain ⟨hLow, hHigh⟩ := sineDigits_enclosed ⟨n, h⟩
  have hFloor := Sine.floor_mul_abs_sin 4294967296 (n + 1) (sineDigits.getD n 0) hLow hHigh
  rw [Rfc.sineTable, ← hFloor]
  rfl

theorem F_eq : F = Rfc.f := by
  funext x y z
  apply UInt32.toBitVec_inj.1
  apply BitVec.eq_of_getLsbD_eq
  intro i hi
  simp only [F, Rfc.f, UInt32.toBitVec_xor, UInt32.toBitVec_and, UInt32.toBitVec_or, UInt32.toBitVec_not,
    BitVec.getLsbD_xor, BitVec.getLsbD_and, BitVec.getLsbD_or, BitVec.getLsbD_not, hi, decide_true]
  cases x.toBitVec.getLsbD i <;> cases y.toBitVec.getLsbD i <;> cases z.toBitVec.getLsbD i <;> rfl

theorem G_eq : G = Rfc.g := by
  funext x y z
  apply UInt32.toBitVec_inj.1
  apply BitVec.eq_of_getLsbD_eq
  intro i hi
  simp only [G, Rfc.g, UInt32.toBitVec_xor, UInt32.toBitVec_and, UInt32.toBitVec_or, UInt32.toBitVec_not,
    BitVec.getLsbD_xor, BitVec.getLsbD_and, BitVec.getLsbD_or, BitVec.getLsbD_not, hi, decide_true]
  cases x.toBitVec.getLsbD i <;> cases y.toBitVec.getLsbD i <;> cases z.toBitVec.getLsbD i <;> rfl

theorem H2_eq : H2 = H := by
  funext x y z
  exact (UInt32.xor_assoc x y z).symm

def digitOperation (x : Nat → UInt32) (r : Registers) (n : Nat) : Registers :=
  let f := Rfc.roundFunction (n / 16)
  let t := UInt32.ofNat (sineDigits.getD n 0)
  match n % 4 with
  | 0 => r.stepA f (x (Rfc.wordIndex n)) t (Rfc.shift n)
  | 1 => r.stepD f (x (Rfc.wordIndex n)) t (Rfc.shift n)
  | 2 => r.stepC f (x (Rfc.wordIndex n)) t (Rfc.shift n)
  | _ => r.stepB f (x (Rfc.wordIndex n)) t (Rfc.shift n)

theorem operate_eq (f : UInt32 → UInt32 → UInt32 → UInt32) (x t : UInt32) (s : Nat) (a b c d : UInt32) :
    Rfc.operate f x t s a b c d = step f a b c d x t s := UInt32.add_comm _ _

theorem operation_eq (x : Nat → UInt32) (r : Registers) {n : Nat} (h : n < 64) :
    Rfc.operation x r n = digitOperation x r n := by
  rw [Rfc.operation, digitOperation, sineTable_eq h]
  simp only [operate_eq]
  rfl

section Rounds
variable (x : Nat → UInt32) (r : Registers)

theorem round1_eq : round1 (fun i => x i) r = (range' 0 16).foldl (digitOperation x) r := by
  rw [round1, F_eq]
  rfl

theorem round2_eq : round2 (fun i => x i) r = (range' 16 16).foldl (digitOperation x) r := by
  rw [round2, G_eq]
  rfl

theorem round3_eq : round3 (fun i => x i) r = (range' 32 16).foldl (digitOperation x) r := by
  rw [round3, H2_eq]
  rfl

theorem round4_eq : round4 (fun i => x i) r = (range' 48 16).foldl (digitOperation x) r := rfl

theorem rounds_eq : round4 (fun i => x i) (round3 (fun i => x i) (round2 (fun i => x i) (round1 (fun i => x i) r))) =
    (range 64).foldl (Rfc.operation x) r := by
  have hOperation : (range 64).foldl (Rfc.operation x) r = (range 64).foldl (digitOperation x) r :=
    foldl_ext _ _ r fun r n hn => operation_eq x r (mem_range.1 hn)
  have hSplit : range 64 = range' 0 16 ++ range' 16 16 ++ range' 32 16 ++ range' 48 16 := by decide
  rw [hOperation, hSplit, foldl_append, foldl_append, foldl_append, round1_eq, round2_eq, round3_eq, round4_eq]

end Rounds

/-! ## The words of a block -/

theorem join_bytes (b0 b1 b2 b3 : UInt8) :
    b0.toUInt32 ||| b1.toUInt32 <<< 8 ||| b2.toUInt32 <<< 16 ||| b3.toUInt32 <<< 24 =
      ofNat (b0.toNat + 256 * b1.toNat + 65536 * b2.toNat + 16777216 * b3.toNat) := by
  have h0 := b0.toNat_lt
  have h1 := b1.toNat_lt
  have h2 := b2.toNat_lt
  have h3 := b3.toNat_lt
  apply UInt32.toNat_inj.1
  simp only [UInt32.toNat_or, UInt32.toNat_shiftLeft, UInt8.toNat_toUInt32, UInt32.toNat_ofNat']
  have hMask (b : UInt8) {k : Nat} (hk : k ≤ 24) : b.toNat <<< k % 2 ^ 32 = b.toNat <<< k := by
    rw [Nat.mod_eq_of_lt]
    calc b.toNat <<< k = b.toNat * 2 ^ k := Nat.shiftLeft_eq _ _
      _ < 2 ^ 8 * 2 ^ k := Nat.mul_lt_mul_of_pos_right b.toNat_lt (Nat.two_pow_pos k)
      _ ≤ 2 ^ 8 * 2 ^ 24 := Nat.mul_le_mul_left _ (Nat.pow_le_pow_right (by decide) hk)
  have hShift : toNat 8 % 32 = 8 ∧ toNat 16 % 32 = 16 ∧ toNat 24 % 32 = 24 := by decide
  rw [hShift.1, hShift.2.1, hShift.2.2, hMask b1 (by decide), hMask b2 (by decide), hMask b3 (by decide)]
  rw [Nat.or_comm b0.toNat, Bits.shiftLeft_or_of_lt (by omega), Nat.or_comm _ (b2.toNat <<< 16),
    Bits.shiftLeft_or_of_lt (by omega), Nat.or_comm _ (b3.toNat <<< 24), Bits.shiftLeft_or_of_lt (by omega)]
  omega

variable {chunk : Bytes}

section
variable (hChunk : chunk.length = 64)
include hChunk

theorem getU32Le_eq {k : Nat} (hk : k < 16) : getU32Le chunk k = some (Rfc.word chunk k) := by
  have hGet (j : Nat) (hj : j < 64) : chunk[j]? = some (chunk.getD j 0) := by
    rw [getD_eq_getElem?_getD, getElem?_eq_getElem (by omega)]
    rfl
  rw [getU32Le, hGet (k * 4) (by omega), hGet (k * 4 + 1) (by omega), hGet (k * 4 + 2) (by omega),
    hGet (k * 4 + 3) (by omega)]
  refine congrArg some ((join_bytes _ _ _ _).trans ?_)
  rw [Rfc.word, Nat.mul_comm k 4]

theorem loadBlock_eq (block : Fin 16 → UInt32) : loadBlock chunk block = some fun i => Rfc.word chunk i.val := by
  have hLoad (is : List (Fin 16)) (block : Fin 16 → UInt32) :
      is.foldlM (fun block i => (getU32Le chunk i.val).map (Function.update block i)) block =
        some (is.foldl (fun block i => Function.update block i (Rfc.word chunk i.val)) block) := by
    induction is generalizing block with
    | nil => rfl
    | cons i is ih =>
      rw [foldlM_cons, getU32Le_eq hChunk i.isLt]
      exact ih _
  rw [loadBlock, hLoad, foldl_update_finRange]

theorem bodyChunk_eq (s : Registers × (Fin 16 → UInt32)) :
    bodyChunk s chunk = some (Rfc.processBlock s.1 chunk, fun i => Rfc.word chunk i.val) := by
  rw [bodyChunk, loadBlock_eq hChunk]
  simp only [Option.bind_eq_bind, Option.bind_some, rounds_eq]
  rfl

end

noncomputable def MD5Ctx.processed (ctx : MD5Ctx) (data : Bytes) (block : Fin 16 → UInt32) : MD5Ctx :=
  { ctx with toRegisters := (chunksExact 64 data).foldl Rfc.processBlock ctx.toRegisters, block := block }

section Processed
variable (ctx : MD5Ctx) (data : Bytes) (block : Fin 16 → UInt32)

@[simp] theorem MD5Ctx.processed_lo : (ctx.processed data block).lo = ctx.lo := rfl

@[simp] theorem MD5Ctx.processed_buffer : (ctx.processed data block).buffer = ctx.buffer := rfl

end Processed

theorem body_eq (ctx : MD5Ctx) (data : Bytes) : ∃ block, body ctx data = some (ctx.processed data block) := by
  have hLoop (chunks : List Bytes) (hChunks : ∀ chunk ∈ chunks, chunk.length = 64)
      (s : Registers × (Fin 16 → UInt32)) :
      ∃ block, chunks.foldlM bodyChunk s = some (chunks.foldl Rfc.processBlock s.1, block) := by
    induction chunks generalizing s with
    | nil => exact ⟨s.2, rfl⟩
    | cons chunk chunks ih =>
      rw [foldlM_cons, bodyChunk_eq (hChunks chunk mem_cons_self)]
      exact ih (fun c hc => hChunks c (mem_cons_of_mem chunk hc)) _
  obtain ⟨block, hBlock⟩ :=
    hLoop (chunksExact 64 data) (fun _ h => length_of_mem_chunksExact h) (ctx.toRegisters, ctx.block)
  refine ⟨block, ?_⟩
  rw [body, hBlock]
  rfl

end CoreX.Md5

import CoreX.Net.Ipv4

/-!
# The checksum of a buffer

`ipv4_checksum` adds the words of a buffer in 32 bits and folds the carries back, so it is zero exactly if the sum, as
it is in those 32 bits, is a positive multiple of the full word (`ipv4Checksum_eq_zero`).
-/

namespace CoreX.Net

open CoreX.OnesComplement List

def wordAt (buf : Bytes) (off : Nat) : UInt16 := u16OfBytes (buf.getD (off + 1) 0) (buf.getD off 0)

def setWord (buf : Bytes) (off : Nat) (w : UInt16) : Bytes :=
  buf.take off ++ highByte w :: lowByte w :: buf.drop (off + 2)

theorem wordSum_append {front : Bytes} (h : front.length % 2 = 0) (back : Bytes) :
    wordSum (front ++ back) = wordSum front + wordSum back := by
  fun_induction wordSum front with
  | case1 a b rest ih =>
    simp only [length_cons] at h
    rw [cons_append, cons_append, wordSum, ih (by omega)]
    omega
  | case2 a => simp at h
  | case3 => rw [nil_append, Nat.zero_add]

variable {buf : Bytes} {off : Nat}

theorem setWord_wordAt (hOff : off + 2 ≤ buf.length) : setWord buf off (wordAt buf off) = buf := by
  have hFirst : off < buf.length := by omega
  have hSecond : off + 1 < buf.length := by omega
  have hHigh : highByte (wordAt buf off) = buf.getD off 0 := by
    apply UInt8.toNat_inj.1
    have h := (buf.getD (off + 1) 0).toNat_lt
    rw [highByte_toNat, wordAt, u16OfBytes_toNat]
    omega
  have hLow : lowByte (wordAt buf off) = buf.getD (off + 1) 0 := by
    apply UInt8.toNat_inj.1
    have h := (buf.getD (off + 1) 0).toNat_lt
    rw [lowByte_toNat, wordAt, u16OfBytes_toNat]
    omega
  rw [setWord, hHigh, hLow, getD_eq_getElem _ _ hFirst, getD_eq_getElem _ _ hSecond,
    ← drop_eq_getElem_cons hSecond, ← drop_eq_getElem_cons hFirst, take_append_drop]

def restSum (buf : Bytes) (off : Nat) : Nat := wordSum (buf.take off) + wordSum (buf.drop (off + 2))

theorem wordSum_setWord (hEven : off % 2 = 0) (hOff : off + 2 ≤ buf.length) (w : UInt16) :
    wordSum (setWord buf off w) = restSum buf off + w.toNat := by
  have hTake : (buf.take off).length % 2 = 0 := by
    rw [length_take, Nat.min_eq_left (by omega)]
    exact hEven
  rw [setWord, wordSum_append hTake, wordSum, restSum, highByte_toNat, lowByte_toNat]
  omega

theorem wordSum_eq_restSum (hEven : off % 2 = 0) (hOff : off + 2 ≤ buf.length) :
    wordSum buf = restSum buf off + (wordAt buf off).toNat := by
  rw [← wordSum_setWord hEven hOff, setWord_wordAt hOff]

theorem two_mul_wordSum_le (buf : Bytes) (h : buf.length % 2 = 0) : 2 * wordSum buf ≤ 65535 * buf.length := by
  fun_induction wordSum buf with
  | case1 a b rest ih =>
    have ha := a.toNat_lt
    have hb := b.toNat_lt
    simp only [length_cons] at h ⊢
    omega
  | case2 a => simp at h
  | case3 => simp

theorem two_mul_restSum_le (hLen : buf.length % 2 = 0) (hEven : off % 2 = 0) (hOff : off + 2 ≤ buf.length) :
    2 * restSum buf off + 131070 ≤ 65535 * buf.length := by
  have hTake : (buf.take off).length = off := by
    rw [length_take, Nat.min_eq_left (by omega)]
  have hDrop : (buf.drop (off + 2)).length = buf.length - (off + 2) := length_drop
  have hFront := two_mul_wordSum_le (buf.take off) (by omega)
  have hBack := two_mul_wordSum_le (buf.drop (off + 2)) (by omega)
  rw [restSum]
  omega

/-! ## Storing the checksum, and changing a word -/

theorem add_complement {s : Nat} (hs : s < 0x100000000) :
    0 < s + (65535 - foldCarries 65536 2 s) ∧ (s + (65535 - foldCarries 65536 2 s)) % 65535 = 0 := by
  have hFold := foldCarries_two_lt (by decide : 1 < 65536) (show s < 65536 * 65536 from hs)
  have hMod : foldCarries 65536 2 s % 65535 = s % 65535 := foldCarries_modEq 65536 (by decide) 2 s
  refine ⟨?_, by omega⟩
  rcases Nat.eq_zero_or_pos s with hNone | hPos
  · rw [hNone]
    decide
  · omega

/-- Two sums of 32 bits that are positive multiples of the full word and differ in one word. A sum
that wraps lands below the full word, so it is no such multiple. -/
theorem wrapped_eq_zero {r v w : Nat} (hv : v < 65536) (hw : w < 65536)
    (hOld : 0 < (r + v) % 0x100000000 ∧ (r + v) % 0x100000000 % 65535 = 0)
    (hNew : 0 < (r + w) % 0x100000000 ∧ (r + w) % 0x100000000 % 65535 = 0) :
    w = v ∨ (v = 0 ∧ w = 65535) ∨ (v = 65535 ∧ w = 0) := by
  -- the sums wrap equally often, since each is at least the full word
  rcases Nat.lt_trichotomy ((r + v) / 0x100000000) ((r + w) / 0x100000000) with hLt | hEq | hGt <;> omega

/-- **The checksum is what has to be stored for the buffer to have checksum zero, and it finds every change of a
single word**, but for the two zeros of one's complement. The first half is for buffers of even length of up to 128
KiB. -/
theorem ipv4Checksum_word : (∀ (buf : Bytes) (off : Nat), buf.length % 2 = 0 → buf.length ≤ 128 * 1024 →
      off % 2 = 0 → off + 2 ≤ buf.length → ipv4Checksum (setWord buf off (ipv4Checksum (setWord buf off 0))) = 0) ∧
    ∀ (buf : Bytes) (off : Nat) (w : UInt16), ipv4Checksum buf = 0 → off % 2 = 0 → off + 2 ≤ buf.length →
      ¬(w = wordAt buf off ∨ (wordAt buf off = 0x0000 ∧ w = 0xFFFF) ∨ (wordAt buf off = 0xFFFF ∧ w = 0x0000)) →
      ipv4Checksum (setWord buf off w) ≠ 0 := by
  constructor
  · intro buf off hLen hSize hEven hOff
    have hRest := two_mul_restSum_le hLen hEven hOff
    have hFits : restSum buf off < 0x100000000 := by omega
    obtain ⟨hPos, hMod⟩ := add_complement hFits
    have hZero : wordSum (setWord buf off 0) = restSum buf off := wordSum_setWord hEven hOff 0
    rw [ipv4Checksum_eq_zero, wordSum_setWord hEven hOff, ipv4Checksum_toNat_mod, hZero, Nat.mod_eq_of_lt hFits,
      Nat.mod_eq_of_lt (by omega)]
    exact ⟨hPos, hMod⟩
  · intro buf off w hZero hEven hOff hDiffer hNew
    rw [ipv4Checksum_eq_zero, wordSum_eq_restSum hEven hOff] at hZero
    rw [ipv4Checksum_eq_zero, wordSum_setWord hEven hOff] at hNew
    have hCases := wrapped_eq_zero (wordAt buf off).toNat_lt w.toNat_lt hZero hNew
    simp only [← UInt16.toNat_inj] at hDiffer
    exact hDiffer hCases

/-- The header of a packet from 10.0.0.2 to 10.0.0.3 with its checksum stored, and then with another
time to live. -/
theorem ipv4Checksum_word_header :
    ipv4Checksum (setWord [0x45, 0, 0, 20, 0, 7, 0, 0, 64, 17, 9, 9, 10, 0, 0, 2, 10, 0, 0, 3] 10
      (ipv4Checksum (setWord [0x45, 0, 0, 20, 0, 7, 0, 0, 64, 17, 9, 9, 10, 0, 0, 2, 10, 0, 0, 3] 10 0))) = 0 ∧
    ipv4Checksum (setWord [0x45, 0, 0, 20, 0, 7, 0, 0, 64, 17, 0x66, 0xce, 10, 0, 0, 2, 10, 0, 0, 3] 8 0x3F11) ≠ 0 :=
  ⟨ipv4Checksum_word.1 _ 10 (by decide) (by decide) (by decide) (by decide),
    ipv4Checksum_word.2 _ 8 0x3F11 (by decide) (by decide) (by decide) (by decide)⟩

end CoreX.Net

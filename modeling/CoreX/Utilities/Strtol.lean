import Mathlib.Data.Nat.Digits.Defs
import CoreX.Base.Memory

/-!
# Numbers in strings (`utilities/shell/string.rs`)

`strtol` multiplies and adds modulo `2 ^ 64` and applies the sign at the end. So it is exact for every value that an
`i64` has, also for the least one, whose magnitude an `i64` does not have.
-/

namespace CoreX.Strtol

open List Nat

/-- `none` is a byte that is no digit of any base. -/
def digit (c : UInt8) : Option Nat :=
  if 0x30 ≤ c ∧ c ≤ 0x39 then some (c - 0x30).toNat
  else if 0x61 ≤ c ∧ c ≤ 0x7A then some (c - 0x61 + 10).toNat
  else if 0x41 ≤ c ∧ c ≤ 0x5A then some (c - 0x41 + 10).toNat
  else none

def digits (base : Nat) (val : BitVec 64) : Bytes → BitVec 64 × Bytes
  | [] => (val, [])
  | c :: s =>
    match digit c with
    | none => (val, c :: s)
    | some dig =>
      if dig ≥ base then (val, c :: s)
      else digits base (val * BitVec.ofNat 64 base + BitVec.ofNat 64 dig) s

/-- The base and what follows its prefix. -/
def chooseBase (s : Bytes) (base : Nat) : Nat × Bytes :=
  if (base = 0 ∨ base = 16) ∧ s.headD 0 = 0x30 ∧ s.tail.headD 0 = 0x78 then (16, s.drop 2)
  else if base = 0 ∧ s.headD 0 = 0x30 then (8, s.tail)
  else if base = 0 then (10, s)
  else (base, s)

/-- The value and the bytes from `endptr` on. The string is given without its zero, which `*s` is behind the bytes. -/
def strtol (s : Bytes) (base : Nat) : BitVec 64 × Bytes :=
  let s := s.dropWhile fun c => c = 0x20 ∨ c = 0x09
  let neg := s.headD 0 = 0x2D
  let chosen := chooseBase (if s.headD 0 = 0x2B ∨ s.headD 0 = 0x2D then s.tail else s) base
  let (val, s) := digits chosen.1 0 chosen.2
  (if neg then -val else val, s)

/-- The prefix that goes with an argument, the base that it chooses, and what may follow it. -/
inductive Chosen (s : Bytes) : (base : Nat) → (pre : Bytes) → (b : Nat) → Prop
  | given {base : Nat} (hbase : 2 ≤ base ∧ base ≤ 36) (hs : base = 16 → ¬ [0x30, 0x78] <+: s) : Chosen s base [] base
  | hex : Chosen s 0 [0x30, 0x78] 16
  | octal (hs : s.head? ≠ some 0x78) : Chosen s 0 [0x30] 8
  | decimal (hs : s.head? ≠ some 0x30) : Chosen s 0 [] 10

theorem digits_eq {b : Nat} {ds : List Nat} {run rest : Bytes} (hrun : run.map digit = ds.map some)
    (hlt : ∀ d ∈ ds, d < b) (hrest : ∀ c d, rest.head? = some c → digit c = some d → b ≤ d) (n : Nat) :
    digits b (BitVec.ofNat 64 n) (run ++ rest) =
      (BitVec.ofNat 64 (n * b ^ ds.length + ofDigits b ds.reverse), rest) := by
  induction run generalizing ds n with
  | nil =>
    obtain rfl : ds = [] := by simpa using hrun.symm
    cases rest with
    | nil => simp [digits]
    | cons c s =>
      rw [nil_append, digits]
      cases hd : digit c with
      | none => simp
      | some d => simp [hrest c d rfl hd]
  | cons c run ih =>
    cases ds with
    | nil => cases hrun
    | cons d ds =>
      obtain ⟨hd, hrun⟩ := cons.inj hrun
      obtain ⟨hdb, hlt⟩ := forall_mem_cons.1 hlt
      have hstep : BitVec.ofNat 64 n * BitVec.ofNat 64 b + BitVec.ofNat 64 d = BitVec.ofNat 64 (n * b + d) := by
        rw [BitVec.ofNat_add, BitVec.ofNat_mul]
      rw [cons_append, digits, hd]
      simp only [if_neg (Nat.not_le.2 hdb)]
      refine (congrArg (digits b · _) hstep).trans ((ih hrun hlt _).trans ?_)
      rw [reverse_cons, ofDigits_append, ofDigits_singleton, length_reverse, length_cons, pow_succ]
      congr 2
      ring

theorem chooseBase_eq {s pre : Bytes} {base b : Nat} (h : Chosen s base pre b) :
    chooseBase (pre ++ s) base = (b, s) := by
  cases h with
  | given hbase hs =>
    rw [chooseBase, nil_append, if_neg, if_neg (by omega), if_neg (by omega)]
    rintro ⟨hor, hzero, hx⟩
    match s, hzero, hx with
    | [], hzero, _ => cases hzero
    | [_], _, hx => cases hx
    | _ :: _ :: s, rfl, rfl => exact hs (by omega) ⟨s, rfl⟩
  | hex => rfl
  | octal hs =>
    have hx : s.headD 0 ≠ 0x78 := by
      cases s with
      | nil => decide
      | cons c s => exact fun hc => hs (congrArg some hc)
    rw [chooseBase, if_neg fun h => hx h.2.2]
    rfl
  | decimal hs =>
    have hzero : s.headD 0 ≠ 0x30 := by
      cases s with
      | nil => decide
      | cons c s => exact fun hc => hs (congrArg some hc)
    rw [chooseBase, nil_append, if_neg fun h => hzero h.2.1, if_neg fun h => hzero h.2, if_pos rfl]

/-- **Exact up to the extremes**: with the blanks, the sign and the prefix in front of a longest run of digits,
`strtol` returns the value of the run and stops behind it. -/
theorem strtol_eq {blanks sign pre run rest : Bytes} {ds : List Nat} {base b : Nat} {v : Int}
    (hblanks : ∀ c ∈ blanks, c = 0x20 ∨ c = 0x09) (hsign : sign = [] ∨ sign = [0x2B] ∨ sign = [0x2D])
    (hstart : sign = [] → (pre ++ (run ++ rest)).headD 0 ∉ ([0x20, 0x09, 0x2B, 0x2D] : Bytes))
    (hchosen : Chosen (run ++ rest) base pre b) (hrun : run.map digit = ds.map some) (hlt : ∀ d ∈ ds, d < b)
    (hrest : ∀ c d, rest.head? = some c → digit c = some d → b ≤ d)
    (hv : v = if sign = [0x2D] then -((ofDigits b ds.reverse : Nat) : Int) else (ofDigits b ds.reverse : Nat))
    (hfits : -2 ^ 63 ≤ v ∧ v < 2 ^ 63) :
    (strtol (blanks ++ (sign ++ (pre ++ (run ++ rest)))) base).1.toInt = v ∧
      (strtol (blanks ++ (sign ++ (pre ++ (run ++ rest)))) base).2 = rest := by
  have hchoose := chooseBase_eq hchosen
  have hdigits : digits b 0 (run ++ rest) = _ := digits_eq hrun hlt hrest 0
  rw [Nat.zero_mul, Nat.zero_add, ← BitVec.ofInt_natCast] at hdigits
  have htoInt : (BitVec.ofInt 64 v).toInt = v := by
    rw [BitVec.toInt_ofInt, Int.bmod_eq_of_le (by omega) (by omega)]
  generalize pre ++ (run ++ rest) = t at *
  have hskip : (blanks ++ (sign ++ t)).dropWhile (fun c => c = 0x20 ∨ c = 0x09) = sign ++ t := by
    rw [dropWhile_append_of_pos (by simpa using hblanks)]
    rcases hsign with rfl | rfl | rfl
    · cases t with
      | nil => rfl
      | cons c t =>
        have hc := hstart rfl
        simp only [headD_cons, mem_cons, not_or] at hc
        exact dropWhile_cons_of_neg (by simp [hc])
    · rfl
    · rfl
  have hsigned : (if (sign ++ t).headD 0 = 0x2B ∨ (sign ++ t).headD 0 = 0x2D then (sign ++ t).tail
      else sign ++ t) = t ∧ ((sign ++ t).headD 0 = 0x2D ↔ sign = [0x2D]) := by
    rcases hsign with rfl | rfl | rfl
    · have hc := hstart rfl
      simp only [mem_cons, not_or] at hc
      exact ⟨if_neg fun h => h.elim hc.2.2.1 hc.2.2.2.1, iff_of_false hc.2.2.2.1 nofun⟩
    · exact ⟨rfl, by simp⟩
    · exact ⟨rfl, by simp⟩
  simp only [strtol, hskip, hsigned.1, hchoose, hdigits, and_true]
  simp only [hsigned.2]
  rw [← htoInt, hv]
  split_ifs with hneg
  · rw [BitVec.ofInt_neg]
  · rfl

/-- The least value, `-9223372036854775808`, behind a blank. -/
theorem strtol_min : ∃ run : Bytes, run.length = 19 ∧
    (strtol ([0x20] ++ ([0x2D] ++ ([] ++ (run ++ [])))) 0).1.toInt = -2 ^ 63 := by
  let ds : List Nat := [9, 2, 2, 3, 3, 7, 2, 0, 3, 6, 8, 5, 4, 7, 7, 5, 8, 0, 8]
  refine ⟨ds.map fun d => UInt8.ofNat (0x30 + d), rfl, ?_⟩
  exact (strtol_eq (by simp) (by decide) (by decide) (.decimal (by decide)) (show _ = ds.map some by decide)
    (by decide) (by simp) (by decide) (by decide)).1

end CoreX.Strtol

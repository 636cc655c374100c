import CoreX.Vfs.Sanitize

/-!
# What the copying pass does

Seen as segments between slashes, `fs_sanitize_copy_safe` keeps the first segment, drops the empty ones and the `.`
ones among the others, and panics if the last of them is `.` (`copySafeLoop_segments`). Bytes from 128 on are pushed
as two bytes.
-/

namespace CoreX.Vfs

open Segments List

def pushBytes (c : Bytes) : Bytes := c.flatMap pushByte

theorem pushByte_of_lt {b : UInt8} (h : b < 128) : pushByte b = [b] := if_pos h

theorem not_or_lt {a : UInt8} (h : ¬ a < 128) (b : UInt8) : ¬ a ||| b < 128 := by
  rw [UInt8.lt_iff_toNat_lt] at h ⊢
  rw [UInt8.toNat_or]
  exact fun hlt => h (Nat.lt_of_le_of_lt Nat.left_le_or hlt)

theorem eq_of_mem_pushByte (b : UInt8) : ∀ x ∈ pushByte b, x < 128 → x = b := by
  intro x hx hlt
  rw [pushByte] at hx
  split_ifs at hx
  · exact mem_singleton.1 hx
  · rcases mem_pair.1 hx with rfl | rfl <;> exact absurd hlt (not_or_lt (by decide) _)

theorem pushByte_ne_nil (b : UInt8) : pushByte b ≠ [] := by
  rw [pushByte]
  split_ifs <;> simp

variable {c : Bytes} {cs : List Bytes}

theorem pushBytes_of_ascii (h : ∀ b ∈ c, b < 128) : pushBytes c = c := by
  rw [pushBytes, flatMap_congr fun b hb => pushByte_of_lt (h b hb)]
  exact flatMap_singleton' c

theorem slash_notMem_pushBytes (h : slash ∉ c) : slash ∉ pushBytes c := by
  intro hmem
  obtain ⟨b, hb, hslash⟩ := mem_flatMap.1 hmem
  rw [eq_of_mem_pushByte b slash hslash (by decide)] at h
  exact h hb

theorem pushBytes_eq_nil : pushBytes c = [] ↔ c = [] := by
  constructor
  · intro h
    cases c with
    | nil => rfl
    | cons b c =>
      rw [pushBytes, flatMap_cons, append_eq_nil_iff] at h
      exact absurd h.1 (pushByte_ne_nil b)
  · rintro rfl
    rfl

theorem pushBytes_eq_dot : pushBytes c = [dot] ↔ c = [dot] := by
  constructor
  · intro h
    cases c with
    | nil => exact absurd h (by simp [pushBytes])
    | cons b c =>
      rw [pushBytes, flatMap_cons] at h
      obtain ⟨x, xs, hx⟩ := exists_cons_of_ne_nil (pushByte_ne_nil b)
      rw [hx, cons_append] at h
      obtain ⟨rfl, hrest⟩ := List.cons.inj h
      obtain ⟨-, hc⟩ := append_eq_nil_iff.1 hrest
      rw [← eq_of_mem_pushByte b dot (by rw [hx]; exact mem_cons_self ..) (by decide), pushBytes_eq_nil.1 hc]
  · rintro rfl
    decide

/-! ## The loop -/

def kept (cs : List Bytes) : List Bytes := cs.filter fun c => c ≠ [] ∧ c ≠ [dot]

theorem copySafeLoop_cons_of_ne {c : UInt8} (hc : c ≠ slash) (s : Bytes) :
    copySafeLoop (c :: s) = (copySafeLoop s).map (pushByte c ++ ·) := by
  cases s with
  | nil => simp [copySafeLoop, hc]
  | cons d rest => rw [copySafeLoop, if_neg (fun h => hc h.1), if_neg (fun h => hc h.1)]

theorem copySafeLoop_append (hc : slash ∉ c) (s : Bytes) :
    copySafeLoop (c ++ s) = (copySafeLoop s).map (pushBytes c ++ ·) := by
  induction c with
  | nil => simp [pushBytes]
  | cons b c ih =>
    obtain ⟨hb, hc⟩ := not_or.1 (fun h => hc (mem_cons.2 h))
    rw [cons_append, copySafeLoop_cons_of_ne (Ne.symm hb), ih hc, Option.map_map]
    congr 1
    funext t
    simp [pushBytes]

theorem copySafeLoop_slash (hne : c ≠ []) (hdot : c ≠ [dot]) (hc : slash ∉ c) (s : Bytes) :
    copySafeLoop (slash :: (c ++ s)) = (copySafeLoop (c ++ s)).map (slash :: ·) := by
  have hpush : pushByte slash = [slash] := pushByte_of_lt (by decide)
  cases c with
  | nil => exact absurd rfl hne
  | cons a c =>
    obtain ⟨ha, hc⟩ := not_or.1 (fun h => hc (mem_cons.2 h))
    rw [cons_append, copySafeLoop, if_neg (fun h => ha h.2.symm), hpush]
    by_cases hda : a = dot
    · cases c with
      | nil => exact absurd (by rw [hda]) hdot
      | cons e c =>
        have he : e ≠ slash := fun h => hc (h ▸ mem_cons_self ..)
        rw [if_pos ⟨rfl, hda⟩, cons_append, head?_cons]
        simp only [if_neg he]
        rfl
    · rw [if_neg (fun h => hda h.2)]
      rfl

theorem getLast?_cons_of_ne (hc : c ≠ [dot]) : (c :: cs).getLast? = some [dot] ↔ cs.getLast? = some [dot] := by
  cases cs with
  | nil => simp [hc]
  | cons d ds => rw [getLast?_cons_cons]

theorem copySafeLoop_join (hcs : ∀ c ∈ cs, slash ∉ c) :
    copySafeLoop (join slash cs) = if cs.getLast? = some [dot] then none
      else some (join slash ((kept cs).map pushBytes)) := by
  induction cs with
  | nil => rfl
  | cons c cs ih =>
    obtain ⟨hc, htail⟩ := forall_mem_cons.1 hcs
    rw [join_cons]
    by_cases hempty : c = []
    · subst hempty
      cases cs with
      | nil => rfl
      | cons d ds =>
        have hskip : copySafeLoop (slash :: ([] ++ join slash (d :: ds))) =
            copySafeLoop (join slash (d :: ds)) := by
          rw [nil_append, join_cons, copySafeLoop, if_pos ⟨rfl, rfl⟩]
        rw [hskip, ih htail, getLast?_cons_cons]
        rfl
    · by_cases hdot : c = [dot]
      · subst hdot
        cases cs with
        | nil => rfl
        | cons d ds =>
          have hskip : copySafeLoop (slash :: ([dot] ++ join slash (d :: ds))) =
              copySafeLoop (join slash (d :: ds)) := by
            rw [singleton_append, copySafeLoop, if_neg (by decide), if_pos ⟨rfl, rfl⟩, join_cons, head?_cons]
            exact if_pos rfl
          rw [hskip, ih htail, getLast?_cons_cons]
          rfl
      · have hkept : kept (c :: cs) = c :: kept cs := filter_cons_of_pos (by simp [hempty, hdot])
        rw [copySafeLoop_slash hempty hdot hc, copySafeLoop_append hc, ih htail, hkept]
        simp only [getLast?_cons_of_ne hdot]
        split_ifs <;> rfl

theorem copySafeLoop_segments (hc : slash ∉ c) (hcs : ∀ d ∈ cs, slash ∉ d) :
    copySafeLoop (c ++ join slash cs) = if cs.getLast? = some [dot] then none
      else some (pushBytes c ++ join slash ((kept cs).map pushBytes)) := by
  rw [copySafeLoop_append hc, copySafeLoop_join hcs]
  split_ifs <;> rfl

end CoreX.Vfs

import CoreX.Vfs.Mount
import CoreX.Vfs.Names

/-!
# Names relative to a directory (`at_resolve_pathname` of `syscalls/linux/syscalls_fs.rs`)

`at_resolve_pathname` puts the mount prefix, `dirname` and the path name one behind the other, without a slash between
the last two. So the last name of the directory and the first one of the path become one name, unless the directory
ends in a slash. The rest of the path name then removes some names of the stack before it adds its own
(`foldl_canonicalStep_climb`).
-/

namespace CoreX.Vfs

open Segments List

def atFdcwd : Nat := 0xFFFFFFFFFFFFFF9C

def ebadf : Nat := 9
def enotdir : Nat := 20

structure OpenFile where
  mountPoint : MountPoint
  dirname : Option Bytes

def atResolvePathname (fsUserGetNode : Nat → Option OpenFile) (dirfd : Nat) (pathname : Bytes) : Except Nat Bytes :=
  if pathname.head? = some slash ∨ dirfd = atFdcwd then .ok pathname
  else
    match fsUserGetNode dirfd with
    | none => .error ebadf
    | some fd =>
      match fd.dirname with
      | none => .error enotdir
      | some dir => .ok (fd.mountPoint.mountPrefix ++ dir ++ pathname)

def climbStep (p : Nat × List Bytes) (c : Bytes) : Nat × List Bytes :=
  if c = [] ∨ c = [dot] then p
  else if c = [dot, dot] then if p.2 = [] then (p.1 + 1, []) else (p.1, p.2.dropLast)
  else (p.1, p.2 ++ [c])

def climb (cs : List Bytes) : Nat × List Bytes := cs.foldl climbStep (0, [])

section
variable (k : Nat) (stack : List Bytes)

def lower : List Bytes := stack.take (stack.length - k)

theorem dropLast_lower : (lower k stack).dropLast = lower (k + 1) stack := by
  unfold lower
  rw [dropLast_eq_take, length_take, take_take]
  congr 1
  omega

theorem foldl_canonicalStep_climb (cs stack : List Bytes) :
    cs.foldl canonicalStep stack = lower (climb cs).1 stack ++ (climb cs).2 := by
  have hfold : ∀ (ds : List Bytes) (p : Nat × List Bytes), ds.foldl canonicalStep (lower p.1 stack ++ p.2) =
        lower (ds.foldl climbStep p).1 stack ++ (ds.foldl climbStep p).2 := by
    intro ds
    induction ds with
    | nil => exact fun p => rfl
    | cons d ds ih =>
      intro p
      have hstep : canonicalStep (lower p.1 stack ++ p.2) d =
          lower (climbStep p d).1 stack ++ (climbStep p d).2 := by
        rw [canonicalStep, climbStep]
        split_ifs with hskip hdots hnil
        · rfl
        · rw [hnil, append_nil, append_nil, dropLast_lower]
        · rw [dropLast_append_of_ne_nil hnil]
        · rw [append_assoc]
      rw [foldl_cons, foldl_cons, hstep, ih]
  have hstart := hfold cs (0, [])
  rwa [lower, Nat.sub_zero, take_length, append_nil] at hstart

theorem length_lower : (lower k stack).length = stack.length - k := by
  rw [lower, length_take, Nat.min_eq_left (Nat.sub_le ..)]

end

/-! ## The two ways to resolve a name -/

variable {d pathname filename c : Bytes}

/-- The components of a directory before its last slash, and the bytes behind it. -/
def frontNames (d : Bytes) : List Bytes := (d.splitOn slash).dropLast

def lastName (d : Bytes) : Bytes := (d.splitOn slash).getLast?.getD []

/-- The bytes of a path name before its first slash, and the components behind it. -/
def firstName (pathname : Bytes) : Bytes := (pathname.splitOn slash).head?.getD []

def restNames (pathname : Bytes) : List Bytes := (pathname.splitOn slash).tail

section
variable (d pathname)

def stackJoined : List Bytes :=
  canonicalStep (canonicalStep (canonicalComponents ((frontNames d).map pushBytes)) (pushBytes (lastName d)))
    (firstName pathname)

def stackGlued : List Bytes :=
  canonicalStep (canonicalComponents ((frontNames d).map pushBytes)) (pushBytes (lastName d) ++ firstName pathname)

/-- The rest of the path name removes what is different. -/
def MeetsAgain : Prop :=
  lower (climb (restNames pathname)).1 (stackJoined d pathname) =
    lower (climb (restNames pathname)).1 (stackGlued d pathname)

theorem splitOn_ne_nil (s : Bytes) : s.splitOn slash ≠ [] := by
  obtain ⟨c, cs, rfl, hc, hcs⟩ := exists_segments slash s
  rw [splitOn_append_join hc hcs]
  exact cons_ne_nil _ _

theorem splitOn_eq_front : d.splitOn slash = frontNames d ++ [lastName d] := by
  obtain ⟨front, last, h⟩ := (eq_nil_or_concat _).resolve_left (splitOn_ne_nil d)
  rw [frontNames, lastName, h, concat_eq_append, dropLast_concat, getLast?_concat]
  rfl

theorem splitOn_eq_first : pathname.splitOn slash = firstName pathname :: restNames pathname := by
  obtain ⟨first, rest, h⟩ := exists_cons_of_ne_nil (splitOn_ne_nil pathname)
  rw [firstName, restNames, h]
  rfl

theorem splitOn_append :
    (d ++ pathname).splitOn slash = frontNames d ++ (lastName d ++ firstName pathname) :: restNames pathname := by
  obtain ⟨q, qs, hd, hq, hqs⟩ := exists_segments slash d
  obtain ⟨c, cs, hpathname, hc, hcs⟩ := exists_segments slash pathname
  have hfirst : firstName pathname :: restNames pathname = c :: cs := by
    rw [← splitOn_eq_first, hpathname, splitOn_append_join hc hcs]
  have hlast : frontNames d ++ [lastName d] = q :: qs := by
    rw [← splitOn_eq_front, hd, splitOn_append_join hq hqs]
  obtain ⟨hc', hcs'⟩ := List.cons.inj hfirst
  have hglued : ∀ x, slash ∉ x → slash ∉ x ++ c := fun x hx => by simp [hx, hc]
  generalize frontNames d = front, lastName d = last at hlast ⊢
  rw [hc', hcs', hd, hpathname]
  cases front with
  | nil =>
    -- there is no slash in the directory
    obtain ⟨rfl, rfl⟩ := List.cons.inj hlast
    rw [join_nil, append_nil, ← append_assoc, splitOn_append_join (hglued last hq) hcs, nil_append]
  | cons a front =>
    rw [cons_append] at hlast
    obtain ⟨rfl, rfl⟩ := List.cons.inj hlast
    have happend : a ++ join slash (front ++ [last]) ++ (c ++ join slash cs) =
        a ++ join slash (front ++ (last ++ c) :: cs) := by simp
    have hfree : ∀ x ∈ front ++ (last ++ c) :: cs, slash ∉ x := by
      refine forall_mem_append.2 ⟨fun x hx => hqs x (mem_append_left _ hx), ?_⟩
      exact forall_mem_cons.2 ⟨hglued last (hqs last (by simp)), hcs⟩
    rw [happend, splitOn_append_join hq hfree, cons_append]

end

theorem canonicalComponents_append (as bs : List Bytes) :
    canonicalComponents (as ++ bs) = bs.foldl canonicalStep (canonicalComponents as) := foldl_append ..

theorem pushBytes_ascii_names (hascii : ∀ b ∈ pathname, b < 128) :
    (pathname.splitOn slash).map pushBytes = pathname.splitOn slash :=
  map_pushBytes_of_ascii fun _ hc b hb => hascii b (mem_of_mem_splitOn hc b hb)

theorem canonicalComponents_joined (hrelative : pathname.head? ≠ some slash) (hascii : ∀ b ∈ pathname, b < 128) :
    canonicalComponents (pushedComponents d pathname) =
      lower (climb (restNames pathname)).1 (stackJoined d pathname) ++ (climb (restNames pathname)).2 := by
  rw [pushedComponents, if_neg hrelative, map_pushBytes_twice, pushBytes_ascii_names hascii,
    pushBytes_ascii_names hascii, splitOn_eq_front, splitOn_eq_first, map_append, canonicalComponents_append,
    canonicalComponents_append, foldl_cons, foldl_canonicalStep_climb]
  rfl

theorem canonicalComponents_glued (pre : Bytes) (habs : (d ++ pathname).head? = some slash)
    (hascii : ∀ b ∈ pathname, b < 128) : canonicalComponents (pushedComponents pre (d ++ pathname)) =
      lower (climb (restNames pathname)).1 (stackGlued d pathname) ++ (climb (restNames pathname)).2 := by
  have hnames := pushBytes_ascii_names hascii
  rw [splitOn_eq_first, map_cons] at hnames
  obtain ⟨hfirst, hrest⟩ := List.cons.inj hnames
  have hglued : pushBytes (lastName d ++ firstName pathname) = pushBytes (lastName d) ++ firstName pathname := by
    rw [pushBytes, flatMap_append]
    exact congrArg _ hfirst
  rw [pushedComponents, if_pos habs, splitOn_append, map_append, map_cons, hglued, hrest,
    canonicalComponents_append, foldl_cons, foldl_canonicalStep_climb]
  rfl

theorem renderPath_inj {pre pre' filename' : Bytes} :
    renderPath (canonicalComponents (pushedComponents pre filename)) =
        renderPath (canonicalComponents (pushedComponents pre' filename')) ↔
      canonicalComponents (pushedComponents pre filename) = canonicalComponents (pushedComponents pre' filename') := by
  have hcomponents : ∀ p f : Bytes, components (renderPath (canonicalComponents (pushedComponents p f))) =
      canonicalComponents (pushedComponents p f) := fun p f =>
    components_renderPath (fun c hc => (mem_canonicalComponents hc).2.1)
      fun c hc => slash_notMem_pushedComponents (mem_canonicalComponents hc).1
  refine ⟨fun h => ?_, congrArg renderPath⟩
  rw [← hcomponents pre filename, h, hcomponents]

theorem fsSanitize_absolute (habs : filename.head? = some slash) (pre pre' : Bytes) :
    fsSanitize pre filename = fsSanitize pre' filename := by
  rw [fsSanitize, fsSanitize, if_neg (not_not.2 habs), if_neg (not_not.2 habs)]

/-- A relative path that stays where it is. -/
def OnlyDots (pathname : Bytes) : Prop := pathname.head? = some dot ∧ ∀ c ∈ pathname.splitOn slash, c = [] ∨ c = [dot]

theorem head?_append_pathname (habs : d.head? = some slash) : (d ++ pathname).head? = some slash := by
  rw [head?_append, habs]
  rfl

/-! ## When they agree -/

section Agree
variable (habs : d.head? = some slash) (hrelative : pathname.head? ≠ some slash)
  (hascii : ∀ b ∈ pathname, b < 128) (hdot : pathname.getLast? ≠ some dot) (cwd : Bytes)
include hdot

theorem dot_isSuffix_append : [slash, dot] <:+ d ++ pathname ↔ pathname = [] ∧ [slash, dot] <:+ d := by
  constructor
  · rintro ⟨before, h⟩
    have hlast := congrArg getLast? h
    rw [getLast?_append, getLast?_append] at hlast
    cases hpath : pathname.getLast? with
    | none =>
      have hnil := getLast?_eq_none_iff.1 hpath
      rw [hnil, append_nil] at h
      exact ⟨hnil, before, h⟩
    | some b =>
      rw [hpath] at hlast
      exact absurd (hpath.trans hlast.symm) hdot
  · rintro ⟨rfl, h⟩
    rwa [append_nil]

theorem joined_isSome_iff : (fsSanitize d pathname).isSome = true ↔ ¬ OnlyDots pathname := by
  rw [fsSanitize_returns]
  refine and_iff_right ?_
  rintro ⟨before, h⟩
  apply hdot
  rw [← h, getLast?_append]
  rfl

include habs

theorem glued_isSome_iff :
    (fsSanitize cwd (d ++ pathname)).isSome = true ↔ ¬ (pathname = [] ∧ [slash, dot] <:+ d) := by
  rw [fsSanitize_returns, dot_isSuffix_append hdot, head?_append_pathname habs]
  exact and_iff_left fun h => absurd h.1 (by decide)

include hrelative hascii

theorem sanitize_glued_iff : fsSanitize cwd (d ++ pathname) = fsSanitize d pathname ↔
      ¬ OnlyDots pathname ∧ ¬ (pathname = [] ∧ [slash, dot] <:+ d) ∧ MeetsAgain d pathname := by
  have hglued := glued_isSome_iff habs hdot cwd
  have hjoined : _ ↔ ¬ OnlyDots pathname := joined_isSome_iff hdot (d := d)
  by_cases hdots : OnlyDots pathname
  · -- only the second one panics
    refine iff_of_false (fun h => ?_) fun h => h.1 hdots
    have hsome : (fsSanitize cwd (d ++ pathname)).isSome = true := by
      refine hglued.2 fun hnil => ?_
      rw [hnil.1] at hdots
      exact absurd hdots.1 (by decide)
    rw [h] at hsome
    exact hjoined.1 hsome hdots
  by_cases hend : pathname = [] ∧ [slash, dot] <:+ d
  · -- only the first one panics
    refine iff_of_false (fun h => ?_) fun h => h.2.1 hend
    have hsome := hjoined.2 hdots
    rw [← h] at hsome
    exact hglued.1 hsome hend
  · rw [fsSanitize_absolute (head?_append_pathname habs) cwd d] at hglued ⊢
    rw [fsSanitize_eq habs (hglued.2 hend), fsSanitize_eq habs (hjoined.2 hdots), Option.some.injEq, renderPath_inj,
      canonicalComponents_glued d (head?_append_pathname habs) hascii, canonicalComponents_joined hrelative hascii,
      append_cancel_right_eq, MeetsAgain, eq_comm]
    simp [hdots, hend]

end Agree

/-! ## When the rest removes the difference -/

/-- Neither empty nor `.` nor `..`. -/
def IsName (c : Bytes) : Prop := c ≠ [] ∧ c ≠ [dot] ∧ c ≠ [dot, dot]

theorem canonicalStep_of_isName (hc : IsName c) (stack : List Bytes) : canonicalStep stack c = stack ++ [c] := by
  rw [canonicalStep, if_neg (not_or.2 ⟨hc.1, hc.2.1⟩), if_neg hc.2.2]

theorem IsName.append {a b : Bytes} (ha : IsName a) (hb : IsName b) : IsName (a ++ b) := by
  obtain ⟨x, xs, rfl⟩ := exists_cons_of_ne_nil ha.1
  obtain ⟨y, ys, rfl⟩ := exists_cons_of_ne_nil hb.1
  refine ⟨by simp, by simp, fun h => ha.2.1 ?_⟩
  -- both have one byte, so the first one is the dot
  have hlength := congrArg length h
  simp only [length_append, length_cons, length_nil] at hlength
  obtain rfl : xs = [] := eq_nil_of_length_eq_zero (by omega)
  rw [singleton_append, List.cons.injEq] at h
  rw [h.1]

theorem IsName.pushBytes (hc : IsName c) : IsName (pushBytes c) :=
  have hascii : ∀ x : Bytes, (∀ b ∈ x, b < 128) → c ≠ x → Vfs.pushBytes c ≠ x := fun _ hx h =>
    mt (pushBytes_eq_iff_of_ascii hx).1 h
  ⟨hascii _ (by simp) hc.1, hascii _ (by simp [dot]) hc.2.1, hascii _ (by simp [dot]) hc.2.2⟩

theorem meetsAgain_of_slash (hend : d.getLast? = some slash) (pathname : Bytes) : MeetsAgain d pathname := by
  obtain ⟨init, rfl⟩ := getLast?_eq_some_iff.1 hend
  have hlast : lastName (init ++ [slash]) = [] := by
    rw [lastName, splitOn_append_cons_self, splitOn_nil, getLast?_concat]
    rfl
  rw [MeetsAgain, stackJoined, stackGlued, hlast]
  rfl

/-- **Plain names**: the rest has to climb above the directory before the last name. -/
theorem meetsAgain_iff_of_isName (hlast : IsName (lastName d)) (hfirst : IsName (firstName pathname)) :
    MeetsAgain d pathname ↔
      (canonicalComponents ((frontNames d).map pushBytes)).length + 2 ≤ (climb (restNames pathname)).1 := by
  rw [MeetsAgain, stackJoined, stackGlued, canonicalStep_of_isName hlast.pushBytes, canonicalStep_of_isName hfirst,
    canonicalStep_of_isName (hlast.pushBytes.append hfirst)]
  generalize (climb (restNames pathname)).1 = k
  constructor
  · intro h
    -- the stacks differ by one in length
    have hlength := congrArg length h
    simp only [length_lower, length_append, length_cons, length_nil] at hlength
    omega
  · intro hk
    have hnil : ∀ s : List Bytes, s.length ≤ k → lower k s = [] := fun s hs =>
      eq_nil_of_length_eq_zero (by rw [length_lower]; omega)
    rw [hnil _ (by simp; omega), hnil _ (by simp; omega)]

/-- **A path name relative to a directory.** The canonical path of what `at_resolve_pathname` returns is the one of
the path name in the directory if and only if `fs_sanitize` returns in both cases and the rest of the path name
removes what is different: nothing if the directory ends in a slash, and with plain names both of them and every other
name of the directory. -/
theorem atResolvePathname_iff {fsUserGetNode : Nat → Option OpenFile} {dirfd : Nat} {fd : OpenFile} {dir d pathname : Bytes}
    (hdirfd : dirfd ≠ atFdcwd) (hnode : fsUserGetNode dirfd = some fd) (hdir : fd.dirname = some dir)
    (hd : fd.mountPoint.mountPrefix ++ dir = d) (habs : d.head? = some slash)
    (hrelative : pathname.head? ≠ some slash) (hascii : ∀ b ∈ pathname, b < 128) (hdot : pathname.getLast? ≠ some dot)
    (cwd : Bytes) : ∃ resolved, atResolvePathname fsUserGetNode dirfd pathname = .ok resolved ∧
    (fsSanitize cwd resolved = fsSanitize d pathname ↔
      ¬ OnlyDots pathname ∧ ¬ (pathname = [] ∧ [slash, dot] <:+ d) ∧ MeetsAgain d pathname) ∧
    (d.getLast? = some slash → MeetsAgain d pathname) ∧
    (IsName (lastName d) → IsName (firstName pathname) → (MeetsAgain d pathname ↔
      (canonicalComponents ((frontNames d).map pushBytes)).length + 2 ≤ (climb (restNames pathname)).1)) := by
  refine ⟨d ++ pathname, ?_, sanitize_glued_iff habs hrelative hascii hdot cwd, fun hend => meetsAgain_of_slash hend pathname,
    meetsAgain_iff_of_isName⟩
  rw [atResolvePathname, if_neg (not_or.2 ⟨hrelative, hdirfd⟩), hnode]
  dsimp only
  rw [hdir, ← hd]

def openAt (dirname : Bytes) (fd : Nat) : Option OpenFile :=
  if fd = 3 then some ⟨⟨[slash], none, none, .ahci, .ext2, none⟩, some dirname⟩ else none

/-- The root directory ends in a slash, so `x` in it is `/x`. -/
theorem atResolvePathname_iff_root : ∃ resolved, atResolvePathname (openAt []) 3 [120] = .ok resolved ∧
      fsSanitize [slash] resolved = fsSanitize [slash] [120] := by
  obtain ⟨resolved, hresolved, hiff, hroot, -⟩ := @atResolvePathname_iff (openAt []) 3 _ [] [slash] [120]
    (by decide) rfl rfl rfl rfl (by decide) (by simp) (by decide) [slash]
  have hdots : ¬ OnlyDots [120] := fun h => absurd h.1 (by decide)
  exact ⟨resolved, hresolved, hiff.2 ⟨hdots, by decide, hroot rfl⟩⟩

/-- With the directory `/home` the name `x` becomes `/homex`, not `/home/x`. -/
theorem atResolvePathname_glues :
    atResolvePathname (openAt [104, 111, 109, 101]) 3 [120] = .ok [slash, 104, 111, 109, 101, 120] ∧
    fsSanitize [slash] [slash, 104, 111, 109, 101, 120] = some [slash, 104, 111, 109, 101, 120] ∧
    fsSanitize [slash, 104, 111, 109, 101] [120] = some [slash, 104, 111, 109, 101, slash, 120] := by
  refine ⟨by decide, by decide, by decide⟩

end CoreX.Vfs

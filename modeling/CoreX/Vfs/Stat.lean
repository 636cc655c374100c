import CoreX.Base.Loop
import CoreX.Vfs.Mount

/-!
# `stat` by name (`filesystems/vfs/vfs-stat.rs`)

`fs_stat_by_filename` and `fs_lstat_by_filename` ask the handler of a mount point, and if it reports a pending link
they call themselves with the name that the link leads to. Nothing counts the links. If there are finitely many of
them, the calls end if and only if they do not come to a name twice (`statByFilename_ends_iff`).
-/

namespace CoreX.Vfs

open Loop Option

structure Stat where
  size : Nat
  mode : UInt32
  isDir : Bool

/-- The handler of a mount point, from the stripped name and `target` to the result, `target` and `symlink`. It reports a
pending link by `false` and the target of the link. -/
structure StatHandler where
  run : Bytes → Stat → Bool × Stat × Option Bytes
  /-- The pending links. -/
  link : Bytes → Option Bytes
  reports : ∀ name target l, (run name target).1 = false ∧ (run name target).2.2 = some l ↔ link name = some l

def resolveSymlink (mount : MountPoint) (symlink : Bytes) : Option Bytes :=
  if mount.mountPrefix = [] then none
  else
    let prefixLen := mount.mountPrefix.length - 1
    if symlink.head? = some slash then (sliceTo mount.mountPrefix prefixLen).map (· ++ symlink)
    -- `!`
    else if symlink.head? = some 33 then some symlink.tail
    else none

/-- The body of both functions, for at most so many calls. A result `some none` is a panic. -/
def statWith (handler : MountPoint → Option StatHandler) (mounts : List MountPoint) (cwd : Bytes) :
    Nat → Bytes → Stat → Option (Option (Bool × Stat))
  | 0, _, _ => none
  | fuel + 1, filename, target =>
    match fsSanitize cwd filename with
    | none => some none
    | some safeFilename =>
      match determineMountPoint mounts safeFilename with
      | none => some none
      | some none => some (some (false, target))
      | some (some mnt) =>
        match fsStripMountpoint safeFilename mnt with
        | none => some none
        | some strippedFilename =>
          match handler mnt with
          | none => some (some (false, target))
          | some stat =>
            match stat.run strippedFilename target with
            | (false, target, some link) =>
              match resolveSymlink mnt link with
              | none => some none
              | some symlinkResolved => statWith handler mounts cwd fuel symlinkResolved target
            | (ret, target, _) => some (some (ret, target))

def fsStatByFilename (stat : MountPoint → Option StatHandler) := statWith stat

def fsLstatByFilename (lstat : MountPoint → Option StatHandler) := statWith lstat

variable {handler : MountPoint → Option StatHandler} {mounts : List MountPoint} {cwd filename name : Bytes}

def followed (handler : MountPoint → Option StatHandler) (mounts : List MountPoint) (cwd filename : Bytes) :
    Option Bytes := do
  let safeFilename ← fsSanitize cwd filename
  let mnt ← (determineMountPoint mounts safeFilename).join
  let strippedFilename ← fsStripMountpoint safeFilename mnt
  let stat ← handler mnt
  let link ← stat.link strippedFilename
  resolveSymlink mnt link

def follow (handler : MountPoint → Option StatHandler) (mounts : List MountPoint) (cwd filename : Bytes) :
    Option (Unit ⊕ Bytes) :=
  match followed handler mounts cwd filename with
  | some name => some (.inr name)
  | none => some (.inl ())

theorem follow_eq_inr :
    follow handler mounts cwd filename = some (.inr name) ↔ followed handler mounts cwd filename = some name := by
  unfold follow
  cases followed handler mounts cwd filename with
  | none | some => simp

theorem StatHandler.link_eq (stat : StatHandler) (name : Bytes) (target : Stat) :
    stat.link name = if (stat.run name target).1 then none else (stat.run name target).2.2 := by
  ext l
  rw [← stat.reports name target l]
  cases (stat.run name target).1 with
  | true | false => simp

theorem statWith_succ (fuel : Nat) (filename : Bytes) (target : Stat) :
    (followed handler mounts cwd filename = none ∧ ∃ r, statWith handler mounts cwd (fuel + 1) filename target = some r) ∨
      ∃ name target', followed handler mounts cwd filename = some name ∧
        statWith handler mounts cwd (fuel + 1) filename target = statWith handler mounts cwd fuel name target' := by
  rw [statWith, followed]
  cases fsSanitize cwd filename with
  | none => exact .inl ⟨rfl, _, rfl⟩
  | some safeFilename =>
    simp only [bind_eq_bind, bind_some]
    cases determineMountPoint mounts safeFilename with
    | none => exact .inl ⟨rfl, _, rfl⟩
    | some best =>
      cases best with
      | none => exact .inl ⟨rfl, _, rfl⟩
      | some mnt =>
        simp only [join_some, bind_some]
        cases fsStripMountpoint safeFilename mnt with
        | none => exact .inl ⟨rfl, _, rfl⟩
        | some strippedFilename =>
          cases handler mnt with
          | none => exact .inl ⟨rfl, _, rfl⟩
          | some stat =>
            simp only [bind_some, stat.link_eq strippedFilename target]
            obtain ⟨ret, target', symlink⟩ := stat.run strippedFilename target
            cases ret with
            | true => exact .inl ⟨rfl, _, rfl⟩
            | false =>
              cases symlink with
              | none => exact .inl ⟨rfl, _, rfl⟩
              | some link =>
                simp only [Bool.false_eq_true, if_false, bind_some]
                cases resolveSymlink mnt link with
                | none => exact .inl ⟨rfl, _, rfl⟩
                | some symlinkResolved => exact .inr ⟨symlinkResolved, target', rfl, rfl⟩

theorem statWith_eq_some_iff {fuel : Nat} {target : Stat} :
    (∃ r, statWith handler mounts cwd fuel filename target = some r) ↔
      ∃ r, exec (follow handler mounts cwd) fuel filename = some r := by
  induction fuel generalizing filename target with
  | zero => simp [statWith, exec]
  | succ fuel ih =>
    rcases statWith_succ fuel filename target with ⟨hnone, hends⟩ | ⟨name, target', hsome, hcall⟩
    · refine iff_of_true hends ⟨(), exec_succ_inl ?_ fuel⟩
      rw [follow, hnone]
    · rw [hcall, exec_succ_inr (follow_eq_inr.2 hsome), ih]

/-! ## Finitely many links -/

/-- There are finitely many links. -/
def FiniteLinks (handler : MountPoint → Option StatHandler) : Prop :=
  {p : MountPoint × Bytes | ∃ stat, handler p.1 = some stat ∧ stat.link p.2 ≠ none}.Finite

def leadsTo (handler : MountPoint → Option StatHandler) (p : MountPoint × Bytes) : Bytes :=
  (((handler p.1).bind fun stat => stat.link p.2).bind (resolveSymlink p.1)).getD []

theorem mem_leadsTo (h : followed handler mounts cwd filename = some name) :
    name ∈ leadsTo handler '' {p : MountPoint × Bytes | ∃ stat, handler p.1 = some stat ∧ stat.link p.2 ≠ none} := by
  obtain ⟨safeFilename, -, h⟩ := bind_eq_some_iff.1 h
  obtain ⟨mnt, -, h⟩ := bind_eq_some_iff.1 h
  obtain ⟨strippedFilename, -, h⟩ := bind_eq_some_iff.1 h
  obtain ⟨stat, hstat, h⟩ := bind_eq_some_iff.1 h
  obtain ⟨link, hlink, h⟩ := bind_eq_some_iff.1 h
  refine ⟨(mnt, strippedFilename), ⟨stat, hstat, by simp [hlink]⟩, ?_⟩
  simp [leadsTo, hstat, hlink, h]

theorem statWith_ends_iff (hfinite : FiniteLinks handler) (mounts : List MountPoint) (cwd filename : Bytes)
    (target : Stat) : (∃ fuel r, statWith handler mounts cwd fuel filename target = some r) ↔
      ¬ Repeats (follow handler mounts cwd) filename := by
  have hsafe : ∀ t, follow handler mounts cwd t ≠ none := by
    intro t
    unfold follow
    split <;> simp
  have hturn : ∀ t u, follow handler mounts cwd t = some (.inr u) → _ := fun t u hu => mem_leadsTo (follow_eq_inr.1 hu)
  rw [← endless_iff_repeats (hfinite.image (leadsTo handler)) hturn]
  simp only [statWith_eq_some_iff]
  rw [← Returns, returns_iff]
  exact and_iff_right fun t _ => hsafe t

/-- **A finite graph of links**: both functions end if and only if they do not come to a name twice. -/
theorem statByFilename_ends_iff (stat lstat : MountPoint → Option StatHandler) (hstat : FiniteLinks stat)
    (hlstat : FiniteLinks lstat) (mounts : List MountPoint) (cwd filename : Bytes) (target : Stat) :
    ((∃ fuel r, fsStatByFilename stat mounts cwd fuel filename target = some r) ↔
      ¬ Repeats (follow stat mounts cwd) filename) ∧
    ((∃ fuel r, fsLstatByFilename lstat mounts cwd fuel filename target = some r) ↔
      ¬ Repeats (follow lstat mounts cwd) filename) :=
  ⟨statWith_ends_iff hstat mounts cwd filename target, statWith_ends_iff hlstat mounts cwd filename target⟩

def rootMount : MountPoint := ⟨[slash], none, none, .dev, .dev, none⟩

def linkHandler (link : Bytes → Option Bytes) : StatHandler where
  run name target := ((link name).isNone, target, link name)
  link := link
  reports := by
    intro name target l
    cases link name with
    | none | some => simp

def oneLink (source target : Bytes) : MountPoint → Option StatHandler := fun mnt =>
  if mnt = rootMount then some (linkHandler fun name => if name = source then some target else none) else none

theorem finiteLinks_oneLink (source target : Bytes) : FiniteLinks (oneLink source target) := by
  refine (Set.finite_singleton (rootMount, source)).subset ?_
  rintro ⟨mnt, name⟩ ⟨stat, hstat, hlink⟩
  simp only [oneLink] at hstat
  split_ifs at hstat with hmnt
  cases hstat
  have hname : name = source := by
    by_contra hne
    exact hlink (if_neg hne)
  rw [hmnt, hname]
  rfl

/-- The link `/b` to `/a` is followed once. -/
theorem statByFilename_ends_iff_link :
    (∃ fuel r, fsStatByFilename (oneLink [slash, 98] [slash, 97]) [rootMount] [slash] fuel [slash, 98] ⟨0, 0, false⟩ =
      some r) ∧
    ∃ fuel r, fsLstatByFilename (oneLink [slash, 98] [slash, 97]) [rootMount] [slash] fuel [slash, 98] ⟨0, 0, false⟩ =
      some r := by
  have hfinite := finiteLinks_oneLink [slash, 98] [slash, 97]
  have hends : ¬ Repeats (follow (oneLink [slash, 98] [slash, 97]) [rootMount] [slash]) [slash, 98] := by
    intro hrepeats
    have hnone := exec_of_endless (.of_repeats hrepeats) 2
    revert hnone
    decide
  obtain ⟨hstat, hlstat⟩ := statByFilename_ends_iff _ _ hfinite hfinite [rootMount] [slash] [slash, 98] ⟨0, 0, false⟩
  exact ⟨hstat.2 hends, hlstat.2 hends⟩

/-- The link `/a` to itself is followed for ever. -/
theorem statByFilename_loops :
    (∀ fuel target, fsStatByFilename (oneLink [slash, 97] [slash, 97]) [rootMount] [slash] fuel [slash, 97] target = none) ∧
    ∀ fuel target, fsLstatByFilename (oneLink [slash, 97] [slash, 97]) [rootMount] [slash] fuel [slash, 97] target =
      none := by
  have hself : follow (oneLink [slash, 97] [slash, 97]) [rootMount] [slash] [slash, 97] = some (.inr [slash, 97]) := by
    decide
  have hnone : ∀ fuel target, statWith (oneLink [slash, 97] [slash, 97]) [rootMount] [slash] fuel [slash, 97] target =
      none := by
    intro fuel target
    by_contra hsome
    obtain ⟨r, hr⟩ := statWith_eq_some_iff.1 (ne_none_iff_exists'.1 hsome)
    rw [exec_of_endless (endless_of_self hself)] at hr
    cases hr
  exact ⟨hnone, hnone⟩

end CoreX.Vfs

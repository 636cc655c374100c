import CoreX.Base.Run

/-!
# The counted parts of a task (`multitasking/task_info.rs`)

The working directory, the page directory, the files and the signals of a task are objects that tasks share. An object
counts its holders in `utilizedBy`, and the discard that takes the count to zero releases what the object owns.
`taskInfoSignalClone` copies the whole struct over the new one, with the count of the old object. Page directories are
a parameter.
-/

namespace CoreX.TaskInfo

open List Option

variable {π : Type}

inductive Data (π : Type) where
  | fs (cwd : List UInt8) (umask : UInt32)
  | pd (pagedir : Option π) (heapStart heapEnd mmapStart mmapEnd : Nat)
  | files (rlimitFdsHard rlimitFdsSoft : Nat) (fdBitmap : List UInt8) (openFiles : List Int)
  | signal (signals : List UInt64)

structure Info (π : Type) where
  utilizedBy : Nat
  data : Data π

def taskInfoFsAllocate : Info π := ⟨1, .fs [0x2F] (0o020 ||| 0o002)⟩

/-- `fresh` is what `PageDirectoryAllocate` returns. -/
def taskInfoPdAllocate (fresh : π) (pagedir : Bool) : Info π :=
  ⟨1, .pd (if pagedir then some fresh else none) 0x40000000 0x40000000 0x60000000 0x60000000⟩

def taskInfoFilesAllocate : Info π := ⟨1, .files 1024 1024 (replicate (1024 / 8) 0) []⟩

def taskInfoSignalAllocate : Info π := ⟨1, .signal (replicate 64 0)⟩

/-- `PageDirectoryUserDuplicate`, from an old directory into a new one. -/
abbrev Duplicate (π : Type) := Option π → π → π

def taskInfoFsClone (cwd : List UInt8) (umask : UInt32) : Info π :=
  { (taskInfoFsAllocate : Info π) with data := .fs cwd umask }

section
variable (duplicate : Duplicate π) (fresh : π)

def taskInfoPdClone (pagedir : Option π) (heapStart heapEnd mmapStart mmapEnd : Nat) : Info π :=
  { taskInfoPdAllocate fresh true with
    data := .pd (some (duplicate pagedir fresh)) heapStart heapEnd mmapStart mmapEnd }

/-- The struct of the old object is copied over the new one, with its count. -/
def taskInfoSignalClone (old : Info π) : Info π := old

/-- There is no function for the files. -/
def taskInfoClone (old : Info π) : Option (Info π) :=
  match old.data with
  | .fs cwd umask => some (taskInfoFsClone cwd umask)
  | .pd pagedir heapStart heapEnd mmapStart mmapEnd =>
    some (taskInfoPdClone duplicate fresh pagedir heapStart heapEnd mmapStart mmapEnd)
  | .files .. => none
  | .signal _ => some (taskInfoSignalClone old)

inductive Resource where
  | struct | cwd | pageDirectory | openFiles | fdBitmap
  deriving DecidableEq

/-- What the last discard gives back. The struct of a page directory is kept on purpose. -/
def Data.resources : Data π → List Resource
  | .fs .. => [.cwd, .struct]
  | .pd .. => [.pageDirectory]
  | .files .. => [.openFiles, .fdBitmap, .struct]
  | .signal _ => [.struct]

/-- The four discard functions: one holder less, and what is released. A count of zero cannot be taken down. -/
def taskInfoDiscard (target : Info π) : Option (Info π × List Resource) :=
  if target.utilizedBy = 0 then none
  else
    some ({ target with utilizedBy := target.utilizedBy - 1 },
      if target.utilizedBy - 1 = 0 then target.data.resources else [])

structure Object (π : Type) where
  info : Info π
  holders : Nat
  released : List Resource

inductive Kind where
  | fs | pd (pagedir : Bool) | files | signal

def Kind.allocate : Kind → Info π
  | .fs => taskInfoFsAllocate
  | .pd pagedir => taskInfoPdAllocate fresh pagedir
  | .files => taskInfoFilesAllocate
  | .signal => taskInfoSignalAllocate

inductive Call (π : Type) where
  | allocate (kind : Kind) (fresh : π)
  | clone (i : Nat) (fresh : π)
  | share (i : Nat)
  | discard (i : Nat)

/-- A call is about an object that its caller holds. -/
def held (objects : List (Object π)) (i : Nat) : Option (Object π) := objects[i]?.filter fun o => 0 < o.holders

def step (objects : List (Object π)) : Call π → Option (List (Object π))
  | .allocate kind fresh => some (objects ++ [⟨kind.allocate fresh, 1, []⟩])
  | .clone i fresh =>
    (held objects i).bind fun o =>
      (taskInfoClone duplicate fresh o.info).map fun info => objects ++ [⟨info, 1, []⟩]
  | .share i =>
    (held objects i).map fun o =>
      objects.set i ⟨{ o.info with utilizedBy := o.info.utilizedBy + 1 }, o.holders + 1, o.released⟩
  | .discard i =>
    (held objects i).bind fun o =>
      (taskInfoDiscard o.info).map fun r => objects.set i ⟨r.1, o.holders - 1, o.released ++ r.2⟩

end

/-! ## The count -/

/-- The count is the number of the holders, and everything is released once when there is no holder. -/
def Object.Counted (o : Object π) : Prop :=
  o.info.utilizedBy = o.holders ∧ o.released = if o.holders = 0 then o.info.data.resources else []

/-- Every count is that of the users. -/
def AllCounted (objects : List (Object π)) : Prop := ∀ o ∈ objects, o.Counted

/-- The source of a clone of signals has one holder. -/
def Single (objects : List (Object π)) : Call π → Prop
  | .clone i _ => ∀ o ∈ objects[i]?, ∀ signals, o.info.data = .signal signals → o.holders = 1
  | .allocate _ _ | .share _ | .discard _ => True

variable {duplicate : Duplicate π} {objects : List (Object π)} {i : Nat} {o : Object π}

theorem AllCounted.held (h : AllCounted objects) (ho : held objects i = some o) :
    objects[i]? = some o ∧ o.holders ≠ 0 ∧ o.info.utilizedBy = o.holders ∧ o.released = [] := by
  obtain ⟨hget, hpos⟩ := filter_eq_some_iff.1 ho
  obtain ⟨hcount, hreleased⟩ := h o (mem_of_getElem? hget)
  have hne : o.holders ≠ 0 := Nat.ne_of_gt (of_decide_eq_true hpos)
  rw [if_neg hne] at hreleased
  exact ⟨hget, hne, hcount, hreleased⟩

theorem AllCounted.set (h : AllCounted objects) (ho : o.Counted) : AllCounted (objects.set i o) := by
  intro x hx
  rcases mem_or_eq_of_mem_set hx with hmem | rfl
  · exact h x hmem
  · exact ho

theorem AllCounted.append (h : AllCounted objects) {info : Info π} (hone : info.utilizedBy = 1) :
    AllCounted (objects ++ [⟨info, 1, []⟩]) :=
  forall_mem_append.2 ⟨h, forall_mem_singleton.2 ⟨hone, rfl⟩⟩

theorem taskInfoClone_utilizedBy {fresh : π} {old new : Info π} (h : taskInfoClone duplicate fresh old = some new) :
    new.utilizedBy = 1 ∨ new.utilizedBy = old.utilizedBy ∧ ∃ signals, old.data = .signal signals := by
  unfold taskInfoClone at h
  split at h
  case h_1 => exact .inl (some.inj h ▸ rfl)
  case h_2 => exact .inl (some.inj h ▸ rfl)
  case h_3 => cases h
  case h_4 signals hdata => exact .inr ⟨some.inj h ▸ rfl, signals, hdata⟩

theorem allCounted_step (objects : List (Object π)) (c : Call π) (objects' : List (Object π)) (h : AllCounted objects)
    (hsingle : Single objects c) (hstep : step duplicate objects c = some objects') : AllCounted objects' := by
  cases c with
  | allocate kind fresh =>
    obtain rfl := some.inj hstep
    apply h.append
    cases kind with
    | fs | pd | files | signal => rfl
  | clone i fresh =>
    obtain ⟨o, ho, hclone⟩ := bind_eq_some_iff.1 hstep
    obtain ⟨info, hinfo, rfl⟩ := map_eq_some_iff.1 hclone
    obtain ⟨hget, -, hcount, -⟩ := h.held ho
    apply h.append
    rcases taskInfoClone_utilizedBy hinfo with hone | ⟨hsame, signals, hdata⟩
    · exact hone
    · rw [hsame, hcount, hsingle o hget signals hdata]
  | share i =>
    obtain ⟨o, ho, rfl⟩ := map_eq_some_iff.1 hstep
    obtain ⟨-, -, hcount, hreleased⟩ := h.held ho
    refine h.set ⟨congrArg (· + 1) hcount, ?_⟩
    rw [hreleased, if_neg (Nat.succ_ne_zero _)]
  | discard i =>
    obtain ⟨o, ho, hdiscard⟩ := bind_eq_some_iff.1 hstep
    obtain ⟨r, hr, rfl⟩ := map_eq_some_iff.1 hdiscard
    obtain ⟨-, hne, hcount, hreleased⟩ := h.held ho
    rw [taskInfoDiscard, hcount, if_neg hne] at hr
    obtain rfl := some.inj hr
    exact h.set ⟨rfl, by rw [hreleased, nil_append]⟩

/-- **Counting.** In every run in which the source of a clone of signals has one holder, the count of every object is
the number of its holders, and its resources are released once, by the last discard. -/
theorem utilizedBy_counts (duplicate : Duplicate π) {calls : List (Call π)} {objects : List (Object π)}
    (hsingle : Run.Along (step duplicate) Single [] calls) (hrun : Run.run (step duplicate) [] calls = some objects) :
    AllCounted objects := by
  have hstart : AllCounted ([] : List (Object π)) := fun _ h => nomatch h
  exact Run.run_invariant_along allCounted_step hstart hsingle hrun

theorem utilizedBy_counts_cloned : ∃ objects : List (Object Unit),
      Run.run (step fun _ p => p) [] [.allocate .signal (), .clone 0 ()] = some objects ∧ AllCounted objects := by
  have hsingle : Run.Along (step fun _ p => p) Single ([] : List (Object Unit))
      [.allocate .signal (), .clone 0 ()] := by
    refine ⟨trivial, fun objects h => ⟨?_, fun _ _ => trivial⟩⟩
    obtain rfl := some.inj h
    rintro o ho signals -
    exact some.inj ho ▸ rfl
  exact ⟨_, rfl, utilizedBy_counts _ hsingle rfl⟩

/-- Signals with two holders are cloned: the clone has a count of two and one holder. When that one has discarded it, the
count is one and nothing is released. -/
theorem clone_of_shared : (Run.run (step fun _ (p : Unit) => p) [] [.allocate .signal (), .share 0, .clone 0 ()]).map
        (fun objects => objects[1]?.map fun o => (o.info.utilizedBy, o.holders)) = some (some (2, 1)) ∧
      (Run.run (step fun _ (p : Unit) => p) [] [.allocate .signal (), .share 0, .clone 0 (), .discard 1]).map
        (fun objects => objects[1]?.map fun o => (o.info.utilizedBy, o.holders, o.released)) =
          some (some (1, 0, [])) := by
  decide +kernel

end CoreX.TaskInfo

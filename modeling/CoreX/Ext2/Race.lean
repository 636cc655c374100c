import CoreX.Ext2.Locked

/-!
# Two threads in `ext2Touch`

A thread fetches the inode of the directory before it waits for `LOCK_DIRALLOC`, and then works on this copy. Up to
the lock it changes nothing of the directory (`Before.next`), and with the lock held it does what `ext2DirAllocate`
does (`Inside.next`). `Phase` says how far the two threads are, and every step keeps it (`Phase.step`).
-/

namespace CoreX.Ext2.Steps

open CoreX.Resumption Except Prod
open CoreX.Resumption.Prog (lift)

variable {ext2 v : Ext2} {d n : UInt32} {filename name : Bytes} {mode : UInt32} {s s' : Shared}
  {p : Thread (Except Errno Created)} {K K' : Ext2Inode → Prop} {copy : Ext2Inode} {groups : Ext2Groups} {c : Cmd}

/-! ## Until the lock -/

def touchIn (ext2 : Ext2) (filename : Bytes) (mode : UInt32) (parent : Traversed) :
    Thread (Except Errno Created) :=
  if parent.inode = 0 then return .error (.enoent parent.symlinkResolve)
  else if (nameOf filename).length = 0 then return .error .eisdir
  else createIn ext2 parent.inode (nameOf filename) mode

section
variable (ext2 d copy)

def createAbsent (name : Bytes) (mode found : UInt32) : Thread (Except Errno Created) :=
  if found ≠ 0 then return .error .eexist else createFile ext2 d copy name mode

def enterName (name : Bytes) (n : UInt32) : Thread (Except Errno Created) := do
  let _ ← ext2DirAllocate ext2 d copy (shortName name) 1 n
  return .ok ⟨d, n⟩

def finish (n : UInt32) : Thread (Except Errno Created) := do
  spinlockRelease
  return .ok ⟨d, n⟩

end

theorem enterName_eq : enterName ext2 d copy name n =
    .call .spinlockAcquire fun _ => allocateLocked ext2 d copy (shortName name) 1 n >>= fun _ => finish d n := by
  have hassoc := Prog.bind_assoc (allocateLocked ext2 d copy (shortName name) 1 n)
    (fun r => spinlockRelease >>= fun _ => pure r) fun _ => pure (ok ⟨d, n⟩ : Except Errno Created)
  exact congrArg (Prog.call Cmd.spinlockAcquire) (funext fun _ => hassoc)

section
variable (d p)

/-- Whatever the program returns, it is no file in the directory. -/
def Doomed : Prop := p.Returns fun r => ∀ n, r ≠ .ok ⟨d, n⟩

end

theorem Doomed.next (h : Doomed d p) : Next handle (fun p' _ => Doomed d p') p s := by
  cases p with
  | ret | throw => trivial
  | call c k => exact fun x _ _ => h x

theorem doomed_error (e : Errno) : Doomed d (.ret (.error e)) := fun n => by simp

theorem doomed_createIn {parent : UInt32} (h : parent ≠ d) : Doomed d (createIn ext2 parent name mode) := by
  refine Prog.returns_bind _ fun ino => ?_
  split_ifs
  · exact doomed_error _
  · refine Prog.returns_bind _ fun found => ?_
    split_ifs
    · exact doomed_error _
    · refine Prog.returns_bind _ fun n => Prog.returns_bind _ fun _ => Prog.returns_bind _ fun _ => fun n' heq => ?_
      exact h (congrArg Created.parent (ok.inj heq))

def Cmd.IsRead : Cmd → Prop
  | .getDiskBytes _ => True
  | .ext2InodeFetch _ => True
  | _ => False

theorem handle_of_isRead (hc : c.IsRead) {x : Ans c} (h : handle s c = .ok (x, s')) : s' = s := by
  cases c with
  | getDiskBytes | ext2InodeFetch => exact (Prod.mk.inj (ok.inj h)).2.symm
  | setDiskBytes | ext2InodeModifyM | ext2BlockFind | ext2InodeFind | spinlockAcquire | spinlockRelease =>
    exact absurd hc id

/-- The bitmaps are consistent and have the directory. -/
structure GroupsOk (d : UInt32) (groups : Ext2Groups) : Prop where
  consistent : Consistent groups
  allocated : Allocated groups d.toNat

theorem GroupsOk.find {groups' : Ext2Groups} {suggestion : Nat} (h : GroupsOk d groups)
    (hfind : Ext2.ext2InodeFind groups suggestion = .ok (n, groups')) : GroupsOk d groups' ∧ n ≠ 0 ∧ n ≠ d := by
  obtain ⟨group, k, hfound, hhands⟩ := ext2InodeFind_found h.consistent hfind
  refine ⟨⟨hfound.marked.consistent, hfound.marked.allocated h.allocated (.inl rfl)⟩, ?_, ?_⟩
  · rintro rfl
    exact hhands.allocated.1 rfl
  · rintro rfl
    exact hhands.not_allocated h.allocated

/-- The thread does not have the lock yet. An inode of the directory that it has fetched satisfies `K`. -/
inductive Before (ext2 : Ext2) (d : UInt32) (filename : Bytes) (mode : UInt32) (K : Ext2Inode → Prop) :
    Thread (Except Errno Created) → Prop
  | resolving {q : Thread Traversed} (hq : q.Uses Cmd.IsRead) :
    Before ext2 d filename mode K (q >>= touchIn ext2 filename mode)
  | looking {q : Thread UInt32} {copy : Ext2Inode} (hq : q.Uses Cmd.IsRead) (hcopy : K copy) :
    Before ext2 d filename mode K (q >>= createAbsent ext2 d copy (nameOf filename) mode)
  | storing {copy : Ext2Inode} {n : UInt32} (hcopy : K copy) (hn : n ≠ 0) (hd : n ≠ d) (target : Ext2Inode) :
    Before ext2 d filename mode K (ext2InodeModifyM n target >>= fun _ => enterName ext2 d copy (nameOf filename) n)
  | entering {copy : Ext2Inode} {n : UInt32} (hcopy : K copy) (hn : n ≠ 0) :
    Before ext2 d filename mode K (enterName ext2 d copy (nameOf filename) n)

structure Keeps (d : UInt32) (s s' : Shared) : Prop where
  lock : s'.lockDiralloc = s.lockDiralloc
  dirView : dirView d s'.fs.ext2 = dirView d s.fs.ext2
  groups : GroupsOk d s'.fs.groups

section
variable (ext2 d filename K)

def Enters (s : Shared) (p' : Thread (Except Errno Created)) (s' : Shared) : Prop :=
  ∃ copy n, K copy ∧ n ≠ 0 ∧ s.lockDiralloc = false ∧ s' = ⟨s.fs, true⟩ ∧
    p' = allocateLocked ext2 d copy (shortName (nameOf filename)) 1 n >>= fun _ => finish d n

end

theorem Before.mono (h : Before ext2 d filename mode K p) (hK : ∀ ino, K ino → K' ino) :
    Before ext2 d filename mode K' p := by
  cases h with
  | resolving hq => exact .resolving hq
  | looking hq hcopy => exact .looking hq (hK _ hcopy)
  | storing hcopy hn hd target => exact .storing (hK _ hcopy) hn hd target
  | entering hcopy hn => exact .entering (hK _ hcopy) hn

theorem before_ext2Touch : Before ext2 d filename mode K (ext2Touch ext2 filename mode) := by
  show Before ext2 d filename mode K (parentOf ext2 filename >>= touchIn ext2 filename mode)
  exact .resolving (uses_parentOf (fun _ => trivial) (fun _ => trivial) filename)

section Next
variable (hK : K (s.fs.ext2.inodes d)) (hgroups : GroupsOk d s.fs.groups)
include hgroups

section
variable (ext2 d filename mode K)

def Moves (s : Shared) (p' : Thread (Except Errno Created)) (s' : Shared) : Prop :=
  Doomed d p' ∨ (Before ext2 d filename mode K p' ∧ Keeps d s s') ∨ Enters ext2 d filename K s p' s'

end

theorem next_createAbsent {found : UInt32} (hcopy : K copy) :
    Next handle (Moves ext2 d filename mode K s) (createAbsent ext2 d copy (nameOf filename) mode found) s := by
  rw [createAbsent]
  split_ifs
  · trivial
  · intro (n : UInt32) s' hhandle
    obtain ⟨r, hfind, hr⟩ := bind_eq_ok.1 hhandle
    obtain ⟨rfl, rfl⟩ := Prod.mk.inj (ok.inj hr)
    obtain ⟨hgroups', hne, hd⟩ := hgroups.find hfind
    exact .inr (.inl ⟨.storing hcopy hne hd _, rfl, rfl, hgroups'⟩)

include hK

theorem next_touchIn (parent : Traversed) :
    Next handle (Moves ext2 d filename mode K s) (touchIn ext2 filename mode parent) s := by
  rw [touchIn]
  split_ifs with hzero hname
  · trivial
  · trivial
  by_cases hd : parent.inode = d
  · rw [hd]
    intro (ino : Ext2Inode) s' hhandle
    obtain ⟨rfl, rfl⟩ := Prod.mk.inj (ok.inj hhandle)
    show Moves ext2 d filename mode K s
      (if (s.fs.ext2.inodes d).permission &&& sIfmt ≠ sIfdir then .ret (.error .enotdir)
        else ext2Traverse ext2 d (nameOf filename) >>=
          createAbsent ext2 d (s.fs.ext2.inodes d) (nameOf filename) mode) s
    split_ifs
    · exact .inl (doomed_error _)
    · exact .inr (.inl ⟨.looking (uses_ext2Traverse (fun _ => trivial) (fun _ => trivial) ..) hK, rfl, rfl, hgroups⟩)
  · exact (doomed_createIn hd).next.mono fun _ _ => .inl

theorem Before.next (h : Before ext2 d filename mode K p) : Next handle (Moves ext2 d filename mode K s) p s := by
  cases h with
  | @resolving q hq =>
    cases q with
    | ret parent => exact next_touchIn hK hgroups parent
    | throw fault => trivial
    | call c k =>
      intro x s' hhandle
      obtain rfl := handle_of_isRead hq.1 hhandle
      exact .inr (.inl ⟨.resolving (hq.2 x), rfl, rfl, hgroups⟩)
  | @looking q copy hq hcopy =>
    cases q with
    | ret found => exact next_createAbsent hgroups hcopy
    | throw fault => trivial
    | call c k =>
      intro x s' hhandle
      obtain rfl := handle_of_isRead hq.1 hhandle
      exact .inr (.inl ⟨.looking (hq.2 x) hcopy, rfl, rfl, hgroups⟩)
  | storing hcopy hn hd target =>
    intro x s' hhandle
    obtain ⟨-, rfl⟩ := Prod.mk.inj (ok.inj hhandle)
    refine .inr (.inl ⟨.entering hcopy hn, rfl, ?_, hgroups⟩)
    change dirView d (Ext2.ext2InodeModifyM s.fs.ext2 _ target) = _
    rw [dirView, inodes_modify_of_ne hd.symm]
    rfl
  | @entering copy n hcopy hn =>
    rw [enterName_eq]
    intro x s' hhandle
    rw [handle] at hhandle
    split_ifs at hhandle with hlock
    obtain ⟨-, rfl⟩ := Prod.mk.inj (ok.inj hhandle)
    exact .inr (.inr ⟨copy, n, hcopy, hn, by simpa using hlock, rfl, rfl⟩)

end Next

theorem Before.returned_ne (h : Before ext2 d filename mode K p) (c : Created) : p.returned ≠ some (.ok c) := by
  have hnone : (none : Option (Except Errno Created)) ≠ some (.ok c) := by simp
  cases h with
  | @resolving q hq =>
    cases q with
    | ret parent =>
      rw [Prog.ret_bind, touchIn]
      split_ifs
      · simp [Prog.returned]
      · simp [Prog.returned]
      · exact hnone
    | throw | call => exact hnone
  | @looking q copy hq hcopy =>
    cases q with
    | ret found =>
      rw [Prog.ret_bind, createAbsent]
      split_ifs
      · simp [Prog.returned]
      · exact hnone
    | throw | call => exact hnone
  | storing | entering => exact hnone

/-! ## With the lock -/

def Allocates (d : UInt32) (v : Ext2) (copy : Ext2Inode) (name : Bytes) (n : UInt32) (v' : Ext2) : Prop :=
  ∃ r ino, Ext2.ext2DirAllocate v d copy name 1 n = .ok (r, v', ino)

/-- The rest of `ext2DirAllocate`: in `view` it ends as the call does that was begun with `v`. Until then
the inode of the directory satisfies `K`. -/
structure Running (d : UInt32) (groups : Ext2Groups) (v : Ext2) (copy : Ext2Inode) (name : Bytes) (n : UInt32)
    (K : Ext2Inode → Prop) (q : Thread (Bool × Ext2Inode)) (s : Shared) : Prop where
  uses : q.Uses (Cmd.Within d)
  result : exec handle q (view d groups s) =
    Ext2.ext2DirAllocate v d copy name 1 n >>= fun r => .ok ((r.1, r.2.2), ⟨⟨r.2.1, groups⟩, true⟩)
  through : Through handle (fun s => K (s.fs.ext2.inodes d)) q (view d groups s)

def Inside (d : UInt32) (groups : Ext2Groups) (v : Ext2) (copy : Ext2Inode) (name : Bytes) (n : UInt32)
    (K : Ext2Inode → Prop) (p : Thread (Except Errno Created)) (s : Shared) : Prop :=
  ∃ q, p = (q >>= fun _ => finish d n) ∧ Running d groups v copy name n K q s

structure Leaves (d : UInt32) (v : Ext2) (copy : Ext2Inode) (name : Bytes) (n : UInt32)
    (K : Ext2Inode → Prop) (s : Shared) (p' : Thread (Except Errno Created)) (s' : Shared) : Prop where
  done : p' = .ret (.ok ⟨d, n⟩)
  release : s' = ⟨s.fs, false⟩
  allocates : Allocates d v copy name n (dirView d s.fs.ext2)
  inode : K (s.fs.ext2.inodes d)

theorem setExt2_of_within (hc : c.Within d) {x : Ans c} (h : handle s c = .ok (x, s')) :
    s' = s.setExt2 s'.fs.ext2 := by
  cases c with
  | getDiskBytes => rw [← (Prod.mk.inj (ok.inj h)).2, setExt2_self]
  | setDiskBytes | ext2InodeModifyM => rw [← (Prod.mk.inj (ok.inj h)).2, setExt2_ext2]
  | ext2BlockFind =>
    obtain ⟨rest, -, rfl⟩ := handle_ext2BlockFind h
    rfl
  | ext2InodeFetch | ext2InodeFind | spinlockAcquire | spinlockRelease => exact absurd hc id

section
variable (h : Inside d groups v copy name n K p s)
include h

theorem Inside.congr (hview : dirView d s'.fs.ext2 = dirView d s.fs.ext2) : Inside d groups v copy name n K p s' := by
  obtain ⟨q, hq, huses, hresult, hthrough⟩ := h
  have heq : view d groups s' = view d groups s := by rw [view, view, hview]
  exact ⟨q, hq, huses, heq ▸ hresult, heq ▸ hthrough⟩

theorem Inside.inode : K (s.fs.ext2.inodes d) := by
  obtain ⟨q, -, -, -, hthrough⟩ := h
  rw [← dirView_inodes]
  exact hthrough.start

theorem Inside.returned_eq_none : p.returned = none := by
  obtain ⟨q, rfl, -⟩ := h
  cases q <;> rfl

theorem Inside.next : Next handle (fun p' s' => (Inside d groups v copy name n K p' s' ∧ s' = s.setExt2 s'.fs.ext2) ∨
      Leaves d v copy name n K s p' s') p s := by
  have hinode := h.inode
  obtain ⟨q, rfl, huses, hresult, hthrough⟩ := h
  cases q with
  | ret r =>
    intro x s' hhandle
    obtain ⟨-, rfl⟩ := Prod.mk.inj (ok.inj hhandle)
    refine .inr ⟨rfl, rfl, ?_, hinode⟩
    obtain ⟨r', hallocate, hr'⟩ := bind_eq_ok.1 hresult.symm
    have hview := congrArg (fun s : Shared => s.fs.ext2) (Prod.mk.inj (ok.inj hr')).2
    obtain ⟨ok, v', ino⟩ := r'
    obtain rfl : v' = dirView d s.fs.ext2 := hview
    exact ⟨ok, ino, hallocate⟩
  | throw fault => trivial
  | call c k =>
    intro x s' hhandle
    have hview : handle (view d groups s) c = .ok (x, view d groups s') := by
      rw [handle_view groups c huses.1, hhandle]
      rfl
    rw [exec_call_of_ok hview] at hresult
    exact .inl ⟨⟨k x, rfl, huses.2 x, hresult, hthrough.2 x _ hview⟩, setExt2_of_within huses.1 hhandle⟩

end

theorem InMemory.view (h : InMemory ext2 s) (d : UInt32) (groups : Ext2Groups) : InMemory ext2 (view d groups s) :=
  ⟨h.blockSize, h.heap⟩

theorem inside_allocateLocked (hmem : InMemory ext2 s)
    (hthrough : Through handle (fun s => K (s.fs.ext2.inodes d)) (allocateLocked ext2 d copy name 1 n)
      (view d groups s)) : Inside d groups (dirView d s.fs.ext2) copy name n K
      (allocateLocked ext2 d copy name 1 n >>= fun _ => finish d n) s :=
  ⟨_, rfl, within_allocateLocked .., exec_allocateLocked (hmem.view d groups) .., hthrough⟩

/-! ## The two threads -/

section Phase

def entryName (filename : Bool → Bytes) (t : Bool) : Bytes := shortName (nameOf (filename t))

structure Steady (fs : FileSystem) (d : UInt32) (lock : Bool) (s : Shared) : Prop where
  inMemory : InMemory fs.ext2 s
  groups : GroupsOk d s.fs.groups
  lock_eq : s.lockDiralloc = lock

variable (fs : FileSystem) (d : UInt32) (filename : Bool → Bytes) (mode : Bool → UInt32)

/-- What the inode of the directory can be if thread `t` enters its name first. -/
def Meanwhile (t : Bool) : Ext2Inode → Prop :=
  Snapshot (dirView d fs.ext2) ((dirView d fs.ext2).inodes d) (entryName filename t)

structure First (t : Bool) (n : UInt32) (v : Ext2) (p : Thread (Except Errno Created)) : Prop where
  ne_zero : n ≠ 0
  done : p = .ret (.ok ⟨d, n⟩)
  allocates : Allocates d (dirView d fs.ext2) ((dirView d fs.ext2).inodes d) (entryName filename t) n v

inductive Phase (pool : Pool Cmd Ans Fault (Except Errno Created) Shared Bool) : Prop
  /-- A thread has failed, or is in another directory. -/
  | doomed (t : Bool) (h : Doomed d (pool.threads t))
  /-- Nobody has had the lock. -/
  | start (hs : Steady fs d false pool.shared) (hview : dirView d pool.shared.fs.ext2 = dirView d fs.ext2)
    (hthreads : ∀ t, Before fs.ext2 d (filename t) (mode t) (· = (dirView d fs.ext2).inodes d) (pool.threads t))
  /-- Thread `t` has the lock. -/
  | first (t : Bool) (n : UInt32) (hs : Steady fs d true pool.shared) (hn : n ≠ 0)
    (hinside : Inside d fs.groups (dirView d fs.ext2) ((dirView d fs.ext2).inodes d) (entryName filename t) n
      (Meanwhile fs d filename t) (pool.threads t) pool.shared)
    (hother : Before fs.ext2 d (filename !t) (mode !t) (Meanwhile fs d filename t) (pool.threads !t))
  /-- Thread `t` is done, and the lock is free. -/
  | between (t : Bool) (n : UInt32) (hs : Steady fs d false pool.shared)
    (hfirst : First fs d filename t n (dirView d pool.shared.fs.ext2) (pool.threads t))
    (hinode : Meanwhile fs d filename t (pool.shared.fs.ext2.inodes d))
    (hother : Before fs.ext2 d (filename !t) (mode !t) (Meanwhile fs d filename t) (pool.threads !t))
  /-- Thread `t` is done, and the other one has the lock. -/
  | second (t : Bool) (n m : UInt32) (v : Ext2) (copy : Ext2Inode) (hs : Steady fs d true pool.shared)
    (hfirst : First fs d filename t n v (pool.threads t)) (hcopy : Meanwhile fs d filename t copy) (hm : m ≠ 0)
    (hinside : Inside d fs.groups v copy (entryName filename !t) m (fun _ => True) (pool.threads !t) pool.shared)
  /-- Both are done. -/
  | finished (t : Bool) (n m : UInt32) (v : Ext2) (copy : Ext2Inode)
    (hfirst : First fs d filename t n v (pool.threads t)) (hcopy : Meanwhile fs d filename t copy) (hm : m ≠ 0)
    (hdone : pool.threads (!t) = .ret (.ok ⟨d, m⟩))
    (hsecond : Allocates d v copy (entryName filename !t) m (dirView d pool.shared.fs.ext2))

variable {fs d filename mode} {pool pool' : Pool Cmd Ans Fault (Except Errno Created) Shared Bool} {i t : Bool}
  {lock : Bool}

section
variable (hs : Steady fs d lock s) (hmem : InMemory fs.ext2 s')
include hs hmem

theorem Steady.keeps (h : Keeps d s s') : Steady fs d lock s' := ⟨hmem, h.groups, h.lock.trans hs.lock_eq⟩

theorem Steady.setExt2 (h : s' = s.setExt2 s'.fs.ext2) : Steady fs d lock s' := by
  refine ⟨hmem, ?_, ?_⟩
  · rw [h]
    exact hs.groups
  · rw [h]
    exact hs.lock_eq

end

section Step
variable (hstep : step handle pool i = some pool')
include hstep

theorem inMemory_step (h : InMemory ext2 pool.shared) : InMemory ext2 pool'.shared := by
  obtain ⟨c, k, x, -, hhandle, -, -⟩ := step_eq_some hstep
  exact inMemory_handle _ c x _ h hhandle

theorem Phase.step_doomed (h : Doomed d (pool.threads t)) : Phase fs d filename mode pool' := by
  by_cases hi : t = i
  · subst hi
    exact .doomed t (step_next hstep h.next)
  · exact .doomed t ((step_other hstep hi).symm ▸ h)

theorem Phase.step_first (hs : Steady fs d true pool.shared) (hn : n ≠ 0)
    (hinside : Inside d fs.groups (dirView d fs.ext2) ((dirView d fs.ext2).inodes d) (entryName filename t) n
      (Meanwhile fs d filename t) (pool.threads t) pool.shared)
    (hother : Before fs.ext2 d (filename !t) (mode !t) (Meanwhile fs d filename t) (pool.threads !t)) :
    Phase fs d filename mode pool' := by
  have hmem := inMemory_step hstep hs.inMemory
  by_cases hi : i = t
  · subst hi
    have hother' : pool'.threads (!i) = pool.threads (!i) := step_other hstep (by simp)
    rw [← hother'] at hother
    rcases step_next hstep hinside.next with ⟨hinside', hset⟩ | hleaves
    · exact .first i n (hs.setExt2 hmem hset) hn hinside' hother
    have hfs : pool'.shared.fs = pool.shared.fs := by rw [hleaves.release]
    refine .between i n ⟨hmem, hfs ▸ hs.groups, by rw [hleaves.release]⟩ ⟨hn, hleaves.done, ?_⟩ ?_ hother
    · rw [hfs]
      exact hleaves.allocates
    · rw [hfs]
      exact hleaves.inode
  · obtain rfl : i = !t := Bool.eq_not.2 hi
    have hsame : pool'.threads t = pool.threads t := step_other hstep (by simp)
    rcases step_next hstep (hother.next hinside.inode hs.groups) with hdoomed | ⟨hbefore, hkeeps⟩ | henters
    · exact .doomed _ hdoomed
    · exact .first t n (hs.keeps hmem hkeeps) hn (hsame ▸ hinside.congr hkeeps.dirView) hbefore
    · obtain ⟨copy, m, -, -, hfree, -, -⟩ := henters
      exact absurd (hfree.symm.trans hs.lock_eq) (by simp)

theorem First.step (h : First fs d filename t n v (pool.threads t)) :
    i = (!t) ∧ First fs d filename t n v (pool'.threads t) := by
  have hi : i ≠ t := by
    rintro rfl
    exact not_step_of_ret hstep h.done
  exact ⟨Bool.eq_not.2 hi, (step_other hstep hi.symm).symm ▸ h⟩

theorem Phase.step_between (hs : Steady fs d false pool.shared)
    (hfirst : First fs d filename t n (dirView d pool.shared.fs.ext2) (pool.threads t))
    (hinode : Meanwhile fs d filename t (pool.shared.fs.ext2.inodes d))
    (hother : Before fs.ext2 d (filename !t) (mode !t) (Meanwhile fs d filename t) (pool.threads !t)) :
    Phase fs d filename mode pool' := by
  have hmem := inMemory_step hstep hs.inMemory
  obtain ⟨rfl, hfirst⟩ := hfirst.step hstep
  rcases step_next hstep (hother.next hinode hs.groups) with hdoomed | ⟨hbefore, hkeeps⟩ | henters
  · exact .doomed _ hdoomed
  · refine .between t n (hs.keeps hmem hkeeps) (hkeeps.dirView.symm ▸ hfirst) ?_ hbefore
    rw [← dirView_inodes, hkeeps.dirView, dirView_inodes]
    exact hinode
  · obtain ⟨copy, m, hcopy, hm, -, hs', hp'⟩ := henters
    have hfs : pool'.shared.fs = pool.shared.fs := by rw [hs']
    refine .second t n m (dirView d pool'.shared.fs.ext2) copy ⟨hmem, hfs ▸ hs.groups, by rw [hs']⟩
      (hfs.symm ▸ hfirst) hcopy hm ?_
    rw [hp']
    exact inside_allocateLocked hmem (through_of_uses (fun _ _ _ _ _ _ _ => trivial) (within_allocateLocked ..) trivial)

theorem Phase.step_second {m : UInt32} (hs : Steady fs d true pool.shared)
    (hfirst : First fs d filename t n v (pool.threads t)) (hcopy : Meanwhile fs d filename t copy) (hm : m ≠ 0)
    (hinside : Inside d fs.groups v copy (entryName filename !t) m (fun _ => True) (pool.threads !t) pool.shared) :
    Phase fs d filename mode pool' := by
  have hmem := inMemory_step hstep hs.inMemory
  obtain ⟨rfl, hfirst⟩ := hfirst.step hstep
  rcases step_next hstep hinside.next with ⟨hinside', hset⟩ | hleaves
  · exact .second t n m v copy (hs.setExt2 hmem hset) hfirst hcopy hm hinside'
  · refine .finished t n m v copy hfirst hcopy hm hleaves.done ?_
    rw [hleaves.release]
    exact hleaves.allocates

section
variable (hsound : Sound (dirView d fs.ext2) ((dirView d fs.ext2).inodes d))
  (hcount : dirCount (dirView d fs.ext2) ((dirView d fs.ext2).inodes d) < 12)
include hsound hcount

theorem Phase.step_start (hs : Steady fs d false pool.shared)
    (hview : dirView d pool.shared.fs.ext2 = dirView d fs.ext2)
    (hthreads : ∀ t, Before fs.ext2 d (filename t) (mode t) (· = (dirView d fs.ext2).inodes d) (pool.threads t)) :
    Phase fs d filename mode pool' := by
  have hmem := inMemory_step hstep hs.inMemory
  have hinode : pool.shared.fs.ext2.inodes d = (dirView d fs.ext2).inodes d := by rw [← hview, dirView_inodes]
  rcases step_next hstep ((hthreads i).next hinode hs.groups) with hdoomed | ⟨hbefore, hkeeps⟩ | henters
  · exact .doomed i hdoomed
  · refine .start (hs.keeps hmem hkeeps) (hkeeps.dirView.trans hview) fun t => ?_
    by_cases ht : t = i
    · subst ht
      exact hbefore
    · rw [step_other hstep ht]
      exact hthreads t
  · obtain ⟨copy, n, rfl, hn, -, hs', hp'⟩ := henters
    have hfs : pool'.shared.fs = pool.shared.fs := by rw [hs']
    have hview' : dirView d pool'.shared.fs.ext2 = dirView d fs.ext2 := by rw [hfs, hview]
    refine .first i n ⟨hmem, hfs ▸ hs.groups, by rw [hs']⟩ hn ?_ ?_
    · -- the directory is still the one from the start, so the inode stays a snapshot of it
      have hext2 : (view d fs.groups pool'.shared).fs.ext2 = dirView d fs.ext2 := hview'
      have hthrough := through_allocateLocked (d := d) (entryName filename i) 1 n (hmem.view d fs.groups)
        (hext2 ▸ hsound) (hext2 ▸ hcount)
      rw [hext2] at hthrough
      have hinside := inside_allocateLocked hmem hthrough
      rw [hview'] at hinside
      rw [hp']
      exact hinside
    · rw [step_other hstep (by simp)]
      exact (hthreads !i).mono fun _ => .inl

theorem Phase.step (h : Phase fs d filename mode pool) : Phase fs d filename mode pool' := by
  cases h with
  | doomed t h => exact step_doomed hstep h
  | start hs hview hthreads => exact step_start hstep hsound hcount hs hview hthreads
  | first t n hs hn hinside hother => exact step_first hstep hs hn hinside hother
  | between t n hs hfirst hinode hother => exact step_between hstep hs hfirst hinode hother
  | second t n m v copy hs hfirst hcopy hm hinside => exact step_second hstep hs hfirst hcopy hm hinside
  | finished t n m v copy hfirst hcopy hm hdone hsecond =>
    obtain ⟨rfl, -⟩ := hfirst.step hstep
    exact (not_step_of_ret hstep hdone).elim

end

end Step

def touchPool (fs : FileSystem) (filename : Bool → Bytes) (mode : Bool → UInt32) :
    Pool Cmd Ans Fault (Except Errno Created) Shared Bool :=
  ⟨⟨fs, false⟩, fun t => ext2Touch fs.ext2 (filename t) (mode t)⟩

/-- If both threads have made a file in the directory, one entered its name first, and the other one has worked on an
inode of that time. -/
theorem Phase.finished_of_returned {made : Bool → UInt32} (h : Phase fs d filename mode pool)
    (hret : ∀ t, (pool.threads t).returned = some (.ok ⟨d, made t⟩)) : ∃ t v copy, made t ≠ 0 ∧ made (!t) ≠ 0 ∧
      Allocates d (dirView d fs.ext2) ((dirView d fs.ext2).inodes d) (entryName filename t) (made t) v ∧
      Meanwhile fs d filename t copy ∧
      Allocates d v copy (entryName filename !t) (made !t) (dirView d pool.shared.fs.ext2) := by
  cases h with
  | doomed t h =>
    rw [Prog.returned_eq_some.1 (hret t)] at h
    exact absurd rfl (h (made t))
  | start hs hview hthreads => exact absurd (hret true) ((hthreads true).returned_ne _)
  | first t n hs hn hinside hother | between t n hs hfirst hinode hother =>
    exact absurd (hret !t) (hother.returned_ne _)
  | second t n m v copy hs hfirst hcopy hm hinside =>
    have hnone := hinside.returned_eq_none
    rw [hret !t] at hnone
    exact absurd hnone (by simp)
  | finished t n m v copy hfirst hcopy hm hdone hsecond =>
    have hn := Prog.returned_eq_some.1 (hret t)
    rw [hfirst.done] at hn
    obtain rfl : n = made t := by simpa using hn
    have hm' := Prog.returned_eq_some.1 (hret !t)
    rw [hdone] at hm'
    obtain rfl : m = made !t := by simpa using hm'
    exact ⟨t, v, copy, hfirst.ne_zero, hm, hfirst.allocates, hcopy, hsecond⟩

end Phase

/-! ## What both have made -/

theorem ext2Traverse_dirView (h : IsDirectory (dirView d ext2) ((dirView d ext2).inodes d)) (search : Bytes) :
    Ext2.ext2Traverse ext2 d search = Ext2.ext2Traverse (dirView d ext2) d search := by
  have hsame : Untouched (dirView d ext2) (ext2.inodes d) ext2 := ⟨rfl, fun _ _ _ => rfl⟩
  have h' := h
  rw [dirView_inodes] at h'
  rw [ext2Traverse_eq h, ext2Traverse_eq (hsame.isDirectory h'), hsame.liveEntries_eq, dirView_inodes]

/-- **Two threads make two files in one directory.** Whatever the schedule, both names are found afterwards, and so is
every name from before, if one of the two names has room in a block that the directory already has. -/
theorem both_touched {fs : FileSystem} {filename : Bool → Bytes} {mode made : Bool → UInt32}
    {schedule : List Bool} {pool : Pool Cmd Ans Fault (Except Errno Created) Shared Bool}
    (hsound : Sound fs.ext2 (fs.ext2.inodes d)) (hcount : dirCount fs.ext2 (fs.ext2.inodes d) < 11)
    (hgroups : GroupsOk d fs.groups) (hshort : ∀ t, (nameOf (filename t)).length < 256)
    (hne : nameOf (filename false) ≠ nameOf (filename true))
    (habsent : ∀ t, Ext2.ext2Traverse fs.ext2 d (nameOf (filename t)) = .ok 0)
    (hroom : ∃ t, HasRoomFor fs.ext2 (fs.ext2.inodes d) (nameOf (filename t)))
    (hrun : Run.run (step handle) (touchPool fs filename mode) schedule = some pool)
    (hreturned : ∀ t, (pool.threads t).returned = some (.ok ⟨d, made t⟩)) :
    (∀ t, Ext2.ext2Traverse pool.shared.fs.ext2 d (nameOf (filename t)) = .ok (made t)) ∧
      ∀ name c, Ext2.ext2Traverse fs.ext2 d name = .ok c → c ≠ 0 →
        Ext2.ext2Traverse pool.shared.fs.ext2 d name = .ok c := by
  have hsame : Untouched fs.ext2 (fs.ext2.inodes d) (dirView d fs.ext2) := ⟨rfl, fun _ _ _ => rfl⟩
  have hsound₀ : Sound (dirView d fs.ext2) ((dirView d fs.ext2).inodes d) := by
    rw [dirView_inodes]
    exact hsame.sound hsound (List.Sublist.refl _)
  have hcount₀ : dirCount (dirView d fs.ext2) ((dirView d fs.ext2).inodes d) < 11 := by
    rw [dirView_inodes]
    exact hcount
  have hphase := Run.run_invariant (fun _ _ _ h hstep => Phase.step hstep hsound₀ (by omega) h)
    (.start ⟨⟨rfl, rfl⟩, hgroups, rfl⟩ rfl fun _ => before_ext2Touch) hrun
  obtain ⟨t, v, copy, hn, hm, ⟨r₁, ino₁, h₁⟩, hcopy, ⟨r₂, ino₂, h₂⟩⟩ := hphase.finished_of_returned hreturned
  -- the names as they are entered
  rw [Meanwhile, entryName, shortName_eq (hshort t)] at hcopy
  rw [entryName, shortName_eq (hshort t)] at h₁
  rw [entryName, shortName_eq (hshort !t)] at h₂
  have habsent₀ (t : Bool) : Ext2.ext2Traverse (dirView d fs.ext2) d (nameOf (filename t)) = .ok 0 :=
    (ext2Traverse_dirView hsound₀.directory _).symm.trans (habsent t)
  have hroom₀ : HasRoomFor (dirView d fs.ext2) ((dirView d fs.ext2).inodes d) (nameOf (filename t)) ∨
      HasRoomFor (dirView d fs.ext2) ((dirView d fs.ext2).inodes d) (nameOf (filename !t)) := by
    rw [dirView_inodes, HasRoomFor, HasRoomFor, hsame.entriesOf_eq]
    obtain ⟨u, hroom⟩ := hroom
    by_cases hu : u = t
    · exact .inl (hu ▸ hroom)
    · exact .inr (Bool.eq_not.2 hu ▸ hroom)
  have hne₀ : nameOf (filename t) ≠ nameOf (filename !t) := by
    cases t with
    | false => exact hne
    | true => exact hne.symm
  obtain ⟨hdir, hfirst, hsecond, hold⟩ := ext2Traverse_second hsound₀ hcount₀ hcopy hroom₀ (hshort t)
    (hshort !t) hn hm hne₀ (habsent₀ t) (habsent₀ !t) h₁ h₂
  refine ⟨fun u => ?_, fun name c hc hzero => ?_⟩
  · rw [ext2Traverse_dirView hdir]
    by_cases hu : u = t
    · rw [hu]
      exact hfirst
    · rw [Bool.eq_not.2 hu]
      exact hsecond
  · rw [ext2Traverse_dirView hdir]
    rw [ext2Traverse_dirView hsound₀.directory] at hc
    exact hold name c hc hzero

def twoFiles (t : Bool) : Bytes := if t then [slash, 98] else [slash, 97]

theorem groupsOk_fiveFree : GroupsOk 2 fiveFree := ⟨consistent_fiveFree, by decide +kernel⟩

/-- Both threads have fetched the inode before either has the lock, and both names have room. -/
theorem both_touched_smallDrive : ∃ pool, Run.run (step handle) (touchPool smallDrive twoFiles fun _ => 0o644)
        (List.replicate 5 false ++ List.replicate 5 true ++ List.replicate 4 false ++ List.replicate 4 true) =
        some pool ∧
      Ext2.ext2Traverse pool.shared.fs.ext2 2 [97] = .ok 12 ∧ Ext2.ext2Traverse pool.shared.fs.ext2 2 [98] = .ok 13 ∧
      Ext2.ext2Traverse pool.shared.fs.ext2 2 dot = .ok 2 := by
  refine (exists_of_any (p := fun pool => ∀ t, (pool.threads t).returned = some (.ok ⟨2, if t then 13 else 12⟩))
    (by decide +kernel)).imp fun pool hpool => ⟨hpool.1, ?_⟩
  have hroom : HasRoomFor smallDrive.ext2 oneBlockInode [97] :=
    show ∃ e ∈ entriesOf smallDrive.ext2 (dirBlocks smallDrive.ext2 oneBlockInode), e.HasRoom [97] by decide +kernel
  obtain ⟨hfound, hold⟩ := both_touched (sound_oneBlock (by decide +kernel)) (by decide) groupsOk_fiveFree
    (by decide) (by decide) (by decide +kernel) ⟨false, hroom⟩ hpool.1 hpool.2
  exact ⟨hfound false, hfound true, hold dot 2 (by decide +kernel) (by decide)⟩

def fullDrive : FileSystem := ⟨oneBlockExt2 ([65, 66, 67, 68].map fun c => ⟨2, 256, 2, List.replicate 248 c⟩), fiveFree⟩

/-- Both names need a new block, and both threads have fetched the inode before either of them has the lock. The second
one puts its block where the first one has put its own, and the first name is lost. -/
theorem touched_lost : Sound fullDrive.ext2 (fullDrive.ext2.inodes 2) ∧ GroupsOk 2 fullDrive.groups ∧
      (∀ t, Ext2.ext2Traverse fullDrive.ext2 2 (nameOf (twoFiles t)) = .ok 0) ∧
      ∃ pool, Run.run (step handle) (touchPool fullDrive twoFiles fun _ => 0o644)
          (List.replicate 5 false ++ List.replicate 5 true ++ List.replicate 7 false ++ List.replicate 7 true) =
          some pool ∧ (∀ t, (pool.threads t).returned = some (.ok ⟨2, if t then 13 else 12⟩)) ∧
        Ext2.ext2Traverse pool.shared.fs.ext2 2 [97] = .ok 0 ∧
        Ext2.ext2Traverse pool.shared.fs.ext2 2 [98] = .ok 13 := by
  exact ⟨sound_oneBlock (by decide +kernel), groupsOk_fiveFree, by decide +kernel, exists_of_any (by decide +kernel)⟩

end CoreX.Ext2.Steps

import Mathlib.Algebra.Order.BigOperators.Group.Finset
import Mathlib.Tactic.Ring
import CoreX.Base.Run

/-!
# The counting lock (`SpinlockCnt` of `utilities/spinlock.rs`)

Every call takes the inner lock by a `swap`, looks at `cnt`, changes it and gives the inner lock back by a `store`.
These are the steps. A task has a lock from the store that ends its acquire to the store that ends its release; in
between the count is already changed while the inner lock is taken. So the invariant counts such a call in advance
(`credit`): `cnt` is always the sum of the credits.
-/

namespace CoreX.SpinlockCnt

open Function Option Finset

inductive Op where
  | readAcquire
  | readRelease
  | writeAcquire
  | writeRelease
  deriving DecidableEq

inductive Place where
  | idle
  /-- In the loop of `self.lock.acquire()`. -/
  | spin (op : Op)
  /-- Before the `if` on `self.cnt`. -/
  | test (op : Op)
  /-- Before the load of `self.cnt += 1` or `self.cnt -= 1`. -/
  | load (op : Op)
  /-- Before the store to `self.cnt`. -/
  | store (op : Op) (v : Int)
  /-- Before the store of `self.lock.release()`; then the call returns or starts again. -/
  | unlock (op : Op) (returns : Bool)
  | panicked (op : Op)
  deriving DecidableEq

structure Task where
  place : Place
  reads : Nat
  writes : Bool

structure State (ι : Type) where
  flag : Bool
  cnt : Int
  tasks : ι → Task

def init {ι : Type} : State ι := ⟨false, 0, fun _ => ⟨.idle, 0, false⟩⟩

def Op.delta : Op → Int
  | .readAcquire => 1
  | .readRelease => -1
  | .writeAcquire => -1
  | .writeRelease => 1

def branch (op : Op) (cnt : Int) : Place :=
  match op with
  | .readAcquire => if -1 < cnt then .load op else .unlock op false
  | .readRelease => if cnt < 0 then .panicked op else .load op
  | .writeAcquire => if cnt = 0 then .store op (-1) else .unlock op false
  | .writeRelease => if cnt ≠ -1 then .panicked op else .store op 0

def added (op : Op) (cnt : Int) : Place :=
  if -2 ^ 31 ≤ cnt + op.delta ∧ cnt + op.delta < 2 ^ 31 then .store op (cnt + op.delta) else .panicked op

def finish (op : Op) (x : Task) : Task :=
  match op with
  | .readAcquire => ⟨.idle, x.reads + 1, x.writes⟩
  | .readRelease => ⟨.idle, x.reads - 1, x.writes⟩
  | .writeAcquire => ⟨.idle, x.reads, true⟩
  | .writeRelease => ⟨.idle, x.reads, false⟩

def Op.owned (op : Op) (x : Task) : Bool :=
  match op with
  | .readRelease => 0 < x.reads
  | .writeRelease => x.writes
  | _ => true

section Steps
variable {ι : Type} [DecidableEq ι]

def State.set (s : State ι) (t : ι) (x : Task) : State ι := { s with tasks := Function.update s.tasks t x }

def advance (s : State ι) (t : ι) : Option (State ι) :=
  let x := s.tasks t
  match x.place with
  | .idle => none
  -- the swap
  | .spin op => if s.flag then some s else some { s.set t { x with place := .test op } with flag := true }
  | .test op => some (s.set t { x with place := branch op s.cnt })
  | .load op => some (s.set t { x with place := added op s.cnt })
  | .store op v => some { s.set t { x with place := .unlock op true } with cnt := v }
  | .unlock op true => some { s.set t (finish op x) with flag := false }
  | .unlock op false => some { s.set t { x with place := .spin op } with flag := false }
  | .panicked _ => none

def step (s : State ι) (e : ι × Option Op) : Option (State ι) :=
  match e.2 with
  | some op =>
    let x := s.tasks e.1
    if x.place = .idle ∧ op.owned x = true then some (s.set e.1 { x with place := .spin op }) else none
  | none => advance s e.1

end Steps

def Place.inside : Place → Bool
  | .idle => false
  | .spin _ => false
  | _ => true

def held (x : Task) : Int := x.reads - x.writes.toNat

/-- What a call has added to `cnt` before it returns. -/
def pending : Place → Int
  | .unlock op true => op.delta
  | _ => 0

def credit (x : Task) : Int := held x + pending x.place

variable {ι : Type}

section Holders
variable (tasks : ι → Task)

def NoWriter : Prop := ∀ t, (tasks t).writes = false

def NoReader : Prop := ∀ t, (tasks t).reads = 0

/-- Beside a writer there is no reader and no other writer. -/
def Excl : Prop := ∀ t u, (tasks t).writes = true → (tasks u).reads = 0 ∧ ((tasks u).writes = true → u = t)

def Op.May (op : Op) : Prop :=
  match op with
  | .readAcquire => NoWriter tasks
  | .writeAcquire => NoWriter tasks ∧ NoReader tasks
  | _ => True

def Sound (cnt : Int) (x : Task) : Prop :=
  match x.place with
  | .idle => True
  | .spin op => op.owned x = true
  | .test op => op.owned x = true
  | .load op => op.owned x = true ∧ op.May tasks ∧ (op = .readAcquire ∨ op = .readRelease)
  | .store op v => op.owned x = true ∧ op.May tasks ∧ v = cnt + op.delta ∧ v < 2 ^ 31
  | .unlock op returns => op.owned x = true ∧ (returns = true → op.May tasks)
  | .panicked op => op = .readAcquire

end Holders

structure Inv [Fintype ι] (s : State ι) : Prop where
  inner : ∀ t, (s.tasks t).place.inside = true → s.flag = true ∧ ∀ u, (s.tasks u).place.inside = true → u = t
  excl : Excl s.tasks
  sound : ∀ t, Sound s.tasks s.cnt (s.tasks t)
  count : s.cnt = ∑ t, credit (s.tasks t)
  small : s.cnt < 2 ^ 31

variable {tasks tasks' : ι → Task} {s s' : State ι} {t : ι} {x : Task} {op : Op} {p : Place} {cnt cnt' : Int}

theorem pending_of_outside (h : p.inside = false) : pending p = 0 := by
  cases p with
  | idle | spin => rfl
  | _ => cases h

/-- Outside of the inner lock only what the task itself has matters. -/
theorem sound_of_outside (h : x.place.inside = false) (hx : Sound tasks cnt x) : Sound tasks' cnt' x := by
  unfold Sound at hx ⊢
  cases hplace : x.place with
  | idle => trivial
  | spin op => rwa [hplace] at hx
  | _ =>
    rw [hplace] at h
    cases h

theorem credit_finish (hplace : x.place = .unlock op true) (howned : op.owned x = true)
    (hmay : op = .writeAcquire → x.writes = false) : credit (finish op x) = credit x := by
  unfold credit
  rw [hplace]
  cases op with
  | readAcquire =>
    simp only [finish, held, pending, Op.delta]
    push_cast
    ring
  | readRelease =>
    have hreads : 0 < x.reads := of_decide_eq_true howned
    simp only [finish, held, pending, Op.delta]
    rw [Nat.cast_pred hreads]
    ring
  | writeAcquire => simp [finish, held, pending, Op.delta, hmay rfl, Int.sub_eq_add_neg]
  | writeRelease =>
    have hwrites : x.writes = true := howned
    simp [finish, held, pending, Op.delta, hwrites]

section
variable (op cnt)

theorem pending_branch : pending (branch op cnt) = 0 := by
  cases op with
  | _ =>
    unfold branch
    split_ifs <;> rfl

theorem pending_added : pending (added op cnt) = 0 := by
  unfold added
  split_ifs <;> rfl

@[simp] theorem place_finish (x : Task) : (finish op x).place = .idle := by
  cases op with
  | _ => rfl

end

section Goto
variable [DecidableEq ι]

theorem reads_goto (u : ι) : (update tasks t { tasks t with place := p } u).reads = (tasks u).reads := by
  by_cases hu : u = t
  · rw [hu, update_self]
  · rw [update_of_ne hu]

theorem writes_goto (u : ι) : (update tasks t { tasks t with place := p } u).writes = (tasks u).writes := by
  by_cases hu : u = t
  · rw [hu, update_self]
  · rw [update_of_ne hu]

theorem excl_goto : Excl (update tasks t { tasks t with place := p }) ↔ Excl tasks := by
  simp only [Excl, reads_goto, writes_goto]

theorem may_goto : op.May (update tasks t { tasks t with place := p }) ↔ op.May tasks := by
  cases op with
  | readAcquire => simp only [Op.May, NoWriter, writes_goto]
  | writeAcquire => simp only [Op.May, NoWriter, NoReader, reads_goto, writes_goto]
  | readRelease | writeRelease => exact Iff.rfl

theorem sound_goto : Sound (update tasks t { tasks t with place := p }) cnt x ↔ Sound tasks cnt x := by
  unfold Sound
  simp only [may_goto]

theorem excl_update (h : Excl tasks) (hothers : x.writes = true → ∀ u, u ≠ t → (tasks u).reads = 0 ∧ (tasks u).writes = false)
    (hself : x.writes = true → x.reads = 0) (hbeside : ∀ u, u ≠ t → (tasks u).writes = true → x.reads = 0 ∧ x.writes = false) :
    Excl (update tasks t x) := by
  intro u v hu
  by_cases hut : u = t <;> by_cases hvt : v = t
  · rw [hut, update_self] at hu
    rw [hut, hvt, update_self]
    exact ⟨hself hu, fun _ => rfl⟩
  · rw [hut, update_self] at hu
    rw [update_of_ne hvt, (hothers hu v hvt).2]
    exact ⟨(hothers hu v hvt).1, nofun⟩
  · rw [update_of_ne hut] at hu
    rw [hvt, update_self, (hbeside u hut hu).2]
    exact ⟨(hbeside u hut hu).1, nofun⟩
  · rw [update_of_ne hut] at hu
    rw [update_of_ne hvt]
    exact h u v hu

theorem excl_finish (h : Excl tasks) (hmay : op.May tasks) : Excl (update tasks t (finish op (tasks t))) := by
  have hfalse : ∀ {u}, (tasks u).writes = false → (tasks u).writes = true → False := fun h h' =>
    Bool.false_ne_true (h.symm.trans h')
  have hbeside : ∀ u, u ≠ t → (tasks u).writes = true → (tasks t).reads = 0 ∧ (tasks t).writes = false := fun u hu hw =>
    ⟨(h u t hw).1, Bool.eq_false_of_not_eq_true fun ht => hu ((h u t hw).2 ht).symm⟩
  cases op with
  | readAcquire =>
    exact excl_update h (fun hw => (hfalse (hmay t) hw).elim) (fun hw => (hfalse (hmay t) hw).elim)
      fun u _ hw => (hfalse (hmay u) hw).elim
  | readRelease =>
    refine excl_update h (fun hw u hu => ⟨(h t u hw).1, Bool.eq_false_of_not_eq_true fun h' => hu ((h t u hw).2 h')⟩)
      (fun hw => ?_) fun u hu hw => ⟨?_, (hbeside u hu hw).2⟩
    · rw [finish, (h t t hw).1]
    · rw [finish, (hbeside u hu hw).1]
  | writeAcquire =>
    exact excl_update h (fun _ u _ => ⟨hmay.2 u, hmay.1 u⟩) (fun _ => hmay.2 t) fun u _ hw => (hfalse (hmay.1 u) hw).elim
  | writeRelease => exact excl_update h nofun nofun fun u hu hw => ⟨(hbeside u hu hw).1, rfl⟩

end Goto

/-! ## What the sum says -/

variable [Fintype ι]

theorem inv_init : Inv (init : State ι) where
  inner _ h := absurd h Bool.false_ne_true
  excl _ _ h := absurd h Bool.false_ne_true
  sound _ := trivial
  count := by simp [init, credit, held, pending]
  small := by simp [init]

theorem sum_credit_update [DecidableEq ι] (tasks : ι → Task) (t : ι) (x : Task) :
    ∑ u, credit (update tasks t x u) = ∑ u, credit (tasks u) - credit (tasks t) + credit x := by
  have hrest : ∑ u ∈ univ.erase t, credit (update tasks t x u) = ∑ u ∈ univ.erase t, credit (tasks u) :=
    sum_congr rfl fun u hu => by rw [update_of_ne (ne_of_mem_erase hu)]
  rw [← add_sum_erase _ (fun u => credit (update tasks t x u)) (mem_univ t), hrest,
    ← add_sum_erase _ (fun u => credit (tasks u)) (mem_univ t), update_self]
  ring

theorem sum_held_of_writer (hexcl : Excl tasks) (ht : (tasks t).writes = true) : ∑ u, held (tasks u) = -1 := by
  have hother : ∀ u ∈ univ, u ≠ t → held (tasks u) = 0 := by
    intro u _ hu
    obtain ⟨hreads, hwrites⟩ := hexcl t u ht
    have hwrites : (tasks u).writes = false := Bool.eq_false_of_not_eq_true fun h => hu (hwrites h)
    rw [held, hreads, hwrites]
    rfl
  rw [sum_eq_single t hother fun h => absurd (mem_univ t) h, held, (hexcl t t ht).1, ht]
  rfl

theorem sum_held_of_noWriter (h : NoWriter tasks) : ∑ u, held (tasks u) = ∑ u, ((tasks u).reads : Int) :=
  sum_congr rfl fun u _ => by simp [held, h u]

namespace Inv

theorem others (h : Inv s) (ht : (s.tasks t).place.inside = true) : ∀ u, u ≠ t → (s.tasks u).place.inside = false :=
  fun u hu => Bool.eq_false_of_not_eq_true fun hin => hu ((h.inner t ht).2 u hin)

theorem outside_of_free (h : Inv s) (hfree : s.flag = false) (u : ι) : (s.tasks u).place.inside = false :=
  Bool.eq_false_of_not_eq_true fun hin => Bool.false_ne_true (hfree.symm.trans (h.inner u hin).1)

theorem cnt_eq_held (h : Inv s) (hpending : ∀ u, pending (s.tasks u).place = 0) : s.cnt = ∑ u, held (s.tasks u) := by
  rw [h.count]
  exact sum_congr rfl fun u _ => by rw [credit, hpending u, Int.add_zero]

theorem cnt_eq_held_of_inside (h : Inv s) (hplace : (s.tasks t).place = p) (hin : p.inside = true) (hp : pending p = 0) :
    s.cnt = ∑ u, held (s.tasks u) := by
  refine h.cnt_eq_held fun u => ?_
  by_cases hu : u = t
  · rw [hu, hplace, hp]
  · exact pending_of_outside (h.others (hplace ▸ hin) u hu)

section Counted
variable (h : Inv s) (hcnt : s.cnt = ∑ u, held (s.tasks u))
include h hcnt

theorem cnt_of_writer (ht : (s.tasks t).writes = true) : s.cnt = -1 := hcnt.trans (sum_held_of_writer h.excl ht)

theorem noWriter_of_cnt (hne : s.cnt ≠ -1) : NoWriter s.tasks := fun _ =>
  Bool.eq_false_of_not_eq_true fun ht => hne (h.cnt_of_writer hcnt ht)

theorem noReader_of_cnt (hzero : s.cnt = 0) : NoReader s.tasks := by
  have hno := h.noWriter_of_cnt hcnt (by omega)
  rw [hcnt, sum_held_of_noWriter hno, sum_eq_zero_iff_of_nonneg fun _ _ => Int.natCast_nonneg _] at hzero
  exact fun t => Int.natCast_eq_zero.1 (hzero t (mem_univ t))

theorem cnt_of_reader (ht : 0 < (s.tasks t).reads) : 0 ≤ s.cnt := by
  have hno : NoWriter s.tasks := fun u =>
    Bool.eq_false_of_not_eq_true fun hu => absurd (h.excl u t hu).1 (Nat.ne_zero_of_lt ht)
  rw [hcnt, sum_held_of_noWriter hno]
  exact sum_nonneg fun _ _ => Int.natCast_nonneg _

end Counted

/-- What a call finds in `cnt`, it can rely on; a release finds what it expects. -/
theorem sound_branch (h : Inv s) (hplace : (s.tasks t).place = .test op) :
    Sound s.tasks s.cnt { s.tasks t with place := branch op s.cnt } := by
  have hcnt := h.cnt_eq_held_of_inside hplace rfl rfl
  have howned : op.owned (s.tasks t) = true := by
    have hsound := h.sound t
    rwa [Sound, hplace] at hsound
  cases op with
  | readAcquire =>
    unfold branch
    by_cases hfree : -1 < s.cnt
    · rw [if_pos hfree]
      exact ⟨rfl, h.noWriter_of_cnt hcnt (by omega), .inl rfl⟩
    · rw [if_neg hfree]
      exact ⟨rfl, nofun⟩
  | readRelease =>
    have hreader := h.cnt_of_reader hcnt (of_decide_eq_true howned)
    have hbranch : branch .readRelease s.cnt = .load .readRelease := if_neg (by omega)
    rw [hbranch]
    exact ⟨howned, trivial, .inr rfl⟩
  | writeAcquire =>
    unfold branch
    by_cases hfree : s.cnt = 0
    · rw [if_pos hfree]
      refine ⟨rfl, ⟨h.noWriter_of_cnt hcnt (by omega), h.noReader_of_cnt hcnt hfree⟩, ?_, by decide⟩
      rw [hfree]
      rfl
    · rw [if_neg hfree]
      exact ⟨rfl, nofun⟩
  | writeRelease =>
    have hwriter := h.cnt_of_writer hcnt howned
    unfold branch
    rw [if_neg (not_not.2 hwriter), hwriter]
    exact ⟨howned, trivial, rfl, by decide⟩

theorem sound_added (h : Inv s) (hplace : (s.tasks t).place = .load op) :
    Sound s.tasks s.cnt { s.tasks t with place := added op s.cnt } := by
  have hcnt := h.cnt_eq_held_of_inside hplace rfl rfl
  have hsound := h.sound t
  rw [Sound, hplace] at hsound
  obtain ⟨howned, hmay, hread⟩ := hsound
  unfold added
  by_cases hfits : -2 ^ 31 ≤ s.cnt + op.delta ∧ s.cnt + op.delta < 2 ^ 31
  · rw [if_pos hfits]
    exact ⟨howned, hmay, rfl, hfits.2⟩
  rw [if_neg hfits]
  refine hread.resolve_right ?_
  rintro rfl
  have hreader := h.cnt_of_reader hcnt (of_decide_eq_true howned)
  have hsmall := h.small
  rw [show Op.readRelease.delta = -1 from rfl] at hfits
  omega

/-! ## Steps -/

section Steps
variable [DecidableEq ι]

section
variable (h : Inv s) (hothers : ∀ u, u ≠ t → (s.tasks u).place.inside = false)
include h hothers

theorem alone (htasks : s'.tasks = update s.tasks t x) (hflag : x.place.inside = true → s'.flag = true)
    (hexcl : Excl s'.tasks) (hsound : Sound s'.tasks s'.cnt x)
    (hcount : s'.cnt = s.cnt - credit (s.tasks t) + credit x) (hsmall : s'.cnt < 2 ^ 31) : Inv s' where
  inner := by
    have hin : ∀ u, (s'.tasks u).place.inside = true → u = t := by
      intro u hu
      by_contra hne
      rw [htasks, update_of_ne hne, hothers u hne] at hu
      exact Bool.false_ne_true hu
    intro u hu
    obtain rfl := hin u hu
    rw [htasks, update_self] at hu
    exact ⟨hflag hu, hin⟩
  excl := hexcl
  sound := by
    intro u
    by_cases hu : u = t
    · rw [hu, htasks, update_self, ← htasks]
      exact hsound
    · have hsame : s'.tasks u = s.tasks u := by rw [htasks, update_of_ne hu]
      rw [hsame]
      exact sound_of_outside (hothers u hu) (h.sound u)
  count := by rw [hcount, h.count, htasks, sum_credit_update]
  small := hsmall

theorem goto {flag : Bool} (hflag : p.inside = true → flag = true)
    (hsound : Sound s.tasks cnt { s.tasks t with place := p })
    (hcount : cnt = s.cnt - pending (s.tasks t).place + pending p) (hsmall : cnt < 2 ^ 31) :
    Inv ⟨flag, cnt, update s.tasks t { s.tasks t with place := p }⟩ := by
  refine h.alone hothers rfl hflag (excl_goto.2 h.excl) (sound_goto.2 hsound) ?_ hsmall
  change cnt = s.cnt - (held (s.tasks t) + pending (s.tasks t).place) + (held (s.tasks t) + pending p)
  omega

end

theorem spin (h : Inv s) (hout : (s.tasks t).place.inside = false) (howned : op.owned (s.tasks t) = true) :
    Inv (s.set t { s.tasks t with place := .spin op }) where
  inner := by
    have hin : ∀ u, (update s.tasks t { s.tasks t with place := .spin op } u).place.inside = true →
        (s.tasks u).place.inside = true := by
      intro u hu
      by_cases hut : u = t
      · rw [hut, update_self] at hu
        exact absurd hu Bool.false_ne_true
      · rwa [update_of_ne hut] at hu
    exact fun u hu => ⟨(h.inner u (hin u hu)).1, fun v hv => (h.inner u (hin u hu)).2 v (hin v hv)⟩
  excl := excl_goto.2 h.excl
  sound u := by
    refine sound_goto.2 ?_
    change Sound s.tasks s.cnt (update s.tasks t { s.tasks t with place := .spin op } u)
    by_cases hut : u = t
    · rw [hut, update_self]
      exact howned
    · rw [update_of_ne hut]
      exact h.sound u
  count := by
    have hcredit : credit { s.tasks t with place := .spin op } = credit (s.tasks t) := by
      rw [credit, credit, pending_of_outside hout]
      rfl
    change s.cnt = ∑ u, credit (update s.tasks t { s.tasks t with place := .spin op } u)
    rw [sum_credit_update, hcredit, h.count]
    ring
  small := h.small

theorem advance (h : Inv s) (hs' : advance s t = some s') : Inv s' := by
  have hsound := h.sound t
  have hinner := h.inner t
  have hothers : (s.tasks t).place.inside = true → ∀ u, u ≠ t → (s.tasks u).place.inside = false := h.others
  unfold SpinlockCnt.advance at hs'
  unfold Sound at hsound
  cases hplace : (s.tasks t).place with
  | idle | panicked => simp [hplace] at hs'
  | spin op =>
    simp only [hplace] at hs' hsound
    by_cases hflag : s.flag = true
    · rw [if_pos hflag] at hs'
      exact some.inj hs' ▸ h
    · rw [if_neg hflag] at hs'
      obtain rfl := some.inj hs'
      have hfree : ∀ u, u ≠ t → (s.tasks u).place.inside = false := fun u _ =>
        h.outside_of_free (Bool.eq_false_of_not_eq_true hflag) u
      exact h.goto hfree (fun _ => rfl) hsound (by simp [hplace, pending, State.set]) h.small
  | test op =>
    simp only [hplace] at hs' hinner hothers
    obtain rfl := some.inj hs'
    exact h.goto (hothers rfl) (fun _ => (hinner rfl).1) (h.sound_branch hplace)
      (by rw [hplace, pending_branch]; simp [pending]) h.small
  | load op =>
    simp only [hplace] at hs' hinner hothers
    obtain rfl := some.inj hs'
    exact h.goto (hothers rfl) (fun _ => (hinner rfl).1) (h.sound_added hplace)
      (by rw [hplace, pending_added]; simp [pending]) h.small
  | store op v =>
    simp only [hplace] at hs' hinner hothers hsound
    obtain rfl := some.inj hs'
    obtain ⟨howned, hmay, hv, hsmall⟩ := hsound
    exact h.goto (hothers rfl) (fun _ => (hinner rfl).1) ⟨howned, fun _ => hmay⟩ (by simp [hplace, pending, hv]) hsmall
  | unlock op returns =>
    simp only [hplace] at hs' hothers hsound
    cases returns with
    | false =>
      obtain rfl := some.inj hs'
      exact h.goto (hothers rfl) (fun hin => absurd hin Bool.false_ne_true) hsound.1
        (by simp [hplace, pending, State.set]) h.small
    | true =>
      obtain rfl := some.inj hs'
      obtain ⟨howned, hmay⟩ := hsound
      have hcredit : credit (finish op (s.tasks t)) = credit (s.tasks t) := by
        refine credit_finish hplace howned ?_
        rintro rfl
        exact (hmay rfl).1 t
      refine h.alone (hothers rfl) rfl (fun hin => ?_) (excl_finish h.excl (hmay rfl)) (by rw [Sound, place_finish]; trivial) ?_ h.small
      · exact absurd hin (by simp [place_finish, Place.inside])
      · rw [hcredit]
        exact (Int.sub_add_cancel ..).symm

end Steps

end Inv

/-! ## Runs -/

variable [DecidableEq ι]

theorem inv_step (s : State ι) (e : ι × Option Op) (s' : State ι) (h : Inv s) (hs' : step s e = some s') : Inv s' := by
  obtain ⟨t, call⟩ := e
  cases call with
  | none => exact h.advance hs'
  | some op =>
    simp only [step] at hs'
    by_cases hok : (s.tasks t).place = .idle ∧ op.owned (s.tasks t) = true
    · rw [if_pos hok] at hs'
      obtain rfl := some.inj hs'
      exact h.spin (by rw [hok.1]; rfl) hok.2
    · rw [if_neg hok] at hs'
      cases hs'

/-- **The counting lock is safe.** If the inner lock is free, `cnt` is `-1` if and only if there is one task with the
write lock, and otherwise it is the number of read locks; beside a task with the write lock no other one has a lock;
and a call that has panicked is a `read_acquire` whose count does not fit into an `i32`. -/
theorem spinlockCnt_safe {steps : List (ι × Option Op)} (hrun : Run.run step init steps = some s) : (s.flag = false →
      (s.cnt = -1 ↔ ∃! t, (s.tasks t).writes = true) ∧ (s.cnt ≠ -1 → s.cnt = ∑ t, ((s.tasks t).reads : Int))) ∧
    (∀ t u, (s.tasks t).writes = true → (s.tasks u).reads = 0 ∧ ((s.tasks u).writes = true → u = t)) ∧
    ∀ t op, (s.tasks t).place = .panicked op → op = .readAcquire := by
  have h : Inv s := Run.run_invariant inv_step inv_init hrun
  refine ⟨fun hfree => ?_, h.excl, fun t op hplace => ?_⟩
  · have hcnt := h.cnt_eq_held fun u => pending_of_outside (h.outside_of_free hfree u)
    refine ⟨⟨fun hwriter => ?_, ?_⟩, fun hne => ?_⟩
    · obtain ⟨t, ht⟩ : ∃ t, (s.tasks t).writes = true := by
        by_contra hnone
        have hno : NoWriter s.tasks := fun t => Bool.eq_false_of_not_eq_true fun ht => hnone ⟨t, ht⟩
        have hnonneg : 0 ≤ ∑ t, ((s.tasks t).reads : Int) := sum_nonneg fun _ _ => Int.natCast_nonneg _
        rw [← sum_held_of_noWriter hno, ← hcnt] at hnonneg
        omega
      exact ⟨t, ht, fun u hu => (h.excl t u ht).2 hu⟩
    · rintro ⟨t, ht, -⟩
      exact h.cnt_of_writer hcnt ht
    · exact hcnt.trans (sum_held_of_noWriter (h.noWriter_of_cnt hcnt hne))
  · have hsound := h.sound t
    rwa [Sound, hplace] at hsound

/-- Two tasks take a read lock, one of them while a third task looks at `cnt` and has to wait. -/
def twoReaders : List (Fin 3 × Option Op) :=
  [(0, some .readAcquire), (1, some .readAcquire), (2, some .writeAcquire), (0, none), (1, none), (0, none), (0, none),
    (0, none), (0, none), (2, none), (1, none), (2, none), (2, none), (1, none), (1, none), (1, none), (1, none), (1, none)]

theorem spinlockCnt_safe_twoReaders :
    ∃ s, Run.run step init twoReaders = some s ∧ s.cnt = ∑ t, ((s.tasks t).reads : Int) ∧ s.cnt = 2 ∧
      (s.tasks 2).place = .spin .writeAcquire := by
  obtain ⟨s, hrun, hfree, hcnt, hplace⟩ : ∃ s, Run.run step init twoReaders = some s ∧ s.flag = false ∧ s.cnt = 2 ∧
      (s.tasks 2).place = .spin .writeAcquire := ⟨_, rfl, rfl, rfl, rfl⟩
  exact ⟨s, hrun, ((spinlockCnt_safe hrun).1 hfree).2 (by rw [hcnt]; decide), hcnt, hplace⟩

end CoreX.SpinlockCnt

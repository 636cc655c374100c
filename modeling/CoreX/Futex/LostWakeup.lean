import CoreX.Futex.Deadlock

/-!
# Lost wake-ups

One task waits for a value at an address to change, another one changes it and wakes the waiter. The waiter reads the
value, puts its entry into the list and sets its state in three separate steps. A `FUTEX_WAKE` between them finds no
entry, or sets the state `Ready`, which the waiter then overwrites (`lost_wakeup`).
-/

namespace CoreX.Futex

open Function Option Run

variable {τ : Type}

/-- A `FUTEX_WAIT` for `value` without a timeout, and a store of another value with a `FUTEX_WAKE` behind it. -/
structure Race (τ : Type) where
  (waiter waker : τ)
  addr : Nat
  (value stored count : UInt32)
  waiter_ne : waiter ≠ waker
  stored_ne : stored ≠ value
  count_pos : 0 < count

def Pc.InWindow : Pc τ → Prop
  | .wait _ p =>
    match p with
    | .find | .found | .lock | .push | .task _ | .set _ => True
    | .read | .loop _ | .check _ | .relock _ | .asleep _ | .decide _ => False
  | .user _ | .sweep _ _ => False

def Pc.AtLock : Pc τ → Prop
  | .sweep _ .lock => True
  | _ => False

def Pc.SleepsWith (e : FutexAsleep τ) : Pc τ → Prop
  | .wait _ p =>
    match p with
    | .loop e' | .check e' => e' = e
    | .read | .find | .found | .lock | .push | .task _ | .set _ | .relock _ | .asleep _ | .decide _ => False
  | .user _ | .sweep _ _ => False

namespace Race

variable (r : Race τ)

def waitOp : UserOp := .futex r.addr futexWait r.value none none 0

def storeOp : UserOp := .store r.addr r.stored

def wakeOp : UserOp := .futex r.addr futexWake r.count none none 0

/-- The two tasks are about to start, the others have nothing to do, and nobody waits on the address. -/
structure Start (s : State τ) : Prop where
  user : ∀ t, ∃ result, s.pc t = .user result
  waiter : s.todo r.waiter = [r.waitOp]
  waker : s.todo r.waker = [r.storeOp, r.wakeOp]
  other : ∀ t, t ≠ r.waiter → t ≠ r.waker → s.todo t = []
  empty : s.asleepList r.addr = []

section
variable (s : State τ)

/-- The store and the wake are done, and the waiter is in its loop with the state `Futex`. -/
def Lost : Prop :=
  (s.todo r.waker = [] ∧ ∃ result, s.pc r.waker = .user result) ∧
    (∃ e, (s.pc r.waiter).SleepsWith e) ∧ (s.task r.waiter).state = .futex

/-- The waker does not lock the futex while the waiter is in its window. -/
def Outside (a : Action τ) : Prop :=
  a = .run r.waker → (s.pc r.waker).AtLock → ¬ (s.pc r.waiter).InWindow

def Aligned : Prop := ¬ (r.addr = 0 ∨ r.addr % 4 ≠ 0)

/-- The waiter in its call. In the window its entry is not awoken, and in the loop the entry is awoken only if
the state is not `Futex`. -/
def WaitOk : WaitPc τ → Prop
  | .read | .find | .found | .lock | .push => s.asleepList r.addr = []
  | .task e | .set e => s.asleepList r.addr = [e] ∧ e.task = r.waiter ∧ s.awoken e = false
  | .loop e | .check e => s.asleepList r.addr = [e] ∧ e.task = r.waiter ∧
      (s.awoken e → (s.task r.waiter).state ≠ .futex)
  | .relock _ | .asleep _ | .decide _ => True

def WaiterAt : Pc τ → Prop
  | .user _ => s.todo r.waiter = [] ∨ s.todo r.waiter = [r.waitOp] ∧ s.asleepList r.addr = []
  | .wait w p => w = ⟨r.addr, r.value, none⟩ ∧ s.todo r.waiter = [] ∧ r.Aligned ∧ r.WaitOk s p
  | .sweep _ _ => False

/-- The waker in its call. Once it has locked the futex the waiter is not in the window any more, and once it
is past the first entry the entry of a waiter in the loop is awoken. -/
def SweepOk : SweepPc τ → Prop
  | .find | .found | .lock => True
  | .next c => ¬ (s.pc r.waiter).InWindow ∧ (c.i = 0 → c.awokenCount = 0) ∧
      ∀ e, (s.pc r.waiter).SleepsWith e → c.i = 0 ∨ s.awoken e
  | .entry c e' | .decide c e' | .task c e' | .mark c e' =>
      ¬ (s.pc r.waiter).InWindow ∧ (c.i = 0 → c.awokenCount = 0) ∧
      ∀ e, (s.pc r.waiter).SleepsWith e → c.i = 0 ∧ e' = e
  | .find2 | .found2 | .lock2 => False

def WakerAt : Pc τ → Prop
  | .user _ => s.todo r.waker = [r.storeOp, r.wakeOp] ∨ s.mem r.addr = r.stored ∧
      (s.todo r.waker = [r.wakeOp] ∨ s.todo r.waker = [] ∧ ¬ (s.pc r.waiter).InWindow ∧
        ∀ e, (s.pc r.waiter).SleepsWith e → s.awoken e)
  | .sweep k p => k = ⟨r.addr, r.count, none⟩ ∧ s.todo r.waker = [] ∧ s.mem r.addr = r.stored ∧ r.SweepOk s p
  | .wait _ _ => False

end

structure Inv (s : State τ) : Prop where
  waiter : r.WaiterAt s (s.pc r.waiter)
  waker : r.WakerAt s (s.pc r.waker)
  other : ∀ t, t ≠ r.waiter → t ≠ r.waker → s.todo t = [] ∧ ∃ result, s.pc t = .user result

variable {r} {s s' : State τ} {pc : Pc τ}

theorem Start.inv (h : r.Start s) : r.Inv s := by
  refine ⟨?_, ?_, fun t ht ht' => ⟨h.other t ht ht', h.user t⟩⟩
  · obtain ⟨result, hpc⟩ := h.user r.waiter
    rw [hpc]
    exact .inr ⟨h.waiter, h.empty⟩
  · obtain ⟨result, hpc⟩ := h.user r.waker
    rw [hpc]
    exact .inl h.waker

theorem WaiterAt.of_sleepsWith (h : r.WaiterAt s pc) {e : FutexAsleep τ} (he : pc.SleepsWith e) :
    s.asleepList r.addr = [e] ∧ e.task = r.waiter ∧ (s.awoken e → (s.task r.waiter).state ≠ .futex) := by
  cases pc with
  | user | sweep => cases he
  | wait w p =>
    cases p with
    | loop e' | check e' =>
      obtain rfl : e' = e := he
      exact h.2.2.2
    | read | find | found | lock | push | task | set | relock | asleep | decide => cases he

theorem Inv.not_lost (h : r.Inv s) : ¬ r.Lost s := by
  rintro ⟨⟨htodo, result, hpc⟩, ⟨e, he⟩, hstate⟩
  have hwaker := h.waker
  rw [hpc] at hwaker
  have hawoken : s.awoken e := by
    rcases hwaker with hfull | ⟨-, hwake | ⟨-, -, hawoken⟩⟩
    · exact absurd (hfull.symm.trans htodo) (by simp)
    · exact absurd (hwake.symm.trans htodo) (by simp)
    · exact hawoken e he
  exact (h.waiter.of_sleepsWith he).2.2 hawoken hstate

theorem futexSyscall_of_not_aligned (h : ¬ r.Aligned) (op value : UInt32) :
    (futexSyscall r.addr op value none none 0 : Pc τ) = .user (some (.error .einval)) := by
  unfold futexSyscall
  rw [if_pos (not_not.1 h)]

/-! ## Steps of the waiter -/

variable [DecidableEq τ]

/-- What the waiter does. Once the value is stored it does not get into the window, so it gets into its loop
from inside the loop only. -/
structure WaiterStep (r : Race τ) (s s' : State τ) : Prop where
  at_pc : r.WaiterAt s' (s'.pc r.waiter)
  mem : s'.mem = s.mem
  inWindow : s.mem r.addr = r.stored → (s'.pc r.waiter).InWindow → (s.pc r.waiter).InWindow
  sleepsWith : ¬ (s.pc r.waiter).InWindow → ∀ e, (s'.pc r.waiter).SleepsWith e →
    (s.pc r.waiter).SleepsWith e ∧ s'.awoken e = s.awoken e

omit [DecidableEq τ] in
theorem WaiterStep.of_pc (hpc : s'.pc r.waiter = pc) (hat : r.WaiterAt s' pc) (hmem : s'.mem = s.mem)
    (hwindow : ¬ pc.InWindow) (hsleeps : ∀ e, ¬ pc.SleepsWith e) : WaiterStep r s s' := by
  subst hpc
  exact ⟨hat, hmem, fun _ h => absurd h hwindow, fun _ e he => absurd he (hsleeps e)⟩

theorem waiterStep_waitStep {p : WaitPc τ} (hpc : s.pc r.waiter = .wait ⟨r.addr, r.value, none⟩ p)
    (htodo : s.todo r.waiter = []) (haligned : r.Aligned) (h : r.WaitOk s p) :
    WaiterStep r s (waitStep s r.waiter ⟨r.addr, r.value, none⟩ p) := by
  have hgoto : ∀ pc, r.WaiterAt s pc → (s.mem r.addr = r.stored → pc.InWindow → (s.pc r.waiter).InWindow) →
      (¬ (s.pc r.waiter).InWindow → ∀ e, pc.SleepsWith e → (s.pc r.waiter).SleepsWith e) →
      WaiterStep r s (s.goto r.waiter pc) := by
    intro pc hat hwindow hsleeps
    refine ⟨?_, rfl, fun hmem => ?_, fun hpast e => ?_⟩ <;> rw [goto_pc]
    · exact hat
    · exact hwindow hmem
    · exact fun he => ⟨hsleeps hpast e he, rfl⟩
  rw [hpc] at hgoto
  cases p with
  | read =>
    rw [waitStep]
    split_ifs with hvalue
    · exact hgoto _ (.inl htodo) (fun _ hwindow => hwindow.elim) (fun _ _ he => he.elim)
    · refine hgoto _ ⟨rfl, htodo, haligned, h⟩ (fun hmem _ => ?_) (fun _ _ he => he.elim)
      exact absurd (hmem.symm.trans (not_not.1 hvalue)) r.stored_ne
  | find | found | lock | task =>
    exact hgoto _ ⟨rfl, htodo, haligned, h⟩ (fun _ _ => trivial) (fun _ _ he => he.elim)
  | push =>
    have hpc' : (waitStep s r.waiter ⟨r.addr, r.value, none⟩ .push).pc r.waiter =
        .wait ⟨r.addr, r.value, none⟩ (.task ⟨r.waiter, s.created r.waiter⟩) := goto_pc ..
    refine ⟨?_, rfl, fun _ _ => by rw [hpc]; trivial, fun _ e he => ?_⟩
    · rw [hpc']
      refine ⟨rfl, htodo, haligned, (update_self ..).trans ?_, rfl, update_self ..⟩
      rw [show s.asleepList r.addr = [] from h]
      rfl
    · rw [hpc'] at he
      exact he.elim
  | set e =>
    have hpc' : (waitStep s r.waiter ⟨r.addr, r.value, none⟩ (.set e)).pc r.waiter =
        .wait ⟨r.addr, r.value, none⟩ (.loop e) := goto_pc ..
    refine ⟨?_, rfl, fun _ hwindow => ?_, fun hpast => absurd (by rw [hpc]; trivial) hpast⟩
    · rw [hpc']
      exact ⟨rfl, htodo, haligned, h.1, h.2.1, fun hawoken => absurd (h.2.2.symm.trans hawoken) (by decide)⟩
    · rw [hpc'] at hwindow
      exact hwindow.elim
  | loop e =>
    exact hgoto _ ⟨rfl, htodo, haligned, h⟩ (fun _ hwindow => hwindow.elim) (fun _ _ he => he)
  | check e =>
    rw [waitStep]
    split_ifs
    iterate 2
      · exact hgoto _ ⟨rfl, htodo, haligned, trivial⟩ (fun _ hwindow => hwindow.elim) (fun _ _ he => he.elim)
    · exact hgoto _ ⟨rfl, htodo, haligned, h⟩ (fun _ hwindow => hwindow.elim) (fun _ _ he => he)
  | relock | asleep =>
    exact hgoto _ ⟨rfl, htodo, haligned, trivial⟩ (fun _ hwindow => hwindow.elim) (fun _ _ he => he.elim)
  | decide e =>
    have hpc' : ∃ result, (waitStep s r.waiter ⟨r.addr, r.value, none⟩ (.decide e)).pc r.waiter = .user result := by
      rw [waitStep]
      split_ifs <;> exact ⟨_, goto_pc ..⟩
    have hmem : (waitStep s r.waiter ⟨r.addr, r.value, none⟩ (.decide e)).mem = s.mem := by
      rw [waitStep]
      split_ifs <;> rfl
    obtain ⟨result, hpc'⟩ := hpc'
    refine .of_pc hpc' (.inl ?_) hmem id fun _ => id
    rw [waitStep_todo, htodo]

theorem waiterStep_advance (h : r.WaiterAt s (s.pc r.waiter)) (hadvance : advance s r.waiter = some s') :
    WaiterStep r s s' := by
  unfold advance at hadvance
  split at hadvance
  case h_1 result hpc =>
    rw [hpc] at h
    rcases h with htodo | ⟨htodo, hempty⟩
    · rw [htodo] at hadvance
      cases hadvance
    rw [htodo] at hadvance
    obtain rfl := some.inj hadvance
    have hpc' := goto_pc s r.waiter (futexSyscall r.addr futexWait r.value none none 0)
    by_cases haligned : r.Aligned
    · rw [futexSyscall, if_neg haligned, if_pos rfl] at hpc' ⊢
      exact .of_pc hpc' ⟨rfl, update_self .., haligned, hempty⟩ rfl id fun _ => id
    · rw [futexSyscall_of_not_aligned haligned] at hpc' ⊢
      exact .of_pc hpc' (.inl (update_self ..)) rfl id fun _ => id
  case h_2 w p hpc =>
    rw [hpc] at h
    obtain rfl := some.inj hadvance
    obtain ⟨rfl, htodo, haligned, hwait⟩ := h
    exact waiterStep_waitStep hpc htodo haligned hwait
  case h_3 k p hpc =>
    rw [hpc] at h
    exact h.elim

omit [DecidableEq τ] in
theorem WakerAt.of_waiterStep (h : r.WakerAt s pc) (hstep : WaiterStep r s s')
    (htodo : s'.todo r.waker = s.todo r.waker) : r.WakerAt s' pc := by
  have hpast : s.mem r.addr = r.stored → ¬ (s.pc r.waiter).InWindow → ¬ (s'.pc r.waiter).InWindow :=
    fun hmem => mt (hstep.inWindow hmem)
  cases pc with
  | wait w p => exact h
  | user result =>
    rw [WakerAt, htodo, hstep.mem]
    refine h.imp_right fun ⟨hmem, hrest⟩ => ⟨hmem, hrest.imp_right fun ⟨hnil, hwindow, hawoken⟩ => ?_⟩
    refine ⟨hnil, hpast hmem hwindow, fun e he => ?_⟩
    obtain ⟨he, heq⟩ := hstep.sleepsWith hwindow e he
    rw [heq]
    exact hawoken e he
  | sweep k p =>
    obtain ⟨hk, hnil, hmem, hsweep⟩ := h
    refine ⟨hk, htodo.trans hnil, by rw [hstep.mem, hmem], ?_⟩
    cases p with
    | next c =>
      obtain ⟨hwindow, hcount, hsleeps⟩ := hsweep
      refine ⟨hpast hmem hwindow, hcount, fun e he => ?_⟩
      obtain ⟨he, heq⟩ := hstep.sleepsWith hwindow e he
      rw [heq]
      exact hsleeps e he
    | entry | decide | task | mark =>
      obtain ⟨hwindow, hcount, hsleeps⟩ := hsweep
      exact ⟨hpast hmem hwindow, hcount, fun e he => hsleeps e (hstep.sleepsWith hwindow e he).1⟩
    | find | found | find2 | found2 | lock | lock2 => exact hsweep

/-! ## Steps of the waker -/

/-- What the waker does, where the waiter is at the same place as before. -/
structure WakerStep (r : Race τ) (s s' : State τ) : Prop where
  at_pc : r.WakerAt s' (s'.pc r.waker)
  waiter : r.WaiterAt s' (s.pc r.waiter)

omit [DecidableEq τ] in
theorem WakerAt.congr (h : r.WakerAt s pc) (hpc : s'.pc r.waiter = s.pc r.waiter)
    (htodo : s'.todo r.waker = s.todo r.waker) (hmem : s'.mem = s.mem) (hawoken : s'.awoken = s.awoken) :
    r.WakerAt s' pc := by
  cases pc with
  | user result =>
    rw [WakerAt, hpc, htodo, hmem, hawoken]
    exact h
  | wait w p => exact h
  | sweep k p =>
    obtain ⟨hk, htodo', hmem', hsweep⟩ := h
    refine ⟨hk, htodo.trans htodo', by rw [hmem, hmem'], ?_⟩
    cases p with
    | next =>
      rw [SweepOk, hpc, hawoken]
      exact hsweep
    | entry | decide | task | mark =>
      rw [SweepOk, hpc]
      exact hsweep
    | find | found | find2 | found2 | lock | lock2 => exact hsweep

theorem waiterAt_mark {k : Sweep} {c : Cursor} {e' : FutexAsleep τ} (h : r.WaiterAt s pc) (hpast : ¬ pc.InWindow)
    (hsleeps : ∀ e, pc.SleepsWith e → e' = e) : r.WaiterAt (sweepStep s r.waker k (.mark c e')) pc := by
  have hready : e'.task = r.waiter →
      ((sweepStep s r.waker k (.mark c e')).task r.waiter).state ≠ .futex := by
    intro htask
    have htask' : (sweepStep s r.waker k (.mark c e')).task e'.task = _ := update_self ..
    rw [← htask, htask']
    exact TaskState.noConfusion
  cases pc with
  | user | sweep => exact h
  | wait w p =>
    obtain ⟨hw, htodo, haligned, hwait⟩ := h
    refine ⟨hw, htodo, haligned, ?_⟩
    cases p with
    | read => exact hwait
    | loop e | check e =>
      obtain rfl := hsleeps e rfl
      exact ⟨hwait.1, hwait.2.1, fun _ => hready hwait.2.1⟩
    | relock | asleep | decide => trivial
    | find | found | lock | push | task | set => exact absurd trivial hpast

theorem wakerStep_sweepStep {p : SweepPc τ} (hinv : r.Inv s)
    (hpc : s.pc r.waker = .sweep ⟨r.addr, r.count, none⟩ p) (htodo : s.todo r.waker = [])
    (hmem : s.mem r.addr = r.stored) (h : r.SweepOk s p) (houtside : p = .lock → ¬ (s.pc r.waiter).InWindow) :
    WakerStep r s (sweepStep s r.waker ⟨r.addr, r.count, none⟩ p) := by
  have hgoto : ∀ pc, r.WakerAt s pc → WakerStep r s (s.goto r.waker pc) := by
    intro pc hat
    refine ⟨?_, hinv.waiter⟩
    rw [goto_pc]
    exact hat.congr (update_of_ne r.waiter_ne ..) rfl rfl rfl
  cases p with
  | find | found => exact hgoto _ ⟨rfl, htodo, hmem, trivial⟩
  | lock => exact hgoto _ ⟨rfl, htodo, hmem, houtside rfl, fun _ => rfl, fun _ _ => .inl rfl⟩
  | next c =>
    obtain ⟨hpast, hcount, hsleeps⟩ := h
    rw [sweepStep]
    split
    case h_1 hnone =>
      refine hgoto _ (.inr ⟨hmem, .inr ⟨htodo, hpast, fun e he => ?_⟩⟩)
      -- the list is the entry of the waiter, so the sweep is past it
      rw [(hinv.waiter.of_sleepsWith he).1] at hnone
      refine (hsleeps e he).resolve_left fun hi => ?_
      rw [hi] at hnone
      cases hnone
    case h_2 e' hsome =>
      refine hgoto _ ⟨rfl, htodo, hmem, hpast, hcount, fun e he => ?_⟩
      rw [(hinv.waiter.of_sleepsWith he).1] at hsome
      obtain ⟨hlt, heq⟩ := List.getElem?_eq_some_iff.1 hsome
      have hi : c.i = 0 := by simpa using hlt
      simp only [hi, List.getElem_cons_zero] at heq
      exact ⟨hi, heq.symm⟩
  | entry c e' => exact hgoto _ ⟨rfl, htodo, hmem, h⟩
  | decide c e' =>
    obtain ⟨hpast, hcount, hsleeps⟩ := h
    rw [sweepStep]
    split_ifs with hwake
    · exact hgoto _ ⟨rfl, htodo, hmem, hpast, hcount, hsleeps⟩
    · refine hgoto _ ⟨rfl, htodo, hmem, hpast, fun hi => absurd hi (Nat.succ_ne_zero _), fun e he => .inr ?_⟩
      obtain ⟨hi, rfl⟩ := hsleeps e he
      rw [hcount hi] at hwake
      exact Bool.eq_true_of_not_eq_false fun hfalse => hwake ⟨hfalse, r.count_pos⟩
  | task c e' => exact hgoto _ ⟨rfl, htodo, hmem, h⟩
  | mark c e' =>
    obtain ⟨hpast, hcount, hsleeps⟩ := h
    have hpc' : (sweepStep s r.waker ⟨r.addr, r.count, none⟩ (.mark c e')).pc r.waker =
        .sweep ⟨r.addr, r.count, none⟩ (.next _) := goto_pc ..
    have hother : (sweepStep s r.waker ⟨r.addr, r.count, none⟩ (.mark c e')).pc r.waiter = s.pc r.waiter :=
      update_of_ne r.waiter_ne ..
    refine ⟨?_, waiterAt_mark hinv.waiter hpast fun e he => (hsleeps e he).2⟩
    rw [hpc']
    refine ⟨rfl, htodo, hmem, hother ▸ hpast, fun hi => absurd hi (Nat.succ_ne_zero _), fun e he => .inr ?_⟩
    rw [hother] at he
    obtain ⟨-, rfl⟩ := hsleeps e he
    exact update_self ..
  | find2 | found2 | lock2 => exact h.elim

omit [DecidableEq τ] in
theorem WaiterAt.congr_todo {pcs : τ → Pc τ} {mem : Nat → UInt32} {todo : τ → List UserOp} (h : r.WaiterAt s pc)
    (htodo : todo r.waiter = s.todo r.waiter) : r.WaiterAt { s with pc := pcs, mem := mem, todo := todo } pc := by
  cases pc with
  | user result =>
    refine h.imp (htodo.trans ·) fun ⟨hfull, hempty⟩ => ⟨htodo.trans hfull, hempty⟩
  | wait w p => exact ⟨h.1, htodo.trans h.2.1, h.2.2⟩
  | sweep k p => exact h

omit [DecidableEq τ] in
theorem WaiterAt.of_not_aligned (h : r.WaiterAt s pc) (haligned : ¬ r.Aligned) :
    ¬ pc.InWindow ∧ ∀ e, ¬ pc.SleepsWith e := by
  cases pc with
  | user result => exact ⟨id, fun _ => id⟩
  | wait w p => exact absurd h.2.2.1 haligned
  | sweep k p => exact h.elim

theorem wakerStep_advance (hinv : r.Inv s) (houtside : r.Outside s (.run r.waker))
    (hadvance : advance s r.waker = some s') : WakerStep r s s' := by
  have h := hinv.waker
  unfold advance at hadvance
  split at hadvance
  case h_1 result hpc =>
    rw [hpc] at h
    rcases h with htodo | ⟨hmem, htodo | ⟨htodo, -⟩⟩ <;> rw [htodo] at hadvance
    · obtain rfl := some.inj hadvance
      refine ⟨?_, hinv.waiter.congr_todo (update_of_ne r.waiter_ne ..)⟩
      rw [hpc]
      exact .inr ⟨update_self .., .inl (update_self ..)⟩
    · obtain rfl := some.inj hadvance
      refine ⟨?_, hinv.waiter.congr_todo (update_of_ne r.waiter_ne ..)⟩
      rw [goto_pc]
      by_cases haligned : r.Aligned
      · rw [futexSyscall, if_neg haligned, if_neg (by decide), if_pos rfl]
        exact ⟨rfl, update_self .., hmem, trivial⟩
      rw [futexSyscall_of_not_aligned haligned]
      have hother : (s.goto r.waker (.user (some (.error .einval)))).pc r.waiter = s.pc r.waiter :=
        update_of_ne r.waiter_ne ..
      obtain ⟨hwindow, hsleeps⟩ := hinv.waiter.of_not_aligned haligned
      rw [← hother] at hwindow hsleeps
      exact .inr ⟨hmem, .inr ⟨update_self .., hwindow, fun e he => absurd he (hsleeps e)⟩⟩
    · cases hadvance
  case h_2 w p hpc =>
    rw [hpc] at h
    exact h.elim
  case h_3 k p hpc =>
    rw [hpc] at h
    obtain rfl := some.inj hadvance
    obtain ⟨rfl, htodo, hmem, hsweep⟩ := h
    exact wakerStep_sweepStep hinv hpc htodo hmem hsweep fun hp => houtside rfl (by rw [hpc, hp]; trivial)

/-! ## Runs -/

variable [Fintype τ]

theorem inv_step (s : State τ) (a : Action τ) (s' : State τ) (h : r.Inv s) (houtside : r.Outside s a)
    (hstep : step s a = some s') : r.Inv s' := by
  cases a with
  | tick =>
    obtain rfl := some.inj hstep
    exact ⟨h.waiter, h.waker, h.other⟩
  | run t =>
    have hadvance := (advance_of_step hstep).2
    obtain ⟨pc', hpc', -⟩ := advance_within hadvance
    have hpc : ∀ u, u ≠ t → s'.pc u = s.pc u := fun u hu => by rw [hpc', update_of_ne hu]
    have htodo : ∀ u, u ≠ t → s'.todo u = s.todo u := fun u hu => advance_todo_of_ne hadvance hu
    by_cases hwaiter : t = r.waiter
    · subst hwaiter
      have hwaiterStep := waiterStep_advance h.waiter hadvance
      refine ⟨hwaiterStep.at_pc, ?_, fun u hu hu' => ?_⟩
      · rw [hpc _ r.waiter_ne.symm]
        exact h.waker.of_waiterStep hwaiterStep (htodo _ r.waiter_ne.symm)
      · rw [hpc u hu, htodo u hu]
        exact h.other u hu hu'
    · by_cases hwaker : t = r.waker
      · subst hwaker
        have hwakerStep := wakerStep_advance h houtside hadvance
        refine ⟨?_, hwakerStep.at_pc, fun u hu hu' => ?_⟩
        · rw [hpc _ r.waiter_ne]
          exact hwakerStep.waiter
        · rw [hpc u hu', htodo u hu']
          exact h.other u hu hu'
      · obtain ⟨hnil, result, huser⟩ := h.other t hwaiter hwaker
        rw [advance, huser, hnil] at hadvance
        cases hadvance

/-- **No wake-up is lost if the waker does not lock the futex while the waiter is in the window.** -/
theorem not_lost_of_outside (r : Race τ) {s₀ s : State τ} {actions : List (Action τ)} (h₀ : r.Start s₀)
    (houtside : Run.Along step r.Outside s₀ actions) (hrun : Run.run step s₀ actions = some s) : ¬ r.Lost s :=
  (run_invariant_along inv_step h₀.inv houtside hrun).not_lost

end Race

def race : Race Bool := ⟨false, true, 4, 0, 1, 1, by decide, by decide, by decide⟩

def raceStart : State Bool := start fun t => if t then [race.storeOp, race.wakeOp] else [race.waitOp]

theorem raceStart_start : race.Start raceStart := by
  refine ⟨fun t => ⟨none, rfl⟩, rfl, rfl, fun t ht ht' => ?_, rfl⟩
  match t with
  | false => exact absurd rfl ht
  | true => exact absurd rfl ht'

/-- The waiter is in its loop, and the other task stores and locks the futex. -/
theorem not_lost_of_outside_race : ∃ s, Run.run step raceStart
    (List.replicate 8 (.run false) ++ List.replicate 5 (.run true)) = some s ∧ ¬ race.Lost s := by
  have hrun : run step raceStart (List.replicate 8 (.run false) ++ List.replicate 5 (.run true)) = some _ := rfl
  refine ⟨_, hrun, race.not_lost_of_outside raceStart_start ?_ hrun⟩
  iterate 8 refine along_cons (fun h => nomatch h) rfl ?_
  iterate 4 refine along_cons (fun _ h => False.elim h) rfl ?_
  exact along_cons (fun _ _ h => h) rfl trivial

/-- The waiter tests the value, and the other task stores and calls `FUTEX_WAKE` before the waiter goes on. -/
theorem lost_wakeup : ∃ s, Run.run step raceStart
    (List.replicate 2 (.run false) ++ List.replicate 6 (.run true) ++ List.replicate 6 (.run false)) = some s ∧
    race.Lost s :=
  ⟨_, rfl, ⟨rfl, _, rfl⟩, ⟨⟨false, 0⟩, rfl⟩, rfl⟩

end CoreX.Futex

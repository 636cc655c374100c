import CoreX.Futex.Deadlock

/-!
# The entries of the waiters

A `FUTEX_WAIT` puts an entry into the list of its futex, and a `FUTEX_REQUEUE` may move it to another list. On its way
out the wait takes the entry out of the list of its own futex, and only if the entry is awoken.

Lists change under the lock of their futex only, so what a sweep has read of its list stays true (`Valid.sweep`). An
entry is in one list at most, and in one as long as its wait goes on.
-/

namespace CoreX.Futex

open Locks Function List Option Run

variable {τ : Type} {w : Wait}

/-! ## Where a task is -/

def Pc.waitsWith : Pc τ → Option (FutexAsleep τ)
  | .wait _ p =>
    match p with
    | .task e | .set e | .loop e | .check e | .relock e | .asleep e | .decide e => some e
    | .read | .find | .found | .lock | .push => none
  | .user _ | .sweep _ _ => none

def Pc.sweepsAt : Pc τ → Option (Nat × Nat × FutexAsleep τ)
  | .sweep k p =>
    match p with
    | .entry c e | .decide c e | .task c e | .mark c e => some (k.addr, c.i, e)
    | .find | .found | .find2 | .found2 | .lock | .lock2 | .next _ => none
  | .user _ | .wait _ _ => none

def Pc.Distinct : Pc τ → Prop
  | .sweep k p =>
    match p with
    | .next _ | .entry _ _ | .decide _ _ | .task _ _ | .mark _ _ => ∀ r ∈ k.requeue, r.1 ≠ k.addr
    | .find | .found | .find2 | .found2 | .lock | .lock2 => True
  | .user _ | .wait _ _ => True

theorem futex_mem_held_of_sweepsAt {pc : Pc τ} {t : τ} {addr i : Nat} {e : FutexAsleep τ}
    (h : pc.sweepsAt = some (addr, i, e)) : .futex addr ∈ pc.held t := by
  cases pc with
  | user | wait => cases h
  | sweep k p =>
    cases p with
    | entry | decide | task | mark =>
      cases h
      simp [Pc.held, Sweep.locks]
    | find | found | find2 | found2 | lock | lock2 | next => cases h

theorem futexSyscall_waitsWith (addr : Nat) (op value : UInt32) (utime addr2 : Option Nat) (value3 : UInt32) :
    (futexSyscall addr op value utime addr2 value3 : Pc τ).waitsWith = none ∧
      (futexSyscall addr op value utime addr2 value3 : Pc τ).sweepsAt = none ∧
      (futexSyscall addr op value utime addr2 value3 : Pc τ).Distinct := by
  rcases futexSyscall_cases (τ := τ) addr op value utime addr2 value3 with
    ⟨result, hcall⟩ | ⟨w, hcall⟩ | ⟨k, hcall, -⟩ <;> rw [hcall] <;> exact ⟨rfl, rfl, trivial⟩

variable [DecidableEq τ] {s s' : State τ} {t : τ} {e : FutexAsleep τ} {lists : Nat → List (FutexAsleep τ)}
  {addr2 : Nat} {k : Sweep}

/-! ## What a step does to the entries -/

inductive Effect (s : State τ) (t : τ) (s' : State τ) : Prop where
  /-- The lists stay. A sweep may go on to an entry of its list. -/
  | quiet (hlist : s'.asleepList = s.asleepList) (hcreated : s'.created = s.created)
      (hreturned : s'.returned = s.returned) (hwait : (s'.pc t).waitsWith = (s.pc t).waitsWith)
      (hsweep : ∀ addr i e, (s'.pc t).sweepsAt = some (addr, i, e) →
        (s.asleepList addr)[i]? = some e ∨ (s.pc t).sweepsAt = some (addr, i, e))
  | push (w : Wait) (hpc : s.pc t = .wait w .push) (heq : s' = waitStep s t w .push)
  | leave (w : Wait) (e : FutexAsleep τ) (hpc : s.pc t = .wait w (.decide e))
      (heq : s' = waitStep s t w (.decide e))
  | move (k : Sweep) (c : Cursor) (e : FutexAsleep τ) (addr2 : Nat) (value3 : UInt32)
      (hpc : s.pc t = .sweep k (.decide c e)) (hrequeue : k.requeue = some (addr2, value3))
      (heq : s' = { s.goto t (.sweep k (.next { c with movedCount := c.movedCount + 1 })) with
        asleepList := moveEntry s.asleepList k.addr c.i addr2 e })

theorem effect_waitStep {p : WaitPc τ} (h : s.pc t = .wait w p) : Effect s t (waitStep s t w p) := by
  have hquiet : ∀ pc : Pc τ, pc.waitsWith = (s.pc t).waitsWith → pc.sweepsAt = none → Effect s t (s.goto t pc) := by
    intro pc hwait hsweep
    refine .quiet rfl rfl rfl (by rw [goto_pc, hwait]) fun addr i e he => ?_
    rw [goto_pc, hsweep] at he
    cases he
  cases p with
  | read | check =>
    rw [waitStep]
    split_ifs <;> exact hquiet _ (by rw [h]; rfl) rfl
  | push => exact .push w h rfl
  | set asleep =>
    have hpc : (waitStep s t w (.set asleep)).pc t = .wait w (.loop asleep) := goto_pc ..
    refine .quiet rfl rfl rfl (by rw [hpc, h]; rfl) fun addr i e he => ?_
    rw [hpc] at he
    cases he
  | decide asleep => exact .leave w asleep h rfl
  | find | found | lock | task | loop | relock | asleep => exact hquiet _ (by rw [h]; rfl) rfl

theorem effect_sweepStep {p : SweepPc τ} (h : s.pc t = .sweep k p) : Effect s t (sweepStep s t k p) := by
  have hquiet : ∀ pc : Pc τ, pc.waitsWith = none → (∀ addr i e, pc.sweepsAt = some (addr, i, e) →
        (s.asleepList addr)[i]? = some e ∨ (s.pc t).sweepsAt = some (addr, i, e)) →
      Effect s t (s.goto t pc) := by
    intro pc hwait hsweep
    refine .quiet rfl rfl rfl (by rw [goto_pc, hwait, h]; rfl) fun addr i e he => ?_
    rw [goto_pc] at he
    exact hsweep addr i e he
  have hcalm : ∀ pc : Pc τ, pc.waitsWith = none → pc.sweepsAt = none → Effect s t (s.goto t pc) := by
    intro pc hwait hsweep
    exact hquiet pc hwait fun addr i e he => absurd (hsweep.symm.trans he) (by simp)
  cases p with
  | found | lock =>
    refine hquiet _ rfl fun addr i e he => ?_
    split_ifs at he <;> cases he
  | next c =>
    rw [sweepStep]
    split
    case h_1 => exact hcalm _ rfl rfl
    case h_2 asleep hget =>
      refine hquiet _ rfl fun addr i e he => ?_
      cases he
      exact .inl hget
  | entry c asleep => exact hquiet _ rfl fun addr i e he => .inr (by rw [h]; exact he)
  | decide c asleep =>
    rw [sweepStep]
    split_ifs
    · exact hquiet _ rfl fun addr i e he => .inr (by rw [h]; exact he)
    split
    case h_1 addr2 value3 hrequeue =>
      split_ifs
      · exact .move k c asleep addr2 value3 h hrequeue rfl
      · exact hcalm _ rfl rfl
    case h_2 => exact hcalm _ rfl rfl
  | task c asleep => exact hquiet _ rfl fun addr i e he => .inr (by rw [h]; exact he)
  | mark c asleep =>
    have hpc : (sweepStep s t k (.mark c asleep)).pc t = .sweep k (.next _) := goto_pc ..
    refine .quiet rfl rfl rfl (by rw [hpc, h]; rfl) fun addr i e he => ?_
    rw [hpc] at he
    cases he
  | find | find2 | found2 | lock2 => exact hcalm _ rfl rfl

theorem effect_advance (h : advance s t = some s') : Effect s t s' := by
  unfold advance at h
  split at h
  case h_1 result hpc =>
    split at h
    case h_1 => cases h
    case h_2 =>
      obtain rfl := some.inj h
      exact .quiet rfl rfl rfl rfl fun addr i e he => .inr he
    case h_3 addr op value utime addr2 value3 ops htodo =>
      obtain rfl := some.inj h
      have hpc' := goto_pc s t (futexSyscall addr op value utime addr2 value3)
      have hcall := futexSyscall_waitsWith (τ := τ) addr op value utime addr2 value3
      refine .quiet rfl rfl rfl ?_ fun _ i e he => ?_
      · exact (congrArg Pc.waitsWith hpc').trans (hcall.1.trans (by rw [hpc]; rfl))
      · have hnone := (congrArg Pc.sweepsAt hpc').trans hcall.2.1
        exact absurd (hnone.symm.trans he) (by simp)
  case h_2 w p hpc =>
    obtain rfl := some.inj h
    exact effect_waitStep hpc
  case h_3 k p hpc =>
    obtain rfl := some.inj h
    exact effect_sweepStep hpc

/-! ## The invariant -/

/-- An entry is in one list at most, once, and it is in one as long as the wait that made it goes on. -/
structure Valid (s : State τ) : Prop where
  exclusive : Exclusive s.held
  distinct : ∀ t, (s.pc t).Distinct
  wait : ∀ t e, (s.pc t).waitsWith = some e → e.task = t ∧ e.serial < s.created t ∧ s.returned e = none
  sweep : ∀ t addr i e, (s.pc t).sweepsAt = some (addr, i, e) → (s.asleepList addr)[i]? = some e
  created : ∀ addr, ∀ e ∈ s.asleepList addr, e.serial < s.created e.task
  nodup : ∀ addr, (s.asleepList addr).Nodup
  one : ∀ addr addr' e, e ∈ s.asleepList addr → e ∈ s.asleepList addr' → addr = addr'
  returned : ∀ e, s.returned e ≠ none → e.serial < s.created e.task
  waiting : ∀ e, e.serial < s.created e.task → s.returned e = none →
    (s.pc e.task).waitsWith = some e ∧ ∃ addr, e ∈ s.asleepList addr

/-- No task is in a call, and there are no entries. -/
structure Initial (s : State τ) : Prop where
  user : ∀ t, ∃ result, s.pc t = .user result
  empty : ∀ addr, s.asleepList addr = []
  created : ∀ t, s.created t = 0
  returned : ∀ e, s.returned e = none

omit [DecidableEq τ] in
theorem Initial.valid (h : Initial s) : Valid s where
  exclusive t u l hl := by
    obtain ⟨result, hpc⟩ := h.user t
    rw [State.held, hpc] at hl
    cases hl
  distinct t := by
    obtain ⟨result, hpc⟩ := h.user t
    rw [hpc]
    trivial
  wait t e he := by
    obtain ⟨result, hpc⟩ := h.user t
    rw [hpc] at he
    cases he
  sweep t addr i e he := by
    obtain ⟨result, hpc⟩ := h.user t
    rw [hpc] at he
    cases he
  created addr e he := by
    rw [h.empty] at he
    cases he
  nodup addr := by
    rw [h.empty]
    exact nodup_nil
  one addr addr' e he := by
    rw [h.empty] at he
    cases he
  returned e he := absurd (h.returned e) he
  waiting e he := by
    rw [h.created] at he
    cases he

/-! ## Steps -/

structure Frame (s : State τ) (t : τ) (s' : State τ) : Prop where
  exclusive : Exclusive s'.held
  distinct : ∀ u, (s'.pc u).Distinct
  pc : ∀ u, u ≠ t → s'.pc u = s.pc u

omit [DecidableEq τ] in
theorem Valid.sweep_of_ne (h : Valid s) (hframe : Frame s t s')
    (hlist : ∀ addr, .futex addr ∉ s.held t → s'.asleepList addr = s.asleepList addr) {u : τ} (hu : u ≠ t)
    {addr i : Nat} (he : (s'.pc u).sweepsAt = some (addr, i, e)) : (s'.asleepList addr)[i]? = some e := by
  rw [hframe.pc u hu] at he
  rw [hlist addr fun hmem => hu (h.exclusive u t _ (futex_mem_held_of_sweepsAt he) hmem)]
  exact h.sweep u addr i e he

theorem Valid.quiet (h : Valid s) (hframe : Frame s t s') (hlist : s'.asleepList = s.asleepList)
    (hcreated : s'.created = s.created) (hret : s'.returned = s.returned)
    (hwait : (s'.pc t).waitsWith = (s.pc t).waitsWith) (hsweep : ∀ addr i e, (s'.pc t).sweepsAt = some (addr, i, e) →
      (s.asleepList addr)[i]? = some e ∨ (s.pc t).sweepsAt = some (addr, i, e)) : Valid s' := by
  have hwaits : ∀ u, (s'.pc u).waitsWith = (s.pc u).waitsWith := by
    intro u
    by_cases hu : u = t
    · rw [hu, hwait]
    · rw [hframe.pc u hu]
  refine ⟨hframe.exclusive, hframe.distinct, fun u e he => ?_, fun u addr i e he => ?_, ?_, ?_, ?_, ?_, ?_⟩
  · rw [hcreated, hret]
    exact h.wait u e ((hwaits u).symm.trans he)
  · by_cases hu : u = t
    · subst hu
      rw [hlist]
      exact (hsweep addr i e he).elim id (h.sweep u addr i e)
    · exact h.sweep_of_ne hframe (fun addr _ => by rw [hlist]) hu he
  · rw [hlist, hcreated]
    exact h.created
  · rw [hlist]
    exact h.nodup
  · rw [hlist]
    exact h.one
  · rw [hcreated, hret]
    exact h.returned
  · intro e
    rw [hlist, hcreated, hret, hwaits]
    exact h.waiting e

structure Pushes (s : State τ) (t : τ) (addr : Nat) (e : FutexAsleep τ) (s' : State τ) : Prop where
  task : e.task = t
  serial : e.serial = s.created e.task
  waits : (s'.pc t).waitsWith = some e
  sweeps : (s'.pc t).sweepsAt = none
  created : ∀ u, s'.created u = if u = t then s.created u + 1 else s.created u
  returned : s'.returned = s.returned
  list : ∀ addr', s'.asleepList addr' =
    if addr' = addr then s.asleepList addr' ++ [e] else s.asleepList addr'

theorem pushes_waitStep (s : State τ) (t : τ) (w : Wait) :
    Pushes s t w.addr ⟨t, s.created t⟩ (waitStep s t w .push) := by
  have hpc : (waitStep s t w .push).pc t = .wait w (.task ⟨t, s.created t⟩) := goto_pc ..
  refine ⟨rfl, rfl, by rw [hpc]; rfl, by rw [hpc]; rfl, fun u => ?_, rfl, fun addr => ?_⟩
  · refine (update_apply ..).trans (ite_congr rfl (fun hu => ?_) fun _ => rfl)
    rw [hu]
  · refine (update_apply ..).trans (ite_congr rfl (fun haddr => ?_) fun _ => rfl)
    rw [haddr]

namespace Pushes

variable {addr : Nat} {e₀ : FutexAsleep τ} (p : Pushes s t addr e₀ s')
include p

theorem mem (addr' : Nat) (e : FutexAsleep τ) :
    e ∈ s'.asleepList addr' ↔ e ∈ s.asleepList addr' ∨ addr' = addr ∧ e = e₀ := by
  rw [p.list]
  split_ifs with haddr <;> simp [haddr]

theorem serial_lt (he : e.serial < s.created e.task) : e.serial < s'.created e.task := by
  rw [p.created]
  split_ifs <;> omega

theorem serial_lt_self : e₀.serial < s'.created e₀.task := by
  rw [p.created, if_pos p.task, p.serial]
  exact Nat.lt_succ_self _

theorem notMem (h : Valid s) (addr' : Nat) : e₀ ∉ s.asleepList addr' := by
  intro hmem
  have hlt := h.created addr' e₀ hmem
  rw [p.serial] at hlt
  exact Nat.lt_irrefl _ hlt

theorem returned_self (h : Valid s) : s.returned e₀ = none := by
  by_contra hne
  have hlt := h.returned e₀ hne
  rw [p.serial] at hlt
  exact Nat.lt_irrefl _ hlt

theorem wait (h : Valid s) (hframe : Frame s t s') (u : τ) (e : FutexAsleep τ)
    (he : (s'.pc u).waitsWith = some e) : e.task = u ∧ e.serial < s'.created u ∧ s'.returned e = none := by
  rw [p.returned]
  by_cases hu : u = t
  · rw [hu, p.waits] at he
    obtain rfl : e₀ = e := some.inj he
    rw [hu]
    exact ⟨p.task, p.task ▸ p.serial_lt_self, p.returned_self h⟩
  · rw [hframe.pc u hu] at he
    obtain ⟨rfl, hold, hnone⟩ := h.wait u e he
    exact ⟨rfl, p.serial_lt hold, hnone⟩

/-- A wait of the task before this one has returned, as the task was not waiting. -/
theorem waiting (h : Valid s) (hframe : Frame s t s') (hidle : (s.pc t).waitsWith = none)
    (e : FutexAsleep τ) (he : e.serial < s'.created e.task) (hnone : s'.returned e = none) :
    (s'.pc e.task).waitsWith = some e ∧ ∃ addr', e ∈ s'.asleepList addr' := by
  rw [p.returned] at hnone
  by_cases hne : e = e₀
  · rw [hne, p.task, p.waits]
    exact ⟨rfl, addr, (p.mem _ _).2 (.inr ⟨rfl, rfl⟩)⟩
  by_cases het : e.task = t
  · have hold : e.serial < s.created e.task := by
      rw [p.created, if_pos het] at he
      have hserial : e.serial ≠ s.created e.task := by
        intro heq
        apply hne
        have htask : e.task = e₀.task := het.trans p.task.symm
        have hserial₀ : e.serial = e₀.serial := by rw [heq, p.serial, htask]
        cases e
        cases e₀
        cases htask
        cases hserial₀
        rfl
      omega
    have hwait := (h.waiting e hold hnone).1
    rw [het, hidle] at hwait
    cases hwait
  · rw [p.created, if_neg het] at he
    obtain ⟨hwait, addr', hlist⟩ := h.waiting e he hnone
    rw [hframe.pc _ het]
    exact ⟨hwait, addr', (p.mem _ _).2 (.inl hlist)⟩

end Pushes

theorem Valid.push (h : Valid s) (hpc : s.pc t = .wait w .push) (hframe : Frame s t (waitStep s t w .push)) :
    Valid (waitStep s t w .push) := by
  obtain ⟨e₀, p⟩ : ∃ e₀, Pushes s t w.addr e₀ (waitStep s t w .push) := ⟨_, pushes_waitStep s t w⟩
  refine ⟨hframe.exclusive, hframe.distinct, p.wait h hframe, fun u addr i e he => ?_, fun addr e he => ?_,
    fun addr => ?_, fun addr addr' e he he' => ?_, fun e he => p.serial_lt (h.returned e he),
    p.waiting h hframe (by rw [hpc]; rfl)⟩
  · by_cases hu : u = t
    · rw [hu, p.sweeps] at he
      cases he
    · refine h.sweep_of_ne hframe (fun addr hfree => ?_) hu he
      rw [p.list, if_neg]
      rintro rfl
      exact hfree (by rw [State.held, hpc]; exact mem_singleton_self _)
  · rcases (p.mem addr e).1 he with he | ⟨-, rfl⟩
    · exact p.serial_lt (h.created addr e he)
    · exact p.serial_lt_self
  · rw [p.list]
    split_ifs
    · exact (h.nodup addr).append (nodup_singleton _)
        (disjoint_singleton.2 (p.notMem h addr))
    · exact h.nodup addr
  · rcases (p.mem addr e).1 he with he | ⟨haddr, rfl⟩ <;> rcases (p.mem addr' e).1 he' with he' | ⟨haddr', he'⟩
    · exact h.one addr addr' e he he'
    · exact absurd (he' ▸ he) (p.notMem h addr)
    · exact absurd he' (p.notMem h addr')
    · rw [haddr, haddr']

structure Leaves (s : State τ) (t : τ) (addr : Nat) (e : FutexAsleep τ) (s' : State τ) : Prop where
  pc : ∃ result, s'.pc t = .user result
  created : s'.created = s.created
  returned : s'.returned e = some (if s.awoken e then .ok 0 else .error .etimedout)
  returned_of_ne : ∀ e', e' ≠ e → s'.returned e' = s.returned e'
  sublist : ∀ addr', (s'.asleepList addr').Sublist (s.asleepList addr')
  list_of_ne : ∀ addr', addr' ≠ addr → s'.asleepList addr' = s.asleepList addr'
  mem : ∀ addr' e', e' ∈ s'.asleepList addr' ↔
    e' ∈ s.asleepList addr' ∧ ¬ (s.awoken e ∧ addr' = addr ∧ e' = e)

theorem leaves_waitStep (s : State τ) (t : τ) (w : Wait) (e : FutexAsleep τ) :
    Leaves s t w.addr e (waitStep s t w (.decide e)) := by
  have hlist : ∀ addr', (waitStep s t w (.decide e)).asleepList addr' =
      if s.awoken e ∧ addr' = w.addr then (s.asleepList addr').filter (· ≠ e) else s.asleepList addr' := by
    intro addr'
    rw [waitStep]
    by_cases hawoken : s.awoken e
    · simp only [hawoken, if_true, true_and, update_apply]
      split_ifs with haddr
      · rw [haddr]
      · rfl
    · rw [if_neg hawoken, if_neg fun hand => hawoken hand.1]
      rfl
  have hret : (waitStep s t w (.decide e)).returned =
      update s.returned e (some (if s.awoken e then .ok 0 else .error .etimedout)) := by
    rw [waitStep]
    split_ifs <;> rfl
  refine ⟨?_, ?_, ?_, fun e' he' => ?_, fun addr' => ?_, fun addr' haddr => ?_, fun addr' e' => ?_⟩
  · rw [waitStep]
    split_ifs <;> exact ⟨_, goto_pc ..⟩
  · rw [waitStep]
    split_ifs <;> rfl
  · rw [hret, update_self]
  · rw [hret, update_of_ne he']
  · rw [hlist]
    split_ifs
    · exact filter_sublist
    · exact List.Sublist.refl _
  · rw [hlist, if_neg fun hand => haddr hand.2]
  · rw [hlist]
    split_ifs with hcond
    · simp [hcond]
    · exact ⟨fun he' => ⟨he', fun hand => hcond ⟨hand.1, hand.2.1⟩⟩, And.left⟩

omit [DecidableEq τ] in
theorem Valid.leave (h : Valid s) {w : Wait} (hpc : s.pc t = .wait w (.decide e)) (hframe : Frame s t s')
    (hleaves : Leaves s t w.addr e s') : Valid s' := by
  obtain ⟨htask, hserial, hnone⟩ := h.wait t e (by rw [hpc]; rfl)
  obtain ⟨result, hpc'⟩ := hleaves.pc
  refine ⟨hframe.exclusive, hframe.distinct, fun u e' he' => ?_, fun u addr i e' he' => ?_, fun addr e' he' => ?_,
    fun addr => (h.nodup addr).sublist (hleaves.sublist addr), fun addr addr' e' he he' => ?_, fun e' he' => ?_,
    fun e' hlt he' => ?_⟩
  · by_cases hu : u = t
    · rw [hu, hpc'] at he'
      cases he'
    · rw [hframe.pc u hu] at he'
      obtain ⟨rfl, hlt, hnone'⟩ := h.wait u e' he'
      rw [hleaves.created, hleaves.returned_of_ne e' (fun heq => hu (heq ▸ htask))]
      exact ⟨rfl, hlt, hnone'⟩
  · by_cases hu : u = t
    · rw [hu, hpc'] at he'
      cases he'
    · refine h.sweep_of_ne hframe (fun addr hfree => hleaves.list_of_ne addr ?_) hu he'
      rintro rfl
      exact hfree (by rw [State.held, hpc]; exact mem_cons_self)
  · rw [hleaves.created]
    exact h.created addr e' ((hleaves.sublist addr).mem he')
  · exact h.one addr addr' e' ((hleaves.sublist addr).mem he) ((hleaves.sublist addr').mem he')
  · rw [hleaves.created]
    by_cases heq : e' = e
    · rw [heq, htask]
      exact hserial
    · rw [hleaves.returned_of_ne e' heq] at he'
      exact h.returned e' he'
  · have heq : e' ≠ e := by
      rintro rfl
      rw [hleaves.returned] at he'
      cases he'
    rw [hleaves.created] at hlt
    rw [hleaves.returned_of_ne e' heq] at he'
    obtain ⟨hwait, addr, hmem⟩ := h.waiting e' hlt he'
    have hne : e'.task ≠ t := by
      intro het
      rw [het, hpc] at hwait
      exact heq (some.inj hwait).symm
    rw [hframe.pc _ hne]
    exact ⟨hwait, addr, (hleaves.mem addr e').2 ⟨hmem, fun hand => heq hand.2.2⟩⟩

omit [DecidableEq τ] in
theorem mem_moveEntry {addr i : Nat} (hnodup : (lists addr).Nodup) (hone : ∀ addr', e ∈ lists addr' → addr' = addr)
    (hget : (lists addr)[i]? = some e) (hne : addr2 ≠ addr) (addr' : Nat) (e' : FutexAsleep τ) :
    e' ∈ moveEntry lists addr i addr2 e addr' ↔ (e' ≠ e ∧ e' ∈ lists addr') ∨ (e' = e ∧ addr' = addr2) := by
  classical
  obtain ⟨hlt, rfl⟩ := List.getElem?_eq_some_iff.1 hget
  by_cases haddr2 : addr' = addr2
  · rw [haddr2, moveEntry, update_self, update_of_ne hne, mem_append, mem_singleton]
    have hnot : (lists addr)[i] ∉ lists addr2 := fun hmem => hne (hone addr2 hmem)
    constructor
    · rintro (he' | he')
      · exact .inl ⟨fun heq => hnot (heq ▸ he'), he'⟩
      · exact .inr ⟨he', rfl⟩
    · rintro (⟨-, he'⟩ | ⟨he', -⟩)
      · exact .inl he'
      · exact .inr he'
  · rw [moveEntry, update_of_ne haddr2]
    by_cases haddr : addr' = addr
    · rw [haddr, update_self, ← hnodup.erase_getElem i hlt, hnodup.mem_erase_iff]
      constructor
      · exact .inl
      · rintro (he' | ⟨-, heq⟩)
        · exact he'
        · exact absurd (haddr.trans heq) haddr2
    · rw [update_of_ne haddr]
      constructor
      · exact fun he' => .inl ⟨fun heq => haddr (hone addr' (heq ▸ he')), he'⟩
      · rintro (⟨-, he'⟩ | ⟨-, heq⟩)
        · exact he'
        · exact absurd heq haddr2

omit [DecidableEq τ] in
theorem nodup_moveEntry {addr i : Nat} (hnodup : ∀ addr, (lists addr).Nodup) (hnot : e ∉ lists addr2)
    (hne : addr2 ≠ addr) (addr' : Nat) : (moveEntry lists addr i addr2 e addr').Nodup := by
  by_cases haddr2 : addr' = addr2
  · rw [haddr2, moveEntry, update_self, update_of_ne hne]
    exact (hnodup addr2).append (nodup_singleton _) (disjoint_singleton.2 hnot)
  rw [moveEntry, update_of_ne haddr2]
  by_cases haddr : addr' = addr
  · rw [haddr, update_self]
    exact (hnodup addr).sublist (eraseIdx_sublist ..)
  · rw [update_of_ne haddr]
    exact hnodup addr'

structure Moves (s : State τ) (t : τ) (e : FutexAsleep τ) (addr2 : Nat) (s' : State τ) : Prop where
  pc : (s'.pc t).waitsWith = none ∧ (s'.pc t).sweepsAt = none
  created : s'.created = s.created
  returned : s'.returned = s.returned
  from_list : ∃ addr, e ∈ s.asleepList addr
  list_of_not_held : ∀ addr, .futex addr ∉ s.held t → s'.asleepList addr = s.asleepList addr
  nodup : ∀ addr, (s'.asleepList addr).Nodup
  mem : ∀ addr e', e' ∈ s'.asleepList addr ↔ (e' ≠ e ∧ e' ∈ s.asleepList addr) ∨ (e' = e ∧ addr = addr2)

theorem Valid.moves (h : Valid s) {c : Cursor} {value3 : UInt32} (hpc : s.pc t = .sweep k (.decide c e))
    (hrequeue : k.requeue = some (addr2, value3)) :
    Moves s t e addr2 { s.goto t (.sweep k (.next { c with movedCount := c.movedCount + 1 })) with
      asleepList := moveEntry s.asleepList k.addr c.i addr2 e } := by
  have hne : addr2 ≠ k.addr := by
    have hdist := h.distinct t
    rw [hpc] at hdist
    exact hdist _ hrequeue
  have hget : (s.asleepList k.addr)[c.i]? = some e := h.sweep t _ _ _ (by rw [hpc]; rfl)
  have hmem : e ∈ s.asleepList k.addr := mem_of_getElem? hget
  have hone : ∀ addr', e ∈ s.asleepList addr' → addr' = k.addr := fun addr' he => h.one addr' k.addr e he hmem
  have hheld : s.held t = .asleep e :: k.locks := by rw [State.held, hpc]; rfl
  refine ⟨⟨?_, ?_⟩, rfl, rfl, ⟨_, hmem⟩, fun addr hfree => ?_, ?_, ?_⟩
  · exact congrArg Pc.waitsWith (goto_pc ..)
  · exact congrArg Pc.sweepsAt (goto_pc ..)
  · have haddr : addr ≠ k.addr := by
      rintro rfl
      exact hfree (by simp [hheld, Sweep.locks])
    have haddr2 : addr ≠ addr2 := by
      rintro rfl
      exact hfree (by simp [hheld, Sweep.locks, hrequeue])
    exact (update_of_ne haddr2 ..).trans (update_of_ne haddr ..)
  · exact nodup_moveEntry h.nodup (fun he => hne (hone addr2 he)) hne
  · exact mem_moveEntry (h.nodup k.addr) hone hget hne

omit [DecidableEq τ] in
theorem Valid.move (h : Valid s) (hpc : (s.pc t).waitsWith = none) (hframe : Frame s t s')
    (hmoves : Moves s t e addr2 s') : Valid s' := by
  have hwaits : ∀ u, (s'.pc u).waitsWith = (s.pc u).waitsWith := by
    intro u
    by_cases hu : u = t
    · rw [hu, hmoves.pc.1, hpc]
    · rw [hframe.pc u hu]
  obtain ⟨addr₀, he₀⟩ := hmoves.from_list
  refine ⟨hframe.exclusive, hframe.distinct, fun u e' he' => ?_, fun u addr i e' he' => ?_, fun addr e' he' => ?_,
    hmoves.nodup, fun addr addr' e' he he' => ?_, ?_, fun e' hlt he' => ?_⟩
  · rw [hmoves.created, hmoves.returned]
    exact h.wait u e' ((hwaits u).symm.trans he')
  · by_cases hu : u = t
    · rw [hu, hmoves.pc.2] at he'
      cases he'
    · exact h.sweep_of_ne hframe hmoves.list_of_not_held hu he'
  · rw [hmoves.created]
    rcases (hmoves.mem addr e').1 he' with ⟨-, he'⟩ | ⟨rfl, -⟩
    · exact h.created addr e' he'
    · exact h.created addr₀ e' he₀
  · rcases (hmoves.mem addr e').1 he with ⟨hne, he⟩ | ⟨heq, haddr⟩ <;>
      rcases (hmoves.mem addr' e').1 he' with ⟨hne', he'⟩ | ⟨heq', haddr'⟩
    · exact h.one addr addr' e' he he'
    · exact absurd heq' hne
    · exact absurd heq hne'
    · rw [haddr, haddr']
  · rw [hmoves.created, hmoves.returned]
    exact h.returned
  · rw [hmoves.created] at hlt
    rw [hmoves.returned] at he'
    rw [hwaits]
    obtain ⟨hwait, addr, hmem⟩ := h.waiting e' hlt he'
    refine ⟨hwait, ?_⟩
    by_cases heq : e' = e
    · exact ⟨addr2, (hmoves.mem addr2 e').2 (.inr ⟨heq, rfl⟩)⟩
    · exact ⟨addr, (hmoves.mem addr e').2 (.inl ⟨heq, hmem⟩)⟩

theorem distinct_sweepStep {p : SweepPc τ} (hpc : s.pc t = .sweep k p)
    (hfree : ∀ l, s.wanted t = some l → ∀ u, l ∉ s.held u) (h : (s.pc t).Distinct) :
    ((sweepStep s t k p).pc t).Distinct := by
  rw [hpc] at h
  have hgoto : ∀ pc : Pc τ, pc.Distinct → ((s.goto t pc).pc t).Distinct := fun pc hpc => by rwa [goto_pc]
  cases p with
  | lock =>
    apply hgoto
    split_ifs with hrequeue
    · trivial
    · intro r hr
      exact absurd (isSome_of_mem hr) hrequeue
  | lock2 =>
    apply hgoto
    rintro r hr heq
    apply hfree (.futex r.1) _ t
    · rw [State.held, hpc, heq]
      exact mem_singleton_self _
    · rw [State.wanted, hpc]
      exact map_eq_some_iff.2 ⟨r, hr, rfl⟩
  | found =>
    apply hgoto
    split_ifs <;> trivial
  | next c =>
    rw [sweepStep]
    split
    · exact hgoto _ trivial
    · exact hgoto _ h
  | decide c asleep =>
    rw [sweepStep]
    split_ifs
    · exact hgoto _ h
    split
    · split_ifs <;> exact hgoto _ h
    · exact hgoto _ h
  | entry | task | mark => exact hgoto _ h
  | find | find2 | found2 => exact hgoto _ trivial

theorem frame_of_step [Fintype τ] (h : Valid s) (hstep : step s (.run t) = some s') : Frame s t s' := by
  obtain ⟨hfree, hadvance⟩ := advance_of_step hstep
  obtain ⟨pc', hpc', -⟩ := advance_within hadvance
  have hother : ∀ u, u ≠ t → s'.pc u = s.pc u := fun u hu => by rw [hpc', update_of_ne hu]
  refine ⟨exclusive_step s (.run t) s' h.exclusive hstep, fun u => ?_, hother⟩
  by_cases hu : u = t
  · rw [hu]
    unfold advance at hadvance
    split at hadvance
    case h_1 result hpc =>
      split at hadvance
      case h_1 => cases hadvance
      case h_2 =>
        obtain rfl := some.inj hadvance
        exact h.distinct t
      case h_3 addr op value utime addr2 value3 ops htodo =>
        obtain rfl := some.inj hadvance
        rw [goto_pc]
        exact (futexSyscall_waitsWith ..).2.2
    case h_2 w p hpc =>
      obtain rfl := some.inj hadvance
      obtain ⟨pc', hpc', -, hshape⟩ := waitStep_pc s t w p
      rw [hpc', update_self]
      rcases hshape with ⟨result, rfl⟩ | ⟨p', rfl⟩ <;> trivial
    case h_3 k p hpc =>
      obtain rfl := some.inj hadvance
      exact distinct_sweepStep hpc hfree (h.distinct t)
  · rw [hother u hu]
    exact h.distinct u

/-! ## Runs -/

variable [Fintype τ]

theorem valid_run (h : Valid s) (hstep : step s (.run t) = some s') : Valid s' := by
  have hframe := frame_of_step h hstep
  cases effect_advance (advance_of_step hstep).2 with
  | quiet hlist hcreated hret hwait hsweep => exact h.quiet hframe hlist hcreated hret hwait hsweep
  | push w hpc heq =>
    subst heq
    exact h.push hpc hframe
  | leave w e hpc heq =>
    subst heq
    exact h.leave hpc hframe (leaves_waitStep s t w e)
  | move k c e addr2 value3 hpc hrequeue heq =>
    subst heq
    exact h.move (by rw [hpc]; rfl) hframe (h.moves hpc hrequeue)

theorem valid_step (s : State τ) (a : Action τ) (s' : State τ) (h : Valid s) (hstep : step s a = some s') :
    Valid s' := by
  cases a with
  | tick =>
    obtain rfl := some.inj hstep
    exact ⟨h.exclusive, h.distinct, h.wait, h.sweep, h.created, h.nodup, h.one, h.returned, h.waiting⟩
  | run t => exact valid_run h hstep

section
variable (e)

/-- If the wait with the entry `e` returns in this step, the entry is awoken, and in the list of the futex that
the wait was called with. -/
def InPlace (s : State τ) (a : Action τ) : Prop :=
  ∀ t w, a = .run t → s.pc t = .wait w (.decide e) → s.awoken e ∧ e ∈ s.asleepList w.addr

def Clean (s : State τ) : Prop :=
  s.returned e = none ∨ s.returned e = some (.ok 0) ∧ ∀ addr, e ∉ s.asleepList addr

def Stray (s : State τ) : Prop := s.returned e ≠ none ∧ ∃ addr, e ∈ s.asleepList addr

end

theorem clean_step (s : State τ) (a : Action τ) (s' : State τ) (h : Valid s ∧ Clean e s) (hplace : InPlace e s a)
    (hstep : step s a = some s') : Valid s' ∧ Clean e s' := by
  obtain ⟨hvalid, hclean⟩ := h
  refine ⟨valid_step s a s' hvalid hstep, ?_⟩
  cases a with
  | tick =>
    obtain rfl := some.inj hstep
    exact hclean
  | run t =>
    cases effect_advance (advance_of_step hstep).2 with
    | quiet hlist hcreated hret hwait hsweep =>
      rw [Clean, hlist, hret]
      exact hclean
    | push w hpc heq =>
      subst heq
      refine hclean.imp_right fun ⟨hok, hgone⟩ => ⟨hok, fun addr he => ?_⟩
      rcases ((pushes_waitStep s t w).mem addr e).1 he with he | ⟨-, rfl⟩
      · exact hgone addr he
      · have hlt := hvalid.returned _ (by rw [hok]; simp)
        exact absurd hlt (Nat.lt_irrefl _)
    | leave w e' hpc heq =>
      subst heq
      have hleaves := leaves_waitStep s t w e'
      by_cases hne : e = e'
      · subst hne
        obtain ⟨hawoken, hmem⟩ := hplace t w rfl hpc
        refine .inr ⟨by rw [hleaves.returned, if_pos hawoken], fun addr he => ?_⟩
        obtain ⟨he, hnot⟩ := (hleaves.mem addr e).1 he
        exact hnot ⟨hawoken, hvalid.one addr w.addr e he hmem, rfl⟩
      · rw [Clean, hleaves.returned_of_ne e hne]
        exact hclean.imp_right fun ⟨hok, hgone⟩ => ⟨hok, fun addr he => hgone addr ((hleaves.sublist addr).mem he)⟩
    | move k c e' addr2 value3 hpc hrequeue heq =>
      subst heq
      have hmoves := hvalid.moves hpc hrequeue
      refine hclean.imp_right fun ⟨hok, hgone⟩ => ⟨hok, fun addr he => ?_⟩
      obtain ⟨addr₀, he₀⟩ := hmoves.from_list
      rcases (hmoves.mem addr e).1 he with ⟨-, he⟩ | ⟨rfl, -⟩
      · exact hgone addr he
      · exact hgone addr₀ he₀

theorem stray_step (s : State τ) (a : Action τ) (s' : State τ) (h : Valid s ∧ Stray e s)
    (hstep : step s a = some s') : Valid s' ∧ Stray e s' := by
  obtain ⟨hvalid, hret, addr, hmem⟩ := h
  refine ⟨valid_step s a s' hvalid hstep, ?_⟩
  cases a with
  | tick =>
    obtain rfl := some.inj hstep
    exact ⟨hret, addr, hmem⟩
  | run t =>
    cases effect_advance (advance_of_step hstep).2 with
    | quiet hlist hcreated hret' hwait hsweep =>
      rw [Stray, hlist, hret']
      exact ⟨hret, addr, hmem⟩
    | push w hpc heq =>
      subst heq
      exact ⟨hret, addr, ((pushes_waitStep s t w).mem addr e).2 (.inl hmem)⟩
    | leave w e' hpc heq =>
      subst heq
      have hleaves := leaves_waitStep s t w e'
      have hne : e ≠ e' := by
        rintro rfl
        exact hret (hvalid.wait t e (by rw [hpc]; rfl)).2.2
      rw [Stray, hleaves.returned_of_ne e hne]
      exact ⟨hret, addr, (hleaves.mem addr e).2 ⟨hmem, fun hand => hne hand.2.2⟩⟩
    | move k c e' addr2 value3 hpc hrequeue heq =>
      subst heq
      have hmoves := hvalid.moves hpc hrequeue
      refine ⟨hret, ?_⟩
      by_cases hne : e = e'
      · exact ⟨addr2, (hmoves.mem addr2 e).2 (.inr ⟨hne, rfl⟩)⟩
      · exact ⟨addr, (hmoves.mem addr e).2 (.inl ⟨hne, hmem⟩)⟩

theorem stray_of_not_inPlace {a : Action τ} (h : Valid s) (hplace : ¬ InPlace e s a)
    (hstep : step s a = some s') : Stray e s' := by
  simp only [InPlace, not_forall] at hplace
  obtain ⟨t, w, rfl, hpc, hnot⟩ := hplace
  obtain ⟨htask, hlt, hnone⟩ := h.wait t e (by rw [hpc]; rfl)
  obtain ⟨-, addr, hmem⟩ := h.waiting e (htask ▸ hlt) hnone
  have hadvance := (advance_of_step hstep).2
  rw [advance, hpc] at hadvance
  obtain rfl := some.inj hadvance
  have hleaves := leaves_waitStep s t w e
  refine ⟨by rw [hleaves.returned]; simp, addr, (hleaves.mem addr e).2 ⟨hmem, ?_⟩⟩
  rintro ⟨hawoken, rfl, -⟩
  exact hnot ⟨hawoken, hmem⟩

theorem stray_of_not_along {actions : List (Action τ)} (h : Valid s)
    (hnot : ¬ Run.Along step (InPlace e) s actions) (hrun : run step s actions = some s') : Stray e s' := by
  induction actions generalizing s with
  | nil => exact absurd trivial hnot
  | cons a actions ih =>
    obtain ⟨m, hm, hrest⟩ := run_cons.1 hrun
    have hvalid := valid_step s a m h hm
    by_cases hplace : InPlace e s a
    · apply ih hvalid _ hrest
      intro halong
      refine hnot ⟨hplace, fun m' hm' => ?_⟩
      obtain rfl := some.inj (hm.symm.trans hm')
      exact halong
    · exact (run_invariant stray_step ⟨hvalid, stray_of_not_inPlace h hplace hm⟩ hrest).2

/-- **When the entry of a wait is gone.** Once the wait has returned, its entry is in no list exactly if the wait
found it awoken and in the list of its own futex. Then a wake that counts the entry finds its wait still going on, and
the wait returns nothing but 0. -/
theorem entry_gone_iff {s₀ : State τ} {actions : List (Action τ)} (h₀ : Initial s₀)
    (hrun : Run.run step s₀ actions = some s) (e : FutexAsleep τ) : (s.returned e ≠ none →
      ((∀ addr, e ∉ s.asleepList addr) ↔ Run.Along step (InPlace e) s₀ actions)) ∧
    (Run.Along step (InPlace e) s₀ actions →
      (∀ t k c, s.pc t = .sweep k (.mark c e) → (s.pc e.task).waitsWith = some e ∧ s.returned e = none) ∧
      (s.returned e = none ∨ s.returned e = some (.ok 0))) := by
  have hclean : Run.Along step (InPlace e) s₀ actions → Valid s ∧ Clean e s := fun halong =>
    run_invariant_along clean_step ⟨h₀.valid, .inl (h₀.returned e)⟩ halong hrun
  refine ⟨fun hret => ⟨fun hgone => ?_, fun halong => ?_⟩, fun halong => ⟨fun t k c hpc => ?_, ?_⟩⟩
  · by_contra hnot
    obtain ⟨-, addr, hmem⟩ := stray_of_not_along h₀.valid hnot hrun
    exact hgone addr hmem
  · exact ((hclean halong).2.resolve_left hret).2
  · obtain ⟨hvalid, hclean⟩ := hclean halong
    have hmem : e ∈ s.asleepList k.addr := mem_of_getElem? (hvalid.sweep t k.addr c.i e (by rw [hpc]; rfl))
    have hnone : s.returned e = none := hclean.resolve_right fun hgone => hgone.2 k.addr hmem
    exact ⟨(hvalid.waiting e (hvalid.created k.addr e hmem) hnone).1, hnone⟩
  · exact (hclean halong).2.imp_right And.left

omit [DecidableEq τ] [Fintype τ] in
theorem start_initial (todo : τ → List UserOp) : Initial (start todo) :=
  ⟨fun _ => ⟨none, rfl⟩, fun _ => rfl, fun _ => rfl, fun _ => rfl⟩

def waiterAnd (utime : Option Nat) (ops : List UserOp) : State (Fin 2) :=
  start fun t => if t = 0 then [.futex 4 futexWait 0 utime none 0] else ops

def wakeOp (addr : Nat) : UserOp := .futex addr futexWake 1 none none 0

def sleepThenLeave (others : Nat) : List (Action (Fin 2)) :=
  List.replicate 8 (.run 0) ++ List.replicate others (.run 1) ++ List.replicate 5 (.run 0)

theorem entry_gone_iff_wake : ∃ s, Run.run step (waiterAnd none [wakeOp 4]) (sleepThenLeave 10) = some s ∧
    s.returned ⟨0, 0⟩ = some (.ok 0) ∧
    Run.Along step (InPlace ⟨0, 0⟩) (waiterAnd none [wakeOp 4]) (sleepThenLeave 10) := by
  have hrun : run step (waiterAnd none [wakeOp 4]) (sleepThenLeave 10) = some _ := rfl
  have hgone := (entry_gone_iff (start_initial _) hrun ⟨0, 0⟩).1 (by decide)
  refine ⟨_, hrun, rfl, hgone.1 fun addr => ?_⟩
  by_cases haddr : addr = 4
  · rw [haddr]
    decide
  · have hother : ∀ entries : List (FutexAsleep (Fin 2)),
        update (update (fun _ => []) 4 entries) 4 [] addr = [] := by
      intro entries
      rw [update_of_ne haddr, update_of_ne haddr]
    exact fun hmem => not_mem_nil ((congrArg (_ ∈ ·) (hother [⟨0, 0⟩])).mp hmem)

/-- A wait times out and a later `FUTEX_WAKE` counts its entry. And a wait returns 0 while its entry, which was
moved, stays in the list of another futex. -/
theorem entry_left_behind : (∃ s, Run.run step (waiterAnd (some 0) [wakeOp 4])
        (List.replicate 13 (.run 0) ++ List.replicate 10 (.run 1)) = some s ∧
      s.returned ⟨0, 0⟩ = some (.error .etimedout) ∧ s.pc 1 = .user (some (.ok 1)) ∧ ⟨0, 0⟩ ∈ s.asleepList 4) ∧
    ∃ s, Run.run step (waiterAnd none [.futex 4 futexRequeue 0 none (some 8) 1, wakeOp 8]) (sleepThenLeave 21) =
        some s ∧ s.returned ⟨0, 0⟩ = some (.ok 0) ∧ ⟨0, 0⟩ ∈ s.asleepList 8 :=
  ⟨⟨_, rfl, rfl, rfl, mem_singleton_self _⟩, _, rfl, rfl, mem_singleton_self _⟩

/-- **No waiter is lost or doubled.** Whatever the calls and their order, a wait that has not returned has its entry in
one list, once. -/
theorem entry_in_one_list {s₀ : State τ} {actions : List (Action τ)} (h₀ : Initial s₀)
    (hrun : Run.run step s₀ actions = some s) : (∀ addr, (s.asleepList addr).Nodup) ∧
    ∀ e, e.serial < s.created e.task → s.returned e = none →
      (s.pc e.task).waitsWith = some e ∧ ∃! addr, e ∈ s.asleepList addr := by
  have h := run_invariant valid_step h₀.valid hrun
  refine ⟨h.nodup, fun e hmade hnone => ?_⟩
  obtain ⟨hwaits, addr, hmem⟩ := h.waiting e hmade hnone
  exact ⟨hwaits, addr, hmem, fun addr' hmem' => h.one addr' addr e hmem' hmem⟩

theorem entry_in_one_list_asleep : ∃ s, Run.run step (waiterAnd none []) (List.replicate 8 (.run 0)) = some s ∧
    ∃! addr, ⟨0, 0⟩ ∈ s.asleepList addr := by
  have hrun : run step (waiterAnd none []) (List.replicate 8 (.run 0)) = some _ := rfl
  exact ⟨_, hrun, ((entry_in_one_list (start_initial _) hrun).2 ⟨0, 0⟩ (by decide) rfl).2⟩

end CoreX.Futex

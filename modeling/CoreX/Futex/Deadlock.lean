import CoreX.Base.Locks
import CoreX.Futex.Model
import Mathlib.Data.Fintype.Basic
import Mathlib.Data.Prod.Lex

/-!
# Tasks that wait for each other's futexes

A task that waits for a lock has locks of an earlier kind only: a futex before an entry, and an entry before a task.
Only `FUTEX_REQUEUE` has a futex and waits for another one, in the order of its arguments.
-/

namespace CoreX.Futex

open Locks Function List Option

variable {τ : Type} {s s' : State τ} {t : τ} {rank : Nat → Nat}

section
variable (rank)

def lockRank : Lock τ → Nat ×ₗ Nat
  | .futexes => toLex (0, 0)
  | .futex addr => toLex (1, rank addr)
  | .asleep _ => toLex (2, 0)
  | .task _ => toLex (3, 0)

/-- A `FUTEX_REQUEUE` goes from an address to one of a higher rank. -/
def Pc.Ordered : Pc τ → Prop
  | .sweep k _ => ∀ r ∈ k.requeue, rank k.addr < rank r.1
  | .user _ | .wait _ _ => True

/-- A requeue goes to an address of a higher rank. -/
def UserOp.Ordered : UserOp → Prop
  | .store _ _ => True
  | .futex addr op _ _ addr2 _ => op = futexRequeue → ∀ b ∈ addr2, rank addr < rank b

end

theorem lockRank_lt {l l' : Lock τ} (h : (ofLex (lockRank rank l)).1 < (ofLex (lockRank rank l')).1) :
    lockRank rank l < lockRank rank l' :=
  Prod.Lex.lt_iff.2 (.inl h)

theorem eq_futex_of_mem_locks {k : Sweep} {l : Lock τ} (h : l ∈ k.locks) : ∃ addr, l = .futex addr := by
  rcases mem_cons.1 h with rfl | h
  · exact ⟨_, rfl⟩
  · obtain ⟨r, -, rfl⟩ := map_eq_some_iff.1 (mem_toList.1 h)
    exact ⟨_, rfl⟩

theorem Pc.Ordered.held_lt_wanted {pc : Pc τ} (h : pc.Ordered rank) {l l' : Lock τ} (hl : l ∈ pc.held t)
    (hl' : pc.wanted t = some l') : lockRank rank l < lockRank rank l' := by
  cases pc with
  | user result => cases hl'
  | wait w p =>
    cases p with
    | asleep asleep =>
      obtain rfl := mem_singleton.1 hl
      cases hl'
      exact lockRank_lt (show 1 < 2 by decide)
    | read | found | push | set | check | decide => cases hl'
    | find | lock | task | loop | relock => cases hl
  | sweep k p =>
    cases p with
    | lock2 =>
      obtain rfl := mem_singleton.1 hl
      obtain ⟨r, hr, rfl⟩ := map_eq_some_iff.1 hl'
      exact Prod.Lex.lt_iff.2 (.inr ⟨rfl, h r hr⟩)
    | entry c asleep =>
      obtain ⟨addr, rfl⟩ := eq_futex_of_mem_locks hl
      cases hl'
      exact lockRank_lt (show 1 < 2 by decide)
    | task c asleep =>
      cases hl'
      rcases mem_cons.1 hl with rfl | hl
      · exact lockRank_lt (show 2 < 3 by decide)
      · obtain ⟨addr, rfl⟩ := eq_futex_of_mem_locks hl
        exact lockRank_lt (show 1 < 3 by decide)
    | found | found2 | next | decide | mark => cases hl'
    | find | find2 | lock => cases hl

/-! ## What a step does to the locks -/

variable [DecidableEq τ]

/-- The step takes no lock but the one it waits for. -/
def Within (t : τ) (pc pc' : Pc τ) : Prop := ∀ l ∈ pc'.held t, l ∈ pc.held t ∨ pc.wanted t = some l

section
variable (s t) (w : Wait)

theorem waitStep_pc (p : WaitPc τ) : ∃ pc', (waitStep s t w p).pc = update s.pc t pc' ∧ Within t (.wait w p) pc' ∧
      ((∃ result, pc' = .user result) ∨ ∃ p', pc' = .wait w p') := by
  cases p with
  | read =>
    rw [waitStep]
    split_ifs
    · exact ⟨_, rfl, by simp [Within, Pc.held], .inl ⟨_, rfl⟩⟩
    · exact ⟨_, rfl, by simp [Within, Pc.held], .inr ⟨_, rfl⟩⟩
  | check asleep =>
    rw [waitStep]
    split_ifs <;> exact ⟨_, rfl, by simp [Within, Pc.held], .inr ⟨_, rfl⟩⟩
  | decide asleep =>
    rw [waitStep]
    split_ifs <;> exact ⟨_, rfl, by simp [Within, Pc.held], .inl ⟨_, rfl⟩⟩
  | find | found | lock | push | task | set | loop | relock | asleep =>
    exact ⟨_, rfl, by simp [Within, Pc.held, Pc.wanted], .inr ⟨_, rfl⟩⟩

theorem sweepStep_pc (k : Sweep) (p : SweepPc τ) :
    ∃ pc', (sweepStep s t k p).pc = update s.pc t pc' ∧ Within t (.sweep k p) pc' ∧
      ((∃ result, pc' = .user result) ∨ ∃ p', pc' = .sweep k p') := by
  cases p with
  | found =>
    refine ⟨_, rfl, ?_, .inr ⟨_, rfl⟩⟩
    split_ifs <;> simp [Within, Pc.held]
  | lock | lock2 =>
    refine ⟨_, rfl, ?_, .inr ⟨_, rfl⟩⟩
    cases hrequeue : k.requeue <;> simp [Within, Pc.held, Pc.wanted, Sweep.locks, hrequeue]
  | next c =>
    rw [sweepStep]
    split
    · exact ⟨_, rfl, by simp [Within, Pc.held], .inl ⟨_, rfl⟩⟩
    · exact ⟨_, rfl, fun l hl => .inl hl, .inr ⟨_, rfl⟩⟩
  | decide c asleep =>
    have hkeep : ∀ c', Within t (.sweep k (.decide c asleep)) (.sweep k (.next c')) :=
      fun c' l hl => .inl (mem_cons_of_mem _ hl)
    rw [sweepStep]
    split_ifs
    · exact ⟨_, rfl, fun l hl => .inl hl, .inr ⟨_, rfl⟩⟩
    · split
      · split_ifs <;> exact ⟨_, rfl, hkeep _, .inr ⟨_, rfl⟩⟩
      · exact ⟨_, rfl, hkeep _, .inr ⟨_, rfl⟩⟩
  | mark c asleep =>
    exact ⟨_, rfl, fun l hl => .inl (mem_cons_of_mem _ (mem_cons_of_mem _ hl)), .inr ⟨_, rfl⟩⟩
  | find | find2 | found2 | entry | task =>
    refine ⟨_, rfl, ?_, .inr ⟨_, rfl⟩⟩
    simp +contextual [Within, Pc.held, Pc.wanted, or_comm]

end

omit [DecidableEq τ] in
theorem futexSyscall_ordered {addr : Nat} {op value : UInt32} {utime addr2 : Option Nat} {value3 : UInt32}
    (h : UserOp.Ordered rank (.futex addr op value utime addr2 value3)) :
    Pc.Ordered rank (futexSyscall addr op value utime addr2 value3 : Pc τ) := by
  rcases futexSyscall_cases (τ := τ) addr op value utime addr2 value3 with
    ⟨result, hcall⟩ | ⟨w, hcall⟩ | ⟨k, hcall, haddr, hrequeue⟩ <;> rw [hcall]
  · trivial
  · trivial
  · intro r hr
    obtain ⟨hop, haddr2⟩ := hrequeue r hr
    rw [haddr]
    exact h hop r.1 haddr2

omit [DecidableEq τ] in
/-- What is going on and what is to come is ordered. -/
def State.Ordered (rank : Nat → Nat) (s : State τ) : Prop :=
  (∀ t, (s.pc t).Ordered rank) ∧ ∀ t, ∀ op ∈ s.todo t, op.Ordered rank

theorem ordered_of_mem_tail {op : UserOp} {ops : List UserOp} (hs : s.Ordered rank) (h : s.todo t = op :: ops)
    (u : τ) : ∀ op ∈ update s.todo t ops u, op.Ordered rank := by
  intro op hop
  by_cases hu : u = t
  · subst hu
    rw [update_self] at hop
    exact hs.2 u op (h ▸ mem_cons_of_mem _ hop)
  · rw [update_of_ne hu] at hop
    exact hs.2 u op hop

theorem advance_within (h : advance s t = some s') : ∃ pc', s'.pc = update s.pc t pc' ∧ Within t (s.pc t) pc' ∧
      ∀ rank, s.Ordered rank → pc'.Ordered rank ∧ ∀ u, ∀ op ∈ s'.todo u, op.Ordered rank := by
  unfold advance at h
  split at h
  case h_1 result hpc =>
    split at h
    case h_1 => cases h
    case h_2 addr value ops htodo =>
      obtain rfl := some.inj h
      exact ⟨s.pc t, (update_eq_self t s.pc).symm, fun l hl => .inl hl,
        fun rank hs => ⟨hs.1 t, ordered_of_mem_tail hs htodo⟩⟩
    case h_3 addr op value utime addr2 value3 ops htodo =>
      obtain rfl := some.inj h
      refine ⟨_, rfl, fun l hl => ?_, fun rank hs => ⟨?_, ordered_of_mem_tail hs htodo⟩⟩
      · rcases futexSyscall_cases (τ := τ) addr op value utime addr2 value3 with
          ⟨result, hcall⟩ | ⟨w, hcall⟩ | ⟨k, hcall, -⟩ <;> rw [hcall] at hl <;> cases hl
      · exact futexSyscall_ordered (hs.2 t _ (htodo ▸ mem_cons_self))
  case h_2 w p hpc =>
    obtain rfl := some.inj h
    obtain ⟨pc', hpc', hwithin, hshape⟩ := waitStep_pc s t w p
    refine ⟨pc', hpc', hpc ▸ hwithin, fun rank hs => ⟨?_, ?_⟩⟩
    · rcases hshape with ⟨result, rfl⟩ | ⟨p', rfl⟩ <;> trivial
    · rw [waitStep_todo]
      exact hs.2
  case h_3 k p hpc =>
    obtain rfl := some.inj h
    obtain ⟨pc', hpc', hwithin, hshape⟩ := sweepStep_pc s t k p
    refine ⟨pc', hpc', hpc ▸ hwithin, fun rank hs => ⟨?_, ?_⟩⟩
    · rcases hshape with ⟨result, rfl⟩ | ⟨p', rfl⟩
      · trivial
      · have hordered := hs.1 t
        rw [hpc] at hordered
        exact hordered
    · rw [sweepStep_todo]
      exact hs.2

/-! ## Runs -/

variable [Fintype τ]

theorem advance_of_step (h : step s (.run t) = some s') :
    (∀ l, s.wanted t = some l → ∀ u, l ∉ s.held u) ∧ advance s t = some s' := by
  rw [step] at h
  split_ifs at h with hfree
  exact ⟨hfree, h⟩

theorem exclusive_step (s : State τ) (a : Action τ) (s' : State τ) (hs : Exclusive s.held)
    (h : step s a = some s') : Exclusive s'.held := by
  cases a with
  | tick =>
    obtain rfl := some.inj h
    exact hs
  | run t =>
    obtain ⟨hfree, hadvance⟩ := advance_of_step h
    obtain ⟨pc', hpc', hwithin, -⟩ := advance_within hadvance
    refine hs.step (t := t) (fun u hu => ?_) fun l hl => ?_
    · rw [State.held, hpc', update_of_ne hu, State.held]
    · rw [State.held, hpc', update_self] at hl
      exact (hwithin l hl).imp_right (hfree l)

theorem ordered_step (s : State τ) (a : Action τ) (s' : State τ) (hs : s.Ordered rank)
    (h : step s a = some s') : s'.Ordered rank := by
  cases a with
  | tick =>
    obtain rfl := some.inj h
    exact hs
  | run t =>
    obtain ⟨pc', hpc', -, hordered⟩ := advance_within (advance_of_step h).2
    obtain ⟨hordered, htodo⟩ := hordered rank hs
    refine ⟨fun u => ?_, htodo⟩
    rw [hpc']
    by_cases hu : u = t
    · rw [hu, update_self]
      exact hordered
    · rw [update_of_ne hu]
      exact hs.1 u

/-- Every task of the set has a futex and waits for a lock that one of the set has. -/
def Deadlocked (s : State τ) (S : Finset τ) : Prop :=
  S.Nonempty ∧ ∀ t ∈ S, (∃ addr, .futex addr ∈ s.held t) ∧ ∃ l, s.wanted t = some l ∧ ∃ u ∈ S, l ∈ s.held u

/-- **No tasks are deadlocked in any run of calls whose `FUTEX_REQUEUE`s go from an address to one of a higher
rank**, whatever the ranks are. -/
theorem not_deadlocked_of_ordered {s₀ : State τ} {actions : List (Action τ)} (rank : Nat → Nat)
    (huser : ∀ t, ∃ result, s₀.pc t = .user result) (hordered : ∀ t, ∀ op ∈ s₀.todo t, op.Ordered rank)
    (hrun : Run.run step s₀ actions = some s) (S : Finset τ) : ¬ Deadlocked s S := by
  have hs₀ : s₀.Ordered rank := by
    refine ⟨fun t => ?_, hordered⟩
    obtain ⟨result, hpc⟩ := huser t
    rw [hpc]
    trivial
  have hs : s.Ordered rank := Run.run_invariant ordered_step hs₀ hrun
  rintro ⟨hne, hwait⟩
  apply not_circularWait (lockRank rank) (fun t l l' hl hl' _ => (hs.1 t).held_lt_wanted hl hl') S
  exact ⟨hne, fun t ht => (hwait t ht).2⟩

def requeueOp (addr addr2 : Nat) : UserOp := .futex addr futexRequeue 0 none (some addr2) 0

/-- Both tasks are inside their sweeps, and the first one waits for the list that the second one has locked. -/
theorem not_deadlocked_of_ordered_start :
    ∃ s : State (Fin 2), Run.run step (start fun t => [if t = 0 then requeueOp 4 8 else requeueOp 8 12])
      (List.replicate 6 (.run 0) ++ List.replicate 6 (.run 1)) = some s ∧
    .futex 4 ∈ s.held 0 ∧ s.wanted 0 = some (.futex 8) ∧ .futex 8 ∈ s.held 1 ∧ ∀ S, ¬ Deadlocked s S := by
  have hrun : Run.run step (start fun t : Fin 2 => [if t = 0 then requeueOp 4 8 else requeueOp 8 12])
    (List.replicate 6 (.run 0) ++ List.replicate 6 (.run 1)) = some _ := rfl
  refine ⟨_, hrun, mem_singleton_self _, rfl, mem_singleton_self _, fun S =>
    not_deadlocked_of_ordered id (fun _ => ⟨none, rfl⟩) (fun t op hop => ?_) hrun S⟩
  obtain rfl := mem_singleton.1 hop
  match t with
  | 0 | 1 =>
    rintro - _ ⟨⟩
    decide

/-- Two tasks that requeue between two addresses, in opposite directions, and a task that requeues from an
address to the same address. -/
theorem deadlocked_requeue :
    (∃ s : State (Fin 2), Run.run step (start fun t => [if t = 0 then requeueOp 4 8 else requeueOp 8 4])
        (List.replicate 6 (.run 0) ++ List.replicate 6 (.run 1)) = some s ∧ Deadlocked s Finset.univ) ∧
      ∃ s : State Unit, Run.run step (start fun _ => [requeueOp 4 4]) (List.replicate 6 (.run ())) = some s ∧
        Deadlocked s Finset.univ := by
  constructor
  · refine ⟨_, rfl, ⟨0, Finset.mem_univ _⟩, fun t _ => ?_⟩
    match t with
    | 0 => exact ⟨⟨4, mem_singleton_self _⟩, _, rfl, 1, Finset.mem_univ _, mem_singleton_self _⟩
    | 1 => exact ⟨⟨8, mem_singleton_self _⟩, _, rfl, 0, Finset.mem_univ _, mem_singleton_self _⟩
  · exact ⟨_, rfl, ⟨(), Finset.mem_univ _⟩, fun t _ =>
      ⟨⟨4, mem_singleton_self _⟩, _, rfl, (), Finset.mem_univ _, mem_singleton_self _⟩⟩

end CoreX.Futex

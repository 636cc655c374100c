import CoreX.Base.Loop
import CoreX.Futex.Entries

/-!
# What `FUTEX_WAKE` and `FUTEX_REQUEUE` do

A task makes its call while no other one is in a call. The loop wakes the first entries that are not awoken, up to its
first number. Then a `FUTEX_REQUEUE` moves the next ones, up to its second number (`futexSyscall_sweeps`).
-/

namespace CoreX.Futex

open Loop Function List Option

variable {τ : Type} {value3 value : UInt32} {addr2 n m : Nat}

/-- The counters of a `FUTEX_REQUEUE` are `i32`, and so is their sum. -/
def Sweep.fits (k : Sweep) (n : Nat) : Bool := k.requeue.isNone || decide (n < 2 ^ 31)

def Sweep.inRange (k : Sweep) : Pc τ → Bool
  | .sweep _ (.next c) => k.fits c.awokenCount && k.fits c.movedCount
  | .user (some (.ok n)) => k.fits n
  | _ => true

/-- How many entries may be moved. -/
def Sweep.moves (k : Sweep) : Nat := (k.requeue.map fun r => r.2.toNat).getD 0

variable [DecidableEq τ]

/-- A step of a call, until the task is back. A counter that leaves its type is a panic. -/
def callTurn (t : τ) (s : State τ) : Option (State τ ⊕ State τ) :=
  match s.pc t with
  | .user _ => some (.inl s)
  | .wait w p => some (.inr (waitStep s t w p))
  | .sweep k p => if k.inRange ((sweepStep s t k p).pc t) then some (.inr (sweepStep s t k p)) else none

/-- The task comes back from its call with a result. -/
def Answers (t : τ) (s : State τ) (call : Pc τ) (result : Except Errno Nat) (s' : State τ) : Prop :=
  Visits (callTurn t) (s.goto t call) (s'.goto t (.user (some result)))

/-- Entries of a list are awoken, others are moved to the end of another list, and nothing else is done. -/
structure Swept (k : Sweep) (s : State τ) (woken moved : List (FutexAsleep τ)) (s' : State τ) : Prop where
  awoken : ∀ e, s'.awoken e = (s.awoken e || decide (e ∈ woken))
  ready : ∀ e ∈ woken, (s'.task e.task).state = .ready
  task : ∀ u, (∀ e ∈ woken, e.task ≠ u) → s'.task u = s.task u
  list : s'.asleepList k.addr = (s.asleepList k.addr).filter (· ∉ moved)
  list2 : ∀ r ∈ k.requeue, s'.asleepList r.1 = s.asleepList r.1 ++ moved
  other : ∀ a, a ≠ k.addr → (∀ r ∈ k.requeue, a ≠ r.1) → s'.asleepList a = s.asleepList a
  same : s' = { s with awoken := s'.awoken, task := s'.task, asleepList := s'.asleepList }

def wake (k : Sweep) (s : State τ) (e : FutexAsleep τ) : State τ :=
  { s with
    task := update s.task e.task
      ⟨.ready, if k.requeue.isSome then (s.task e.task).forcefulWakeupTime else none⟩
    awoken := update s.awoken e true }

variable {t : τ} {k : Sweep} {s s' : State τ} {c : Cursor} {e : FutexAsleep τ}
  {front rest woken moved : List (FutexAsleep τ)} {result : Except Errno Nat}

theorem Swept.refl (k : Sweep) (s : State τ) : Swept k s [] [] s where
  awoken e := by simp
  ready e he := nomatch he
  task u _ := rfl
  list := by simp
  list2 r _ := (append_nil _).symm
  other a _ _ := rfl
  same := rfl

/-- A task that one wakes stays ready: later ones are made ready too. -/
theorem Swept.wake (h : Swept k (wake k s e) woken moved s') : Swept k s (e :: woken) moved s' where
  awoken e' := by
    rw [h.awoken e', Futex.wake]
    by_cases he : e' = e <;> simp [he]
  ready e' he' := by
    by_cases hmem : ∃ e₁ ∈ woken, e₁.task = e'.task
    · obtain ⟨e₁, he₁, htask⟩ := hmem
      exact htask ▸ h.ready e₁ he₁
    · push Not at hmem
      rw [h.task e'.task hmem, Futex.wake]
      obtain rfl | hin := mem_cons.1 he'
      · simp
      · exact absurd rfl (hmem e' hin)
  task u hu := by
    rw [h.task u fun e' he' => hu e' (mem_cons_of_mem _ he')]
    exact update_of_ne (hu e mem_cons_self).symm ..
  list := h.list
  list2 := h.list2
  other := h.other
  same := h.same

theorem Swept.move (hr : k.requeue = some (addr2, value3)) (hne : addr2 ≠ k.addr)
    (hlist : s.asleepList k.addr = front ++ e :: rest) (hnodup : (e :: (front ++ rest)).Nodup)
    (h : Swept k { s with asleepList := moveEntry s.asleepList k.addr front.length addr2 e } woken moved s') :
    Swept k s woken (e :: moved) s' where
  awoken := h.awoken
  ready := h.ready
  task := h.task
  list := by
    have hrest : ∀ e' ∈ front ++ rest, (decide (e' ∉ moved)) = decide (e' ∉ e :: moved) := by
      intro e' he'
      have hne' : e' ≠ e := fun heq => (nodup_cons.1 hnodup).1 (heq ▸ he')
      simp [hne']
    have hmoved : moveEntry s.asleepList k.addr front.length addr2 e k.addr = front ++ rest := by
      simp [moveEntry, hne.symm, hlist, eraseIdx_append_of_length_le]
    rw [h.list]
    dsimp only
    rw [hmoved, filter_congr hrest, hlist]
    simp [filter_append]
  list2 r hr' := by
    obtain rfl : r = (addr2, value3) := some.inj (hr'.symm.trans hr)
    rw [h.list2 _ hr']
    simp [moveEntry, hne]
  other a ha ha2 := by
    rw [h.other a ha ha2]
    simp [moveEntry, ha, ha2 _ hr]
  same := h.same

/-! ## The turns -/

theorem sweepStep_goto (pc : Pc τ) (p : SweepPc τ) : sweepStep (s.goto t pc) t k p = sweepStep s t k p := by
  unfold sweepStep
  cases p <;> simp only [State.goto, update_idem]

theorem answers_of_turn {p : SweepPc τ} {pc : Pc τ} {s₁ : State τ} (h : sweepStep s t k p = s₁.goto t pc)
    (hrange : k.inRange pc = true) (hrest : Answers t s₁ pc result s') : Answers t s (.sweep k p) result s' := by
  refine Visits.head ?_ hrest
  unfold callTurn
  rw [goto_pc]
  dsimp only
  rw [sweepStep_goto, h, goto_pc, if_pos hrange]

theorem Sweep.fits_of_le (h : k.fits n = true) (hle : m ≤ n) : k.fits m = true := by
  unfold Sweep.fits at h ⊢
  simp only [Bool.or_eq_true, decide_eq_true_eq] at h ⊢
  exact h.imp_right hle.trans_lt

theorem ofNat_lt_iff (h : n ≤ value.toNat) : UInt32.ofNat n < value ↔ n < value.toNat := by
  have hlt := value.toNat_lt
  rw [UInt32.lt_iff_toNat_lt, UInt32.toNat_ofNat', Nat.mod_eq_of_lt (by omega)]

theorem moves_of_requeue (hr : k.requeue = some (addr2, value3)) : k.moves = value3.toNat := by
  rw [Sweep.moves, hr]
  rfl

omit [DecidableEq τ] in
theorem inRange_next (h : k.fits (c.awokenCount + c.movedCount) = true) : k.inRange (.sweep k (.next c) : Pc τ) = true :=
  Bool.and_eq_true_iff.2 ⟨k.fits_of_le h (Nat.le_add_right ..), k.fits_of_le h (Nat.le_add_left ..)⟩

theorem answers_entry (hget : (s.asleepList k.addr)[c.i]? = some e)
    (h : Answers t s (.sweep k (.decide c e)) result s') : Answers t s (.sweep k (.next c)) result s' := by
  have hnext : sweepStep s t k (.next c) = s.goto t (.sweep k (.entry c e)) := by
    rw [sweepStep, hget]
  apply answers_of_turn hnext rfl
  exact answers_of_turn rfl rfl h

theorem answers_wake (hget : (s.asleepList k.addr)[c.i]? = some e) (he : s.awoken e = false)
    (hlt : c.awokenCount < k.value.toNat) (hfits : k.fits (c.awokenCount + 1 + c.movedCount) = true)
    (h : Answers t (wake k s e) (.sweep k (.next ⟨c.i + 1, c.awokenCount + 1, c.movedCount⟩)) result s') :
    Answers t s (.sweep k (.next c)) result s' := by
  have hdecide : sweepStep s t k (.decide c e) = s.goto t (.sweep k (.task c e)) := by
    rw [sweepStep, if_pos ⟨he, (ofNat_lt_iff hlt.le).2 hlt⟩]
  have hmark : sweepStep s t k (.mark c e) =
      (wake k s e).goto t (.sweep k (.next ⟨c.i + 1, c.awokenCount + 1, c.movedCount⟩)) := rfl
  apply answers_entry hget
  apply answers_of_turn hdecide rfl
  refine answers_of_turn rfl rfl ?_
  exact answers_of_turn hmark (inRange_next hfits) h

theorem not_ofNat_lt (h : n = value.toNat) : ¬ UInt32.ofNat n < value := by
  rw [ofNat_lt_iff h.le]
  exact h.not_lt

theorem answers_move (hget : (s.asleepList k.addr)[c.i]? = some e) (he : s.awoken e = false)
    (hvalue : c.awokenCount = k.value.toNat) (hr : k.requeue = some (addr2, value3))
    (hlt : c.movedCount < value3.toNat) (hfits : k.fits (c.awokenCount + (c.movedCount + 1)) = true)
    (h : Answers t { s with asleepList := moveEntry s.asleepList k.addr c.i addr2 e }
      (.sweep k (.next ⟨c.i, c.awokenCount, c.movedCount + 1⟩)) result s') :
    Answers t s (.sweep k (.next c)) result s' := by
  have hdecide : sweepStep s t k (.decide c e) =
      State.goto { s with asleepList := moveEntry s.asleepList k.addr c.i addr2 e } t
        (.sweep k (.next ⟨c.i, c.awokenCount, c.movedCount + 1⟩)) := by
    rw [sweepStep, if_neg fun hboth => not_ofNat_lt hvalue hboth.2, hr]
    dsimp only
    rw [if_pos ⟨he, (ofNat_lt_iff hlt.le).2 hlt⟩]
    rfl
  apply answers_entry hget
  exact answers_of_turn hdecide (inRange_next hfits) h

theorem answers_skip (hget : (s.asleepList k.addr)[c.i]? = some e)
    (hskip : s.awoken e = true ∨ c.awokenCount = k.value.toNat ∧ c.movedCount = k.moves)
    (hfits : k.fits (c.awokenCount + c.movedCount) = true)
    (h : Answers t s (.sweep k (.next ⟨c.i + 1, c.awokenCount, c.movedCount⟩)) result s') :
    Answers t s (.sweep k (.next c)) result s' := by
  have hdecide : sweepStep s t k (.decide c e) =
      s.goto t (.sweep k (.next ⟨c.i + 1, c.awokenCount, c.movedCount⟩)) := by
    rw [sweepStep]
    obtain hawoken | ⟨hvalue, hmoved⟩ := hskip
    · rw [if_neg (by simp [hawoken])]
      cases k.requeue <;> simp [hawoken]
    rw [if_neg fun hboth => not_ofNat_lt hvalue hboth.2]
    cases hr : k.requeue with
    | none => rfl
    | some r =>
      have hnot := not_ofNat_lt (hmoved.trans (moves_of_requeue hr))
      simp [hnot]
  apply answers_entry hget
  exact answers_of_turn hdecide (inRange_next hfits) h

/-! ## The loop -/

def State.asleep (s : State τ) (l : List (FutexAsleep τ)) : List (FutexAsleep τ) := l.filter fun e => !s.awoken e

/-- The loop behind the first entries of the list, of which `front` are left. By induction on the entries that are still
to be seen. -/
theorem sweep_next (hne : ∀ r ∈ k.requeue, r.1 ≠ k.addr) {total : Nat} (hlist : s.asleepList k.addr = front ++ rest)
    (hnodup : (front ++ rest).Nodup) (hi : c.i = front.length) (hn : c.awokenCount + n = k.value.toNat)
    (hm : c.movedCount + m = k.moves)
    (htotal : c.awokenCount + c.movedCount + ((s.asleep rest).take n).length + (((s.asleep rest).drop n).take m).length = total)
    (hfits : k.fits total = true) : ∃ s', Answers t s (.sweep k (.next c)) (.ok total) s' ∧
      Swept k s ((s.asleep rest).take n) (((s.asleep rest).drop n).take m) s' := by
  induction rest generalizing s front c n m with
  | nil =>
    obtain rfl : c.awokenCount + c.movedCount = total := by simpa [State.asleep] using htotal
    have hnext : sweepStep s t k (.next c) = s.goto t (.user (some (.ok (c.awokenCount + c.movedCount)))) := by
      rw [sweepStep, hlist, append_nil, hi, getElem?_eq_none le_rfl]
    exact ⟨s, answers_of_turn hnext hfits (.refl _), by simpa [State.asleep] using Swept.refl k s⟩
  | cons e rest ih =>
    have hget : (s.asleepList k.addr)[c.i]? = some e := by
      rw [hlist, hi]
      simp
    have hfront : front ++ e :: rest = (front ++ [e]) ++ rest := by simp
    have hi₁ : c.i + 1 = (front ++ [e]).length := by simp [hi]
    have hmid : (e :: (front ++ rest)).Nodup := nodup_middle.1 hnodup
    have hbound : k.fits (c.awokenCount + c.movedCount) = true := k.fits_of_le hfits (by omega)
    have hskip := ih (c := ⟨c.i + 1, c.awokenCount, c.movedCount⟩) (hlist.trans hfront) (hfront ▸ hnodup) hi₁ hn hm
    cases he : s.awoken e with
    | true =>
      have hasleep : s.asleep (e :: rest) = s.asleep rest := by simp [State.asleep, he]
      rw [hasleep] at htotal ⊢
      obtain ⟨s', hs', hswept⟩ := hskip htotal
      exact ⟨s', answers_skip hget (.inl he) hbound hs', hswept⟩
    | false =>
      have hasleep : s.asleep (e :: rest) = e :: s.asleep rest := by simp [State.asleep, he]
      rw [hasleep] at htotal ⊢
      cases n with
      | succ n =>
        have hsame : (wake k s e).asleep rest = s.asleep rest := by
          refine filter_congr fun e' he' => ?_
          have hne' : e' ≠ e := fun heq => (nodup_cons.1 hmid).1 (mem_append_right _ (heq ▸ he'))
          simp [wake, hne']
        rw [take_succ_cons, drop_succ_cons] at htotal ⊢
        rw [length_cons] at htotal
        have hrest := ih (s := wake k s e) (c := ⟨c.i + 1, c.awokenCount + 1, c.movedCount⟩) (n := n)
          (hlist.trans hfront) (hfront ▸ hnodup) hi₁ (by dsimp only; omega) hm
        rw [hsame] at hrest
        obtain ⟨s', hs', hswept⟩ := hrest (by dsimp only; omega)
        exact ⟨s', answers_wake hget he (by omega) (k.fits_of_le hfits (by omega)) hs', hswept.wake⟩
      | zero =>
        rw [take_zero, drop_zero] at htotal hskip ⊢
        cases m with
        | succ m =>
          obtain ⟨⟨addr2, value3⟩, hr⟩ : ∃ r, k.requeue = some r := by
            refine ne_none_iff_exists'.1 fun hnone => ?_
            rw [Sweep.moves, hnone] at hm
            exact absurd hm (Nat.succ_ne_zero _)
          have hmoves := moves_of_requeue hr
          have herased : moveEntry s.asleepList k.addr c.i addr2 e k.addr = front ++ rest := by
            simp [moveEntry, (hne _ hr).symm, hlist, hi, eraseIdx_append_of_length_le]
          rw [take_succ_cons] at htotal ⊢
          rw [length_cons] at htotal
          have hrest := ih (s := { s with asleepList := moveEntry s.asleepList k.addr c.i addr2 e })
            (c := ⟨c.i, c.awokenCount, c.movedCount + 1⟩) (n := 0) (m := m) herased (nodup_cons.1 hmid).2 hi hn
            (by dsimp only; omega)
          rw [take_zero, drop_zero] at hrest
          obtain ⟨s', hs', hswept⟩ := hrest (by dsimp only [State.asleep] at htotal ⊢; omega)
          refine ⟨s', answers_move hget he hn hr (by omega) (k.fits_of_le hfits (by omega)) hs', ?_⟩
          exact Swept.move hr (hne _ hr) hlist hmid (hi ▸ hswept)
        | zero =>
          rw [take_zero] at htotal hskip ⊢
          obtain ⟨s', hs', hswept⟩ := hskip htotal
          exact ⟨s', answers_skip hget (.inr ⟨hn, hm⟩) hbound hs', hswept⟩

/-! ## The calls -/

theorem answers_find (h : Answers t s (.sweep k (.next ⟨0, 0, 0⟩)) result s') :
    Answers t s (.sweep k .find) result s' := by
  have hzero : k.inRange (.sweep k (.next ⟨0, 0, 0⟩) : Pc τ) = true := by simp [Sweep.inRange, Sweep.fits]
  refine answers_of_turn rfl rfl ?_
  cases hr : k.requeue with
  | none =>
    have hfound : sweepStep s t k .found = s.goto t (.sweep k .lock) := by
      rw [sweepStep, hr]
      rfl
    have hlock : sweepStep s t k .lock = s.goto t (.sweep k (.next ⟨0, 0, 0⟩)) := by
      rw [sweepStep, hr]
      rfl
    apply answers_of_turn hfound rfl
    exact answers_of_turn hlock hzero h
  | some r =>
    have hfound : sweepStep s t k .found = s.goto t (.sweep k .find2) := by
      rw [sweepStep, hr]
      rfl
    have hlock : sweepStep s t k .lock = s.goto t (.sweep k .lock2) := by
      rw [sweepStep, hr]
      rfl
    apply answers_of_turn hfound rfl
    refine answers_of_turn rfl rfl (answers_of_turn rfl rfl ?_)
    apply answers_of_turn hlock rfl
    exact answers_of_turn rfl hzero h

theorem sweep_find (hnodup : (s.asleepList k.addr).Nodup) (hne : ∀ r ∈ k.requeue, r.1 ≠ k.addr)
    {asleep : List (FutexAsleep τ)} (hasleep : s.asleep (s.asleepList k.addr) = asleep)
    (hfits : k.fits (min k.value.toNat asleep.length + min k.moves (asleep.length - k.value.toNat)) = true) :
    ∃ s', Answers t s (.sweep k .find)
        (.ok (min k.value.toNat asleep.length + min k.moves (asleep.length - k.value.toNat))) s' ∧
      Swept k s (asleep.take k.value.toNat) ((asleep.drop k.value.toNat).take k.moves) s' := by
  subst hasleep
  have hlist : s.asleepList k.addr = [] ++ s.asleepList k.addr := rfl
  obtain ⟨s', hs', hswept⟩ := sweep_next (t := t) (c := ⟨0, 0, 0⟩) hne hlist hnodup rfl (Nat.zero_add _)
    (Nat.zero_add _) (by simp) hfits
  exact ⟨s', answers_find hs', hswept⟩

/-- **What a sweep does**, in every state that is reached. The entries of the futex that are not awoken are `asleep`, in
the order of the list. -/
theorem futexSyscall_sweeps [Fintype τ] {actions : List (Action τ)} {s₀ : State τ} (h₀ : Initial s₀)
    (hrun : Run.run step s₀ actions = some s) (t : τ) (addr : Nat) (value value3 : UInt32) (utime : Option Nat) :
    let asleep := s.asleep (s.asleepList addr)
    (addr = 0 ∨ addr % 4 ≠ 0 → ∀ op addr2,
      Answers t s (futexSyscall addr op value utime addr2 value3) (.error .einval) s) ∧
    (addr ≠ 0 → addr % 4 = 0 →
      (∀ addr2, ∃ s',
        Answers t s (futexSyscall addr futexWake value utime addr2 value3) (.ok (min value.toNat asleep.length)) s' ∧
        Swept ⟨addr, value, none⟩ s (asleep.take value.toNat) [] s') ∧
      ∀ addr2, addr2 ≠ addr →
        min value.toNat asleep.length + min value3.toNat (asleep.length - value.toNat) < 2 ^ 31 →
        ∃ s', Answers t s (futexSyscall addr futexRequeue value utime (some addr2) value3)
            (.ok (min value.toNat asleep.length + min value3.toNat (asleep.length - value.toNat))) s' ∧
          Swept ⟨addr, value, some (addr2, value3)⟩ s (asleep.take value.toNat)
            ((asleep.drop value.toNat).take value3.toNat) s') := by
  have hnodup := (Run.run_invariant valid_step h₀.valid hrun).nodup addr
  refine ⟨fun hbad op addr2 => ?_, fun hnull halign => ?_⟩
  · unfold futexSyscall
    rw [if_pos hbad]
    exact Visits.refl _
  have hgood : ¬ (addr = 0 ∨ addr % 4 ≠ 0) := fun hbad => hbad.elim hnull fun hmod => hmod halign
  refine ⟨fun addr2 => ?_, fun addr2 hne hrange => ?_⟩
  · have hcall : (futexSyscall addr futexWake value utime addr2 value3 : Pc τ) = .sweep ⟨addr, value, none⟩ .find := by
      unfold futexSyscall
      rw [if_neg hgood]
      rfl
    have hnone := sweep_find (t := t) (k := ⟨addr, value, none⟩) hnodup nofun rfl rfl
    rw [hcall]
    simpa [Sweep.moves] using hnone
  · have hcall : (futexSyscall addr futexRequeue value utime (some addr2) value3 : Pc τ) =
        .sweep ⟨addr, value, some (addr2, value3)⟩ .find := by
      unfold futexSyscall
      rw [if_neg hgood]
      rfl
    have hother : ∀ r ∈ some (addr2, value3), r.1 ≠ addr := by
      intro r hr
      obtain rfl := some.inj hr
      exact hne
    rw [hcall]
    exact sweep_find hnodup hother rfl (decide_eq_true hrange)

/-- Of three tasks that sleep, one is awoken, one is moved and one stays. -/
theorem futexSyscall_sweeps_three :
    ∃ s s', Run.run step (start fun _ : Fin 4 => [.futex 4 futexWait 0 none none 0])
        (replicate 8 (.run 0) ++ replicate 8 (.run 1) ++ replicate 8 (.run 2)) = some s ∧
      Answers 3 s (futexSyscall 4 futexRequeue 1 none (some 8) 1) (.ok 2) s' ∧ s'.awoken ⟨0, 0⟩ = true ∧
      s'.asleepList 4 = [⟨0, 0⟩, ⟨2, 0⟩] ∧ s'.asleepList 8 = [⟨1, 0⟩] := by
  have hrun : Run.run step (start fun _ : Fin 4 => [.futex 4 futexWait 0 none none 0])
    (replicate 8 (.run 0) ++ replicate 8 (.run 1) ++ replicate 8 (.run 2)) = some _ := rfl
  obtain ⟨s', hs', hswept⟩ :=
    ((futexSyscall_sweeps (start_initial _) hrun 3 4 1 1 none).2 (by decide) (by decide)).2 8 (by decide) (by decide)
  exact ⟨_, s', hrun, hs', (hswept.awoken _).trans rfl, hswept.list.trans rfl, (hswept.list2 _ rfl).trans rfl⟩

/-- A `FUTEX_REQUEUE` moves an entry to the address 6. A `FUTEX_WAKE` there is refused. -/
theorem futexWake_of_unaligned : ∃ s, Run.run step (waiterAnd none [.futex 4 futexRequeue 0 none (some 6) 1])
      (replicate 8 (.run 0) ++ replicate 11 (.run 1)) = some s ∧ s.asleepList 6 = [⟨0, 0⟩] ∧ s.awoken ⟨0, 0⟩ = false ∧
    Answers 1 s (futexSyscall 6 futexWake 1 none none 0) (.error .einval) s :=
  ⟨_, rfl, rfl, rfl, Visits.refl _⟩

end CoreX.Futex

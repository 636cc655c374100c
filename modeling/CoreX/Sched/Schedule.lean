import CoreX.Base.Links

/-!
# Choosing the next task (`multitasking/schedule.rs`)

The tasks are a list through their `next` pointers, which `π` names. `schedule` looks for a task that may run, from
the one after the current task on. The third time that it gets to the end of the list it gives up and takes the dummy
task.
-/

namespace CoreX.Sched

open Links List Option

variable {π : Type}

structure Task (π : Type) where
  id : Nat
  state : Int
  extras : UInt32
  next : Option π
  forcefulWakeupTimeUnsafe : Nat
  deriving DecidableEq

structure Tasks (π : Type) where
  task : π → Task π
  firstTask : π
  currentTask : π
  dummyTask : π

structure Signals (π : Type) where
  signalsRevivableState : Int → Bool
  signalsPendingQuick : π → Bool

/-- `TASK_STATE_READY` of this file. -/
def scheduleReady : Int := 0

def extrasInvolutaryWakeup : UInt32 := (1 : UInt32) <<< 3

section
variable [DecidableEq π]

def wakeUp (s : Tasks π) (p : π) : Tasks π :=
  { s with
    task := Function.update s.task p { s.task p with
      state := scheduleReady
      extras := (s.task p).extras ||| extrasInvolutaryWakeup
      forcefulWakeupTimeUnsafe := 0 } }

def selectLoop (signals : Signals π) (timerTicks : Nat) : Nat → Tasks π → π → Nat → Option (Option π × Tasks π)
  | 0, _, _, _ => none
  | fuel + 1, s, next, fullRun =>
    if (s.task next).state ≠ scheduleReady then
      if signals.signalsRevivableState (s.task next).state ∧ signals.signalsPendingQuick next then
        some (some next, wakeUp s next)
      else if (s.task next).forcefulWakeupTimeUnsafe ≠ 0 ∧ (s.task next).forcefulWakeupTimeUnsafe ≤ timerTicks then
        some (some next, wakeUp s next)
      else
        match (s.task next).next with
        | some next => selectLoop signals timerTicks fuel s next fullRun
        | none =>
          if fullRun + 1 > 2 then some (none, s)
          else selectLoop signals timerTicks fuel s s.firstTask (fullRun + 1)
    else some (some next, s)

def selectNext (signals : Signals π) (timerTicks fuel : Nat) (s : Tasks π) : Option (π × Tasks π) :=
  let next := (s.task s.currentTask).next.getD s.firstTask
  (selectLoop signals timerTicks fuel s next 0).map fun (next, s) => (next.getD s.dummyTask, s)

end

/-! ## The choice -/

variable {signals : Signals π} {timerTicks fuel fullRun : Nat} {s s' : Tasks π} {p t : π} {ps : List π}

/-- The task is ready, or a signal or its time wakes it. -/
def Qualifies (signals : Signals π) (timerTicks : Nat) (s : Tasks π) (p : π) : Prop :=
  (s.task p).state = scheduleReady ∨
    (signals.signalsRevivableState (s.task p).state ∧ signals.signalsPendingQuick p) ∨
    ((s.task p).forcefulWakeupTimeUnsafe ≠ 0 ∧ (s.task p).forcefulWakeupTimeUnsafe ≤ timerTicks)

instance : Decidable (Qualifies signals timerTicks s p) := inferInstanceAs (Decidable (_ ∨ _))

def links (s : Tasks π) (p : π) : Option π := (s.task p).next

variable [DecidableEq π]

def chosen (s : Tasks π) (p : π) : Tasks π := if (s.task p).state = scheduleReady then s else wakeUp s p

theorem chosen_of_ne {q : π} (h : q ≠ p) : (chosen s p).task q = s.task q := by
  unfold chosen
  split_ifs
  · rfl
  · exact Function.update_of_ne h ..

theorem selectLoop_of_qualifies (h : Qualifies signals timerTicks s p) :
    selectLoop signals timerTicks (fuel + 1) s p fullRun = some (some p, chosen s p) := by
  rw [selectLoop, chosen]
  by_cases hready : (s.task p).state = scheduleReady
  · rw [if_neg (not_not.2 hready), if_pos hready]
  · rw [if_pos hready, if_neg hready]
    rcases h with hstate | hsignal | hwakeup
    · exact absurd hstate hready
    · rw [if_pos hsignal]
    · split_ifs <;> rfl

theorem selectLoop_round (h : Linked (links s) (some p) ps) :
    selectLoop signals timerTicks (fuel + ps.length) s p fullRun =
      match ps.find? fun q => Qualifies signals timerTicks s q with
      | some t => some (some t, chosen s t)
      | none => if fullRun + 1 > 2 then some (none, s)
        else selectLoop signals timerTicks fuel s s.firstTask (fullRun + 1) := by
  induction ps generalizing p with
  | nil => cases h
  | cons q ps ih =>
    obtain rfl := some.inj h.1
    rw [length_cons, ← Nat.add_assoc]
    by_cases hq : Qualifies signals timerTicks s p
    · rw [selectLoop_of_qualifies hq, find?_cons_of_pos (by simpa using hq)]
    obtain ⟨hready, hrest⟩ := not_or.1 hq
    obtain ⟨hsignal, hwakeup⟩ := not_or.1 hrest
    rw [selectLoop, if_pos hready, if_neg hsignal, if_neg hwakeup, find?_cons_of_neg (by simpa using hq)]
    cases ps with
    | nil =>
      have hlast : (s.task p).next = none := h.2
      rw [hlast]
      rfl
    | cons r ps =>
      have hnext : (s.task p).next = some r := h.2.1
      rw [hnext]
      exact ih ⟨rfl, h.2.2⟩

/-- The rounds that are left, from the first task on. They all find the same. -/
theorem selectLoop_first (h : Linked (links s) (some s.firstTask) ps) (hle : fullRun ≤ 2)
    (hfuel : (3 - fullRun) * ps.length ≤ fuel) : selectLoop signals timerTicks fuel s s.firstTask fullRun =
      some (match ps.find? fun q => Qualifies signals timerTicks s q with
        | some t => (some t, chosen s t)
        | none => (none, s)) := by
  obtain ⟨rounds, hrounds⟩ : ∃ rounds, rounds = 2 - fullRun := ⟨_, rfl⟩
  induction rounds generalizing fullRun fuel with
  | zero =>
    obtain rfl : fullRun = 2 := by omega
    obtain ⟨fuel, rfl⟩ := Nat.exists_eq_add_of_le' (show ps.length ≤ fuel by omega)
    rw [selectLoop_round h]
    cases ps.find? fun q => Qualifies signals timerTicks s q <;> rfl
  | succ rounds ih =>
    have hmul : (3 - fullRun) * ps.length = (3 - (fullRun + 1)) * ps.length + ps.length := by
      rw [← Nat.succ_mul]
      congr 1
      omega
    obtain ⟨fuel, rfl⟩ := Nat.exists_eq_add_of_le' (show ps.length ≤ fuel by omega)
    rw [selectLoop_round h, if_neg (by omega), ih (by omega) (by omega) (by omega)]
    cases ps.find? fun q => Qualifies signals timerTicks s q <;> rfl

omit [DecidableEq π] in
theorem find?_cyclic {before after : List π} {current : π} {P : π → Bool} (hafter : after.find? P = none) :
    (before ++ current :: after).find? P = (after ++ before ++ [current]).find? P := by
  rw [append_assoc, find?_append, find?_append, find?_append, hafter, find?_cons, find?_cons, hafter]
  rfl

theorem selectNext_eq {before after : List π}
    (h : Linked (links s) (some s.firstTask) (before ++ s.currentTask :: after))
    (hfuel : 3 * (before ++ s.currentTask :: after).length ≤ fuel) : selectNext signals timerTicks fuel s =
      some (match (after ++ before ++ [s.currentTask]).find? fun q => Qualifies signals timerTicks s q with
        | some t => (t, chosen s t)
        | none => (s.dummyTask, s)) := by
  have hafter : Linked (links s) (s.task s.currentTask).next after := h.of_append_cons
  rw [selectNext]
  cases after with
  | nil =>
    have hnext : (s.task s.currentTask).next = none := hafter
    rw [hnext, getD_none, selectLoop_first h (Nat.zero_le _) hfuel, nil_append]
    cases (before ++ [s.currentTask]).find? fun q => Qualifies signals timerTicks s q <;> rfl
  | cons r after =>
    have hnext : (s.task s.currentTask).next = some r := hafter.1
    rw [length_append, length_cons] at hfuel
    obtain ⟨fuel, rfl⟩ := Nat.exists_eq_add_of_le' (show (r :: after).length ≤ fuel by omega)
    rw [hnext, getD_some, selectLoop_round (hnext ▸ hafter)]
    cases hfind : (r :: after).find? fun q => Qualifies signals timerTicks s q with
    | some t =>
      rw [append_assoc, find?_append, hfind]
      rfl
    | none =>
      rw [if_neg (by omega), selectLoop_first h (by omega) (by rw [length_append, length_cons]; omega),
        find?_cyclic hfind]
      cases (r :: after ++ before ++ [s.currentTask]).find? fun q => Qualifies signals timerTicks s q <;> rfl

/-- **`schedule` takes the first task that qualifies in the cyclic order after the current task**, which comes
last, and the dummy task if none qualifies. It changes no other task. Three times as many iterations as there
are tasks are enough. -/
theorem selectNext_first (signals : Signals π) (timerTicks : Nat) {before after : List π}
    (h : Linked (links s) (some s.firstTask) (before ++ s.currentTask :: after)) :
    ∃ t s', (∀ fuel, 3 * (before ++ s.currentTask :: after).length ≤ fuel →
        selectNext signals timerTicks fuel s = some (t, s')) ∧
      ((after ++ before ++ [s.currentTask]).find? (fun q => Qualifies signals timerTicks s q) = some t ∨
        (∀ q ∈ before ++ s.currentTask :: after, ¬ Qualifies signals timerTicks s q) ∧ t = s.dummyTask) ∧
      ∀ q, q ≠ t → s'.task q = s.task q := by
  cases hfind : (after ++ before ++ [s.currentTask]).find? fun q => Qualifies signals timerTicks s q with
  | some t =>
    refine ⟨t, chosen s t, fun fuel hfuel => ?_, .inl rfl, fun q hq => chosen_of_ne hq⟩
    rw [selectNext_eq h hfuel, hfind]
  | none =>
    refine ⟨s.dummyTask, s, fun fuel hfuel => ?_, .inr ⟨fun q hq => ?_, rfl⟩, fun _ _ => rfl⟩
    · rw [selectNext_eq h hfuel, hfind]
    · have hnone := find?_eq_none.1 hfind q
      simp only [mem_append, mem_cons, not_mem_nil, or_false, decide_eq_true_eq] at hnone hq
      apply hnone
      tauto

def threeTasks : Tasks Nat where
  task
    | 0 => ⟨0, 2, 0, some 1, 0⟩
    | 1 => ⟨1, 3, 0, some 2, 0⟩
    | _ => ⟨2, 3, 0, none, 5⟩
  firstTask := 0
  currentTask := 1
  dummyTask := 0

def noSignals : Signals Nat := ⟨fun _ => false, fun _ => false⟩

theorem selectNext_first_threeTasks : ∃ s', selectNext noSignals 7 9 threeTasks = some (2, s') := by
  have hlist : Linked (links threeTasks) (some 0) ([0] ++ 1 :: [2]) := ⟨rfl, rfl, rfl, rfl⟩
  obtain ⟨t, s', hselect, hfirst, -⟩ := selectNext_first noSignals 7 hlist
  rcases hfirst with hfind | ⟨hnone, -⟩
  · obtain rfl : 2 = t := some.inj hfind
    exact ⟨s', hselect 9 (by decide)⟩
  · exact absurd (hnone 2 (by decide)) (by decide)

/-! ## Fairness -/

/-- How many tasks come before `p` in the cyclic order after `current`. -/
def turns (ps : List π) (current p : π) : Nat :=
  if ps.idxOf current < ps.idxOf p then ps.idxOf p - ps.idxOf current - 1
  else ps.idxOf p + (ps.length - ps.idxOf current - 1)

theorem turns_selectNext (h : Linked (links s) (some s.firstTask) ps) (hcurrent : s.currentTask ∈ ps) (hp : p ∈ ps)
    (hqualifies : Qualifies signals timerTicks s p)
    (hselect : (selectNext signals timerTicks (3 * ps.length) s).map Prod.fst = some t) :
    t ∈ ps ∧ (t = p ∨ turns ps t p < turns ps s.currentTask p) := by
  have hnodup := h.nodup
  obtain ⟨before, after, rfl⟩ := append_of_mem hcurrent
  have horder : ∀ q ∈ before ++ s.currentTask :: after, turns (before ++ s.currentTask :: after) s.currentTask q =
      (after ++ before ++ [s.currentTask]).idxOf q := by
    intro q hq
    rw [turns]
    grind
  rw [selectNext_eq h (Nat.le_refl _), map_some, some.injEq] at hselect
  cases hfind : (after ++ before ++ [s.currentTask]).find? fun q => Qualifies signals timerTicks s q with
  | none => grind
  | some q =>
    obtain rfl : q = t := by rwa [hfind] at hselect
    have hmem : q ∈ before ++ s.currentTask :: after := by grind
    -- a task that qualifies does not come before the one that is taken
    have hle : (after ++ before ++ [s.currentTask]).idxOf q ≤ (after ++ before ++ [s.currentTask]).idxOf p := by
      obtain ⟨-, front, back, hsplit, hfront⟩ := find?_eq_some_iff_append.1 hfind
      grind
    rw [← horder q hmem, ← horder p hp] at hle
    refine ⟨hmem, or_iff_not_imp_left.2 fun hne => ?_⟩
    have hidx : _ ≠ _ := (idxOf_inj hmem).not.2 hne
    have hlt := idxOf_lt_length_of_mem hmem
    have hlt' := idxOf_lt_length_of_mem hp
    unfold turns at hle ⊢
    split_ifs at hle ⊢ <;> omega

/-- **No task starves.** Whatever happens to the other tasks between the calls, a task that qualifies at each of
them is taken by one of as many calls as there are tasks. -/
theorem schedule_fair {s : Nat → Tasks π} {signals : Nat → Signals π} {timerTicks : Nat → Nat}
    (hlist : ∀ i, Linked (links (s i)) (some (s i).firstTask) ps) (hcurrent : (s 0).currentTask ∈ ps)
    (hcall : ∀ i, (selectNext (signals i) (timerTicks i) (3 * ps.length) (s i)).map Prod.fst =
      some (s (i + 1)).currentTask) (hp : p ∈ ps) (hqualifies : ∀ i, Qualifies (signals i) (timerTicks i) (s i) p) :
    ∃ i < ps.length, (s (i + 1)).currentTask = p := by
  -- until `p` is taken, every call takes one of the tasks before it
  have hruns : ∀ n, (∃ i < n, (s (i + 1)).currentTask = p) ∨
      (s n).currentTask ∈ ps ∧ turns ps (s n).currentTask p + n < ps.length := by
    intro n
    induction n with
    | zero =>
      have hlt := idxOf_lt_length_of_mem hcurrent
      have hlt' := idxOf_lt_length_of_mem hp
      refine .inr ⟨hcurrent, ?_⟩
      unfold turns
      split_ifs <;> omega
    | succ n ih =>
      rcases ih with ⟨i, hi, htaken⟩ | ⟨hmem, hturns⟩
      · exact .inl ⟨i, by omega, htaken⟩
      · obtain ⟨hnext, htaken | hless⟩ := turns_selectNext (hlist n) hmem hp (hqualifies n) (hcall n)
        · exact .inl ⟨n, by omega, htaken⟩
        · exact .inr ⟨hnext, by omega⟩
  rcases hruns ps.length with htaken | ⟨-, hturns⟩
  · exact htaken
  · omega

def sleeper : Nat → Tasks Nat
  | 0 => threeTasks
  | _ => { threeTasks with currentTask := 2 }

/-- The last task sleeps until tick 5, and the calls are made at tick 7. -/
theorem schedule_fair_sleeper : ∃ i < 3, (sleeper (i + 1)).currentTask = 2 := by
  have hlist : ∀ i, Linked (links (sleeper i)) (some (sleeper i).firstTask) [0, 1, 2] := by
    rintro (_ | i) <;> exact ⟨rfl, rfl, rfl, rfl⟩
  have hcall : ∀ i, (selectNext noSignals 7 9 (sleeper i)).map Prod.fst = some (sleeper (i + 1)).currentTask := by
    rintro (_ | i) <;> rfl
  have hqualifies : Qualifies noSignals 7 threeTasks 2 := by decide
  exact schedule_fair hlist (by decide) hcall (by decide) (by rintro (_ | i) <;> exact hqualifies)

end CoreX.Sched

import CoreX.Base.Run
import CoreX.Sched.Schedule

/-!
# Killed tasks and new tasks (`multitasking/task.rs`)

`task_kill` sets the state of a task to `TASK_STATE_DEAD` and leaves it in the list, and `task_create` appends a task.
The constants are those of `task.rs`, where `TASK_STATE_DEAD` is the number that `schedule.rs` calls
`TASK_STATE_READY`.
-/

namespace CoreX.Sched

open Links Function List Option

variable {π : Type} {target : π}

def taskStateDead : Int := 0

def taskStateCreated : Int := 1

/-- `TASK_STATE_READY` of `task.rs`. -/
def taskStateReady : Int := 2

def taskStateDummy : Int := 4

section
variable [DecidableEq π]

def findTask (s : Tasks π) (id : Nat) : Nat → Option π → Option (Option π)
  | _, none => some none
  | 0, some _ => none
  | fuel + 1, some browse =>
    if (s.task browse).id = id then some (some browse) else findTask s id fuel (s.task browse).next

def lastTask (s : Tasks π) : Nat → π → Option π
  | 0, _ => none
  | fuel + 1, browse =>
    match (s.task browse).next with
    | some next => lastTask s fuel next
    | none => some browse

def taskKill (s : Tasks π) (fuel id : Nat) : Option (Option π × Tasks π) :=
  (findTask s id fuel (some s.firstTask)).map fun browse => (browse, match browse with
    | none => s
    | some browse => { s with task := Function.update s.task browse { s.task browse with state := taskStateDead } })

def taskCreate (s : Tasks π) (fuel : Nat) (target : π) (id : Nat) : Option (Tasks π) :=
  (lastTask s fuel s.firstTask).map fun browse =>
    let task := Function.update s.task target ⟨0, 0, 0, none, 0⟩
    let task := Function.update task browse { task browse with next := some target }
    { s with task := Function.update task target { task target with id, state := taskStateCreated } }

/-- The tasks, with the list that they form and those that `task_kill` has killed. -/
structure System (π : Type) where
  tasks : Tasks π
  list : List π
  killed : List π

inductive Op (π : Type) where
  | kill (id : Nat)
  | create (target : π) (id : Nat)
  | schedule (signals : Signals π) (timerTicks : Nat)

/-- One call. `malloc` returns memory that is not in use. The loops have as much fuel as they need. -/
def step (s : System π) : Op π → Option (System π)
  | .kill id => (taskKill s.tasks s.list.length id).map fun (browse, tasks) =>
      { s with tasks, killed := browse.toList ++ s.killed }
  | .create target id =>
    if target ∈ s.list then none
    else (taskCreate s.tasks s.list.length target id).map fun tasks => { s with tasks, list := s.list ++ [target] }
  | .schedule signals timerTicks =>
    (selectNext signals timerTicks (3 * s.list.length) s.tasks).map fun (next, tasks) =>
      { s with tasks := { tasks with currentTask := next } }

end

variable {s s' : System π} {signals : Signals π} {timerTicks id : Nat}

/-- The list is linked and has the current and the dummy task. A killed task stays in it, and a task that is
still `TASK_STATE_CREATED` has no time to be woken up. -/
structure System.Valid (s : System π) : Prop where
  linked : Linked (links s.tasks) (some s.tasks.firstTask) s.list
  current_mem : s.tasks.currentTask ∈ s.list
  dummy_mem : s.tasks.dummyTask ∈ s.list
  dummy_state : (s.tasks.task s.tasks.dummyTask).state ≠ taskStateCreated
  killed : ∀ p ∈ s.killed, p ∈ s.list ∧ (s.tasks.task p).state = taskStateDead
  created : ∀ p ∈ s.list, (s.tasks.task p).state = taskStateCreated →
    (s.tasks.task p).forcefulWakeupTimeUnsafe = 0

variable [DecidableEq π] {tasks : Tasks π}

omit [DecidableEq π] in
theorem mem_of_findTask {id fuel : Nat} {p : Option π} {ps : List π} {browse : π} (hlist : Linked (links tasks) p ps)
    (h : findTask tasks id fuel p = some (some browse)) : browse ∈ ps := by
  induction fuel generalizing p ps with
  | zero => cases p <;> simp [findTask] at h
  | succ fuel ih =>
    cases ps with
    | nil =>
      rw [show p = none from hlist] at h
      simp [findTask] at h
    | cons q ps =>
      rw [hlist.1, findTask] at h
      split_ifs at h
      · obtain rfl : q = browse := by simpa using h
        exact mem_cons_self
      · exact mem_cons_of_mem _ (ih hlist.2 h)

omit [DecidableEq π] in
theorem eq_concat_of_lastTask {fuel : Nat} {p browse : π} {ps : List π} (hlist : Linked (links tasks) (some p) ps)
    (h : lastTask tasks fuel p = some browse) : ∃ front, ps = front ++ [browse] := by
  induction fuel generalizing p ps with
  | zero => cases h
  | succ fuel ih =>
    cases ps with
    | nil => cases hlist
    | cons q ps =>
      obtain rfl := some.inj hlist.1
      rw [lastTask] at h
      cases hnext : (tasks.task p).next with
      | none =>
        rw [hnext] at h
        obtain rfl := some.inj h
        have hend : Linked (links tasks) none ps := hnext ▸ hlist.2
        cases ps with
        | nil => exact ⟨[], rfl⟩
        | cons r ps => cases hend.1
      | some r =>
        rw [hnext] at h
        have hrest : Linked (links tasks) (some r) ps := hnext ▸ hlist.2
        obtain ⟨front, rfl⟩ := ih hrest h
        exact ⟨p :: front, rfl⟩

/-! ## Steps -/

theorem System.Valid.kill (h : s.Valid) (hstep : step s (.kill id) = some s') : s'.Valid := by
  obtain ⟨⟨browse, tasks⟩, hkill, rfl⟩ := map_eq_some_iff.1 hstep
  obtain ⟨b, hfind, heq⟩ := map_eq_some_iff.1 hkill
  cases b with
  | none =>
    cases heq
    exact ⟨h.linked, h.current_mem, h.dummy_mem, h.dummy_state, h.killed, h.created⟩
  | some b =>
    cases heq
    have hmem := mem_of_findTask h.linked hfind
    have hstate : ∀ p, (update s.tasks.task b { s.tasks.task b with state := taskStateDead } p).state =
        if p = b then taskStateDead else (s.tasks.task p).state := fun p => by
      by_cases hp : p = b
      · rw [hp, update_self, if_pos rfl]
      · rw [update_of_ne hp, if_neg hp]
    refine ⟨h.linked.congr fun p _ => ?_, h.current_mem, h.dummy_mem, ?_, fun p hp => ?_, fun p hp hcreated => ?_⟩
    · by_cases hp : p = b
      · subst hp
        simp [links]
      · simp [links, update_of_ne hp]
    · rw [hstate]
      split_ifs
      · decide
      · exact h.dummy_state
    · rw [hstate]
      rcases mem_cons.1 hp with rfl | hp
      · exact ⟨hmem, if_pos rfl⟩
      · refine ⟨(h.killed p hp).1, ?_⟩
        rw [(h.killed p hp).2, ite_self]
    · rw [hstate] at hcreated
      split_ifs at hcreated with hpb
      · exact absurd hcreated (by decide)
      · simp only [update_of_ne hpb]
        exact h.created p hp hcreated

structure Created (tasks : Tasks π) (last target : π) (id : Nat) (tasks' : Tasks π) : Prop where
  atTarget : tasks'.task target = ⟨id, taskStateCreated, 0, none, 0⟩
  atLast : tasks'.task last = { tasks.task last with next := some target }
  elsewhere : ∀ p, p ≠ target → p ≠ last → tasks'.task p = tasks.task p
  firstTask : tasks'.firstTask = tasks.firstTask
  currentTask : tasks'.currentTask = tasks.currentTask
  dummyTask : tasks'.dummyTask = tasks.dummyTask

theorem created_of_taskCreate {tasks' : Tasks π} {fuel : Nat} {last : π}
    (hlast : lastTask tasks fuel tasks.firstTask = some last) (hne : last ≠ target)
    (h : taskCreate tasks fuel target id = some tasks') : Created tasks last target id tasks' := by
  rw [taskCreate, hlast, map_some, some.injEq] at h
  subst h
  refine ⟨?_, ?_, fun p hp hp' => ?_, rfl, rfl, rfl⟩
  · simp only [update_self, update_of_ne hne.symm]
  · simp only [update_self, update_of_ne hne]
  · simp only [update_of_ne hp, update_of_ne hp']

theorem System.Valid.create (h : s.Valid) (hstep : step s (.create target id) = some s') : s'.Valid := by
  rw [step] at hstep
  split_ifs at hstep with hfresh
  obtain ⟨tasks, hcreate, rfl⟩ := map_eq_some_iff.1 hstep
  obtain ⟨last, hlast, -⟩ := map_eq_some_iff.1 hcreate
  obtain ⟨front, hfront⟩ := eq_concat_of_lastTask h.linked hlast
  have hne : ∀ p ∈ s.list, p ≠ target := fun p hp hpt => hfresh (hpt ▸ hp)
  have hmem : last ∈ s.list := by
    rw [hfront]
    exact mem_append_right _ mem_cons_self
  have hcreated := created_of_taskCreate hlast (hne last hmem) hcreate
  have hsame : ∀ p ∈ s.list, (tasks.task p).state = (s.tasks.task p).state ∧
      (tasks.task p).forcefulWakeupTimeUnsafe = (s.tasks.task p).forcefulWakeupTimeUnsafe := by
    intro p hp
    by_cases hpl : p = last
    · rw [hpl, hcreated.atLast]
      exact ⟨rfl, rfl⟩
    · rw [hcreated.elsewhere p (hne p hp) hpl]
      exact ⟨rfl, rfl⟩
  refine ⟨?_, ?_, ?_, ?_, fun p hp => ?_, fun p hp hp' => ?_⟩
  · have hlinked := h.linked
    have hnodup := h.linked.nodup
    rw [hfront] at hlinked hnodup
    rw [hcreated.firstTask, hfront, append_assoc]
    refine hlinked.concat (fun p hp => ?_) ?_ ?_
    · have hpl : p ≠ last := (nodup_append.1 hnodup).2.2 p hp last mem_cons_self
      rw [links, links, hcreated.elsewhere p (hne p (by rw [hfront]; exact mem_append_left _ hp)) hpl]
    · rw [links, hcreated.atLast]
    · rw [links, hcreated.atTarget]
  · rw [hcreated.currentTask]
    exact mem_append_left _ h.current_mem
  · rw [hcreated.dummyTask]
    exact mem_append_left _ h.dummy_mem
  · rw [hcreated.dummyTask, (hsame _ h.dummy_mem).1]
    exact h.dummy_state
  · obtain ⟨hlist, hstate⟩ := h.killed p hp
    exact ⟨mem_append_left _ hlist, (hsame p hlist).1.trans hstate⟩
  · rcases mem_append.1 hp with hp | hp
    · rw [(hsame p hp).1] at hp'
      rw [(hsame p hp).2]
      exact h.created p hp hp'
    · rw [mem_singleton.1 hp, hcreated.atTarget]

theorem System.Valid.selectNext_eq (h : s.Valid) {before after : List π}
    (hlist : s.list = before ++ s.tasks.currentTask :: after) :
    selectNext signals timerTicks (3 * s.list.length) s.tasks =
      some (match (after ++ before ++ [s.tasks.currentTask]).find?
          fun q => Qualifies signals timerTicks s.tasks q with
        | some t => (t, chosen s.tasks t)
        | none => (s.tasks.dummyTask, s.tasks)) := by
  have hlinked := h.linked
  rw [hlist] at hlinked ⊢
  exact Sched.selectNext_eq hlinked (Nat.le_refl _)

omit [DecidableEq π] in
theorem mem_cyclic {before after : List π} (hlist : s.list = before ++ s.tasks.currentTask :: after) {p : π} :
    p ∈ after ++ before ++ [s.tasks.currentTask] ↔ p ∈ s.list := by
  rw [hlist]
  simp only [mem_append, mem_cons, not_mem_nil, or_false]
  tauto

theorem System.Valid.switch (h : s.Valid) {t : π} (ht : t ∈ s.list) :
    System.Valid { s with tasks := { chosen s.tasks t with currentTask := t } } := by
  have hglobals : (chosen s.tasks t).firstTask = s.tasks.firstTask ∧
      (chosen s.tasks t).dummyTask = s.tasks.dummyTask := by
    rw [chosen]
    split_ifs <;> exact ⟨rfl, rfl⟩
  have hstate : ∀ p, ((chosen s.tasks t).task p).state =
      if p = t then scheduleReady else (s.tasks.task p).state := by
    intro p
    by_cases hp : p = t
    · rw [if_pos hp, hp, chosen]
      split_ifs with hready
      · exact hready
      · simp only [wakeUp, update_self]
    · rw [if_neg hp, chosen_of_ne hp]
  have hlinks : ∀ p, links (chosen s.tasks t) p = links s.tasks p := by
    intro p
    by_cases hp : p = t
    · rw [hp, links, chosen]
      split_ifs
      · rfl
      · simp only [wakeUp, update_self, links]
    · rw [links, links, chosen_of_ne hp]
  refine ⟨?_, ht, ?_, ?_, fun p hp => ?_, fun p hp hcreated => ?_⟩
  · rw [hglobals.1]
    exact h.linked.congr fun p _ => hlinks p
  · rw [hglobals.2]
    exact h.dummy_mem
  · rw [hglobals.2, hstate]
    split_ifs
    · decide
    · exact h.dummy_state
  · obtain ⟨hlist, hdead⟩ := h.killed p hp
    refine ⟨hlist, (hstate p).trans ?_⟩
    rw [hdead]
    exact ite_self _
  · rw [hstate] at hcreated
    split_ifs at hcreated with hpt
    · exact absurd hcreated (by decide)
    · rw [chosen_of_ne hpt]
      exact h.created p hp hcreated

theorem System.Valid.schedule (h : s.Valid) (hstep : step s (.schedule signals timerTicks) = some s') : s'.Valid := by
  obtain ⟨before, after, hlist⟩ := append_of_mem h.current_mem
  rw [step, h.selectNext_eq hlist, map_some, some.injEq] at hstep
  subst hstep
  cases hfind : (after ++ before ++ [s.tasks.currentTask]).find? fun q => Qualifies signals timerTicks s.tasks q with
  | none => exact ⟨h.linked, h.dummy_mem, h.dummy_mem, h.dummy_state, h.killed, h.created⟩
  | some t => exact h.switch ((mem_cyclic hlist).1 (mem_of_find?_eq_some hfind))

theorem valid_step (s : System π) (op : Op π) (s' : System π) (h : s.Valid) (hstep : step s op = some s') :
    s'.Valid := by
  cases op with
  | kill id => exact h.kill hstep
  | create target id => exact h.create hstep
  | schedule signals timerTicks => exact h.schedule hstep

/-! ## Tasks that were killed -/

/-- In `order`, a task that qualifies and was not killed stands before every killed one. -/
def Ahead (signals : Signals π) (timerTicks : Nat) (s : System π) (order : List π) : Prop :=
  ∀ pre p post, order = pre ++ p :: post → p ∈ s.killed →
    ∃ q ∈ pre, q ∉ s.killed ∧ Qualifies signals timerTicks s.tasks q

omit [DecidableEq π] in
theorem System.Valid.qualifies_killed (h : s.Valid) {p : π} (hp : p ∈ s.killed) :
    Qualifies signals timerTicks s.tasks p := .inl (h.killed p hp).2

omit [DecidableEq π] in
theorem System.Valid.find?_alive_iff (h : s.Valid) {order : List π} {t : π}
    (hfind : order.find? (fun q => Qualifies signals timerTicks s.tasks q) = some t) :
    t ∉ s.killed ↔ Ahead signals timerTicks s order := by
  obtain ⟨hqualifies, pre, post, rfl, hpre⟩ := find?_eq_some_iff_append.1 hfind
  simp only [decide_eq_true_eq, Bool.not_eq_true', decide_eq_false_iff_not] at hqualifies hpre
  constructor
  · intro halive front p back hsplit hp
    -- a killed task qualifies, so it is not before `t`, and it is not `t`
    refine ⟨t, ?_, halive, hqualifies⟩
    rcases append_eq_append_iff.1 hsplit with ⟨rest, rfl, hrest⟩ | ⟨rest, rfl, hrest⟩
    · cases rest with
      | nil => exact absurd ((List.cons.inj hrest).1 ▸ hp) halive
      | cons r rest => rw [(List.cons.inj hrest).1]; exact mem_append_right _ mem_cons_self
    cases rest with
    | nil => exact absurd ((List.cons.inj hrest).1 ▸ hp) halive
    | cons r rest =>
      refine absurd (h.qualifies_killed hp) (hpre p ?_)
      rw [(List.cons.inj hrest).1]
      exact mem_append_right _ mem_cons_self
  · intro hahead hkilled
    obtain ⟨q, hq, -, hqq⟩ := hahead pre t post rfl hkilled
    exact hpre q hq hqq

omit [DecidableEq π] in
theorem System.Valid.revivable_of_created (h : s.Valid) {p : π} (hp : p ∈ s.list)
    (hcreated : (s.tasks.task p).state = taskStateCreated) (hqualifies : Qualifies signals timerTicks s.tasks p) :
    signals.signalsRevivableState taskStateCreated := by
  rcases hqualifies with hready | ⟨hsignal, -⟩ | ⟨hwakeup, -⟩
  · exact absurd (hcreated.symm.trans hready) (by decide)
  · exact hcreated ▸ hsignal
  · exact absurd (h.created p hp hcreated) hwakeup

/-- **What `schedule` selects after any calls.** It is not a task that is still `TASK_STATE_CREATED`, unless
`signalsRevivableState` holds of that state. It is not a killed task exactly if, in the cyclic order after the current
task, one that qualifies and was not killed comes before every killed one. -/
theorem selectNext_alive_iff {s₀ : System π} {ops : List (Op π)} (h₀ : s₀.Valid)
    (hrun : Run.run step s₀ ops = some s) (signals : Signals π) (timerTicks : Nat) {before after : List π}
    (hlist : s.list = before ++ s.tasks.currentTask :: after) :
    ∃ t tasks', selectNext signals timerTicks (3 * s.list.length) s.tasks = some (t, tasks') ∧
      ((s.tasks.task t).state = taskStateCreated → signals.signalsRevivableState taskStateCreated) ∧
      (t ∉ s.killed ↔ Ahead signals timerTicks s (after ++ before ++ [s.tasks.currentTask])) := by
  have h : s.Valid := Run.run_invariant valid_step h₀ hrun
  rw [h.selectNext_eq hlist]
  cases hfind : (after ++ before ++ [s.tasks.currentTask]).find? fun q => Qualifies signals timerTicks s.tasks q with
  | some t =>
    have hqualifies : Qualifies signals timerTicks s.tasks t := by simpa using find?_some hfind
    have hmem := (mem_cyclic hlist).1 (mem_of_find?_eq_some hfind)
    exact ⟨t, _, rfl, fun hcreated => h.revivable_of_created hmem hcreated hqualifies, h.find?_alive_iff hfind⟩
  | none =>
    have hnone : ∀ p, p ∉ s.killed := by
      intro p hp
      have hnot := find?_eq_none.1 hfind p ((mem_cyclic hlist).2 (h.killed p hp).1)
      exact hnot (decide_eq_true (h.qualifies_killed hp))
    exact ⟨_, _, rfl, fun hcreated => absurd hcreated h.dummy_state,
      fun _ _ p _ _ hp => absurd hp (hnone p), fun _ => hnone _⟩

def initiateTasks : System Nat where
  tasks :=
    { task := fun
        | 0 => ⟨0, taskStateReady, 0, some 1, 0⟩
        | _ => ⟨1, taskStateDummy, 0, none, 0⟩
      firstTask := 0
      currentTask := 0
      dummyTask := 1 }
  list := [0, 1]
  killed := []

theorem initiateTasks_valid : initiateTasks.Valid where
  linked := ⟨rfl, rfl, rfl⟩
  current_mem := by decide
  dummy_mem := by decide
  dummy_state := by decide
  killed := fun p hp => nomatch hp
  created := by decide

/-- The task 2 is new and has a signal, and stands ahead of the killed task 3. -/
theorem selectNext_alive_iff_initiateTasks :
    ∃ s, Run.run step initiateTasks [.create 2 7, .create 3 8, .kill 8] = some s ∧ s.killed = [3] ∧ ∃ t tasks',
      selectNext ⟨(· = 1), (· = 2)⟩ 0 12 s.tasks = some (t, tasks') ∧ t ∉ s.killed := by
  have hrun : Run.run step initiateTasks [.create 2 7, .create 3 8, .kill 8] = some _ := rfl
  obtain ⟨t, tasks', hselect, -, halive⟩ :=
    selectNext_alive_iff initiateTasks_valid hrun ⟨(· = 1), (· = 2)⟩ 0 (show _ = [] ++ 0 :: [1, 2, 3] from rfl)
  refine ⟨_, hrun, rfl, t, tasks', hselect, halive.2 fun pre p post heq hp => ⟨2, ?_, by decide, by decide⟩⟩
  obtain rfl := mem_singleton.1 hp
  have heq : [1, 2, 3, 0] = pre ++ 3 :: post := heq
  rcases pre with _ | ⟨a, _ | ⟨b, pre⟩⟩ <;> simp at heq
  simp [heq]

/-- A task is created and killed, and `schedule` selects it. -/
theorem selectNext_killed :
    (Run.run step initiateTasks [.create 2 7, .kill 7]).map (fun s =>
      decide (2 ∈ s.killed ∧ (selectNext noSignals 0 9 s.tasks).map Prod.fst = some 2)) = some true := by
  decide +kernel

end CoreX.Sched

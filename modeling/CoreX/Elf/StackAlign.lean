import CoreX.Elf.StackUser

/-!
# The alignment of the first stack

`stack_generate_user` pushes 25 words and a pointer for every string, and nothing evens out their number. A program
starts with a stack pointer that is a multiple of 16 if and only if the number of its strings is odd.
-/

namespace CoreX.Elf

open CoreX.Hoare List Option Word

/-- Whenever the program returns, its result has the property, and `n` words were pushed as far as the alignment can
tell. -/
def Lowers {α : Type} (n : Nat) (p : StateT Task Option α) (Q : α → Prop) : Prop :=
  ∀ t a t', p t = some (a, t') → Q a ∧ (t'.rsp + 8 * n) % 16 = t.rsp % 16

section
variable {α β : Type} {m n : Nat} {Q : α → Prop} {R : β → Prop} {p : StateT Task Option α}
  {f : α → StateT Task Option β}

theorem Lowers.bind (hp : Lowers m p Q) (hf : ∀ a, Q a → Lowers n (f a) R) : Lowers (m + n) (p >>= f) R := by
  intro t b t' hrun
  rw [bind_eq, bind_eq_some_iff] at hrun
  obtain ⟨⟨a, t₁⟩, hp₁, hf₁⟩ := hrun
  obtain ⟨ha, hfirst⟩ := hp t a t₁ hp₁
  obtain ⟨hb, hsecond⟩ := hf a ha t₁ b t' hf₁
  exact ⟨hb, by omega⟩

theorem Lowers.skip (hp : Lowers 0 p Q) (hf : ∀ a, Q a → Lowers n (f a) R) : Lowers n (p >>= f) R :=
  Nat.zero_add n ▸ hp.bind hf

theorem lowers_of_rsp (h : ∀ t a t', p t = some (a, t') → Q a ∧ t'.rsp = t.rsp) : Lowers 0 p Q := by
  intro t a t' hrun
  obtain ⟨ha, hrsp⟩ := h t a t' hrun
  exact ⟨ha, by rw [hrsp, Nat.mul_zero, Nat.add_zero]⟩

theorem lowers_pure {a : α} (ha : Q a) : Lowers 0 (pure a) Q := by
  apply lowers_of_rsp
  intro t b t' hrun
  obtain ⟨rfl, rfl⟩ := Prod.mk.inj (some.inj hrun)
  exact ⟨ha, rfl⟩

theorem lowers_lift (o : Option α) : Lowers 0 (liftM o : StateT Task Option α) fun a => o = some a := by
  cases o with
  | none =>
    intro t a t' hrun
    cases hrun
  | some a => exact lowers_pure rfl

end

theorem lowers_onMachine (f : Machine → Option Machine) : Lowers 0 (onMachine f) fun _ => True := by
  apply lowers_of_rsp
  intro t a t' hrun
  obtain ⟨m, -, hm⟩ := map_eq_some_iff.1 hrun
  exact ⟨trivial, congrArg (fun x => x.2.rsp) hm.symm⟩

theorem lowers_heapEnd : Lowers 0 heapEnd fun _ => True := by
  apply lowers_of_rsp
  intro t a t' hrun
  exact ⟨trivial, congrArg (fun x => x.2.rsp) (some.inj hrun).symm⟩

section
variable (adjust : Machine → Nat → Nat → Machine) {envv : List CString}

theorem lowers_taskAdjustHeap (newEnd : Nat) : Lowers 0 (taskAdjustHeap adjust newEnd) fun _ => True := by
  apply lowers_of_rsp
  intro t a t' hrun
  exact ⟨trivial, congrArg (fun x => x.2.rsp) (some.inj hrun).symm⟩

theorem lowers_pushToStack (w : Nat) : Lowers 1 (pushToStack w) fun _ => True := by
  intro t a t' hrun
  obtain ⟨m, -, hm⟩ := map_eq_some_iff.1 hrun
  have hrsp : t'.rsp = sub t.rsp 8 := congrArg (fun x => x.2.rsp) hm.symm
  refine ⟨trivial, ?_⟩
  rw [hrsp, sub]
  omega

theorem lowers_pushAll (ws : List Nat) : Lowers ws.length (ws.forM pushToStack) fun _ => True := by
  induction ws with
  | nil => exact lowers_pure trivial
  | cons w ws ih =>
    rw [length_cons, Nat.add_comm]
    exact (lowers_pushToStack w).bind fun _ _ => ih

theorem lowers_pushPointers (strings : StackStorePtrStyle) (ss : List CString) :
    ∀ used, Lowers ss.length (pushPointers strings ss used) fun _ => True := by
  induction ss with
  | nil => exact fun _ => lowers_pure trivial
  | cons s ss ih =>
    intro used
    have hrest := fun len (_ : strlength s = some len) =>
      (lowers_pushToStack (sub (add strings.start strings.ellapsed) (add used (len + 1)))).bind
        fun _ _ => ih (add used (len + 1))
    rw [length_cons, Nat.add_comm]
    exact (lowers_lift (strlength s)).skip hrest

theorem lowers_storeRandom (rand : Nat → UInt32) (start n : Nat) :
    ∀ i, Lowers 0 (storeRandom rand start n i) fun _ => True := by
  induction n with
  | zero => exact fun _ => lowers_pure trivial
  | succ n ih => exact fun i => (lowers_onMachine _).skip fun _ _ => ih (i + 1)

theorem lowers_copyStrings (start : Nat) (ss : List CString) : ∀ ellapsed, Lowers 0 (copyStrings start ss ellapsed)
    fun e => (∀ s ∈ ss, s.bytes.length < 2 ^ 32) ∧ e % 2 ^ 64 = (ellapsed + storedLength ss) % 2 ^ 64 := by
  induction ss with
  | nil => exact fun ellapsed => lowers_pure ⟨by simp, rfl⟩
  | cons s ss ih =>
    intro ellapsed
    refine (lowers_lift (strlength s)).skip fun len hlen => (lowers_onMachine _).skip fun _ _ => ?_
    rw [strlength_eq] at hlen
    split_ifs at hlen with hs
    obtain rfl := some.inj hlen
    intro t e t' hrun
    obtain ⟨⟨hall, hsum⟩, hrsp⟩ := ih _ t e t' hrun
    refine ⟨⟨forall_mem_cons.2 ⟨hs, hall⟩, ?_⟩, hrsp⟩
    rw [hsum, add, storedLength]
    omega

theorem lowers_stackStorePtrStyle (ss : List CString) : Lowers 0 (stackStorePtrStyle adjust ss)
      fun r => (∀ s ∈ ss, s.bytes.length < 2 ^ 32) ∧ r.ellapsed % 2 ^ 64 = storedLength ss % 2 ^ 64 := by
  refine (lowers_lift (argSpace ss 0)).skip fun space _ => lowers_heapEnd.skip fun start _ => ?_
  refine (lowers_taskAdjustHeap adjust _).skip fun _ _ => (lowers_copyStrings start ss 0).skip fun e he => ?_
  rw [Nat.zero_add] at he
  exact lowers_pure he

/-- The pointers of the environment are pushed, unless it is empty: the lengths of fewer than `2 ^ 32` strings do not
add up to a multiple of `2 ^ 64`. -/
theorem lowers_pushEnv (henvc : envv.length < 2 ^ 32) {envs : StackStorePtrStyle}
    (h : (∀ s ∈ envv, s.bytes.length < 2 ^ 32) ∧ envs.ellapsed % 2 ^ 64 = storedLength envv % 2 ^ 64) :
    Lowers envv.length (if 0 < envs.ellapsed then pushPointers envs envv.reverse 0 else pure ()) fun _ => True := by
  have hbound := storedLength_le h.1
  split_ifs with hpos
  · rw [← length_reverse]
    exact lowers_pushPointers envs envv.reverse 0
  have hnil : envv = [] := by
    cases envv with
    | nil => rfl
    | cons s ss =>
      have hsum := h.2
      rw [storedLength] at hbound hsum
      omega
  rw [hnil]
  exact lowers_pure trivial

theorem lowers_stackGenerateUser (rand : Nat → UInt32) (image : Image) (atBase executableBase : UInt64)
    (argv : List CString) (henvc : envv.length < 2 ^ 32) : Lowers (argv.length + envv.length + 25)
      (stackGenerateUser adjust rand image atBase executableBase argv envv) fun _ => True := by
  have hwords : argv.length + envv.length + 25 =
      22 + (1 + (envv.length + (1 + (argv.reverse.length + 1)))) := by
    rw [length_reverse]
    omega
  rw [hwords]
  refine (lowers_onMachine _).skip fun _ _ => lowers_heapEnd.skip fun start _ => ?_
  refine (lowers_taskAdjustHeap adjust _).skip fun _ _ => (lowers_storeRandom rand start 4 0).skip fun _ _ => ?_
  refine (lowers_pushAll (auxPushes image atBase executableBase start)).bind fun _ _ => ?_
  refine (lowers_stackStorePtrStyle adjust argv).skip fun args _ => ?_
  have henv : Lowers 0 (if 0 < envv.length then stackStorePtrStyle adjust envv else pure ⟨0, 0⟩)
      fun r => (∀ s ∈ envv, s.bytes.length < 2 ^ 32) ∧ r.ellapsed % 2 ^ 64 = storedLength envv % 2 ^ 64 := by
    split_ifs with hpos
    · exact lowers_stackStorePtrStyle adjust envv
    · rw [eq_nil_of_length_eq_zero (Nat.eq_zero_of_not_pos hpos)]
      exact lowers_pure ⟨by simp, rfl⟩
  refine henv.skip fun envs henvs => (lowers_pushToStack 0).bind fun _ _ => ?_
  refine (lowers_pushEnv henvc henvs).bind fun _ _ => (lowers_pushToStack 0).bind fun _ _ => ?_
  exact (lowers_pushPointers args argv.reverse 0).bind fun _ _ => lowers_pushToStack _

end

/-- **The stack pointer of a new program** is a multiple of 16 if and only if the number of the arguments and of the
strings of the environment is odd. -/
theorem stackGenerateUser_aligned_iff (adjust : Machine → Nat → Nat → Machine) (rand : Nat → UInt32) (image : Image)
    (atBase executableBase : UInt64) (m : Machine) (argv envv : List CString) (henvc : envv.length < 2 ^ 32)
    (t : Task)
    (hrun : stackGenerateUser adjust rand image atBase executableBase argv envv (newTask m) = some ((), t)) :
    16 ∣ t.rsp ↔ (argv.length + envv.length) % 2 = 1 := by
  have hrsp := (lowers_stackGenerateUser adjust rand image atBase executableBase argv henvc _ _ _ hrun).2
  rw [show (newTask m).rsp = 0x7ffffffff000 from rfl] at hrsp
  omega

theorem stackGenerateUser_aligned_one : ∃ t,
    stackGenerateUser growHeap (fun _ => 1) goodImage 0 0 [sampleArg] [] (newTask kernelMachine) = some ((), t) ∧
      16 ∣ t.rsp := by
  obtain ⟨⟨⟩, t, hrun, -⟩ := total_stackGenerateUser growHeap_grows (fun _ => 1) goodImage 0 0
    (show [sampleArg].length + ([] : List CString).length + 25 ≤ 4096 by decide) (by decide)
    kernelMachine_ready.toSupplied _ rfl
  exact ⟨t, hrun, (stackGenerateUser_aligned_iff growHeap _ goodImage 0 0 _ [sampleArg] [] (by decide) t hrun).2
    rfl⟩

/-- With an argument and a string of the environment, 27 words are pushed. -/
theorem stackGenerateUser_misaligned : ∃ t,
    stackGenerateUser growHeap (fun _ => 1) goodImage 0 0 [sampleArg] [sampleEnv] (newTask kernelMachine) =
      some ((), t) ∧ t.rsp % 16 = 8 := by
  obtain ⟨⟨⟩, t, hrun, hlaid⟩ := total_stackGenerateUser growHeap_grows (fun _ => 1) goodImage 0 0
    (show [sampleArg].length + [sampleEnv].length + 25 ≤ 4096 by decide) (by decide)
    kernelMachine_ready.toSupplied _ rfl
  have hrsp := hlaid.rsp
  rw [length_stackWords, userStackBottom] at hrsp
  refine ⟨t, hrun, ?_⟩
  simp only [length_singleton] at hrsp
  omega

end CoreX.Elf

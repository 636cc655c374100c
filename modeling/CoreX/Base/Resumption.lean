import Mathlib.Logic.Function.Basic
import CoreX.Base.Run

/-!
# Programs that run beside each other

A program issues one command after the other and goes on with what each of them answers. `handle` says what a command
does to the shared state. One program can be executed to its end (`exec`), and several can take turns (`step`). A
command that fails is not performed: its thread waits, or has stopped.
-/

namespace CoreX.Resumption

open Except

inductive Prog (Cmd : Type) (Ans : Cmd → Type) (ε α : Type) where
  | ret (a : α)
  | throw (e : ε)
  | call (c : Cmd) (k : Ans c → Prog Cmd Ans ε α)

variable {Cmd : Type} {Ans : Cmd → Type} {ε α β σ ι : Type} {p : Prog Cmd Ans ε α} {f : α → Prog Cmd Ans ε β}
  {C : Cmd → Prop} {a : α} {c : Cmd}

namespace Prog

def bind : Prog Cmd Ans ε α → (α → Prog Cmd Ans ε β) → Prog Cmd Ans ε β
  | .ret a, f => f a
  | .throw e, _ => .throw e
  | .call c k, f => .call c fun x => (k x).bind f

instance : Monad (Prog Cmd Ans ε) where
  pure := .ret
  bind := bind

@[simp] theorem ret_bind (a : α) (f : α → Prog Cmd Ans ε β) : (ret a >>= f) = f a := rfl

@[simp] theorem call_bind (c : Cmd) (k : Ans c → Prog Cmd Ans ε α) (f : α → Prog Cmd Ans ε β) :
    (call c k >>= f) = call c fun x => k x >>= f := rfl

@[simp] theorem pure_eq (a : α) : (pure a : Prog Cmd Ans ε α) = ret a := rfl

def cmd (c : Cmd) : Prog Cmd Ans ε (Ans c) := .call c .ret

/-- A computation that needs no command. -/
def lift : Except ε α → Prog Cmd Ans ε α
  | .ok a => .ret a
  | .error e => .throw e

@[simp] theorem lift_ok (a : α) : (lift (.ok a) : Prog Cmd Ans ε α) = ret a := rfl

section
variable (p f)

theorem bind_assoc {γ : Type} (g : β → Prog Cmd Ans ε γ) : (p >>= f) >>= g = p >>= fun a => f a >>= g := by
  induction p with
  | ret | throw => rfl
  | call c k ih => exact congrArg (call c) (funext fun x => ih x)

end

/-- Every command that the program can issue is of a kind, whatever the answers are. -/
def Uses (C : Cmd → Prop) : Prog Cmd Ans ε α → Prop
  | .ret _ => True
  | .throw _ => True
  | .call c k => C c ∧ ∀ x, (k x).Uses C

theorem Uses.bind (hp : p.Uses C) (hf : ∀ a, (f a).Uses C) : (p >>= f).Uses C := by
  induction p with
  | ret a => exact hf a
  | throw e => trivial
  | call c k ih => exact ⟨hp.1, fun x => ih x (hp.2 x)⟩

theorem uses_cmd (h : C c) : (cmd c : Prog Cmd Ans ε (Ans c)).Uses C := ⟨h, fun _ => trivial⟩

theorem uses_lift (C : Cmd → Prop) (x : Except ε α) : (lift x : Prog Cmd Ans ε α).Uses C := by
  cases x <;> trivial

def Returns (R : α → Prop) : Prog Cmd Ans ε α → Prop
  | .ret a => R a
  | .throw _ => True
  | .call _ k => ∀ x, (k x).Returns R

theorem returns_bind {R : β → Prop} (p : Prog Cmd Ans ε α) (hf : ∀ a, (f a).Returns R) : (p >>= f).Returns R := by
  induction p with
  | ret a => exact hf a
  | throw e => trivial
  | call c k ih => exact fun x => ih x

def returned : Prog Cmd Ans ε α → Option α
  | .ret a => some a
  | .throw _ => none
  | .call _ _ => none

theorem returned_eq_some : p.returned = some a ↔ p = .ret a := by
  cases p <;> simp [returned]

end Prog

open Prog

section Exec
variable (handle : σ → (c : Cmd) → Except ε (Ans c × σ))

def exec : Prog Cmd Ans ε α → σ → Except ε (α × σ)
  | .ret a, s => .ok (a, s)
  | .throw e, _ => .error e
  | .call c k, s => handle s c >>= fun r => exec (k r.1) r.2

variable {handle} {s s' : σ}

@[simp] theorem exec_ret (a : α) : exec handle (ret a) s = .ok (a, s) := rfl

theorem exec_call (c : Cmd) (k : Ans c → Prog Cmd Ans ε α) :
    exec handle (call c k) s = handle s c >>= fun r => exec handle (k r.1) r.2 := rfl

theorem exec_call_of_ok {k : Ans c → Prog Cmd Ans ε α} {x : Ans c} (h : handle s c = .ok (x, s')) :
    exec handle (call c k) s = exec handle (k x) s' := by
  rw [exec_call, h]
  rfl

theorem exec_cmd (c : Cmd) : exec handle (cmd c) s = handle s c := by
  rw [cmd, exec_call]
  cases handle s c <;> rfl

section
variable (p f)

theorem exec_bind : exec handle (p >>= f) s = exec handle p s >>= fun r => exec handle (f r.1) r.2 := by
  induction p generalizing s with
  | ret | throw => rfl
  | call c k ih =>
    rw [call_bind, exec_call, exec_call]
    cases handle s c with
    | error e => rfl
    | ok r => exact ih r.1

end

@[simp] theorem exec_lift (x : Except ε α) :
    exec handle (lift x : Prog Cmd Ans ε α) s = x >>= fun a => .ok (a, s) := by
  cases x <;> rfl

/-- **The rule for a sequence**: if the first part does `x`, then the whole does `x` and what the second part does. -/
theorem exec_bind_of {ρ τ : Type} {x : Except ε ρ} {g : ρ → α × σ} {y : ρ → Except ε τ} {k : τ → Except ε (β × σ)}
    (hp : exec handle p s = x >>= fun r => .ok (g r))
    (hf : ∀ r, x = .ok r → exec handle (f (g r).1) (g r).2 = y r >>= k) :
    exec handle (p >>= f) s = (x >>= y) >>= k := by
  rw [exec_bind, hp]
  cases x with
  | error e => rfl
  | ok r => exact hf r rfl

theorem exec_keeps {J : σ → Prop} (hkeep : ∀ s c x s', J s → handle s c = .ok (x, s') → J s') (hs : J s)
    (h : exec handle p s = .ok (a, s')) : J s' := by
  induction p generalizing s with
  | ret a => exact (Prod.mk.inj (ok.inj h)).2 ▸ hs
  | throw e => cases h
  | call c k ih =>
    obtain ⟨r, hc, hrest⟩ := bind_eq_ok.1 h
    exact ih r.1 (hkeep s c r.1 r.2 hs hc) hrest

variable (handle)

def Through (J : σ → Prop) : Prog Cmd Ans ε α → σ → Prop
  | .ret _, s => J s
  | .throw _, s => J s
  | .call c k, s => J s ∧ ∀ x s', handle s c = .ok (x, s') → Through J (k x) s'

variable {handle} {J : σ → Prop}

theorem Through.start (h : Through handle J p s) : J s := by
  cases p with
  | ret | throw => exact h
  | call c k => exact h.1

theorem Through.finish (h : Through handle J p s) (hexec : exec handle p s = .ok (a, s')) : J s' := by
  induction p generalizing s with
  | ret a => exact (Prod.mk.inj (ok.inj hexec)).2 ▸ h
  | throw e => cases hexec
  | call c k ih =>
    obtain ⟨r, hc, hrest⟩ := bind_eq_ok.1 hexec
    exact ih r.1 (h.2 r.1 r.2 hc) hrest

theorem through_lift (x : Except ε α) (hs : J s) : Through handle J (lift x : Prog Cmd Ans ε α) s := by
  cases x <;> exact hs

theorem Through.bind (hp : Through handle J p s)
    (hf : ∀ a s', exec handle p s = .ok (a, s') → Through handle J (f a) s') : Through handle J (p >>= f) s := by
  induction p generalizing s with
  | ret a => exact hf a s rfl
  | throw e => exact hp
  | call c k ih =>
    refine ⟨hp.1, fun x s' hx => ih x (hp.2 x s' hx) fun a s'' ha => hf a s'' ?_⟩
    rw [exec_call_of_ok hx, ha]

theorem through_of_uses (hkeep : ∀ c, C c → ∀ s x s', J s → handle s c = .ok (x, s') → J s') (hp : p.Uses C)
    (hs : J s) : Through handle J p s := by
  induction p generalizing s with
  | ret | throw => exact hs
  | call c k ih => exact ⟨hs, fun x s' hx => ih x (hp.2 x) (hkeep c hp.1 s x s' hs hx)⟩

end Exec

/-! ## Programs that take turns -/

structure Pool (Cmd : Type) (Ans : Cmd → Type) (ε α σ ι : Type) where
  shared : σ
  threads : ι → Prog Cmd Ans ε α

variable [DecidableEq ι] (handle : σ → (c : Cmd) → Except ε (Ans c × σ))

def step (pool : Pool Cmd Ans ε α σ ι) (i : ι) : Option (Pool Cmd Ans ε α σ ι) :=
  match pool.threads i with
  | .call c k =>
    match handle pool.shared c with
    | .ok (x, s) => some ⟨s, Function.update pool.threads i (k x)⟩
    | .error _ => none
  | _ => none

omit [DecidableEq ι] in
def Next (P : Prog Cmd Ans ε α → σ → Prop) : Prog Cmd Ans ε α → σ → Prop
  | .ret _, _ => True
  | .throw _, _ => True
  | .call c k, s => ∀ x s', handle s c = .ok (x, s') → P (k x) s'

variable {handle} {pool pool' : Pool Cmd Ans ε α σ ι} {i : ι}

theorem Next.mono {P Q : Prog Cmd Ans ε α → σ → Prop} {s : σ} (h : Next handle P p s) (hPQ : ∀ p s, P p s → Q p s) :
    Next handle Q p s := by
  cases p with
  | ret | throw => trivial
  | call c k => exact fun x s' hx => hPQ _ _ (h x s' hx)

section
variable (h : step handle pool i = some pool')
include h

theorem step_eq_some : ∃ c k x, pool.threads i = .call c k ∧ handle pool.shared c = .ok (x, pool'.shared) ∧
      pool'.threads i = k x ∧ ∀ j, j ≠ i → pool'.threads j = pool.threads j := by
  rw [step] at h
  cases hthread : pool.threads i with
  | ret | throw => simp [hthread] at h
  | call c k =>
    rw [hthread] at h
    simp only at h
    cases hhandle : handle pool.shared c with
    | error e => simp [hhandle] at h
    | ok r =>
      rw [hhandle] at h
      obtain rfl := Option.some.inj h
      exact ⟨c, k, r.1, rfl, hhandle, Function.update_self .., fun j hj => Function.update_of_ne hj _ _⟩

theorem step_next {P : Prog Cmd Ans ε α → σ → Prop} (hnext : Next handle P (pool.threads i) pool.shared) :
    P (pool'.threads i) pool'.shared := by
  obtain ⟨c, k, x, hthread, hhandle, hnew, -⟩ := step_eq_some h
  rw [hthread] at hnext
  rw [hnew]
  exact hnext x _ hhandle

theorem step_other {j : ι} (hj : j ≠ i) : pool'.threads j = pool.threads j := by
  obtain ⟨c, k, x, -, -, -, hother⟩ := step_eq_some h
  exact hother j hj

theorem not_step_of_ret (hret : pool.threads i = .ret a) : False := by
  refine step_next h (P := fun _ _ => False) ?_
  rw [hret]
  trivial

end

end CoreX.Resumption

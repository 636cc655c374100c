import Mathlib.Data.List.Basic

/-!
# Signal contexts (`signals.rs`)

`asm_to_ucontext` copies the frame an interrupt saved into the `SigContext` a user handler gets, and `ucontext_to_asm`
copies the context back. In between it lies in memory of the task, so what comes back is whatever the handler left
there.
-/

namespace CoreX.Signals

structure AsmPassedInterrupt where
  (r8 r9 r10 r11 r12 r13 r14 r15 rdi rsi rbp rbx rdx rax rcx rsp rip rflags cs ds usermodeRsp usermodeSs : UInt64)
  (error interrupt : UInt64)
  deriving DecidableEq

/-- The context of a user handler; `fpstate` is the address of the saved FPU state. -/
structure SigContext where
  (r8 r9 r10 r11 r12 r13 r14 r15 rdi rsi rbp rbx rdx rax rcx rsp rip eflags cs ss err trapno oldmask cr2 : UInt64)
  fpstate : UInt64
  reserved1 : List UInt64
  deriving DecidableEq

/-- `asm_to_ucontext`: every field of the context is overwritten. -/
def asmToUcontext (passed : AsmPassedInterrupt) (ucontext : SigContext) : SigContext :=
  { ucontext with
    r8 := passed.r8, r9 := passed.r9, r10 := passed.r10, r11 := passed.r11
    r12 := passed.r12, r13 := passed.r13, r14 := passed.r14, r15 := passed.r15
    rdi := passed.rdi, rsi := passed.rsi, rbp := passed.rbp, rbx := passed.rbx
    rdx := passed.rdx, rax := passed.rax, rcx := passed.rcx
    rsp := passed.usermodeRsp, rip := passed.rip, eflags := passed.rflags
    cs := passed.cs, ss := passed.usermodeSs
    err := 0, trapno := 0, oldmask := 0, cr2 := 0, fpstate := 0
    reserved1 := List.replicate 8 0 }

section
variable (ucontext : SigContext) (passed : AsmPassedInterrupt)

/-- `ucontext_to_asm`: the kernel's own `rsp` and `ds` stay, all else comes from the context. -/
def ucontextToAsm : AsmPassedInterrupt :=
  { passed with
    r8 := ucontext.r8, r9 := ucontext.r9, r10 := ucontext.r10, r11 := ucontext.r11
    r12 := ucontext.r12, r13 := ucontext.r13, r14 := ucontext.r14, r15 := ucontext.r15
    rdi := ucontext.rdi, rsi := ucontext.rsi, rbp := ucontext.rbp, rbx := ucontext.rbx
    rdx := ucontext.rdx, rax := ucontext.rax, rcx := ucontext.rcx
    usermodeRsp := ucontext.rsp, rip := ucontext.rip, rflags := ucontext.eflags
    cs := ucontext.cs, usermodeSs := ucontext.ss
    error := ucontext.err, interrupt := ucontext.trapno }

/-- The selectors ask for ring 3, interrupts are on and the I/O privilege level is zero. -/
def UserControl (cs ss flags : UInt64) : Prop :=
  cs &&& 3 = 3 ∧ ss &&& 3 = 3 ∧ flags &&& 0x200 = 0x200 ∧ flags &&& 0x3000 = 0

instance (cs ss flags : UInt64) : Decidable (UserControl cs ss flags) :=
  inferInstanceAs (Decidable (_ ∧ _ ∧ _ ∧ _))

/-- The return is to user mode. -/
def AsmPassedInterrupt.UserMode : Prop :=
  UserControl passed.cs passed.usermodeSs passed.rflags

instance (passed : AsmPassedInterrupt) : Decidable passed.UserMode :=
  inferInstanceAs (Decidable (UserControl _ _ _))

/-- The saved registers are those of user mode. -/
def SigContext.UserMode : Prop := UserControl ucontext.cs ucontext.ss ucontext.eflags

instance (ucontext : SigContext) : Decidable ucontext.UserMode :=
  inferInstanceAs (Decidable (UserControl _ _ _))

/-- One signal: the frame is captured, the handler changes the context, the frame is rebuilt. -/
def signalReturn (handler : SigContext → SigContext) (passed : AsmPassedInterrupt) : AsmPassedInterrupt :=
  ucontextToAsm (handler (asmToUcontext passed ucontext)) passed

@[simp] theorem ucontextToAsm_userMode : (ucontextToAsm ucontext passed).UserMode ↔ ucontext.UserMode :=
  Iff.rfl

end

/-- **The rebuilt frame has user privileges exactly if the handler left a context that has them.**
Nothing of the captured frame is looked at again: a handler that leaves `cs`, `ss` and `eflags`
as it found them is safe, every other one is trusted. -/
theorem signalReturn_userMode_iff (passed : AsmPassedInterrupt) (ucontext : SigContext)
    (handler : SigContext → SigContext) (hUser : passed.UserMode) : ((signalReturn ucontext handler passed).UserMode ↔
        (handler (asmToUcontext passed ucontext)).UserMode) ∧
      ((handler (asmToUcontext passed ucontext)).cs = passed.cs →
        (handler (asmToUcontext passed ucontext)).ss = passed.usermodeSs →
        (handler (asmToUcontext passed ucontext)).eflags = passed.rflags →
        (signalReturn ucontext handler passed).UserMode) := by
  have hReturn : (signalReturn ucontext handler passed).UserMode ↔
      (handler (asmToUcontext passed ucontext)).UserMode := by
    rw [signalReturn, ucontextToAsm_userMode]
  refine ⟨hReturn, fun hcs hss hflags => ?_⟩
  rw [hReturn, SigContext.UserMode, hcs, hss, hflags]
  exact hUser

def userFrame : AsmPassedInterrupt where
  r8 := 0
  r9 := 0
  r10 := 0
  r11 := 0
  r12 := 0
  r13 := 0
  r14 := 0
  r15 := 0
  rdi := 0
  rsi := 0
  rbp := 0
  rbx := 0
  rdx := 0
  rax := 0
  rcx := 0
  rsp := 0
  rip := 0x401000
  rflags := 0x202
  cs := 0x2B
  ds := 0x23
  usermodeRsp := 0x7FFFFFFFE000
  usermodeSs := 0x23
  error := 0
  interrupt := 0

def blankContext : SigContext where
  r8 := 0
  r9 := 0
  r10 := 0
  r11 := 0
  r12 := 0
  r13 := 0
  r14 := 0
  r15 := 0
  rdi := 0
  rsi := 0
  rbp := 0
  rbx := 0
  rdx := 0
  rax := 0
  rcx := 0
  rsp := 0
  rip := 0
  eflags := 0
  cs := 0
  ss := 0
  err := 0
  trapno := 0
  oldmask := 0
  cr2 := 0
  fpstate := 0
  reserved1 := []

theorem signalReturn_userMode_iff_rip : userFrame.UserMode ∧
      (signalReturn blankContext (fun c => { c with rip := 0x402000 }) userFrame).UserMode :=
  ⟨by decide, (signalReturn_userMode_iff userFrame blankContext _ (by decide)).2 rfl rfl rfl⟩

/-- A handler that writes a ring 0 selector to `cs` returns to ring 0, with all its I/O rights if
it also raises the I/O privilege level. -/
theorem signalReturn_kernel_privileges : userFrame.UserMode ∧
      ¬ (signalReturn blankContext (fun c => { c with cs := 0x08, ss := 0x10, eflags := 0x3002 })
          userFrame).UserMode ∧
      (signalReturn blankContext (fun c => { c with cs := 0x08, ss := 0x10, eflags := 0x3002 })
          userFrame).cs &&& 3 = 0 := by
  decide

end CoreX.Signals

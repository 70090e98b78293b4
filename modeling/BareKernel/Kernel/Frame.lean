import BareKernel.Links.Bytes
import BareKernel.Process.Scheduler

/-! The frame of an interrupt, after `asm/interrupts.asm`: what the processor pushes, what
the handlers push behind it, and what they pop. The handlers of the timer and of
`callScheduler` pop the frame that the scheduler names, which may be another one than
they pushed, and the frame that `createProcess` writes for a new process is one of these. -/

namespace BareKernel

open Function (update)
open Links Process

/-- The registers in the order of `p_stack`. -/
inductive Reg where
  | r15 | r14 | r13 | r12 | r11 | r10 | r9 | r8 | rsi | rdi | rbp | rdx | rcx | rbx | rax
  | rip | cs | rflags | rsp | ss
deriving DecidableEq

/-- What the registers hold. -/
abbrev Context := Reg → UInt64

namespace Interrupts

variable {x g : Context} {m mem : Bytes} {s : Stack} {r r' : Reg} {i frame stackTop : ℕ} {v entry fn argc argv : UInt64}

/-- The fields of `p_stack`, one word each. -/
def pStack : List Reg :=
  [.r15, .r14, .r13, .r12, .r11, .r10, .r9, .r8, .rsi, .rdi, .rbp, .rdx, .rcx, .rbx, .rax,
    .rip, .cs, .rflags, .rsp, .ss]

/-- What the processor pushes. -/
def interruptFrame : List Reg := [.ss, .rsp, .rflags, .cs, .rip]

def pushState : List Reg :=
  [.rax, .rbx, .rcx, .rdx, .rbp, .rdi, .rsi, .r8, .r9, .r10, .r11, .r12, .r13, .r14, .r15]

def popState : List Reg :=
  [.r15, .r14, .r13, .r12, .r11, .r10, .r9, .r8, .rsi, .rdi, .rbp, .rdx, .rcx, .rbx, .rax]

def iretq : List Reg := [.rip, .cs, .rflags, .rsp, .ss]

/-- Where the processor begins to push: at the next multiple of `16` below. -/
def aligned (x : Context) : ℕ := (x .rsp).toNat / 16 * 16

/-- A handler has been entered with the registers `x` and has pushed them. -/
def interrupted (x : Context) (mem : Bytes) : Stack :=
  let s : Stack := ⟨mem, aligned x⟩
  (s.pushAll x interruptFrame).pushAll x pushState

/-- The registers when a handler has popped them from `s` and returned. -/
def resumed (g : Context) (s : Stack) : Context :=
  let (g, s) := s.popAll popState g
  (s.popAll iretq g).1

theorem pStack_nodup : pStack.Nodup := by decide

theorem mem_pStack (r : Reg) : r ∈ pStack := by cases r <;> decide

/-- The order of the pops is that of the fields of `p_stack`. -/
theorem resumed_eq (g : Context) (s : Stack) : resumed g s = fun r => s.mem.wordAt (s.sp + 8 * pStack.idxOf r) := by
  have hpops : resumed g s = (Stack.popAll pStack g s).1 := by
    rw [show pStack = popState ++ iretq from rfl, Stack.popAll_append]
    rfl
  rw [hpops]
  funext r
  exact Stack.popAll_apply pStack_nodup (mem_pStack r) g s

theorem interrupted_eq (x : Context) (mem : Bytes) :
    interrupted x mem = Stack.pushAll x ⟨mem, aligned x⟩ pStack.reverse := by
  rw [show pStack.reverse = interruptFrame ++ pushState from rfl, Stack.pushAll_append]
  rfl

theorem interrupted_sp (x : Context) (mem : Bytes) : (interrupted x mem).sp = aligned x - contextSize := by
  rw [interrupted_eq, Stack.pushAll_sp]
  rfl

theorem aligned_le (x : Context) : aligned x ≤ (x .rsp).toNat := Nat.div_mul_le_self ..

/-- What is on the stack stays there. -/
theorem interrupted_above (hroom : contextSize ≤ aligned x) (hi : aligned x ≤ i) :
    (interrupted x mem).mem i = mem i := by
  rw [interrupted_eq]
  exact Stack.pushAll_above (s := ⟨mem, aligned x⟩) hroom hi

/-- Whoever is resumed from the frame that its interrupt pushed has the registers it had. -/
theorem resumed_interrupted (hroom : contextSize ≤ aligned x)
    (hm : ∀ i, (interrupted x mem).sp ≤ i → m i = (interrupted x mem).mem i) (g : Context) :
    resumed g ⟨m, (interrupted x mem).sp⟩ = x := by
  have hpops : resumed g ⟨m, (interrupted x mem).sp⟩ =
      (Stack.popAll pStack.reverse.reverse g ⟨m, aligned x - 8 * pStack.reverse.length⟩).1 := by
    rw [interrupted_sp, List.reverse_reverse, show pStack = popState ++ iretq from rfl, Stack.popAll_append]
    rfl
  have hroom' : 8 * pStack.reverse.length ≤ (⟨mem, aligned x⟩ : Stack).sp := hroom
  have hback := Stack.popAll_pushAll (m := m) (f := x) hroom' (fun i hi _ => by
    rw [← interrupted_eq]
    exact hm i (le_of_eq_of_le (interrupted_sp x mem) hi)) g
  rw [hpops, hback]
  funext r
  exact if_pos (List.mem_reverse.mpr (mem_pStack r))

/-! ### A new process -/

/-- Store into the field `r` of the `p_stack` at `frame`. -/
def setField (frame : ℕ) (r : Reg) (v : UInt64) (m : Bytes) : Bytes := m.setWord (frame + 8 * pStack.idxOf r) v

/-- The stack of a new process, with the frame that it starts from. -/
def newStack (m : Bytes) (stackTop : ℕ) (entryPointWrapper fn argc argv : UInt64) : Bytes :=
  let stackBase := stackTop + stackSize
  let frame := stackBase - contextSize
  let m := setField frame .rbp (.ofNat stackBase) m
  let m := setField frame .rsp (.ofNat stackBase) m
  let m := setField frame .cs 0x8 m
  let m := setField frame .rflags 0x202 m
  let m := setField frame .ss 0 m
  let m := setField frame .rip entryPointWrapper m
  let m := setField frame .rdi fn m
  let m := setField frame .rsi argc m
  setField frame .rdx argv m

/-- What a new process starts with. The other registers get what the memory held before. -/
def newContext (m : Bytes) (stackTop : ℕ) (entryPointWrapper fn argc argv : UInt64) : Context
  | .rbp | .rsp => .ofNat (stackTop + stackSize)
  | .cs => 0x8
  | .rflags => 0x202
  | .ss => 0
  | .rip => entryPointWrapper
  | .rdi => fn
  | .rsi => argc
  | .rdx => argv
  | r => m.wordAt (stackTop + stackSize - contextSize + 8 * pStack.idxOf r)

theorem wordAt_setField (frame : ℕ) (r r' : Reg) (v : UInt64) (m : Bytes) :
    (setField frame r v m).wordAt (frame + 8 * pStack.idxOf r') =
      if r' = r then v else m.wordAt (frame + 8 * pStack.idxOf r') := by
  split
  · rename_i he
    rw [he]
    exact Bytes.wordAt_setWord ..
  · rename_i hne
    have hidx : pStack.idxOf r' ≠ pStack.idxOf r := fun he => hne ((List.idxOf_inj (mem_pStack r')).mp he)
    exact Bytes.wordAt_setWord_of_disjoint (by omega)

/-- The frame of a new process is where its stack pointer says. -/
theorem resumed_newStack (g : Context) (m : Bytes) (stackTop : ℕ) (entry fn argc argv : UInt64) :
    resumed g ⟨newStack m stackTop entry fn argc argv, stackTop + (stackSize - contextSize)⟩ =
      newContext m stackTop entry fn argc argv := by
  have hplace : stackTop + (stackSize - contextSize) = stackTop + stackSize - contextSize :=
    (Nat.add_sub_assoc (by decide) stackTop).symm
  rw [resumed_eq]
  funext r
  rw [hplace]
  simp only [newStack, wordAt_setField]
  cases r <;> rfl

end Interrupts

end BareKernel

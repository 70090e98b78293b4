import BareKernel.Kernel.Keyboard
import BareKernel.Kernel.Transfer

/-! The system calls of `interrupts/syscallsManager.c` on the streams of the processes,
and the machine that makes them: a process reads the keyboard or a pipe and writes to the
screen or a pipe as its two stream fields say. -/

namespace BareKernel

open Function (update)
open Process Links Machine

def stdIn : ℤ := 0

def stdOut : ℤ := 1

def stdErr : ℤ := 2

/-- The machine with the keyboard, the transfers under way and the fields `stdin` and
`stdout` of the processes. -/
structure UserMachine extends KeyMachine where
  transfer : ℕ → Option Transfer
  stdin : ℕ → ℤ
  stdout : ℕ → ℤ

/-- A call of the kernel, one of the calls on streams, a key event, or a transfer or a
call of `read_keyboard` going on. -/
inductive UserAction where
  | call (a : Action)
  | getPid
  | sysGetForeground
  | sysRead (fd : ℕ) (count : ℤ)
  | sysWrite (fd : ℕ) (buffer : ℕ → ℤ) (count : ℤ)
  | sysChangeStd (pid std newFd : ℤ)
  | key (scancode : ℕ) (isPressed : Bool) (low : ℤ) (offset : ℕ) (answers : List (List ℕ))
  | goOn (offset : ℕ) (answers : List ℕ)

namespace UserMachine

def toPipeMachine (x : UserMachine) : PipeMachine := ⟨x.toMachine, x.transfer⟩

/-- The process on the processor is within a transfer or a call of `read_keyboard`. -/
def Busy (x : UserMachine) : Prop := x.transfer x.currentProcess ≠ none ∨ x.reading x.currentProcess ≠ none

instance (x : UserMachine) : Decidable x.Busy :=
  inferInstanceAs (Decidable (x.transfer x.currentProcess ≠ none ∨ x.reading x.currentProcess ≠ none))

/-- A process that a call ends is in no transfer any more. -/
def leftTransfers (x : UserMachine) (a : Action) (p : ℕ) : Option Transfer :=
  if a.call.ends (x.before a) p then none else x.transfer p

/-- A process that a call creates has the keyboard and the screen. -/
def afterCall (x : UserMachine) (a : Action) (m : Machine) : UserMachine where
  toKeyMachine := x.toKeyMachine.afterCall a m
  transfer := x.leftTransfers a
  stdin p := if a.call.births (x.before a) p then stdIn else x.stdin p
  stdout p := if a.call.births (x.before a) p then stdOut else x.stdout p

def callStep (x : UserMachine) (a : Action) : Option UserMachine := (x.toMachine.step a).map (x.afterCall a)

/-- The caller is in a transfer unless the call was refused. -/
def setTransfer (x : UserMachine) (t : Option Transfer) : UserMachine :=
  { x with transfer := update x.transfer x.currentProcess t }

def readKeyboard (x : UserMachine) (count : ℤ) : UserMachine :=
  { x with toKeyMachine := x.setCurrent (some ⟨count, [], false⟩) x.toMachine }

def sysRead (x : UserMachine) (fd : ℕ) (count : ℤ) : UserMachine :=
  if fd = stdIn then
    if x.stdin x.currentProcess = stdIn then x.readKeyboard count
    else x.setTransfer (x.pipeRead (x.stdin x.currentProcess) count)
  else x.setTransfer (x.pipeRead fd count)

/-- The process writes to the screen. -/
def OnScreen (x : UserMachine) : Prop :=
  x.stdout x.currentProcess = stdOut ∧ x.isForeground x.currentProcess ≠ 0

instance (x : UserMachine) : Decidable x.OnScreen := inferInstanceAs (Decidable (_ ∧ _))

/-- What comes on the screen is left out. -/
def sysWrite (x : UserMachine) (fd : ℕ) (buffer : ℕ → ℤ) (count : ℤ) : UserMachine :=
  if fd = stdOut ∨ fd = stdErr then
    if x.OnScreen then x else x.setTransfer (x.pipeWrite (x.stdout x.currentProcess) buffer count)
  else if 3 ≤ fd then x.setTransfer (x.pipeWrite fd buffer count)
  else x

/-- The process that `sys_change_std` looks up; the pid goes through 16 bits. -/
def named (x : UserMachine) (pid : ℤ) : ℕ := getProcessByPid x.toCore (pid % 2 ^ 16)

/-- A store through `NULL` counts as one in the record at address `0`. -/
def sysChangeStd (x : UserMachine) (pid std newFd : ℤ) : ℤ × UserMachine :=
  let proc := x.named pid
  if std = stdIn then (0, { x with stdin := update x.stdin proc newFd })
  else if std = stdOut then (0, { x with stdout := update x.stdout proc newFd })
  else (-1, x)

/-- The call of `kill_process` in a key event, if Ctrl and `C` are pressed. -/
def keyKill (x : UserMachine) (scancode : ℕ) (isPressed : Bool) (offset : ℕ) (answers : List (List ℕ)) :
    Option Action :=
  let k := x.pressed scancode isPressed
  if isPressed = true ∧ k.ctrlPressed = true ∧ scancode = 0x2E then some (k.killAction offset (answers.headD []))
  else none

/-- The keyboard interrupt. -/
def int21 (x : UserMachine) (scancode : ℕ) (isPressed : Bool) (low : ℤ) (offset : ℕ) (answers : List (List ℕ)) :
    Option UserMachine :=
  (x.toKeyMachine.int21 scancode isPressed low offset answers).map fun y =>
    { x with
      toKeyMachine := y
      transfer := (x.keyKill scancode isPressed offset answers).elim x.transfer x.leftTransfers }

/-- A transfer goes on, or else a call of `read_keyboard`. -/
def goOn (x : UserMachine) (offset : ℕ) (answers : List ℕ) : Option UserMachine :=
  if x.transfer x.currentProcess ≠ none then
    (x.toPipeMachine.step (.goOn offset answers)).map fun y =>
      { x with toMachine := y.toMachine, transfer := y.transfer }
  else (x.toKeyMachine.step (.goOn offset answers)).map fun y => { x with toKeyMachine := y }

/-- Interrupts are off within a call, so another call comes outside of it. -/
def outside (x : UserMachine) (y : Option UserMachine) : Option UserMachine := if x.Busy then none else y

def step (x : UserMachine) : UserAction → Option UserMachine
  | .call a => x.outside (x.callStep a)
  | .getPid | .sysGetForeground => x.outside (some x)
  | .sysRead fd count => x.outside (some (x.sysRead fd count))
  | .sysWrite fd buffer count => x.outside (some (x.sysWrite fd buffer count))
  | .sysChangeStd pid std newFd => x.outside (some (x.sysChangeStd pid std newFd).2)
  | .key scancode isPressed low offset answers => x.outside (x.int21 scancode isPressed low offset answers)
  | .goOn offset answers => x.goOn offset answers

end UserMachine

namespace UserAction

/-- The call of the kernel behind an action that may create or end processes. -/
def made (x : UserMachine) : UserAction → Option Action
  | .call a => some a
  | .key scancode isPressed _ offset answers => x.keyKill scancode isPressed offset answers
  | _ => none

/-- The processes that the action ends. -/
def ends (x : UserMachine) (b : UserAction) (p : ℕ) : Prop :=
  match b.made x with
  | some a => a.call.ends (x.before a) p
  | none => False

instance (x : UserMachine) (b : UserAction) (p : ℕ) : Decidable (b.ends x p) := by
  unfold ends
  split <;> infer_instance

end UserAction

/-- The machine with its system calls from boot on. -/
def userland : System UserMachine UserAction where
  init x := typing.init x.toKeyMachine ∧ ∀ p, x.transfer p = none
  step x b y := x.step b = some y

namespace UserMachine

/-- The machine at boot. -/
def initial : UserMachine := ⟨KeyMachine.initial, fun _ => none, fun _ => 0, fun _ => 0⟩

def ran (bs : List UserAction) : UserMachine := (System.runList step (fun _ _ => True) initial bs).getD initial

theorem userland_ran {bs : List UserAction} (h : (System.runList step (fun _ _ => True) initial bs).isSome = true) :
    userland.Reach (fun _ _ => True) (ran bs) := by
  have hinit : userland.Reach (fun _ _ => True) initial := .init ⟨KeyMachine.initial_init, fun _ => rfl⟩
  exact hinit.runList_getD (fun _ _ _ => id) h

end UserMachine

end BareKernel

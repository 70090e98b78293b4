import BareKernel.Kernel.Syscalls
import BareKernel.Kernel.Foreground
import BareKernel.Kernel.Families

/-! The lookups whose results the kernel follows: `current_process`, the process with a
pid and the process in the foreground. Most callers do not ask whether they got `NULL`. -/

namespace BareKernel

open Function (update)
open Process Links Machine

/-- `scheduler` asks for the state of `current_process` before it asks whether there is
one; then it follows the one that it goes on with. -/
def schedulerLookups (c : Core) (sp : StackPtr) : List ℕ :=
  if c.readyList = 0 then []
  else c.currentProcess :: ((scheduler c sp).map fun r => r.2.currentProcess).toList

def quitLookups (c : Core) : List ℕ :=
  let process := c.currentProcess
  let behind (c : Core) : List ℕ := schedulerLookups c (c.stackPointer process)
  process :: if c.state process = .running then
    (addToReadyList { c with state := update c.state process .ready } process).elim [] behind
  else []

namespace Kernel

/-- The descriptor is one of the global table, or the one behind its end. -/
def ValidSlot (fd : ℤ) : Prop := 0 ≤ fd ∧ fd ≤ maxFds

instance (fd : ℤ) : Decidable (ValidSlot fd) := inferInstanceAs (Decidable (0 ≤ fd ∧ fd ≤ maxFds))

def accsesLookups (k : Kernel) (pid fd : ℤ) : List ℕ :=
  if ValidSlot fd then [getProcessByPid k.toCore pid] else []

def inheritLookups (parent process : ℕ) : List ℕ → Kernel → List ℕ
  | [], _ => []
  | i :: is, k => k.accsesLookups (k.pid process) (k.fdTable parent i) ++
      inheritLookups parent process is (k.pipeAccses (k.pid process) (k.fdTable parent i)).2

def openLookups (k : Kernel) (parent process : ℕ) : List ℕ :=
  if parent ≠ 0 then
    inheritLookups parent process (List.range (maxBuff * 2))
      { k with fdTable := update k.fdTable process fun _ => -1 }
  else []

/-- `assignForeground` looks for the old foreground process when the flag of the new one
is set but its slot is not. The parent is followed only if there is one. -/
def createLookups (k : Kernel) (args : CreateArgs) : List ℕ :=
  let (stackTop, c) := mmMalloc k.toCore .stack
  if stackTop = 0 then []
  else
    let (process, c) := mmMalloc c .record
    if process = 0 then []
    else
      let fg := getForegroundProcess { c with isForeground := update c.isForeground process args.isForeground }
      let behind (c : Core) : List ℕ := { k with toCore := c }.openLookups k.currentProcess process
      fg :: (enterProcess c process stackTop args).elim [] behind

/-- `create_pipe` gets as far as the table of its caller. -/
def GetsPair (k : Kernel) : Prop :=
  (∃ i ∈ List.range' 2 (maxPipes - 2), k.pipes i = 0) ∧ (mmMalloc k.toCore .pipe).1 ≠ 0 ∧ k.freeFds ≠ none

instance (k : Kernel) : Decidable k.GetsPair := inferInstanceAs (Decidable (_ ∧ _ ∧ _))

/-- The process looked up, if the call gets that far. -/
def currentIf (k : Kernel) (far : Prop) [Decidable far] : List ℕ := if far then [k.currentProcess] else []

/-- `exit_process` takes each of its lookups from `current_process`, and so do
`pipe_close`, `create_pipe`, `sem_wait` and `wait`; `sys_sleep` asks first. -/
def lookups (k : Kernel) : Call → List ℕ
  | .createProcess args => k.createLookups args
  | .exitProcess | .wait => [k.currentProcess]
  | .quitCPU => quitLookups k.toCore
  | .semWait id => k.currentIf (0 ≤ id ∧ id < semMax)
  | .sysSleep _ => k.currentIf (k.currentProcess ≠ 0)
  | .createPipe => k.currentIf k.GetsPair
  | .pipeClose fd => k.currentIf (ValidSlot fd)
  | .blockProcess _ | .unblockProcess _ | .killProcess _ | .semOpen _ _ | .semClose _ | .semPost _ | .tick
  | .callScheduler => []

/-- `can_accsess` asks whether the caller holds an end of a pipe that is closed. -/
def AsksCaller (k : Kernel) (side : Side) (fd : ℤ) : Prop :=
  ¬(fd < 0 ∨ (maxFds : ℤ) ≤ fd ∨ k.inUse fd = false ∨ k.fdType fd ≠ side.fdType) ∧
    k.openCount (k.fdPipe fd) side.fdType = 0

instance (k : Kernel) (side : Side) (fd : ℤ) : Decidable (k.AsksCaller side fd) := inferInstanceAs (Decidable (_ ∧ _))

def accessLookups (k : Kernel) (side : Side) (fd : ℤ) : List ℕ := k.currentIf (k.AsksCaller side fd)

end Kernel

/-- The lookups of a call, and those of the scheduler behind it. -/
def Machine.lookups (m : Machine) (a : Action) : List ℕ :=
  (m.before a).lookups a.call ++ ((m.before a).call a.call).elim [] fun r =>
    if r.2.2 = true then schedulerLookups r.2.1.toCore ⟨m.cpu.process, a.offset⟩ else []

namespace UserMachine

/-- The wait of a transfer or a call of `read_keyboard` that goes on. -/
def nextWait (x : UserMachine) (offset : ℕ) (answers : List ℕ) : Option Action :=
  match x.transfer x.currentProcess, x.reading x.currentProcess with
  | some t, _ =>
    if t.waited = false ∧ t.Unfinished then some (x.toPipeMachine.waitAction t offset answers) else none
  | none, some t => if t.waited = false ∧ t.Unfinished then some (KeyMachine.waitAction offset answers) else none
  | none, none => none

/-- The results of lookups that are followed. -/
def lookups (x : UserMachine) : UserAction → List ℕ
  | .call a => x.toMachine.lookups a
  | .getPid => [x.currentProcess]
  | .sysGetForeground => [getForegroundProcess x.toCore]
  | .sysRead fd _ =>
    if fd = stdIn then
      x.currentProcess :: if x.stdin x.currentProcess = stdIn then []
        else x.accessLookups .read (x.stdin x.currentProcess)
    else x.accessLookups .read fd
  | .sysWrite fd _ _ =>
    if fd = stdOut ∨ fd = stdErr then
      x.currentProcess :: if x.OnScreen then [] else x.accessLookups .write (x.stdout x.currentProcess)
    else if 3 ≤ fd then x.accessLookups .write fd
    else []
  | .sysChangeStd pid std _ => if std = stdIn ∨ std = stdOut then [x.named pid] else []
  | .key scancode isPressed _ offset answers =>
    (x.keyKill scancode isPressed offset answers).elim [] fun a =>
      getForegroundProcess x.toCore :: x.toMachine.lookups a
  | .goOn offset answers => (x.nextWait offset answers).elim [] x.toMachine.lookups

/-- No result that is followed is `NULL`; and `sys_change_std` returns `-1` and changes
nothing for a pid that nobody has, and changes one stream of who has it otherwise. -/
structure Sound (x : UserMachine) (b : UserAction) : Prop where
  found : ∀ p ∈ x.lookups b, p ≠ 0
  unknown : ∀ pid std newFd, b = .sysChangeStd pid std newFd → (∀ p, InTable x.toCore p → x.pid p ≠ pid) →
    x.sysChangeStd pid std newFd = (-1, x)
  frame : ∀ pid std newFd, b = .sysChangeStd pid std newFd → ∀ p, InTable x.toCore p → x.pid p = pid →
    (x.sysChangeStd pid std newFd).2 = { x with stdin := update x.stdin p newFd } ∨
      (x.sysChangeStd pid std newFd).2 = { x with stdout := update x.stdout p newFd } ∨
      (x.sysChangeStd pid std newFd).2 = x

end UserMachine

end BareKernel

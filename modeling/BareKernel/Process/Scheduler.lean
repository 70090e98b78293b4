import BareKernel.Process.ReadyList
import Mathlib.Data.List.Range

/-! The process table operations of `process/scheduler.c`. Each returns what the
code returns, `-1` for a pid nobody has, and the new state. -/

namespace BareKernel.Process

open Function (update)

/-- The first slot whose process has the pid. -/
def foundprocess (c : Core) (pid : ℤ) : Option ℕ :=
  (List.range maxProcesses).find? fun i =>
    c.processesList i ≠ 0 ∧ c.pid (c.processesList i) = pid

/-- The first process with the pid, `0` if there is none. -/
def getProcessByPid (c : Core) (pid : ℤ) : ℕ :=
  match foundprocess c pid with
  | none => 0
  | some i => c.processesList i

/-- The first process in the foreground, `0` if there is none. -/
def getForegroundProcess (c : Core) : ℕ :=
  match (List.range maxProcesses).find? fun i =>
    c.processesList i ≠ 0 ∧ c.isForeground (c.processesList i) ≠ 0 with
  | none => 0
  | some i => c.processesList i

def blockProcess (c : Core) (pid : ℤ) : Option (ℤ × Core) :=
  match foundprocess c pid with
  | none => some (-1, c)
  | some idx =>
    let proc := c.processesList idx
    if c.state proc ≠ .running ∧ c.state proc ≠ .ready then some (-1, c)
    else do
      let c := { c with state := update c.state proc .blocked }
      let c ← removeFromReadyList c proc
      some (1, c)

def unblockProcess (c : Core) (pid : ℤ) : Option (ℤ × Core) :=
  if pid = 1 then some (-1, c)
  else
    match foundprocess c pid with
    | none => some (-1, c)
    | some idx =>
      let proc := c.processesList idx
      if c.state proc ≠ .blocked then some (-1, c)
      else do
        let c := { c with state := update c.state proc .ready }
        let found ← isInReadyList c proc
        let c ← if found then some c else addToReadyList c proc
        some (1, c)

def addToProcessList (c : Core) (process : ℕ) : Core :=
  let c := match (List.range maxProcesses).find? fun i => c.processesList i = 0 with
    | none => c
    | some i => { c with processesList := update c.processesList i process }
  { c with nProcesses := c.nProcesses + 1 }

/-- Take a pid out of the parent's list of children; the last one fills the gap. -/
def removeChild (c : Core) (parent : ℕ) (pid : ℤ) : Core :=
  match (List.range (c.childrenLength parent)).find? fun j => c.children parent j = pid with
  | none => c
  | some j =>
    let last := c.childrenLength parent - 1
    let row := update (c.children parent) j (c.children parent last)
    let row := update row last 0
    { c with children := update c.children parent row
             childrenLength := update c.childrenLength parent last }

/-- A parent that waits is woken when no child is left. -/
def wakeParent (c : Core) (parent : ℕ) : Option Core :=
  if c.waitingOnChild parent = 1 ∧ c.childrenLength parent = 0 then
    (unblockProcess c (c.pid parent)).map Prod.snd
  else some c

/-- What the end of a process does to its parent. -/
def leaveParent (c : Core) (process : ℕ) : Option Core :=
  if 0 < c.parentPid process then
    match foundprocess c (c.parentPid process) with
    | none => some c
    | some i => do
      let parent := c.processesList i
      let c ← wakeParent (removeChild c parent (c.pid process)) parent
      let raised := update c.isForeground parent 1
      some { c with isForeground := if c.isForeground process ≠ 0 then raised else c.isForeground }
  else some c

/-- Free what a process holds but for its record. -/
def freeHoldings (c : Core) (process : ℕ) : Core :=
  let c := mmFree c .stack (c.stackTop process)
  let c := mmFree c .name (c.name process)
  let c := mmFree c .priorityName (c.priorityName process)
  let entries := (List.range (c.argc process)).map (c.argvEntry (c.argv process))
  let c := entries.foldl (fun c entry => mmFree c .arg entry) c
  mmFree c .argv (c.argv process)

def removeFromProcessesList (c : Core) (process : ℕ) : Option (ℤ × Core) :=
  match foundprocess c (c.pid process) with
  | none => some (-1, c)
  | some idx => do
    let c ← leaveParent c process
    let c := { c with state := update c.state process .terminated }
    let c ← removeFromReadyList c process
    let c := freeHoldings c process
    let c := { c with processesList := update c.processesList idx 0 }
    let c := mmFree c .record process
    some (0, { c with nProcesses := c.nProcesses - 1 })

def freePid (c : Core) (pid : ℤ) : Core :=
  { c with pids := if 0 < pid ∧ pid < maxProcesses then update c.pids (pid - 1) false else c.pids }

/-- The return value, the new state and whether the call goes on to the scheduler. -/
def killProcess (c : Core) (pid : ℤ) : Option (ℤ × Core × Bool) :=
  if pid < 3 then some (0, c, false)
  else
    match foundprocess c pid with
    | none => some (-1, c, false)
    | some idx => do
      let c := freePid c pid
      let p := c.processesList idx
      let c ← removeFromReadyList c p
      let c := { c with state := update c.state p .terminated }
      let (_, c) ← removeFromProcessesList c p
      some (0, c, true)

/-- The result of `scheduler` is dropped. -/
def quitCPU (c : Core) : Option (ℤ × Core) :=
  let process := c.currentProcess
  if c.state process = .running then do
    let c := { c with state := update c.state process .ready }
    let c ← addToReadyList c process
    let (_, c) ← scheduler c (c.stackPointer process)
    some (c.pid process % 2 ^ 16, c)
  else some (2 ^ 16 - 1, c)

/-! ### Parts of `createProcess` -/

/-- The size of a stack and of the context at its top. -/
def stackSize : ℕ := 4096

def contextSize : ℕ := 160

/-- What a call of `createProcess` is given; `waiting` is what the new record holds
in `waiting_on_child`, which nothing initialises. -/
structure CreateArgs where
  argc : ℕ
  prio : ℤ
  isForeground : ℤ
  waiting : ℤ

/-- The table `priority`; reads beyond it are not modelled and count as `0`. -/
def priorityTable : ℤ → ℤ
  | 0 => 8
  | 1 => 4
  | 2 => 2
  | 3 => 1
  | _ => 0

def assignPid (c : Core) (process : ℕ) : Core :=
  match (List.range maxProcesses).find? fun i : ℕ => c.pids i = false with
  | none => { c with pid := update c.pid process 0 }
  | some i => { c with pid := update c.pid process (i + 1), pids := update c.pids i true }

/-- The process in the foreground loses it; a store through `NULL` lands in
memory that nothing reads. -/
def assignForeground (c : Core) (process : ℕ) (isForeground : ℤ) : Core :=
  let c := { c with isForeground := update c.isForeground process isForeground }
  { c with isForeground := update c.isForeground (getForegroundProcess c) 0 }

def copyContext (c : Core) (process stackTop : ℕ) (args : CreateArgs) : Option Core := do
  let c := assignPid c process
  let (name, c) ← mmMallocUsed c .name
  let c := { c with name := update c.name process name }
  let sp : StackPtr := ⟨process, stackSize - contextSize⟩
  let c := { c with stackPointer := update c.stackPointer process sp }
  let c := { c with stackTop := update c.stackTop process stackTop }
  let c := { c with state := update c.state process .ready }
  let c := { c with priority := update c.priority process (priorityTable args.prio) }
  let (priorityName, c) ← mmMallocUsed c .priorityName
  let c := { c with priorityName := update c.priorityName process priorityName }
  let c := { c with children := update c.children process fun _ => 0 }
  let c := { c with childrenLength := update c.childrenLength process 0 }
  some (assignForeground c process args.isForeground)

/-- The parent takes the new process among its children when there is room. -/
def adoptChild (c : Core) (parent process : ℕ) : Core :=
  let c := { c with parentPid := update c.parentPid process (c.pid parent) }
  let n := c.childrenLength parent
  if n < maxChildren then
    { c with children := update c.children parent (update (c.children parent) n (c.pid process))
             childrenLength := update c.childrenLength parent (n + 1) }
  else c

/-- Allocate and store the arguments from the `i`-th on. -/
def loadArgsFrom (argv : ℕ) : ℕ → ℕ → Core → Option Core
  | 0, _, c => some c
  | n + 1, i, c => do
    let (arg, c) ← mmMallocUsed c .arg
    loadArgsFrom argv n (i + 1)
      { c with argvEntry := update c.argvEntry argv (update (c.argvEntry argv) i arg) }

def loadArgs (c : Core) (process argc : ℕ) : Option Core := do
  let (argv, c) ← mmMallocUsed c .argv
  let c ← loadArgsFrom argv argc 0 c
  some { c with argc := update c.argc process argc, argv := update c.argv process argv }

/-- A process created by no other has parent `0`. -/
def linkParent (c : Core) (process : ℕ) : Core :=
  if c.currentProcess ≠ 0 then adoptChild c c.currentProcess process
  else { c with parentPid := update c.parentPid process 0 }

/-- What `createProcess` does between the allocation of the record and the descriptors. -/
def enterProcess (c : Core) (process stackTop : ℕ) (args : CreateArgs) : Option Core := do
  let c := { c with waitingOnChild := update c.waitingOnChild process args.waiting }
  let c ← copyContext c process stackTop args
  let c ← loadArgs (linkParent c process) process args.argc
  addToReadyList (addToProcessList c process) process

end BareKernel.Process

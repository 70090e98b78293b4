import BareKernel.Kernel.Sem

/-! The pipes of `pipe/pipe.c` but for the transfer loops. A descriptor names an
entry of one global table; a process may use those in its own table. Pointers are
followed without a check, as in the code. -/

namespace BareKernel

open Function (update)
open Process

def maxPipes : ℕ := 10

def maxFds : ℕ := 2 * maxPipes

def bufferSize : ℕ := 2048

namespace Kernel

def pipeInit (k : Kernel) (pipe : ℕ) : Kernel :=
  let k := { k with buffer := update k.buffer pipe fun _ => 0 }
  let k := { k with readPos := update k.readPos pipe 0, writePos := update k.writePos pipe 0 }
  let k := { k with readOpen := update k.readOpen pipe 1, writeOpen := update k.writeOpen pipe 1 }
  let k := { k with semDataAvailable := update k.semDataAvailable pipe 1 }
  let k := (k.semOpen 1 0).2
  let k := { k with semFreeSpace := update k.semFreeSpace pipe 2 }
  (k.semOpen 2 bufferSize).2

/-- Free the pipe of a slot and clear the slot. -/
def freePipe (k : Kernel) (i : ℕ) : Kernel :=
  { k with toCore := mmFree k.toCore .pipe (k.pipes i), pipes := update k.pipes i 0 }

/-- The first pair of descriptors that are not in use. -/
def freeFds (k : Kernel) : Option ℕ :=
  (List.range' 2 (maxPipes - 1) 2).find? fun fd =>
    k.inUse fd = false ∧ k.inUse (fd + 1 : ℕ) = false

/-- Give the two ends of a pipe to a pair of descriptors. -/
def openFds (k : Kernel) (pipe fd : ℕ) : Kernel :=
  let k := { k with fdPipe := update (update k.fdPipe fd pipe) (fd + 1 : ℕ) pipe }
  let k := { k with fdType := update (update k.fdType fd .read) (fd + 1 : ℕ) .write }
  { k with inUse := update (update k.inUse fd true) (fd + 1 : ℕ) true }

/-- The slots of the process's own table that hold no descriptor. -/
def freeSlots (k : Kernel) (process : ℕ) : List ℕ :=
  (List.range (maxBuff * 2)).filter fun i => k.fdTable process i = -1

/-- The new pipe of slot `i` gets descriptors, and the caller gets these. -/
def attachPipe (k : Kernel) (i pipe : ℕ) : Option (ℤ × ℤ) × Kernel :=
  match k.freeFds with
  | none => (none, k.freePipe i)
  | some fd =>
    let k := k.openFds pipe fd
    match k.freeSlots k.currentProcess with
    | a :: b :: _ =>
      let row := update (update (k.fdTable k.currentProcess) a fd) b (fd + 1 : ℕ)
      (some (fd, (fd + 1 : ℕ)), { k with fdTable := update k.fdTable k.currentProcess row })
    | _ => (none, { k with inUse := update (update k.inUse fd false) (fd + 1 : ℕ) false }.freePipe i)

/-- The descriptors of the two ends, `none` for the return value `-1`. -/
def createPipe (k : Kernel) : Option (ℤ × ℤ) × Kernel :=
  match (List.range' 2 (maxPipes - 2)).find? fun i => k.pipes i = 0 with
  | none => (none, k)
  | some i =>
    let (pipe, c) := mmMalloc k.toCore .pipe
    let k := { k with toCore := c }
    if pipe = 0 then (none, k)
    else
      let k := { k with pipes := update k.pipes i pipe }.pipeInit pipe
      { k with pipeId := update k.pipeId pipe i }.attachPipe i pipe

/-- Store a descriptor in the first free slot of a process and count it. -/
def pipeAccses (k : Kernel) (pid fd : ℤ) : ℤ × Kernel :=
  if (maxFds : ℤ) < fd ∨ fd < 0 then (-1, k)
  else
    let pipe := k.fdPipe fd
    let process := getProcessByPid k.toCore pid
    match k.freeSlots process with
    | [] => (-1, k)
    | i :: _ =>
      let k := { k with fdTable := update k.fdTable process (update (k.fdTable process) i fd) }
      let readers : ℤ := if k.fdType fd = .read then k.readOpen pipe + 1 else k.readOpen pipe
      let writers : ℤ := if k.fdType fd = .write then k.writeOpen pipe + 1 else k.writeOpen pipe
      (0, { k with readOpen := update k.readOpen pipe readers, writeOpen := update k.writeOpen pipe writers })

/-- The descriptor and the one below it are given back, whichever end `fd` is. -/
def pipeDestroy (k : Kernel) (fd : ℤ) : Kernel :=
  let pipe := k.fdPipe fd
  let k := { k with inUse := update (update k.inUse fd false) (fd - 1) false }
  let k := { k with fdPipe := update (update k.fdPipe fd 0) (fd - 1) 0 }
  let k := { k with fdType := update (update k.fdType fd .unused) (fd - 1) .unused }
  k.freePipe (k.pipeId pipe)

/-- Clear the slot of a descriptor and count it out. -/
def dropFd (k : Kernel) (fd : ℤ) (i : ℕ) : Kernel :=
  let pipe := k.fdPipe fd
  let row := update (k.fdTable k.currentProcess) i (-1)
  let k := { k with fdTable := update k.fdTable k.currentProcess row }
  let readers : ℤ := if k.fdType fd = .read then k.readOpen pipe - 1 else k.readOpen pipe
  let writers : ℤ := if k.fdType fd = .write then k.writeOpen pipe - 1 else k.writeOpen pipe
  { k with readOpen := update k.readOpen pipe readers, writeOpen := update k.writeOpen pipe writers }

def pipeClose (k : Kernel) (fd : ℤ) : ℤ × Kernel :=
  if (maxFds : ℤ) < fd ∨ fd < 0 then (-1, k)
  else
    let pipe := k.fdPipe fd
    match (List.range (maxBuff * 2)).find? fun i => k.fdTable k.currentProcess i = fd with
    | none => (-1, k)
    | some i =>
      let k := k.dropFd fd i
      (0, if k.readOpen pipe = 0 ∧ k.writeOpen pipe = 0 then k.pipeDestroy fd else k)

end Kernel

end BareKernel

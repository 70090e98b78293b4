import BareKernel.Kernel.Pipe
import BareKernel.Kernel.Sleep

/-! The operations of `process/process.c` that create and end processes or wait for
one, and the calls of the kernel with the scheduler behind them. -/

namespace BareKernel

open Function (update)
open Process

namespace Kernel

/-- The new process takes over the descriptors of its parent, and the parent counts
one more child to wait for. -/
def inheritFds (k : Kernel) (parent process : ℕ) : Kernel :=
  let pass (k : Kernel) (i : ℕ) := (k.pipeAccses (k.pid process) (k.fdTable parent i)).2
  let k := (List.range (maxBuff * 2)).foldl pass k
  { k with waitingOnChild := update k.waitingOnChild parent (k.waitingOnChild parent + 1) }

/-- The descriptor table of a new process, after those of its parent if it has one. -/
def openProcess (k : Kernel) (parent process : ℕ) : Kernel :=
  let k := { k with fdTable := update k.fdTable process fun _ => -1 }
  if parent ≠ 0 then k.inheritFds parent process else k

/-- A failed allocation is noticed for the stack and the record only. -/
def createProcess (k : Kernel) (args : CreateArgs) : Option (ℤ × Kernel) :=
  let (stackTop, c) := mmMalloc k.toCore .stack
  if stackTop = 0 then some (-1, { k with toCore := c })
  else
    let (process, c) := mmMalloc c .record
    if process = 0 then some (-1, { k with toCore := c })
    else do
      let c ← enterProcess c process stackTop args
      let k := { k with toCore := c }.openProcess k.currentProcess process
      some (k.pid process, k)

def exitProcess (k : Kernel) : Option Kernel := do
  let current := k.currentProcess
  let (_, c) ← removeFromProcessesList k.toCore current
  let close (k : Kernel) (i : ℕ) := (k.pipeClose (k.fdTable current i)).2
  let k := (List.range (maxBuff * 2)).foldl close { k with toCore := c }
  some { k with pids := update k.pids (k.pid current - 1) false }

def wait (k : Kernel) : Option (ℤ × Kernel × Bool) :=
  let current := k.currentProcess
  if 0 < k.childrenLength current then do
    let k := { k with waitingOnChild := update k.waitingOnChild current 1 }
    let (_, c) ← blockProcess k.toCore (k.pid current)
    some (0, { k with toCore := c }, true)
  else some (-1, k, false)

end Kernel

end BareKernel

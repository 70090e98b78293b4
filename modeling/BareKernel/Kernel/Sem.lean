import BareKernel.Kernel.State
import BareKernel.Process.Scheduler

/-! The operations of `syncro/sem.c`. A closed semaphore has value `-1`. Values are
16-bit integers. An operation that goes on to the scheduler says so. -/

namespace BareKernel

open Function (update)
open Process

def Kernel.setSem (k : Kernel) (id : ℤ) (s : Semaphore) : Kernel :=
  { k with sems := update k.sems id s }

/-- The pids in the queue from `head` on, and the head behind them. -/
def Semaphore.drain (s : Semaphore) : ℕ → ℕ → List ℤ × ℕ
  | 0, head => ([], head)
  | n + 1, head =>
    let r := s.drain n ((head + 1) % maxProcesses)
    (s.waiting head :: r.1, r.2)

/-- Leave out pids that nobody has, up to the first that somebody has. -/
def Semaphore.popLive (c : Core) : ℕ → Semaphore → Option ℤ × Semaphore
  | 0, s => (none, s)
  | n + 1, s =>
    let pid := s.waiting s.head
    let s := { s with head := (s.head + 1) % maxProcesses, count := n }
    if getProcessByPid c pid ≠ 0 then (some pid, s) else popLive c n s

namespace Kernel

def semOpen (k : Kernel) (id initialValue : ℤ) : ℤ × Kernel :=
  if id < 0 ∨ semMax ≤ id then (-1, k)
  else if (k.sems id).value ≠ -1 then (id, k)
  else
    let value := initialValue.bmod (2 ^ 16)
    (id, k.setSem id { k.sems id with value := value, head := 0, tail := 0, count := 0 })

/-- The code asks whether somebody has the pid `i`, not `to_wake[i]`. -/
def wakeSlot (c : Core) (i : ℕ) (pid : ℤ) : Option Core :=
  if foundprocess c i = none then some c else (unblockProcess c pid).map Prod.snd

def wakeAll : ℕ → List ℤ → Core → Option Core
  | _, [], c => some c
  | i, pid :: rest, c => do
    let c ← wakeSlot c i pid
    wakeAll (i + 1) rest c

def semClose (k : Kernel) (id : ℤ) : Option (ℤ × Kernel) :=
  if id < 0 ∨ semMax ≤ id then some (-1, k)
  else
    let s := k.sems id
    if s.value = -1 then some (-1, k)
    else do
      let (toWake, head) := s.drain s.count s.head
      let k := k.setSem id { s with value := -1, head := head, count := 0 }
      let c ← wakeAll 0 toWake k.toCore
      some (0, { k with toCore := c })

def semPost (k : Kernel) (id : ℤ) : Option (ℤ × Kernel) :=
  if id < 0 ∨ semMax ≤ id then some (-1, k)
  else
    let s := k.sems id
    if s.value = -1 then some (-1, k)
    else
      match s.popLive k.toCore s.count with
      | (some pid, s) => do
        let (_, c) ← unblockProcess k.toCore pid
        some (0, { k.setSem id s with toCore := c })
      | (none, s) => some (0, k.setSem id { s with value := (s.value + 1).bmod (2 ^ 16) })

def semWait (k : Kernel) (id : ℤ) : Option (ℤ × Kernel × Bool) :=
  if id < 0 ∨ semMax ≤ id then some (-1, k, false)
  else
    let s := k.sems id
    let pid := k.pid k.currentProcess
    if s.value = -1 then some (-1, k, false)
    else if s.value = 0 then
      if maxProcesses ≤ s.count then some (-1, k, false)
      else do
        let s := { s with waiting := update s.waiting s.tail pid }
        let s := { s with tail := (s.tail + 1) % maxProcesses, count := s.count + 1 }
        let (_, c) ← blockProcess k.toCore pid
        some (0, { k.setSem id s with toCore := c }, true)
    else some (0, k.setSem id { s with value := (s.value - 1).bmod (2 ^ 16) }, false)

end Kernel

end BareKernel

import BareKernel.Kernel.State
import BareKernel.Process.Scheduler

/-! The sleep list of `process/sleep.c`, the timer interrupt and `sys_sleep`. The
tick counter has 64 bits and is read through an `int`. The loops are given more
turns than there are entries in use. -/

namespace BareKernel

open Function (update)
open Process

/-- The insertion point: the entry before it, `0` at the front, and the one behind. -/
def sleepSlot (q : SleepQueue) (wake : ℕ) : ℕ → ℕ → ℕ → Option (ℕ × ℕ)
  | 0, _, _ => none
  | fuel + 1, prev, cur =>
    if cur ≠ 0 ∧ q.wakeTick cur ≤ wake then sleepSlot q wake fuel cur (q.entryNext cur)
    else some (prev, cur)

namespace Kernel

def sleepFuel (k : Kernel) : ℕ := (k.live .sleepEntry).length + 1

/-- A failed allocation is no error: the process gets no entry. -/
def sleepQueueAdd (k : Kernel) (process wake : ℕ) : Option Kernel :=
  let (e, c) := mmMalloc k.toCore .sleepEntry
  let k := { k with toCore := c }
  if e = 0 then some k
  else do
    let k := { k with entryProc := update k.entryProc e process }
    let k := { k with wakeTick := update k.wakeTick e wake }
    let (prev, cur) ← sleepSlot k.toSleepQueue wake k.sleepFuel 0 k.sleepList
    let k := { k with entryNext := update k.entryNext e cur }
    some { k with
      sleepList := if prev = 0 then e else k.sleepList
      entryNext := if prev = 0 then k.entryNext else update k.entryNext prev e }

/-- Link out the entry behind `prev`, which `next` follows. -/
def unlinkEntry (k : Kernel) (prev next : ℕ) : Kernel :=
  { k with
    sleepList := if prev = 0 then next else k.sleepList
    entryNext := if prev = 0 then k.entryNext else update k.entryNext prev next }

/-- Free an entry. -/
def freeEntry (k : Kernel) (e : ℕ) : Kernel := { k with toCore := mmFree k.toCore .sleepEntry e }

/-- Wake the process of a due entry. -/
def wakeEntry (k : Kernel) (e : ℕ) : Option Kernel := do
  let (_, c) ← unblockProcess k.toCore (k.pid (k.entryProc e))
  some { k with toCore := c }

/-- The loop of `sleep_queue_tick_handler`, at `cur` behind `prev`. -/
def sleepTick (now : ℕ) : ℕ → ℕ → ℕ → Kernel → Option Kernel
  | 0, _, _, _ => none
  | fuel + 1, prev, cur, k =>
    let next := k.entryNext cur
    if cur = 0 then some k
    else if foundprocess k.toCore (k.pid (k.entryProc cur)) = none then
      sleepTick now fuel prev next ((k.unlinkEntry prev next).freeEntry cur)
    else if k.wakeTick cur ≤ now then do
      let k ← (k.unlinkEntry prev next).wakeEntry cur
      sleepTick now fuel prev next (k.freeEntry cur)
    else sleepTick now fuel cur next k

/-- The counter as an `int`. -/
def ticksElapsed (k : Kernel) : ℤ := (k.ticks : ℤ).bmod (2 ^ 32)

def timerHandler (k : Kernel) : Option Kernel :=
  let k := { k with ticks := (k.ticks + 1) % 2 ^ 64 }
  sleepTick (k.ticksElapsed % 2 ^ 64).toNat k.sleepFuel 0 k.sleepList k

/-- `-1` when nobody runs. -/
def sysSleep (k : Kernel) (n : ℕ) : Option (ℤ × Kernel × Bool) :=
  if k.currentProcess = 0 then some (-1, k, false)
  else do
    let deadline := ((k.ticksElapsed + n) % 2 ^ 64).toNat
    let k ← k.sleepQueueAdd k.currentProcess deadline
    let (_, c) ← blockProcess k.toCore (k.pid k.currentProcess)
    some (0, { k with toCore := c }, true)

end Kernel

end BareKernel

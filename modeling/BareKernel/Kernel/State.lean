import BareKernel.Process.State

/-! The kernel around the scheduler: the semaphores of `syncro/sem.c`, the sleep
list of `process/sleep.c`, the pipes of `pipe/pipe.c` and the tick counter. A
semaphore's lock is left out: system calls run with interrupts off, so it is free
whenever one takes it. Pids are small, so their conversions to 16 bits are left
out too. -/

namespace BareKernel

open Process

def semMax : ℤ := 127

/-- `waiting` is a circular buffer of `MAX_PROCESSES` pids. -/
structure Semaphore where
  value : ℤ
  waiting : ℕ → ℤ
  head : ℕ
  tail : ℕ
  count : ℕ

/-- The entries of the sleep list and its head. -/
structure SleepQueue where
  entryProc : ℕ → ℕ
  wakeTick : ℕ → ℕ
  entryNext : ℕ → ℕ
  sleepList : ℕ

inductive FDType where
  | unused | read | write
deriving DecidableEq

/-- The pipes, the table of their descriptors, and the descriptor tables of the
processes. -/
structure Pipes where
  pipes : ℕ → ℕ
  buffer : ℕ → ℕ → ℤ
  readPos : ℕ → ℕ
  writePos : ℕ → ℕ
  readOpen : ℕ → ℤ
  writeOpen : ℕ → ℤ
  semFreeSpace : ℕ → ℤ
  semDataAvailable : ℕ → ℤ
  pipeId : ℕ → ℕ
  fdPipe : ℤ → ℕ
  fdType : ℤ → FDType
  inUse : ℤ → Bool
  fdTable : ℕ → ℕ → ℤ

structure Kernel extends Core, SleepQueue, Pipes where
  sems : ℤ → Semaphore
  ticks : ℕ

end BareKernel

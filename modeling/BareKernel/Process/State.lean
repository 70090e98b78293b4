import Mathlib.Algebra.Group.Int.Defs
import Mathlib.Algebra.Group.Nat.Defs
import Mathlib.Logic.Function.Basic

/-! The state of `process/scheduler.c` and `process/process.c`: the process
records, the ready ring, the process table and the pid bitmap. Records are kept
one array per field, indexed by address, with `0` for `NULL`; a freed record
keeps its contents until its address is handed out again.

The allocator is a parameter: every call comes with the answers that `mm_malloc`
gives during it. An answer that is `NULL`, or an address that is already in use
for that kind of object, counts as a failed allocation. A function returns `none`
where the code stores through a failed allocation or walks without end: nothing
is said about what happens after that. -/

namespace BareKernel.Process

open Function (update)

def maxProcesses : ℕ := 20

def maxChildren : ℕ := 9

/-- The slots of a process's own descriptor table. -/
def maxBuff : ℕ := 10

/-- What a block is allocated for. -/
inductive Kind where
  | stack | record | name | priorityName | argv | arg | node | sleepEntry | pipe
deriving DecidableEq

/-- The allocator as its callers see it: the blocks in use and the coming answers. -/
structure Memory where
  live : Kind → List ℕ
  answers : List ℕ

inductive Status where
  | running | ready | blocked | terminated
deriving DecidableEq

/-- A stack pointer: the process whose stack it points into, `0` for the stack of
the boot code, and the place on that stack. -/
structure StackPtr where
  process : ℕ
  offset : ℕ
deriving DecidableEq

/-- The fields of `p_info` but for the descriptor table. -/
structure Records where
  pid : ℕ → ℤ
  name : ℕ → ℕ
  stackTop : ℕ → ℕ
  stackPointer : ℕ → StackPtr
  argv : ℕ → ℕ
  argvEntry : ℕ → ℕ → ℕ
  argc : ℕ → ℕ
  priority : ℕ → ℤ
  priorityName : ℕ → ℕ
  isForeground : ℕ → ℤ
  state : ℕ → Status
  parentPid : ℕ → ℤ
  waitingOnChild : ℕ → ℤ
  children : ℕ → ℕ → ℤ
  childrenLength : ℕ → ℕ

/-- The nodes of the ready ring, its head and its cursor. -/
structure ReadyRing where
  processInfo : ℕ → ℕ
  counter : ℕ → ℤ
  next : ℕ → ℕ
  readyList : ℕ
  currentNode : ℕ

/-- What the scheduler works on. -/
structure Core extends Memory, Records, ReadyRing where
  currentProcess : ℕ
  processesList : ℕ → ℕ
  nProcesses : ℤ
  pids : ℤ → Bool

/-! ### The allocator -/

def mmMalloc (c : Core) (kind : Kind) : ℕ × Core :=
  match c.answers with
  | [] => (0, c)
  | a :: rest =>
    if a = 0 ∨ a ∈ c.live kind then (0, { c with answers := rest })
    else (a, { c with answers := rest, live := update c.live kind (a :: c.live kind) })

def mmFree (c : Core) (kind : Kind) (a : ℕ) : Core :=
  { c with live := update c.live kind ((c.live kind).erase a) }

/-- Allocate a block that the code stores into without a check. -/
def mmMallocUsed (c : Core) (kind : Kind) : Option (ℕ × Core) :=
  let r := mmMalloc c kind
  if r.1 = 0 then none else some r

end BareKernel.Process

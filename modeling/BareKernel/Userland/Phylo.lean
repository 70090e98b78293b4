import BareKernel.Links.Runs
import Mathlib.Algebra.Group.Nat.Defs
import Mathlib.Logic.Function.Basic

/-! The dining philosophers of `phylo.c`, as a step relation over the shared arrays
and semaphores: each philosopher process and the main process take one access at a
time, in any order. `SEM_GLOBAL` is a mutex with an owner, a fork semaphore counts, or
is closed. Output, names, pids and argument memory are left out; whether a system call
of `new_phylo` succeeds is up to the step. -/

namespace BareKernel.Phylo

open Function (update)
open Links

def maxDiner : ℕ := 10

inductive PhyloState where
  | none | thinking | waiting | eating
deriving DecidableEq

inductive Side where
  | left | right
deriving DecidableEq

/-- The neighbour of seat `i` at a table of `n`. -/
def neighbour (n : ℕ) : Side → ℕ → ℕ
  | .left, i => (i + n - 1) % n
  | .right, i => (i + 1) % n

/-- Where a philosopher process is: before its first write, before `take_forks`, at the
lines of `take_forks` up to the wait for its own fork, between `take_forks` and
`leave_forks`, and at the lines of `leave_forks`. -/
inductive Pos where
  | start
  | thinking
  | takeSet | takeTest (s : Side) | takeEat | takePost | takeDone
  | forkWait
  | eating
  | leaveSet | leaveTest (s : Side) | leaveBeyond (s : Side) | leaveEat (s : Side) | leavePost (s : Side) | leaveDone
deriving DecidableEq

/-- Where the main process is: between two commands, at the lines of `new_phylo`, at
the lines of `remove_phylo`. -/
inductive MainPos where
  | idle
  | newWait | newOpen | newAlloc | newCreate | newCount | newDone
  | removeWait | removePause | removeSleep | removeTest (s : Side) | removeKill | removeClose | removeClear
  | removeCount | removeDone
deriving DecidableEq

inductive Agent where
  | main
  | phylo (i : ℕ)
deriving DecidableEq

/-- The shared variables, `SEM_GLOBAL`, the fork semaphores (`none` is a closed one),
and where the processes are; a philosopher that is not alive is nowhere. -/
structure Table where
  states : ℕ → PhyloState
  count : ℕ
  fork : ℕ → Option ℕ
  owner : Option Agent
  pos : ℕ → Option Pos
  main : MainPos

def Table.initial : Table := ⟨fun _ => .none, 0, fun _ => none, none, fun _ => none, .idle⟩

inductive Action where
  | phylo (i : ℕ)
  | newPhylo
  | removePhylo
  | main (ok : Bool)

/-- `usr_sem_post` on a fork; a closed semaphore stays closed. -/
def post (fork : ℕ → Option ℕ) (i : ℕ) : ℕ → Option ℕ := update fork i ((fork i).map (· + 1))

/-- Behind the left neighbour the right one is examined. -/
def Pos.next : Side → Pos
  | .left => .leaveTest .right
  | .right => .leaveDone

namespace Table

def goto (t : Table) (i : ℕ) (p : Pos) : Table := { t with pos := update t.pos i (some p) }

def setState (t : Table) (i : ℕ) (s : PhyloState) : Table := { t with states := update t.states i s }

/-- `usr_sem_wait(SEM_GLOBAL)` -/
def acquire (t : Table) (a : Agent) : Option Table :=
  if t.owner = none then some { t with owner := some a } else none

/-- `usr_sem_post(SEM_GLOBAL)` -/
def release (t : Table) : Table := { t with owner := none }

/-- What philosopher `i` does next. -/
def stepPhylo (t : Table) (i : ℕ) : Pos → Option Table
  | .start => some ((t.setState i .thinking).goto i .thinking)
  | .thinking => (t.acquire (.phylo i)).map fun t => t.goto i .takeSet
  | .takeSet => some ((t.setState i .waiting).goto i (.takeTest .left))
  | .takeTest s =>
    if t.states (neighbour t.count s i) = .eating then some (t.goto i .takeDone)
    else some (t.goto i (match s with
      | .left => .takeTest .right
      | .right => .takeEat))
  | .takeEat => some ((t.setState i .eating).goto i .takePost)
  | .takePost => some ({ t with fork := post t.fork i }.goto i .takeDone)
  | .takeDone => some (t.release.goto i .forkWait)
  | .forkWait =>
    match t.fork i with
    | none => some (t.goto i .eating)
    | some 0 => none
    | some (v + 1) => some ({ t with fork := update t.fork i (some v) }.goto i .eating)
  | .eating => (t.acquire (.phylo i)).map fun t => t.goto i .leaveSet
  | .leaveSet => some ((t.setState i .thinking).goto i (.leaveTest .left))
  | .leaveTest s =>
    if t.states (neighbour t.count s i) = .waiting then some (t.goto i (.leaveBeyond s))
    else some (t.goto i (.next s))
  | .leaveBeyond s =>
    if t.states (neighbour t.count s (neighbour t.count s i)) = .eating then some (t.goto i (.next s))
    else some (t.goto i (.leaveEat s))
  | .leaveEat s => some ((t.setState (neighbour t.count s i) .eating).goto i (.leavePost s))
  | .leavePost s => some ({ t with fork := post t.fork (neighbour t.count s i) }.goto i (.next s))
  | .leaveDone => some (t.release.goto i .thinking)

/-- What the main process does next; `ok` says whether the call it makes succeeds. The
new philosopher sits at `phylo_count`, and the last one is removed. -/
def stepMain (t : Table) (ok : Bool) : Option Table :=
  let last := t.count - 1
  match t.main with
  | .idle => none
  | .newWait => (t.acquire .main).map fun t => { t with main := .newOpen }
  | .newOpen =>
    some (if ok then { t with fork := update t.fork t.count (some 0), main := .newAlloc }
      else { t with main := .newDone })
  | .newAlloc =>
    some (if ok then { t with main := .newCreate }
      else { t with fork := update t.fork t.count none, main := .newDone })
  | .newCreate =>
    some (if ok then { t.goto t.count .start with main := .newCount }
      else { t with fork := update t.fork t.count none, main := .newDone })
  | .newCount => some { t with count := t.count + 1, main := .newDone }
  | .newDone => some { t.release with main := .idle }
  | .removeWait => (t.acquire .main).map fun t => { t with main := .removePause }
  | .removePause => some { t.release with main := .removeSleep }
  | .removeSleep => (t.acquire .main).map fun t => { t with main := .removeTest .left }
  | .removeTest s =>
    some (if t.states (neighbour t.count s last) = .eating then
      { t with main := match s with
        | .left => .removeTest .right
        | .right => .removePause }
      else { t with main := .removeKill })
  | .removeKill => some { t with pos := update t.pos last none, main := .removeClose }
  | .removeClose => some { t with fork := update t.fork last none, main := .removeClear }
  | .removeClear => some { t.setState last .none with main := .removeCount }
  | .removeCount => some { t with count := t.count - 1, main := .removeDone }
  | .removeDone => some { t.release with main := .idle }

/-- A new philosopher needs a free seat, and one that is removed must be there. -/
def step (t : Table) : Action → Option Table
  | .phylo i => (t.pos i).bind (t.stepPhylo i)
  | .newPhylo => if t.main = .idle ∧ t.count < maxDiner then some { t with main := .newWait } else none
  | .removePhylo => if t.main = .idle ∧ 0 < t.count then some { t with main := .removeWait } else none
  | .main ok => t.stepMain ok

end Table

/-- All interleavings, from the empty table on. -/
def dining : System Table Action where
  init t := t = Table.initial
  step t a t' := t.step a = some t'

end BareKernel.Phylo

import BareKernel.Process.State

/-! The ready ring of `process/scheduler.c`, as pointers. A loop around the ring
is given more turns than there are nodes in use; running out of them means that
the loop never ends. -/

namespace BareKernel.Process

open Function (update)

/-- The turns a loop around the ring is given. -/
def Core.fuel (c : Core) : ℕ := (c.live .node).length + 1

/-- The loop of `isInReadyList`, at `curr`. -/
def searchRing (r : ReadyRing) (process : ℕ) : ℕ → ℕ → Option Bool
  | 0, _ => none
  | fuel + 1, curr =>
    if r.processInfo curr = process then some true
    else if r.next curr = r.readyList then some false
    else searchRing r process fuel (r.next curr)

def isInReadyList (c : Core) (process : ℕ) : Option Bool :=
  if c.readyList = 0 then some false
  else searchRing c.toReadyRing process c.fuel c.readyList

/-- Walk from `node` to the node whose successor is `target`. -/
def findLast (r : ReadyRing) (target : ℕ) : ℕ → ℕ → Option ℕ
  | 0, _ => none
  | fuel + 1, node => if r.next node = target then some node else findLast r target fuel (r.next node)

/-- Link a new node in before the head. -/
def insertNode (c : Core) (process node : ℕ) : Option Core :=
  let c := { c with processInfo := update c.processInfo node process }
  let c := { c with counter := update c.counter node (c.priority process) }
  if c.readyList = 0 then
    some { c with readyList := node, next := update c.next node node, currentNode := node }
  else do
    let tail ← findLast c.toReadyRing c.readyList c.fuel c.readyList
    let c := { c with next := update c.next tail node }
    some { c with next := update c.next node c.readyList }

def addToReadyList (c : Core) (process : ℕ) : Option Core := do
  let found ← isInReadyList c process
  if found then some c
  else do
    let (node, c) ← mmMallocUsed c .node
    insertNode c process node

/-- The search loop of `removeFromReadyList`: the node found and the one before
it, `0` when it is the head. -/
def findNode (r : ReadyRing) (process : ℕ) : ℕ → ℕ → ℕ → Option (Option (ℕ × ℕ))
  | 0, _, _ => none
  | fuel + 1, prev, curr =>
    if r.processInfo curr = process then some (some (prev, curr))
    else if r.next curr = r.readyList then some none
    else findNode r process fuel curr (r.next curr)

/-- Link out `curr`, which stands behind `prev` or is the head. -/
def unlinkNode (c : Core) (prev curr : ℕ) : Option Core :=
  if c.next curr = curr then
    some { mmFree c .node curr with readyList := 0, currentNode := 0 }
  else do
    let c := { c with readyList := if curr = c.readyList then c.next curr else c.readyList }
    let last ← if prev ≠ 0 then some prev else findLast c.toReadyRing curr c.fuel c.readyList
    let c := { c with next := update c.next last (c.next curr) }
    let c := { c with readyList := if curr = c.readyList then c.next curr else c.readyList }
    let c := { c with currentNode := if curr = c.currentNode then c.next curr else c.currentNode }
    some (mmFree c .node curr)

def removeFromReadyList (c : Core) (process : ℕ) : Option Core :=
  if c.readyList = 0 then some c
  else do
    match ← findNode c.toReadyRing process c.fuel 0 c.readyList with
    | none => some c
    | some (prev, curr) => unlinkNode c prev curr

/-- The scan of `scheduler` for a process that is ready, from behind `node` until
`start` has been looked at. -/
def findReady (c : Core) (start : ℕ) : ℕ → ℕ → Option (ℕ × Bool)
  | 0, _ => none
  | fuel + 1, node =>
    let node := c.next node
    if c.state (c.processInfo node) = .ready then some (node, true)
    else if node = start then some (node, false)
    else findReady c start fuel node

/-- Run the process of the current node. -/
def dispatch (c : Core) (process : ℕ) : StackPtr × Core :=
  let c := { c with currentProcess := process }
  let c := { c with state := update c.state process .running }
  let c := { c with counter := update c.counter c.currentNode (c.priority process) }
  (c.stackPointer process, c)

/-- The scan and what follows it. -/
def schedule (c : Core) (sp : StackPtr) : Option (StackPtr × Core) := do
  let (node, found) ← findReady c c.currentNode c.fuel c.currentNode
  let c := { c with currentNode := node }
  if found then some (dispatch c (c.processInfo node))
  else if c.currentProcess ≠ 0 then some (dispatch c c.currentProcess)
  else some (sp, c)

/-- The stack pointer to go on with, and the new state. -/
def scheduler (c : Core) (sp : StackPtr) : Option (StackPtr × Core) :=
  if c.readyList = 0 then some (sp, c)
  else
    let saved := update c.stackPointer c.currentProcess sp
    let c := { c with stackPointer := if c.state c.currentProcess = .blocked then saved else c.stackPointer }
    if c.currentProcess ≠ 0 ∧ c.state c.currentProcess = .running then
      let c := { c with stackPointer := update c.stackPointer c.currentProcess sp }
      let c := { c with counter := update c.counter c.currentNode (c.counter c.currentNode - 1) }
      if 0 < c.counter c.currentNode then some (sp, c)
      else schedule { c with state := update c.state c.currentProcess .ready } sp
    else schedule c sp

end BareKernel.Process

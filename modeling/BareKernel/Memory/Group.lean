import BareKernel.Word
import Mathlib.Algebra.GroupWithZero.Nat
import Mathlib.Logic.Function.Basic

/-! The group allocator of `memory/group_memory_manager.c`. Block headers lie in
the managed region itself; they are kept here one array per field, so `size b`
is `b->size`. Addresses are natural numbers with `0` for `NULL`, and `size_t`
arithmetic is modulo `2 ^ 64`. -/

namespace BareKernel.Memory

open Function (update)

def headerSize : ℕ := 56

def maxBlocks : ℕ := 1024

def minBlockSize : ℕ := 16

/-- Round up to a multiple of eight; the sum wraps. -/
def alignUp (x : ℕ) : ℕ := (x + 7) % wordSize / 8 * 8

/-- The memory under the allocator, as block headers. -/
structure Headers where
  size : ℕ → ℕ
  userSize : ℕ → ℕ
  isFree : ℕ → Bool
  next : ℕ → ℕ
  prev : ℕ → ℕ
  freeNext : ℕ → ℕ
  freePrev : ℕ → ℕ

/-- The headers and the static variables. -/
structure Group extends Headers where
  freeList : ℕ
  memoryStart : ℕ
  totalSize : ℕ
  currentBlocks : ℕ
  totalAllocated : ℕ
  totalFreed : ℕ

def insertIntoFreeList (g : Group) (b : ℕ) : Group :=
  let g := { g with freeNext := update g.freeNext b 0, freePrev := update g.freePrev b 0 }
  let g := { g with isFree := update g.isFree b true }
  let g := { g with userSize := update g.userSize b 0 }
  if g.freeList = 0 then
    { g with freeNext := update g.freeNext b b, freePrev := update g.freePrev b b, freeList := b }
  else
    let tail := g.freePrev g.freeList
    let g := { g with freeNext := update g.freeNext b g.freeList }
    let g := { g with freePrev := update g.freePrev b tail }
    let g := { g with freeNext := update g.freeNext tail b }
    let g := { g with freePrev := update g.freePrev g.freeList b }
    { g with freeList := b }

def removeFromFreeList (g : Group) (b : ℕ) : Group :=
  if b = 0 ∨ g.isFree b = false then g
  else
    let g :=
      if g.freeNext b = b then { g with freeList := 0 }
      else
        let g := { g with freeNext := update g.freeNext (g.freePrev b) (g.freeNext b) }
        let g := { g with freePrev := update g.freePrev (g.freeNext b) (g.freePrev b) }
        if g.freeList = b then { g with freeList := g.freeNext b } else g
    let g := { g with freeNext := update g.freeNext b 0, freePrev := update g.freePrev b 0 }
    { g with isFree := update g.isFree b false }

def groupInit (g : Group) (start size : ℕ) : Group :=
  let g := { g with memoryStart := start, totalSize := size }
  let g := { g with currentBlocks := 0, totalAllocated := 0, totalFreed := 0 }
  let g := { g with size := update g.size start (alignUp ((size + wordSize - headerSize) % wordSize)) }
  let g := { g with userSize := update g.userSize start 0 }
  let g := { g with isFree := update g.isFree start true }
  let g := { g with next := update g.next start start, prev := update g.prev start start }
  insertIntoFreeList { g with freeList := 0 } start

/-- The first-fit loop from `cur` on: the block it stops at, `0` when it comes
back to the head of the free list, `none` when the fuel runs out. -/
def groupSearch (g : Group) (req : ℕ) : ℕ → ℕ → Option ℕ
  | 0, _ => none
  | fuel + 1, cur =>
    if req ≤ g.size cur then some cur
    else
      let cur := g.freeNext cur
      if cur ≠ 0 ∧ cur ≠ g.freeList then groupSearch g req fuel cur else some 0

/-- Cut `cur` behind its first `req` bytes when the rest is worth a block. -/
def groupSplit (g : Group) (cur req : ℕ) : Group :=
  let rem := g.size cur - req
  if headerSize + minBlockSize < rem then
    let nb := cur + headerSize + req
    let g := { g with size := update g.size nb (alignUp (rem - headerSize)) }
    let g := { g with userSize := update g.userSize nb 0 }
    let g := { g with isFree := update g.isFree nb true }
    let g := { g with next := update g.next nb (g.next cur) }
    let g := { g with prev := update g.prev nb cur }
    let g := { g with prev := update g.prev (g.next cur) nb }
    let g := { g with next := update g.next cur nb }
    let g := insertIntoFreeList g nb
    { g with size := update g.size cur req }
  else g

/-- The rest of the loop body once `cur` fits. -/
def groupTake (g : Group) (cur req size : ℕ) : Group :=
  let g := groupSplit g cur req
  let g := removeFromFreeList g cur
  let g := { g with userSize := update g.userSize cur size }
  { g with
    totalAllocated := (g.totalAllocated + size) % wordSize
    currentBlocks := (g.currentBlocks + 1) % wordSize }

/-- The returned pointer and the new state; `none` if the search never ends. A
walk over the free list that took more steps than the region has bytes has
visited some block twice. -/
def groupMalloc (g : Group) (size : ℕ) : Option (ℕ × Group) :=
  if size = 0 ∨ g.freeList = 0 ∨ maxBlocks ≤ g.currentBlocks then some (0, g)
  else
    let req := alignUp size
    match groupSearch g req g.totalSize g.freeList with
    | none => none
    | some cur => if cur = 0 then some (0, g) else some (cur + headerSize, groupTake g cur req size)

/-- Merge the next block into `b` when it is free. -/
def mergeNext (g : Group) (b : ℕ) : Group :=
  if g.next b ≠ 0 ∧ g.isFree (g.next b) then
    let g := removeFromFreeList g (g.next b)
    let n := g.next b
    let g := { g with size := update g.size b ((g.size b + (headerSize + g.size n)) % wordSize) }
    let g := { g with next := update g.next b (g.next n) }
    { g with prev := update g.prev (g.next n) b }
  else g

/-- Merge `b` into the previous block when that is free. -/
def mergePrev (g : Group) (b : ℕ) : ℕ × Group :=
  if g.prev b ≠ 0 ∧ g.isFree (g.prev b) then
    let g := removeFromFreeList g (g.prev b)
    let pblock := g.prev b
    let g := { g with
      size := update g.size pblock ((g.size pblock + (headerSize + g.size b)) % wordSize) }
    let g := { g with next := update g.next pblock (g.next b) }
    let g := { g with prev := update g.prev (g.next b) pblock }
    (pblock, g)
  else (b, g)

/-- The returned size and the new state. -/
def groupFree (g : Group) (ptr : ℕ) : ℕ × Group :=
  if ptr = 0 then (0, g)
  else if ptr < g.memoryStart + headerSize ∨ g.memoryStart + g.totalSize ≤ ptr then (0, g)
  else
    let b := ptr - headerSize
    if g.isFree b = true ∨ g.userSize b = 0 then (0, g)
    else
      let freedSize := g.userSize b
      let g := { g with userSize := update g.userSize b 0 }
      let g := mergeNext g b
      let (b, g) := mergePrev g b
      let g := insertIntoFreeList g b
      (freedSize, { g with
        currentBlocks := (g.currentBlocks + (wordSize - 1)) % wordSize
        totalFreed := (g.totalFreed + freedSize) % wordSize })

end BareKernel.Memory

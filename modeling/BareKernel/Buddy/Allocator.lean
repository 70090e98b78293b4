import BareKernel.Word
import Mathlib.Algebra.Group.Nat.Defs
import Mathlib.Logic.Function.Basic

/-! The buddy allocator of `memory/buddy_system.c`. Headers are kept one array
per field, addresses are natural numbers with `0` for `NULL`, and `size_t`
arithmetic is modulo `2 ^ 64`. -/

namespace BareKernel.Buddy

open Function (update)

def headerSize : ℕ := 32

def minBlockSize : ℕ := 64

def maxOrder : ℕ := 12

/-- The block headers and the static variables. -/
structure Heap where
  size : ℕ → ℕ
  userSize : ℕ → ℕ
  isFree : ℕ → Bool
  next : ℕ → ℕ
  freeBlocks : ℕ → ℕ
  memoryStart : ℕ
  totalSize : ℕ
  currentBlocks : ℕ
  totalAllocated : ℕ
  totalFreed : ℕ

/-- The loop of `getOrder`; it takes at most `maxOrder` turns. -/
def orderLoop (size : ℕ) : ℕ → ℕ → ℕ → ℕ
  | 0, _, order => order
  | n + 1, blockSize, order =>
    if blockSize < size ∧ order < maxOrder then
      orderLoop size n (2 * blockSize % wordSize) (order + 1)
    else order

def getOrder (size : ℕ) : ℕ := orderLoop size maxOrder minBlockSize 0

def buddyInit (g : Heap) (start size : ℕ) : Heap :=
  let g := { g with memoryStart := start, totalSize := size }
  let g := { g with freeBlocks := fun i => if i ≤ maxOrder then 0 else g.freeBlocks i }
  let g := { g with size := update g.size start ((size + wordSize - headerSize) % wordSize) }
  let g := { g with userSize := update g.userSize start 0 }
  let g := { g with isFree := update g.isFree start true }
  let g := { g with next := update g.next start 0 }
  let order := getOrder ((g.size start + headerSize) % wordSize)
  { g with freeBlocks := update g.freeBlocks order start }

/-- The first order from `order` on with a free block. -/
def searchLoop (g : Heap) : ℕ → ℕ → ℕ
  | 0, order => order
  | n + 1, order =>
    if order ≤ maxOrder ∧ g.freeBlocks order = 0 then searchLoop g n (order + 1) else order

/-- Cut `block` in halves of order `order` and put the upper one on its list. -/
def splitBlock (g : Heap) (block order : ℕ) : Heap :=
  let half := 2 ^ order * minBlockSize
  let buddy := block + half
  let g := { g with size := update g.size buddy (half - headerSize) }
  let g := { g with userSize := update g.userSize buddy 0 }
  let g := { g with isFree := update g.isFree buddy true }
  let g := { g with next := update g.next buddy (g.freeBlocks order) }
  let g := { g with freeBlocks := update g.freeBlocks order buddy }
  { g with size := update g.size block (half - headerSize) }

/-- The splitting loop, from the order of `block` down to `order`. -/
def splitLoop (g : Heap) (block order : ℕ) : ℕ → Heap
  | 0 => g
  | cur + 1 => if order < cur + 1 then splitLoop (splitBlock g block cur) block order cur else g

/-- The returned pointer and the new state. -/
def buddyMalloc (g : Heap) (size : ℕ) : ℕ × Heap :=
  if size = 0 then (0, g)
  else
    let requested := size
    let order := getOrder ((size + headerSize) % wordSize)
    let cur := searchLoop g (maxOrder + 1) order
    if maxOrder < cur then (0, g)
    else
      let block := g.freeBlocks cur
      let g := { g with freeBlocks := update g.freeBlocks cur (g.next block) }
      let g := splitLoop g block order cur
      let g := { g with isFree := update g.isFree block false }
      let g := { g with userSize := update g.userSize block requested }
      let g := { g with next := update g.next block 0 }
      (block + headerSize, { g with
        currentBlocks := (g.currentBlocks + 1) % wordSize
        totalAllocated := (g.totalAllocated + requested) % wordSize })

/-- The walk for the link that points at `buddy`: the node whose `next` it is, `0`
for the head of the list; `none` inside when the list ends first, and outside
when the walk takes more steps than there are bytes. -/
def findLink (g : Heap) (buddy : ℕ) : ℕ → ℕ → ℕ → Option (Option ℕ)
  | 0, _, _ => none
  | fuel + 1, prev, cur =>
    if cur = 0 then some none
    else if cur = buddy then some (some prev)
    else findLink g buddy fuel cur (g.next cur)

/-- `*prev = link`. -/
def setLink (g : Heap) (order prev link : ℕ) : Heap :=
  if prev = 0 then { g with freeBlocks := update g.freeBlocks order link }
  else { g with next := update g.next prev link }

/-- The merging loop; it takes at most `maxOrder` turns. -/
def mergeLoop : ℕ → Heap → ℕ → ℕ → Option (Heap × ℕ × ℕ)
  | 0, g, block, order => some (g, block, order)
  | n + 1, g, block, order =>
    if order < maxOrder then
      let buddy := block ^^^ (2 ^ order * minBlockSize)
      if buddy < g.memoryStart ∨ g.memoryStart + g.totalSize ≤ buddy then some (g, block, order)
      else if g.isFree buddy = false ∨ g.size buddy ≠ g.size block then some (g, block, order)
      else
        match findLink g buddy g.totalSize 0 (g.freeBlocks order) with
        | none => none
        | some none => some (g, block, order)
        | some (some prev) =>
          let g := setLink g order prev (g.next buddy)
          let block := if buddy < block then buddy else block
          let size := (2 * (g.size block + headerSize) + wordSize - headerSize) % wordSize
          mergeLoop n { g with size := update g.size block size } block (order + 1)
    else some (g, block, order)

/-- The returned size and the new state; `none` if a walk never ends. -/
def buddyFree (g : Heap) (ptr : ℕ) : Option (ℕ × Heap) :=
  if ptr = 0 then some (0, g)
  else
    let block := ptr - headerSize
    let freedSize := g.userSize block
    let g := { g with isFree := update g.isFree block true }
    let g := { g with userSize := update g.userSize block 0 }
    let g := if freedSize ≤ g.totalAllocated then
      { g with totalAllocated := g.totalAllocated - freedSize } else g
    let g := { g with
      totalFreed := (g.totalFreed + freedSize) % wordSize
      currentBlocks := (g.currentBlocks + (wordSize - 1)) % wordSize }
    let order := getOrder ((g.size block + headerSize) % wordSize)
    match mergeLoop maxOrder g block order with
    | none => none
    | some (g, block, order) =>
      let g := { g with next := update g.next block (g.freeBlocks order) }
      some (freedSize, { g with freeBlocks := update g.freeBlocks order block })

end BareKernel.Buddy

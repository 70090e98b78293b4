import BareKernel.Kernel.Step

/-! The law of the ready ring, over all runs. It can fail in one way: a process that
is gone but still on the processor, since nobody else was ready, calls `exit_process`
again when another process has its pid. Then the slot of that one is cleared while it
stays in the ring. -/

namespace BareKernel

open Process Links Machine

/-- The ready list, the table, the states and the two cursors agree. -/
structure RingLaw (c : Core) (L : List ℕ) : Prop where
  ring : Ring (Fwd c.next) L
  head : c.readyList = L.head?.getD 0
  null : 0 ∉ L
  once : (ringProcs c L).Nodup
  noNode : L = [] → c.currentNode = 0
  node : L ≠ [] → c.currentNode ∈ L
  runnable : ∀ p, InTable c p → (p ∈ ringProcs c L ↔ c.state p = .ready ∨ c.state p = .running)
  inTable : ∀ p ∈ ringProcs c L, InTable c p
  oneRunning : ∀ p q, InTable c p → InTable c q → c.state p = .running → c.state q = .running → p = q
  current : c.state c.currentProcess = .running →
    c.currentNode ∈ L ∧ c.processInfo c.currentNode = c.currentProcess

variable {c : Core} {m : Machine} {L : List ℕ}

theorem Process.ReadyInv.law (h : ReadyInv c L) : RingLaw c L where
  ring := h.nodes.ring
  head := h.nodes.head.symm
  null := h.nodes.null
  once := h.nodes.procs
  noNode := h.nodes.noCursor
  node := h.nodes.cursor
  runnable := h.ready
  inTable := h.inTable
  oneRunning p q hp hq hrp hrq := by rw [h.running p hp hrp, h.running q hq hrq]
  current hs := by
    obtain ⟨hmem, hnode⟩ := h.cursor hs
    have hne : L ≠ [] := by
      rintro rfl
      simp [ringProcs] at hmem
    exact ⟨h.nodes.cursor hne, hnode⟩

/-- The calls that edit the ring; a new process finds a free slot and its blocks. -/
def Action.EditsRing (m : Machine) (a : Action) : Prop :=
  match a.call with
  | .createProcess _ =>
    let stack := mmMalloc { m.toCore with answers := a.answers } .stack
    (∃ i < maxProcesses, m.processesList i = 0) ∧ stack.1 ≠ 0 ∧ (mmMalloc stack.2 .record).1 ≠ 0
  | .blockProcess _ | .unblockProcess _ | .killProcess _ | .exitProcess | .quitCPU | .callScheduler => True
  | _ => False

instance (m : Machine) (a : Action) : Decidable (a.EditsRing m) := by
  apply Call.casesOn (motive := fun call => Decidable (Action.EditsRing m { a with call })) a.call <;>
    intros <;> dsimp only [Action.EditsRing] <;> infer_instance

/-- In every run of orderly calls the law holds in every state. -/
theorem ready_ring_law (h : boot.Reach (fun m a => a.call.Orderly m.toKernel) m) :
    ∃ L, RingLaw m.toCore L := by
  obtain ⟨L, hL⟩ := (boot_reach_inv h).ready
  exact ⟨L, hL.law⟩

/-- Two processes take turns, and one of them ends. -/
def twoProcesses : List Action :=
  [create 100, plain .callScheduler, create 200, plain .quitCPU, plain .callScheduler,
    plain .exitProcess]

theorem ready_ring_law_twoProcesses :
    ∃ L, RingLaw (ran (fun m a => a.call.Orderly m.toKernel) initial twoProcesses).toCore L :=
  ready_ring_law (boot_ran (by decide +kernel))

/-- The first process exits alone and goes on, creates a second one and exits again. -/
def exitTwice : List Action :=
  [create 100, plain .callScheduler, plain .exitProcess, create 200, plain .exitProcess]

theorem ready_ring_law_exitTwice :
    ¬∀ m, boot.Reach (fun m a => a.EditsRing m) m → ∃ L, RingLaw m.toCore L := by
  intro hlaw
  set m := ran (fun m a => a.EditsRing m) initial exitTwice with hm
  obtain ⟨L, hL⟩ := hlaw m (boot_ran (by decide +kernel))
  have hne : m.readyList ≠ 0 := by rw [hm]; decide +kernel
  have hgone : ¬InTable m.toCore (m.processInfo m.readyList) := by rw [hm]; decide +kernel
  apply hgone
  apply hL.inTable
  cases L with
  | nil => exact absurd hL.head hne
  | cons node L =>
    obtain rfl : m.readyList = node := hL.head
    exact List.mem_map_of_mem List.mem_cons_self

end BareKernel

import BareKernel.Kernel.Descriptors

/-! The creation of a pipe takes from four tables, one after the other: the allocator,
`pipes`, the global descriptors and the slots of the caller. When one of them has nothing
left, what has been taken from the others is given back. -/

namespace BareKernel

open Function (update)
open Process

variable {k k' k₂ : Kernel} {i pipe n : ℕ}

/-- The return value of `create_pipe`, what its two output integers hold afterwards, and
the kernel. -/
def Kernel.createPipeOut (k : Kernel) (out : ℤ × ℤ) : ℤ × (ℤ × ℤ) × Kernel :=
  match k.createPipe with
  | (none, k') => (-1, out, k')
  | (some fds, k') => (0, fds, k')

/-- There is a slot of `pipes`, a block, a pair of descriptors and two slots of the caller. -/
structure Kernel.HasRoom (k : Kernel) : Prop where
  slot : ∃ i, 2 ≤ i ∧ i < maxPipes ∧ k.pipes i = 0
  block : (mmMalloc k.toCore .pipe).1 ≠ 0
  entries : k.freeFds ≠ none
  slots : 2 ≤ (k.freeSlots k.currentProcess).length

/-- Nothing has been taken from the four tables. -/
structure NothingTaken (k k' : Kernel) : Prop where
  pipes : k'.pipes = k.pipes
  live : k'.live = k.live
  inUse : k'.inUse = k.inUse
  fdTable : k'.fdTable = k.fdTable

/-- Taken are the slot `i` of `pipes`, the block `pipe`, the descriptors `n` and `n + 1`, and
the slots `s` and `t` of the caller. -/
structure PipeTaken (k k' : Kernel) (i pipe n s t : ℕ) : Prop where
  slot : 2 ≤ i ∧ i < maxPipes ∧ k.pipes i = 0
  block : pipe ≠ 0 ∧ pipe ∉ k.live .pipe
  even : n % 2 = 0
  entries : 2 ≤ n ∧ n + 1 < maxFds ∧ k.inUse n = false ∧ k.inUse (n + 1 : ℕ) = false
  first : s < rowSize ∧ k.fdTable k.currentProcess s = -1
  second : s ≠ t ∧ t < rowSize ∧ k.fdTable k.currentProcess t = -1
  pipes : k'.pipes = update k.pipes i pipe
  live : k'.live = update k.live .pipe (pipe :: k.live .pipe)
  inUse : k'.inUse = update (update k.inUse n true) (n + 1 : ℕ) true
  ends : k'.Names pipe .read n ∧ k'.Names pipe .write (n + 1 : ℕ)
  fdTable : k'.fdTable = update k.fdTable k.currentProcess
    (update (update (k.fdTable k.currentProcess) s n) t (n + 1 : ℕ))

theorem freeFds_even (h : k.freeFds = some n) : n % 2 = 0 := by
  have hmem := List.mem_of_find?_eq_some h
  rw [List.mem_range'] at hmem
  obtain ⟨j, -, rfl⟩ := hmem
  omega

/-- Without descriptors or slots the block and the slot of `pipes` are given back. -/
theorem PipeStarted.undo (h : PipeStarted k k₂ i pipe) (hpipes : k'.pipes = k₂.pipes) (hcore : k'.toCore = k₂.toCore)
    (hin : k'.inUse = k.inUse) (htable : k'.fdTable = k.fdTable) : NothingTaken k (k'.freePipe i) := by
  obtain ⟨rest, hstart⟩ := h.core
  have hslot : k'.pipes = update k.pipes i pipe := by
    rw [hpipes, h.toPipes]
  have hlive : k'.live = update k.live .pipe (pipe :: k.live .pipe) := by
    rw [hcore, hstart]
  refine ⟨?_, ?_, hin, htable⟩
  · show update k'.pipes i 0 = k.pipes
    rw [hslot, Function.update_idem, ← h.slot.2.2, Function.update_eq_self]
  · show update k'.live .pipe ((k'.live .pipe).erase (k'.pipes i)) = k.live
    rw [hslot, hlive, Function.update_self, Function.update_self, List.erase_cons_head, Function.update_idem,
      Function.update_eq_self]

/-- A creation that fails leaves the four tables and the two output integers as they were;
it fails only where something is missing. One that succeeds has taken a free slot, an
adjacent pair of free descriptors, two free slots of the caller, and nothing else. -/
theorem create_pipe_clean (k : Kernel) (out : ℤ × ℤ) :
    ((k.createPipeOut out).1 = -1 ∧ (k.createPipeOut out).2.1 = out ∧ ¬k.HasRoom ∧
        NothingTaken k (k.createPipeOut out).2.2) ∨
      ∃ i pipe n s t : ℕ, (k.createPipeOut out).1 = 0 ∧ (k.createPipeOut out).2.1 = ((n : ℤ), ((n + 1 : ℕ) : ℤ)) ∧
        PipeTaken k (k.createPipeOut out).2.2 i pipe n s t := by
  unfold Kernel.createPipeOut
  rcases createPipe_stages k with ⟨hfull, hnone⟩ | ⟨hno, rest, hnone⟩ | ⟨i, pipe, k₂, hstart, hattach⟩
  · rw [hnone]
    refine Or.inl ⟨rfl, rfl, ?_, rfl, rfl, rfl, rfl⟩
    rintro ⟨⟨i, h2, hi, hfree⟩, -, -, -⟩
    exact hfull i h2 hi hfree
  · rw [hnone]
    refine Or.inl ⟨rfl, rfl, ?_, rfl, rfl, rfl, rfl⟩
    intro hroom
    exact hroom.block hno
  · obtain ⟨rest, hcore⟩ := hstart.core
    have hcur : k₂.currentProcess = k.currentProcess := by rw [hcore]
    have hin : k₂.inUse = k.inUse := by rw [hstart.toPipes]
    have htable : k₂.fdTable = k.fdTable := by rw [hstart.toPipes]
    have hfds : k₂.freeFds = k.freeFds := by
      unfold Kernel.freeFds
      rw [hin]
    have hslots : k₂.freeSlots k₂.currentProcess = k.freeSlots k.currentProcess := by
      unfold Kernel.freeSlots
      rw [htable, hcur]
    rw [hattach]
    rcases attachPipe_cases k₂ i pipe with ⟨hnofds, hnone⟩ | ⟨n, hn, hcases⟩
    · rw [hnone]
      refine Or.inl ⟨rfl, rfl, ?_, hstart.undo rfl rfl hin htable⟩
      intro hroom
      exact hroom.entries (hfds.symm.trans hnofds)
    · have heven : n % 2 = 0 := freeFds_even hn
      obtain ⟨hn2, hn20, hfirst, hsecond⟩ := freeFds_some hn
      rw [hin] at hfirst hsecond
      rw [hslots] at hcases
      rcases hcases with ⟨hfew, hnone⟩ | ⟨s, t, more, hs, hmade⟩
      · rw [hnone]
        refine Or.inl ⟨rfl, rfl, ?_, hstart.undo rfl rfl ?_ htable⟩
        · intro hroom
          exact absurd hroom.slots (by omega)
        · show update (update (update (update k₂.inUse n true) (n + 1 : ℕ) true) n false) (n + 1 : ℕ) false = k.inUse
          rw [hin]
          exact update_reset hfirst hsecond
      · rw [hmade]
        have hne : (n : ℤ) ≠ (n + 1 : ℕ) := by omega
        refine Or.inr ⟨i, pipe, n, s, t, rfl, rfl, hstart.slot, hstart.block, heven, ⟨hn2, hn20, hfirst, hsecond⟩,
          freeSlots_cons hs, freeSlots_two hs, ?_, ?_, ?_, ⟨?_, ?_⟩, ?_⟩
        · show k₂.pipes = _
          rw [hstart.toPipes]
        · show k₂.live = _
          rw [hcore]
        · show update (update k₂.inUse n true) (n + 1 : ℕ) true = _
          rw [hin]
        · refine ⟨by omega, by omega, ?_, ?_, ?_⟩
          · show update (update k₂.inUse n true) (n + 1 : ℕ) true n = true
            rw [Function.update_of_ne hne, Function.update_self]
          · show update (update k₂.fdPipe n pipe) (n + 1 : ℕ) pipe n = pipe
            rw [Function.update_of_ne hne, Function.update_self]
          · show update (update k₂.fdType n .read) (n + 1 : ℕ) .write n = .read
            rw [Function.update_of_ne hne, Function.update_self]
        · exact ⟨by omega, by omega, Function.update_self .., Function.update_self .., Function.update_self ..⟩
        · show update k₂.fdTable k₂.currentProcess _ = _
          rw [htable, hcur]

end BareKernel

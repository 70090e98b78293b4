import BareKernel.Kernel.CallEffect
import BareKernel.Links.Entries

/-! The descriptors of pipes. An entry of the global table is in use as one end of a
pipe, and the slots of the processes hold descriptors; both ends of a pipe count the
slots that hold them. -/

namespace BareKernel

open Function (update)
open Process Links

/-- The processes of the table. -/
def tableProcs (c : Core) : Finset ℕ := ((Finset.range maxProcesses).image c.processesList).erase 0

theorem mem_tableProcs {c : Core} {p : ℕ} : p ∈ tableProcs c ↔ InTable c p := by
  unfold tableProcs InTable
  rw [Finset.mem_erase, Finset.mem_image]
  simp only [Finset.mem_range]

theorem tableProcs_congr {c c' : Core} (h : c'.processesList = c.processesList) : tableProcs c' = tableProcs c := by
  unfold tableProcs
  rw [h]

/-- The number of slots of a process's own descriptor table. -/
def rowSize : ℕ := maxBuff * 2

namespace Kernel

/-- The pipe is one of `pipes`. -/
def HasPipe (k : Kernel) (pipe : ℕ) : Prop := pipe ≠ 0 ∧ ∃ i < maxPipes, k.pipes i = pipe

/-- The entry `fd` is in use as that end of the pipe. -/
structure Names (k : Kernel) (pipe : ℕ) (ty : FDType) (fd : ℤ) : Prop where
  low : 0 ≤ fd
  high : fd < maxFds
  inUse : k.inUse fd = true
  fdPipe : k.fdPipe fd = pipe
  fdType : k.fdType fd = ty

instance (k : Kernel) (pipe : ℕ) (ty : FDType) : DecidablePred (k.Names pipe ty) := fun fd =>
  decidable_of_iff (0 ≤ fd ∧ fd < maxFds ∧ k.inUse fd = true ∧ k.fdPipe fd = pipe ∧ k.fdType fd = ty)
    ⟨fun ⟨h1, h2, h3, h4, h5⟩ => ⟨h1, h2, h3, h4, h5⟩, fun ⟨h1, h2, h3, h4, h5⟩ => ⟨h1, h2, h3, h4, h5⟩⟩

/-- The descriptor names an entry that is in use as an end of a pipe. -/
structure ValidFd (k : Kernel) (fd : ℤ) : Prop where
  low : 0 ≤ fd
  high : fd < maxFds
  inUse : k.inUse fd = true
  hasPipe : k.HasPipe (k.fdPipe fd)
  isEnd : k.fdType fd ≠ .unused

/-- The number of slots of these processes that hold that end of the pipe. -/
def holders (k : Kernel) (S : Finset ℕ) (pipe : ℕ) (ty : FDType) : ℕ :=
  entryCount k.fdTable S rowSize (k.Names pipe ty)

/-- The count that the pipe keeps of that end. -/
def openCount (k : Kernel) (pipe : ℕ) : FDType → ℤ
  | .unused => 0
  | .read => k.readOpen pipe
  | .write => k.writeOpen pipe

end Kernel

variable {k k' : Kernel} {c : Core} {pipe p i j : ℕ} {ty : FDType} {fd pid v w : ℤ}

theorem Kernel.ValidFd.names (h : k.ValidFd fd) : k.Names (k.fdPipe fd) (k.fdType fd) fd :=
  ⟨h.low, h.high, h.inUse, rfl, rfl⟩

theorem not_names_neg : ¬k.Names pipe ty (-1) := by
  intro h
  have := h.low
  omega

/-- The pipes, the blocks they lie in, and the entries in use are the same. -/
structure SameEntries (k k' : Kernel) : Prop where
  pipes : k'.pipes = k.pipes
  live : k'.live .pipe = k.live .pipe
  pipeId : ∀ pipe, k.HasPipe pipe → k'.pipeId pipe = k.pipeId pipe
  inUse : k'.inUse = k.inUse
  fdPipe : ∀ fd, k.inUse fd = true → k'.fdPipe fd = k.fdPipe fd
  fdType : ∀ fd, k.inUse fd = true → k'.fdType fd = k.fdType fd

theorem SameEntries.hasPipe (h : SameEntries k k') : k'.HasPipe pipe ↔ k.HasPipe pipe := by
  unfold Kernel.HasPipe
  rw [h.pipes]

theorem SameEntries.names (h : SameEntries k k') : k'.Names pipe ty fd ↔ k.Names pipe ty fd := by
  constructor
  · rintro ⟨h1, h2, h3, h4, h5⟩
    rw [h.inUse] at h3
    exact ⟨h1, h2, h3, h.fdPipe fd h3 ▸ h4, h.fdType fd h3 ▸ h5⟩
  · rintro ⟨h1, h2, h3, h4, h5⟩
    exact ⟨h1, h2, by rwa [h.inUse], by rwa [h.fdPipe fd h3], by rwa [h.fdType fd h3]⟩

theorem SameEntries.validFd (h : SameEntries k k') : k'.ValidFd fd ↔ k.ValidFd fd := by
  constructor
  · rintro ⟨h1, h2, h3, h4, h5⟩
    rw [h.inUse] at h3
    rw [h.fdPipe fd h3, h.hasPipe] at h4
    exact ⟨h1, h2, h3, h4, h.fdType fd h3 ▸ h5⟩
  · rintro ⟨h1, h2, h3, h4, h5⟩
    rw [← h.hasPipe, ← h.fdPipe fd h3] at h4
    exact ⟨h1, h2, by rwa [h.inUse], h4, by rwa [h.fdType fd h3]⟩

/-- Besides, the slots of the processes and the counts of the pipes are the same. -/
structure SameFds (k k' : Kernel) : Prop extends SameEntries k k' where
  fdTable : k'.fdTable = k.fdTable
  openCount : ∀ pipe ty, k.HasPipe pipe → k'.openCount pipe ty = k.openCount pipe ty

theorem SameFds.holders (h : SameFds k k') (S : Finset ℕ) : k'.holders S pipe ty = k.holders S pipe ty := by
  unfold Kernel.holders
  rw [h.fdTable]
  exact entryCount_congr fun _ _ _ _ => h.names

/-- Nothing about pipes has changed. -/
theorem SameFds.of_eq (hp : k'.toPipes = k.toPipes) (hl : k'.live .pipe = k.live .pipe) : SameFds k k' := by
  have hfield {α : Type} (f : Pipes → α) : f k'.toPipes = f k.toPipes := congrArg f hp
  refine ⟨⟨hfield Pipes.pipes, hl, fun pipe _ => congrFun (hfield Pipes.pipeId) pipe, hfield Pipes.inUse,
    fun fd _ => congrFun (hfield Pipes.fdPipe) fd, fun fd _ => congrFun (hfield Pipes.fdType) fd⟩,
    hfield Pipes.fdTable, fun pipe ty _ => ?_⟩
  cases ty with
  | unused => rfl
  | read => exact congrFun (hfield Pipes.readOpen) pipe
  | write => exact congrFun (hfield Pipes.writeOpen) pipe

/-! ### What the operations change -/

theorem semOpen_toPipes (k : Kernel) (id v : ℤ) : (k.semOpen id v).2.toPipes = k.toPipes := by
  obtain ⟨sems, h⟩ := semOpen_eq k id v
  rw [h]

theorem semOpen_toCore (k : Kernel) (id v : ℤ) : (k.semOpen id v).2.toCore = k.toCore := by
  obtain ⟨sems, h⟩ := semOpen_eq k id v
  rw [h]

theorem pipeInit_toCore (k : Kernel) (pipe : ℕ) : (k.pipeInit pipe).toCore = k.toCore := by
  unfold Kernel.pipeInit
  rw [semOpen_toCore]
  exact semOpen_toCore _ _ _

/-- A pipe starts with one reader and one writer. -/
theorem pipeInit_toPipes (k : Kernel) (pipe : ℕ) : (k.pipeInit pipe).toPipes =
    { k.toPipes with
      buffer := update k.buffer pipe fun _ => 0
      readPos := update k.readPos pipe 0
      writePos := update k.writePos pipe 0
      readOpen := update k.readOpen pipe 1
      writeOpen := update k.writeOpen pipe 1
      semDataAvailable := update k.semDataAvailable pipe 1
      semFreeSpace := update k.semFreeSpace pipe 2 } := by
  unfold Kernel.pipeInit
  extract_lets k₁ k₂ k₃ k₄ k₅ k₆
  rw [semOpen_toPipes]
  have h₅ : k₅.toPipes = k₄.toPipes := semOpen_toPipes k₄ 1 0
  show { k₅.toPipes with semFreeSpace := update k₅.semFreeSpace pipe 2 } = _
  rw [h₅]

theorem freeFds_some {n : ℕ} (h : k.freeFds = some n) :
    2 ≤ n ∧ n + 1 < maxFds ∧ k.inUse n = false ∧ k.inUse (n + 1 : ℕ) = false := by
  have hmem := List.mem_of_find?_eq_some h
  rw [List.mem_range'] at hmem
  obtain ⟨j, hj, rfl⟩ := hmem
  have hfree := List.find?_some h
  simp only [decide_eq_true_eq] at hfree
  have hmax : maxPipes = 10 := rfl
  have hfds : maxFds = 20 := rfl
  exact ⟨by omega, by omega, hfree⟩

theorem freeSlots_cons {rest : List ℕ} (h : k.freeSlots p = i :: rest) : i < rowSize ∧ k.fdTable p i = -1 := by
  have hmem : i ∈ k.freeSlots p := by
    rw [h]
    exact List.mem_cons_self
  unfold Kernel.freeSlots at hmem
  rw [List.mem_filter, List.mem_range] at hmem
  exact ⟨hmem.1, by simpa using hmem.2⟩

theorem freeSlots_two {rest : List ℕ} (h : k.freeSlots p = i :: j :: rest) :
    i ≠ j ∧ j < rowSize ∧ k.fdTable p j = -1 := by
  have hnodup : (k.freeSlots p).Nodup := List.nodup_range.filter _
  have hmem : j ∈ k.freeSlots p := by
    rw [h]
    exact List.mem_cons_of_mem _ List.mem_cons_self
  rw [h] at hnodup
  unfold Kernel.freeSlots at hmem
  rw [List.mem_filter, List.mem_range] at hmem
  refine ⟨?_, hmem.1, by simpa using hmem.2⟩
  rintro rfl
  simp at hnodup

/-- A pipe has been created in the block `pipe`; its ends are the entries `n` and
`n + 1`, which two slots of the caller hold. -/
structure PipeMade (k k' : Kernel) (i pipe n s t : ℕ) : Prop where
  slot : i < maxPipes ∧ k.pipes i = 0
  block : pipe ≠ 0 ∧ pipe ∉ k.live .pipe
  entries : 2 ≤ n ∧ n + 1 < maxFds ∧ k.inUse n = false ∧ k.inUse (n + 1 : ℕ) = false
  first : s < rowSize ∧ k.fdTable k.currentProcess s = -1
  second : s ≠ t ∧ t < rowSize ∧ k.fdTable k.currentProcess t = -1
  live : k'.live .pipe = pipe :: k.live .pipe
  toPipes : k'.toPipes =
    { k.toPipes with
      pipes := update k.pipes i pipe
      buffer := update k.buffer pipe fun _ => 0
      readPos := update k.readPos pipe 0
      writePos := update k.writePos pipe 0
      readOpen := update k.readOpen pipe 1
      writeOpen := update k.writeOpen pipe 1
      semDataAvailable := update k.semDataAvailable pipe 1
      semFreeSpace := update k.semFreeSpace pipe 2
      pipeId := update k.pipeId pipe i
      fdPipe := update (update k.fdPipe n pipe) (n + 1 : ℕ) pipe
      fdType := update (update k.fdType n .read) (n + 1 : ℕ) .write
      inUse := update (update k.inUse n true) (n + 1 : ℕ) true
      fdTable := update k.fdTable k.currentProcess
        (update (update (k.fdTable k.currentProcess) s n) t (n + 1 : ℕ)) }

theorem attachPipe_cases (k : Kernel) (i pipe : ℕ) :
    (k.freeFds = none ∧ k.attachPipe i pipe = (none, k.freePipe i)) ∨ ∃ n, k.freeFds = some n ∧
      ((k.freeSlots k.currentProcess).length < 2 ∧
          k.attachPipe i pipe = (none, { k.openFds pipe n with
            inUse := update (update (k.openFds pipe n).inUse n false) (n + 1 : ℕ) false }.freePipe i) ∨
        ∃ s t rest, k.freeSlots k.currentProcess = s :: t :: rest ∧ k.attachPipe i pipe =
          (some ((n : ℤ), ((n + 1 : ℕ) : ℤ)), { k.openFds pipe n with
            fdTable := update k.fdTable k.currentProcess
              (update (update (k.fdTable k.currentProcess) s n) t (n + 1 : ℕ)) })) := by
  unfold Kernel.attachPipe
  cases hfds : k.freeFds with
  | none => exact Or.inl ⟨rfl, rfl⟩
  | some n =>
    refine Or.inr ⟨n, rfl, ?_⟩
    have hslots : (k.openFds pipe n).freeSlots (k.openFds pipe n).currentProcess = k.freeSlots k.currentProcess := rfl
    dsimp only
    rw [hslots]
    match hs : k.freeSlots k.currentProcess with
    | [] => exact Or.inl ⟨by simp, rfl⟩
    | [_] => exact Or.inl ⟨by simp, rfl⟩
    | s :: t :: rest => exact Or.inr ⟨s, t, rest, rfl, rfl⟩

theorem update_reset {α β : Type*} [DecidableEq α] {f : α → β} {x y : α} {a b : β} (hx : f x = a) (hy : f y = a) :
    update (update (update (update f x b) y b) x a) y a = f := by
  funext z
  by_cases hzy : z = y
  · rw [hzy, Function.update_self, hy]
  · rw [Function.update_of_ne hzy]
    by_cases hzx : z = x
    · rw [hzx, Function.update_self, hx]
    · rw [Function.update_of_ne hzx, Function.update_of_ne hzy, Function.update_of_ne hzx]

/-- Freeing a pipe that has just been put into a free slot. -/
theorem freePipe_undo (hlive : ∀ q, k.HasPipe q → q ≠ pipe) (hi : k.pipes i = 0)
    (hl : k'.live .pipe = pipe :: k.live .pipe) (hp : k'.pipes = update k.pipes i pipe)
    (hid : k'.pipeId = update k.pipeId pipe i) (hin : k'.inUse = k.inUse)
    (hfd : ∀ fd, k.inUse fd = true → k'.fdPipe fd = k.fdPipe fd ∧ k'.fdType fd = k.fdType fd)
    (ht : k'.fdTable = k.fdTable) (hr : k'.readOpen = update k.readOpen pipe 1)
    (hw : k'.writeOpen = update k.writeOpen pipe 1) : SameFds k (k'.freePipe i) := by
  refine ⟨⟨?_, ?_, fun q hq => ?_, hin, fun fd h => (hfd fd h).1, fun fd h => (hfd fd h).2⟩, ht, fun q ty hq => ?_⟩
  · show update k'.pipes i 0 = k.pipes
    rw [hp, Function.update_idem, ← hi, Function.update_eq_self]
  · show update k'.live .pipe ((k'.live .pipe).erase (k'.pipes i)) .pipe = k.live .pipe
    rw [Function.update_self, hl, hp, Function.update_self, List.erase_cons_head]
  · show k'.pipeId q = k.pipeId q
    rw [hid, Function.update_of_ne (hlive q hq)]
  · cases ty with
    | unused => rfl
    | read =>
      show k'.readOpen q = k.readOpen q
      rw [hr, Function.update_of_ne (hlive q hq)]
    | write =>
      show k'.writeOpen q = k.writeOpen q
      rw [hw, Function.update_of_ne (hlive q hq)]

/-- A pipe lies in a new block and has a slot of `pipes`, but no descriptors yet. -/
structure PipeStarted (k k' : Kernel) (i pipe : ℕ) : Prop where
  slot : 2 ≤ i ∧ i < maxPipes ∧ k.pipes i = 0
  block : pipe ≠ 0 ∧ pipe ∉ k.live .pipe
  core : ∃ rest, k'.toCore =
    { k.toCore with answers := rest, live := update k.live .pipe (pipe :: k.live .pipe) }
  toPipes : k'.toPipes =
    { k.toPipes with
      pipes := update k.pipes i pipe
      buffer := update k.buffer pipe fun _ => 0
      readPos := update k.readPos pipe 0
      writePos := update k.writePos pipe 0
      readOpen := update k.readOpen pipe 1
      writeOpen := update k.writeOpen pipe 1
      semDataAvailable := update k.semDataAvailable pipe 1
      semFreeSpace := update k.semFreeSpace pipe 2
      pipeId := update k.pipeId pipe i }

/-- The creation fails early, or only the descriptors are left to do. -/
theorem createPipe_stages (k : Kernel) :
    ((∀ i, 2 ≤ i → i < maxPipes → k.pipes i ≠ 0) ∧ k.createPipe = (none, k)) ∨
      ((mmMalloc k.toCore .pipe).1 = 0 ∧ ∃ rest, k.createPipe = (none, { k with answers := rest })) ∨
      ∃ i pipe k₂, PipeStarted k k₂ i pipe ∧ k.createPipe = k₂.attachPipe i pipe := by
  rcases createPipe_tries k with hfull | hfail | ⟨i, pipe, rest, k₁, hi, hblock, hk₁, hattach⟩
  · exact Or.inl hfull
  · exact Or.inr (Or.inl hfail)
  · set k₂ : Kernel := { k₁.pipeInit pipe with pipeId := update (k₁.pipeInit pipe).pipeId pipe i } with hk₂
    have hcore : k₂.toCore = k₁.toCore := pipeInit_toCore k₁ pipe
    have hpipes : k₂.toPipes = { (k₁.pipeInit pipe).toPipes with
        pipeId := update (k₁.pipeInit pipe).toPipes.pipeId pipe i } := rfl
    rw [pipeInit_toPipes] at hpipes
    rw [hk₁] at hcore hpipes
    exact Or.inr (Or.inr ⟨i, pipe, k₂, ⟨hi, hblock, ⟨rest, hcore⟩, hpipes⟩, hattach⟩)

/-- A failed creation leaves no trace in what is in use. -/
theorem createPipe_cases (k : Kernel) :
    (k.createPipe.1 = none ∧ ((∀ pipe, k.HasPipe pipe → pipe ∈ k.live .pipe) → SameFds k k.createPipe.2)) ∨
      ∃ i pipe n s t : ℕ, k.createPipe.1 = some ((n : ℤ), ((n + 1 : ℕ) : ℤ)) ∧
        PipeMade k k.createPipe.2 i pipe n s t := by
  rcases createPipe_stages k with ⟨-, hnone⟩ | ⟨-, rest, hnone⟩ | ⟨i, pipe, k₂, hstart, hattach⟩
  · rw [hnone]
    exact Or.inl ⟨rfl, fun _ => .of_eq rfl rfl⟩
  · rw [hnone]
    exact Or.inl ⟨rfl, fun _ => .of_eq rfl rfl⟩
  · obtain ⟨⟨-, hi⟩, ⟨h0, hfresh⟩, ⟨rest, hcore⟩, hpipes⟩ := hstart
    rw [hattach]
    have hcur : k₂.currentProcess = k.currentProcess := by rw [hcore]
    have hlive₂ : k₂.live .pipe = pipe :: k.live .pipe := by
      rw [hcore]
      show update k.live .pipe (pipe :: k.live .pipe) .pipe = _
      rw [Function.update_self]
    have hin : k₂.inUse = k.inUse := by rw [hpipes]
    have htable : k₂.fdTable = k.fdTable := by rw [hpipes]
    have hne (hlive : ∀ q, k.HasPipe q → q ∈ k.live .pipe) : ∀ q, k.HasPipe q → q ≠ pipe := by
      rintro q hq rfl
      exact hfresh (hlive q hq)
    rcases attachPipe_cases k₂ i pipe with ⟨-, hnone⟩ | ⟨n, hfds, ⟨-, hfull⟩ | ⟨s, t, more, hs, hmade⟩⟩
    · rw [hnone]
      refine Or.inl ⟨rfl, fun hlive => ?_⟩
      refine freePipe_undo (hne hlive) hi.2 hlive₂ ?_ ?_ hin (fun fd _ => ?_) htable ?_ ?_
      all_goals rw [hpipes]
      exact ⟨rfl, rfl⟩
    · obtain ⟨-, -, hn, hn'⟩ := freeFds_some hfds
      rw [hin] at hn hn'
      have hfd (fd : ℤ) (h : k.inUse fd = true) : fd ≠ n ∧ fd ≠ (n + 1 : ℕ) := by
        constructor
        · rintro rfl
          rw [hn] at h
          cases h
        · rintro rfl
          rw [hn'] at h
          cases h
      rw [hfull]
      refine Or.inl ⟨rfl, fun hlive => ?_⟩
      refine freePipe_undo (hne hlive) hi.2 hlive₂ ?_ ?_ ?_ (fun fd h => ⟨?_, ?_⟩) htable ?_ ?_
      · show k₂.pipes = _
        rw [hpipes]
      · show k₂.pipeId = _
        rw [hpipes]
      · show update (update (update (update k₂.inUse n true) (n + 1 : ℕ) true) n false) (n + 1 : ℕ) false = k.inUse
        rw [hin]
        exact update_reset hn hn'
      · show update (update k₂.fdPipe n pipe) (n + 1 : ℕ) pipe fd = k.fdPipe fd
        rw [Function.update_of_ne (hfd fd h).2, Function.update_of_ne (hfd fd h).1, hpipes]
      · show update (update k₂.fdType n .read) (n + 1 : ℕ) .write fd = k.fdType fd
        rw [Function.update_of_ne (hfd fd h).2, Function.update_of_ne (hfd fd h).1, hpipes]
      · show k₂.readOpen = _
        rw [hpipes]
      · show k₂.writeOpen = _
        rw [hpipes]
    · obtain ⟨hn2, hn20, hn, hn'⟩ := freeFds_some hfds
      rw [hin] at hn hn'
      rw [hcur] at hs hmade
      have hsame : k₂.freeSlots k.currentProcess = k.freeSlots k.currentProcess := by
        unfold Kernel.freeSlots
        rw [htable]
      rw [hsame] at hs
      rw [hmade]
      refine Or.inr ⟨i, pipe, n, s, t, rfl, hi, ⟨h0, hfresh⟩, ⟨hn2, hn20, hn, hn'⟩, freeSlots_cons hs,
        freeSlots_two hs, ?_, ?_⟩
      · exact hlive₂
      · unfold Kernel.openFds
        dsimp only
        rw [hpipes]

end BareKernel

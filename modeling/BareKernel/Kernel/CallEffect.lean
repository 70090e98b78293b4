import BareKernel.Kernel.SleepList

/-! One lemma for each call: what it returns and what it does to the processes and
to the rest of the kernel. -/

namespace BareKernel

open Function (update)
open Process Links

variable {k k' k₁ : Kernel} {c c' : Core} {L E : List ℕ} {p q : ℕ} {pid r id v fd : ℤ} {again : Bool}

theorem KernelInv.congr (h : KernelInv k) (hcore : k'.toCore = k.toCore)
    (hs : k'.toSleepQueue = k.toSleepQueue) : KernelInv k' := by
  obtain ⟨E, hE⟩ := h.sleepers
  refine ⟨?_, ?_, E, hE.congr hs (by rw [hcore])⟩
  · rw [hcore]
    exact h.ready
  · rw [hcore]
    exact h.pids

/-- The invariant does not look at the coming answers of the allocator. -/
theorem KernelInv.supply (h : KernelInv k) (answers : List ℕ) :
    KernelInv { k with answers := answers } := by
  obtain ⟨L, hL⟩ := h.ready
  obtain ⟨E, hE⟩ := h.sleepers
  exact ⟨⟨L, hL.congr rfl rfl rfl rfl rfl hL.records⟩, h.pids.congr rfl rfl rfl, E, hE.congr rfl rfl⟩

/-! ### Changes to the pipes only -/

/-- Only pipes, descriptors and the allocator have changed. -/
structure PipesOnly (k k' : Kernel) : Prop where
  core : ∃ answers live, k'.toCore = { k.toCore with answers := answers, live := live } ∧
    ∀ kind, kind ≠ .pipe → live kind = k.live kind
  sleep : k'.toSleepQueue = k.toSleepQueue
  sems : k'.sems = k.sems
  ticks : k'.ticks = k.ticks

theorem PipesOnly.refl (k : Kernel) : PipesOnly k k := ⟨⟨k.answers, k.live, rfl, fun _ _ => rfl⟩, rfl, rfl, rfl⟩

theorem PipesOnly.trans (h : PipesOnly k k₁) (h' : PipesOnly k₁ k') : PipesOnly k k' := by
  obtain ⟨answers, live, hcore, hlive⟩ := h.core
  obtain ⟨answers', live', hcore', hlive'⟩ := h'.core
  refine ⟨⟨answers', live', ?_, fun kind hk => ?_⟩, h'.sleep.trans h.sleep, h'.sems.trans h.sems,
    h'.ticks.trans h.ticks⟩
  · rw [hcore', hcore]
  · rw [hlive' kind hk, show k₁.live = live by rw [hcore], hlive kind hk]

/-- A change of the pipes and descriptors alone. -/
theorem PipesOnly.set (k : Kernel) (pipes : Pipes) : PipesOnly k { k with toPipes := pipes } :=
  ⟨⟨k.answers, k.live, rfl, fun _ _ => rfl⟩, rfl, rfl, rfl⟩

theorem freePipe_only (k : Kernel) (i : ℕ) : PipesOnly k (k.freePipe i) :=
  ⟨⟨k.answers, _, rfl, fun _ hk => Function.update_of_ne hk ..⟩, rfl, rfl, rfl⟩

/-- An access leaves everything, or it puts the descriptor into the first free slot and counts it. -/
theorem pipeAccses_cases (k : Kernel) (pid fd : ℤ) : (k.pipeAccses pid fd).2 = k ∨
    0 ≤ fd ∧ ∃ i rest, k.freeSlots (getProcessByPid k.toCore pid) = i :: rest ∧ (k.pipeAccses pid fd).2 = { k with
      fdTable := update k.fdTable (getProcessByPid k.toCore pid)
        (update (k.fdTable (getProcessByPid k.toCore pid)) i fd)
      readOpen := update k.readOpen (k.fdPipe fd)
        (if k.fdType fd = .read then k.readOpen (k.fdPipe fd) + 1 else k.readOpen (k.fdPipe fd))
      writeOpen := update k.writeOpen (k.fdPipe fd)
        (if k.fdType fd = .write then k.writeOpen (k.fdPipe fd) + 1 else k.writeOpen (k.fdPipe fd)) } := by
  unfold Kernel.pipeAccses
  by_cases hfd : (maxFds : ℤ) < fd ∨ fd < 0
  · rw [if_pos hfd]
    exact Or.inl rfl
  · rw [if_neg hfd]
    dsimp only
    cases hs : k.freeSlots (getProcessByPid k.toCore pid) with
    | nil => exact Or.inl rfl
    | cons i rest => exact Or.inr ⟨not_lt.mp fun hlow => hfd (Or.inr hlow), i, rest, rfl, rfl⟩

theorem pipeAccses_only (k : Kernel) (pid fd : ℤ) : PipesOnly k (k.pipeAccses pid fd).2 := by
  rcases pipeAccses_cases k pid fd with h | ⟨-, i, rest, -, h⟩
  · rw [h]
    exact .refl k
  · rw [h]
    exact .set k _

theorem pipeDestroy_only (k : Kernel) (fd : ℤ) : PipesOnly k (k.pipeDestroy fd) :=
  (PipesOnly.set k _).trans (freePipe_only _ _)

theorem dropFd_only (k : Kernel) (fd : ℤ) (i : ℕ) : PipesOnly k (k.dropFd fd i) := .set k _

theorem pipeClose_only (k : Kernel) (fd : ℤ) : PipesOnly k (k.pipeClose fd).2 := by
  unfold Kernel.pipeClose
  split
  · exact .refl k
  · dsimp only
    split
    · exact .refl k
    · rename_i i _
      dsimp only
      split
      · exact (dropFd_only k fd i).trans (pipeDestroy_only _ _)
      · exact dropFd_only k fd i

theorem foldl_only {f : Kernel → ℕ → Kernel} (hf : ∀ k i, PipesOnly k (f k i)) (l : List ℕ) (k : Kernel) :
    PipesOnly k (l.foldl f k) := by
  induction l generalizing k with
  | nil => exact .refl k
  | cons i l ih => exact (hf k i).trans (ih _)

theorem semOpen_eq (k : Kernel) (id v : ℤ) : ∃ sems, (k.semOpen id v).2 = { k with sems := sems } := by
  unfold Kernel.semOpen
  split
  · exact ⟨k.sems, rfl⟩
  · split
    · exact ⟨k.sems, rfl⟩
    · exact ⟨_, rfl⟩

theorem pipeInit_eq (k : Kernel) (pipe : ℕ) :
    ∃ pipes sems, k.pipeInit pipe = { k with toPipes := pipes, sems := sems } := by
  unfold Kernel.pipeInit
  extract_lets k₁ k₂ k₃ k₄ k₅ k₆
  obtain ⟨sems, h₅⟩ := semOpen_eq k₄ 1 0
  obtain ⟨sems', h₆⟩ := semOpen_eq k₆ 2 bufferSize
  refine ⟨{ k₄.toPipes with semFreeSpace := update k₄.semFreeSpace pipe 2 }, sems', ?_⟩
  rw [h₆]
  show { k₅ with semFreeSpace := _, sems := sems' } = _
  rw [show k₅ = _ from h₅]

theorem attachPipe_only (k : Kernel) (i pipe : ℕ) : PipesOnly k (k.attachPipe i pipe).2 := by
  unfold Kernel.attachPipe
  split
  · exact freePipe_only k i
  · dsimp only
    split
    · exact .set k _
    · exact (PipesOnly.set k _).trans (freePipe_only _ i)

/-- A creation finds no place, gets no block, or attaches a block that was free. -/
theorem createPipe_tries (k : Kernel) :
    ((∀ i, 2 ≤ i → i < maxPipes → k.pipes i ≠ 0) ∧ k.createPipe = (none, k)) ∨
      ((mmMalloc k.toCore .pipe).1 = 0 ∧ ∃ rest, k.createPipe = (none, { k with answers := rest })) ∨
      ∃ (i pipe : ℕ) (rest : List ℕ) (k₁ : Kernel),
        (2 ≤ i ∧ i < maxPipes ∧ k.pipes i = 0) ∧ (pipe ≠ 0 ∧ pipe ∉ k.live .pipe) ∧
        k₁ = { k with
          answers := rest
          live := update k.live .pipe (pipe :: k.live .pipe)
          pipes := update k.pipes i pipe } ∧
        k.createPipe = Kernel.attachPipe
          { k₁.pipeInit pipe with pipeId := update (k₁.pipeInit pipe).pipeId pipe i } i pipe := by
  unfold Kernel.createPipe
  cases hf : (List.range' 2 (maxPipes - 2)).find? fun i => k.pipes i = 0 with
  | none =>
    refine Or.inl ⟨fun i h2 hi => ?_, rfl⟩
    have hmem : i ∈ List.range' 2 (maxPipes - 2) := by
      rw [List.mem_range'_1]
      omega
    simpa using List.find?_eq_none.mp hf i hmem
  | some i =>
    have hi : 2 ≤ i ∧ i < maxPipes ∧ k.pipes i = 0 := by
      have hmem := List.mem_of_find?_eq_some hf
      have hzero := List.find?_some hf
      rw [List.mem_range'_1] at hmem
      have hmax : maxPipes = 10 := rfl
      exact ⟨by omega, by omega, by simpa using hzero⟩
    rcases mmMalloc_cases k.toCore .pipe with ⟨rest, hm⟩ | ⟨pipe, rest, h0, hfresh, hm⟩
    · simp only [hm, if_true]
      exact Or.inr (Or.inl ⟨trivial, rest, rfl⟩)
    · simp only [hm, h0, if_false]
      exact Or.inr (Or.inr ⟨i, pipe, rest, _, hi, ⟨h0, hfresh⟩, rfl, rfl⟩)

/-- A new pipe also opens the semaphores of the pipes. -/
theorem createPipe_only (k : Kernel) : ∃ sems, PipesOnly { k with sems := sems } k.createPipe.2 := by
  rcases createPipe_tries k with ⟨-, hnone⟩ | ⟨-, rest, hnone⟩ | ⟨i, pipe, rest, k₁, -, -, rfl, hattach⟩
  · rw [hnone]
    exact ⟨k.sems, .refl k⟩
  · rw [hnone]
    exact ⟨k.sems, ⟨rest, k.live, rfl, fun _ _ => rfl⟩, rfl, rfl, rfl⟩
  · set live := update k.live .pipe (pipe :: k.live .pipe) with hlive
    obtain ⟨pipes, sems, hinit⟩ :=
      pipeInit_eq { k with answers := rest, live := live, pipes := update k.pipes i pipe } pipe
    refine ⟨sems, ?_⟩
    have hfirst : PipesOnly { k with sems := sems }
        { k with answers := rest, live := live, sems := sems, toPipes := { pipes with
          pipeId := update pipes.pipeId pipe i } } :=
      ⟨⟨rest, live, rfl, fun kind hk => Function.update_of_ne hk ..⟩, rfl, rfl, rfl⟩
    rw [hattach, hinit]
    exact hfirst.trans (attachPipe_only _ i pipe)

theorem PipesOnly.inv (h : PipesOnly k k') (hk : KernelInv k) : KernelInv k' := by
  obtain ⟨answers, live, hcore, hlive⟩ := h.core
  obtain ⟨L, hL⟩ := hk.ready
  obtain ⟨E, hE⟩ := hk.sleepers
  refine ⟨⟨L, ?_⟩, ?_, E, hE.congr h.sleep ?_⟩
  · rw [hcore]
    refine hL.congr rfl rfl rfl rfl (hlive .node (by simp)) fun p hp => ?_
    show p ∈ live .record
    rw [hlive .record (by simp)]
    exact hL.records p hp
  · rw [hcore]
    exact hk.pids.congr rfl rfl rfl
  · rw [hcore]
    exact hlive .sleepEntry (by simp)

theorem PipesOnly.effect (h : PipesOnly k k') : Effect k.toCore k'.toCore nobody nobody nobody nobody := by
  obtain ⟨answers, live, hcore, -⟩ := h.core
  rw [hcore]
  exact .same rfl rfl rfl rfl rfl

/-! ### Processes -/

/-- Putting a core in place of another one keeps the sleep list when the core keeps
its entries. -/
theorem KernelInv.setCore (h : KernelInv k) (hr : ReadyInv c L) (hp : PidInv c)
    (hl : c.live .sleepEntry = k.live .sleepEntry) : KernelInv { k with toCore := c } := by
  obtain ⟨E, hE⟩ := h.sleepers
  exact ⟨⟨L, hr⟩, hp, E, hE.congr rfl hl⟩

theorem Woke.pidInv {w : ℕ → Prop} (h : Woke c c' w) (hp : PidInv c) : PidInv c' :=
  hp.congr h.pid h.processesList h.pids

theorem blockProcess_call (h : KernelInv k) (hrun : Process.blockProcess k.toCore pid = some (r, c)) :
    KernelInv { k with toCore := c } ∧ Effect k.toCore c nobody (Blocks k.toCore pid) nobody nobody := by
  obtain ⟨L, hL⟩ := h.ready
  obtain ⟨r', c', hrun', hframe, ⟨L', hL'⟩, hstate⟩ :
      ∃ r' c', Process.blockProcess k.toCore pid = some (r', c') ∧ Frame k.toCore c' ∧
        (∃ L', ReadyInv c' L') ∧
        c'.state = fun q => if Blocks k.toCore pid q then .blocked else k.state q := blockProcess_effect hL
  obtain ⟨-, rfl⟩ : r' = r ∧ c' = c := by simpa using hrun'.symm.trans hrun
  exact ⟨h.setCore hL' (h.pids.congr hframe.pid hframe.processesList hframe.pids)
    (hframe.live .sleepEntry (by simp)), hframe.effect_block hstate⟩

theorem unblockProcess_call (h : KernelInv k) (hrun : Process.unblockProcess k.toCore pid = some (r, c)) :
    KernelInv { k with toCore := c } ∧ Woke k.toCore c (Wakes k.toCore pid) := by
  obtain ⟨L, hL⟩ := h.ready
  obtain ⟨hwoke, hlive⟩ := unblockProcess_woke hL hrun
  obtain ⟨L', hL'⟩ := hwoke.ready
  exact ⟨h.setCore hL' (hwoke.pidInv h.pids) (hlive .sleepEntry (by simp)), hwoke⟩

theorem killProcess_call (h : KernelInv k)
    (hrun : Process.killProcess k.toCore pid = some (r, c, again)) :
    (again = false ∧ c = k.toCore ∧ ¬(3 ≤ pid ∧ InTable k.toCore (getProcessByPid k.toCore pid))) ∨
      again = true ∧ 3 ≤ pid ∧ InTable k.toCore (getProcessByPid k.toCore pid) ∧
        KernelInv { k with toCore := c } ∧ Removal k.toCore c (getProcessByPid k.toCore pid) := by
  obtain ⟨L, hL⟩ := h.ready
  rcases killProcess_effect hL h.pids hrun with hsame | ⟨rfl, hlow, hin, hrem, hpids, L', hL'⟩
  · exact Or.inl hsame
  · exact Or.inr ⟨rfl, hlow, hin, h.setCore hL' hpids (hrem.live .sleepEntry rfl (by simp) (by simp)), hrem⟩

/-- An exit is the end of the process, the closing of its descriptors and the release
of its pid. -/
theorem exitProcess_cases (hrun : k.exitProcess = some k') :
    ∃ r c k₂, removeFromProcessesList k.toCore k.currentProcess = some (r, c) ∧
      PipesOnly { k with toCore := c } k₂ ∧
      k' = { k₂ with pids := update k₂.pids (k₂.pid k.currentProcess - 1) false } := by
  obtain ⟨⟨r, c⟩, hremove, hret⟩ := Option.bind_eq_some_iff.mp hrun
  simp only at hret
  set close := fun (k₁ : Kernel) (i : ℕ) => (k₁.pipeClose (k₁.fdTable k.currentProcess i)).2 with hclose
  have honly : PipesOnly { k with toCore := c } ((List.range (maxBuff * 2)).foldl close { k with toCore := c }) :=
    foldl_only (fun k₁ i => pipeClose_only k₁ _) _ _
  exact ⟨r, c, _, hremove, honly, (Option.some.inj hret).symm⟩

/-- The release of a pid that nobody has. -/
theorem KernelInv.clearPid (h : KernelInv k) {n : ℤ} (hn : ∀ p, InTable k.toCore p → k.pid p ≠ n) :
    KernelInv { k with pids := update k.pids (n - 1) false } := by
  obtain ⟨L, hL⟩ := h.ready
  have hp := h.pids
  refine h.setCore (hL.congr rfl rfl rfl rfl rfl hL.records) ⟨hp.inj, hp.range, fun p hin hpos => ?_,
    fun i hi hset => ?_⟩ rfl
  · have hne : k.pid p - 1 ≠ n - 1 := fun he => hn p hin (by omega)
    show update k.pids (n - 1) false (k.pid p - 1) = true
    rw [Function.update_of_ne hne]
    exact hp.used p hin hpos
  · have hne : (i : ℤ) ≠ n - 1 := by
      intro he
      simp [he] at hset
    have hset' : update k.pids (n - 1) false i = true := hset
    rw [Function.update_of_ne hne] at hset'
    exact hp.owned i hi hset'

/-- The end of the running process, with its descriptors; a process that is gone does
nothing when nobody has its pid. -/
theorem exitProcess_call (h : KernelInv k)
    (hcur : InTable k.toCore k.currentProcess ∨ foundprocess k.toCore (k.pid k.currentProcess) = none)
    (hrun : k.exitProcess = some k') :
    KernelInv k' ∧ Effect k.toCore k'.toCore
      (fun q => InTable k.toCore k.currentProcess ∧ WakesParent k.toCore k.currentProcess q) nobody
      (fun q => InTable k.toCore k.currentProcess ∧ q = k.currentProcess) nobody ∧
      k'.sems = k.sems ∧ k'.toSleepQueue = k.toSleepQueue := by
  obtain ⟨r, c, k₂, hremove, honly, rfl⟩ := exitProcess_cases hrun
  obtain ⟨answers, live, hcore, hlive⟩ := honly.core
  have hcore₂ : k₂.toCore = { c with answers := answers, live := live } := hcore
  have hsleep : k₂.toSleepQueue = k.toSleepQueue := honly.sleep
  refine ⟨?_, ?_, honly.sems, hsleep⟩
  · rcases hcur with hcur | hnone
    · obtain ⟨L, hL⟩ := h.ready
      obtain ⟨E, hE⟩ := h.sleepers
      have hinj (q : ℕ) (hq : InTable k.toCore q) (he : k.pid q = k.pid k.currentProcess) :
          q = k.currentProcess := h.pids.inj q _ hq hcur he
      obtain ⟨hrem, hpids, L', hL'⟩ := removeFromProcessesList_effect hL hcur hinj hremove
      rw [hcore₂]
      have hbits (i : ℤ) : update c.pids (c.pid k.currentProcess - 1) false i =
          if i = k.pid k.currentProcess - 1 then false else k.pids i := by
        rw [hrem.pid, hpids, Function.update_apply]
      refine ⟨⟨L', hL'.congr rfl rfl rfl rfl (hlive .node (by simp)) fun p hp => ?_⟩,
        h.pids.remove hcur hrem.pid hrem.inTable (fun i hi => ?_) (fun h0 hlt => ?_), E, hE.congr hsleep ?_⟩
      · show p ∈ live .record
        rw [hlive .record (by simp)]
        exact hL'.records p hp
      · show update c.pids _ false i = _
        rw [hbits, if_neg hi]
      · show update c.pids _ false _ = _
        rw [hbits, if_pos rfl]
      · show live .sleepEntry = _
        rw [hlive .sleepEntry (by simp)]
        exact hrem.live .sleepEntry rfl (by simp) (by simp)
    · obtain ⟨-, rfl⟩ : -1 = r ∧ k.toCore = c := by simpa [removeFromProcessesList, hnone] using hremove
      refine (honly.inv h).clearPid fun p hp => ?_
      have hcong : k₂.pid = k.pid ∧ k₂.processesList = k.processesList := by rw [hcore₂]; exact ⟨rfl, rfl⟩
      rw [hcong.1]
      exact foundprocess_none hnone ((inTable_congr hcong.2).mp hp)
  · rw [hcore₂]
    by_cases hin : InTable k.toCore k.currentProcess
    · obtain ⟨L, hL⟩ := h.ready
      have hinj (q : ℕ) (hq : InTable k.toCore q) (he : k.pid q = k.pid k.currentProcess) :
          q = k.currentProcess := h.pids.inj q _ hq hin he
      obtain ⟨hrem, -⟩ := removeFromProcessesList_effect hL hin hinj hremove
      simp only [hin, true_and]
      exact hrem.effect.quiet (.same rfl rfl rfl rfl rfl)
    · have hnone := hcur.resolve_left hin
      obtain ⟨-, rfl⟩ : -1 = r ∧ k.toCore = c := by simpa [removeFromProcessesList, hnone] using hremove
      simp only [hin, false_and]
      exact .same rfl rfl rfl rfl rfl

/-- The row of a new process is cleared, and its creator, if it has one, passes its
descriptors on. -/
theorem openProcess_cases (k : Kernel) (parent p : ℕ) :
    (parent = 0 ∧ k.openProcess parent p = { k with fdTable := update k.fdTable p fun _ => -1 }) ∨
      (parent ≠ 0 ∧ ∃ k₂ : Kernel,
        (List.range (maxBuff * 2)).foldl (fun k i => (k.pipeAccses (k.pid p) (k.fdTable parent i)).2)
          { k with fdTable := update k.fdTable p fun _ => -1 } = k₂ ∧
        k.openProcess parent p =
          { k₂ with waitingOnChild := update k₂.waitingOnChild parent (k₂.waitingOnChild parent + 1) }) := by
  by_cases h0 : parent = 0
  · refine Or.inl ⟨h0, ?_⟩
    simp only [Kernel.openProcess, ne_eq, h0, not_true, if_false]
  · refine Or.inr ⟨h0, _, rfl, ?_⟩
    simp only [Kernel.openProcess, ne_eq, h0, not_false_iff, if_true, Kernel.inheritFds]

theorem openProcess_only (k : Kernel) (parent process : ℕ) :
    ∃ waiting, PipesOnly { k with waitingOnChild := waiting } (k.openProcess parent process) := by
  rcases openProcess_cases k parent process with ⟨-, hopen⟩ | ⟨-, k₂, hpass, hopen⟩
  · rw [hopen]
    exact ⟨k.waitingOnChild, .set k _⟩
  · have honly : PipesOnly { k with fdTable := update k.fdTable process fun _ => -1 } k₂ := by
      rw [← hpass]
      exact foldl_only (fun k₁ i => pipeAccses_only k₁ _ _) _ _
    obtain ⟨answers, live, hcore, hlive⟩ := honly.core
    set waiting := update k₂.waitingOnChild parent (k₂.waitingOnChild parent + 1)
    have hset := congrArg (fun c : Core => { c with waitingOnChild := waiting }) hcore
    rw [hopen]
    exact ⟨waiting, ⟨answers, live, hset, hlive⟩, honly.sleep, honly.sems, honly.ticks⟩

/-! ### A new process -/

theorem createProcess_noStack {args : CreateArgs} (h : (mmMalloc k.toCore .stack).1 = 0) :
    k.createProcess args = some (-1, { k with toCore := (mmMalloc k.toCore .stack).2 }) := by
  simp only [Kernel.createProcess, h, if_true]

theorem createProcess_noRecord {args : CreateArgs} (h : (mmMalloc k.toCore .stack).1 ≠ 0)
    (hr : (mmMalloc (mmMalloc k.toCore .stack).2 .record).1 = 0) :
    k.createProcess args = some (-1, { k with toCore := (mmMalloc (mmMalloc k.toCore .stack).2 .record).2 }) := by
  simp only [Kernel.createProcess, h, hr, if_true, if_false]

theorem createProcess_record {args : CreateArgs} (hp : NewRecord k.toCore p) :
    k.createProcess args =
      (enterProcess (mmMalloc (mmMalloc k.toCore .stack).2 .record).2 p (mmMalloc k.toCore .stack).1 args).bind
        fun c =>
          let k' := { k with toCore := c }.openProcess k.currentProcess p
          some (k'.pid p, k') := by
  obtain ⟨hs, h0, rfl⟩ := hp
  simp only [Kernel.createProcess, hs, h0, if_false]
  rfl

/-- The state after the allocation of a stack and a record. -/
theorem newRecord_memory (hp : NewRecord c p) :
    p ∉ c.live .record ∧ ∃ answers live, (mmMalloc (mmMalloc c .stack).2 .record).2 =
        { c with answers := answers, live := live } ∧
      live .record = p :: c.live .record ∧ ∀ kind, kind ≠ .stack → kind ≠ .record → live kind = c.live kind := by
  obtain ⟨hs, h0, hp⟩ := hp
  rcases mmMalloc_cases c .stack with ⟨rest, hm⟩ | ⟨stack, rest, -, -, hm⟩
  · simp [hm] at hs
  · rw [hm] at hp ⊢
    set live := update c.live .stack (stack :: c.live .stack) with hlive
    have hother (kind : Kind) (hk : kind ≠ .stack) : live kind = c.live kind := Function.update_of_ne hk ..
    rcases mmMalloc_cases { c with answers := rest, live := live } .record
      with ⟨rest', hm'⟩ | ⟨q, rest', -, hfresh, hm'⟩
    · rw [hm'] at hp
      exact absurd hp h0
    · rw [hm'] at hp ⊢
      obtain rfl : p = q := hp
      have hfresh' : p ∉ live .record := hfresh
      rw [hother .record (by simp)] at hfresh'
      refine ⟨hfresh', rest', _, rfl, ?_, fun kind hk hr => ?_⟩
      · show update live .record (p :: live .record) .record = _
        rw [Function.update_self, hother .record (by simp)]
      · exact (Function.update_of_ne hr ..).trans (hother kind hk)

/-- A call finds no memory for the stack or the record, or it enters a new process. -/
theorem createProcess_cases {args : CreateArgs} (hrun : k.createProcess args = some (r, k')) :
    (r = -1 ∧ NewRecord k.toCore = nobody ∧ ∃ answers live, k' = { k with answers := answers, live := live } ∧
        ∀ kind, kind ≠ .stack → live kind = k.live kind) ∨
      ∃ p answers live c, p ≠ 0 ∧ p ∉ k.live .record ∧ NewRecord k.toCore = (· = p) ∧
        live .record = p :: k.live .record ∧
        (∀ kind, kind ≠ .stack → kind ≠ .record → live kind = k.live kind) ∧
        enterProcess { k.toCore with answers := answers, live := live } p (mmMalloc k.toCore .stack).1 args = some c ∧
        k' = { k with toCore := c }.openProcess k.currentProcess p ∧ r = k'.pid p := by
  have hnobody (hno : ∀ q, ¬NewRecord k.toCore q) : NewRecord k.toCore = nobody :=
    funext fun q => propext ⟨fun hq => hno q hq, False.elim⟩
  by_cases hs : (mmMalloc k.toCore .stack).1 = 0
  · rw [createProcess_noStack hs] at hrun
    obtain ⟨rfl, rfl⟩ : -1 = r ∧ _ = k' := by simpa using hrun
    refine Or.inl ⟨rfl, hnobody fun q hq => hq.1 hs, ?_⟩
    rcases mmMalloc_cases k.toCore .stack with ⟨rest, hm⟩ | ⟨stack, rest, h0, -, hm⟩
    · exact ⟨rest, k.live, by rw [hm], fun _ _ => rfl⟩
    · rw [hm] at hs
      exact absurd hs h0
  · by_cases hr : (mmMalloc (mmMalloc k.toCore .stack).2 .record).1 = 0
    · rw [createProcess_noRecord hs hr] at hrun
      obtain ⟨rfl, rfl⟩ : -1 = r ∧ _ = k' := by simpa using hrun
      refine Or.inl ⟨rfl, hnobody fun q hq => hq.2.1 (hq.2.2.trans hr), ?_⟩
      rcases mmMalloc_cases k.toCore .stack with ⟨rest, hm⟩ | ⟨stack, rest, -, -, hm⟩
      · simp [hm] at hs
      · rw [hm] at hr ⊢
        rcases mmMalloc_cases { k.toCore with answers := rest, live := update k.live .stack (stack :: k.live .stack) }
          .record with ⟨rest', hm'⟩ | ⟨q, rest', h0, -, hm'⟩
        · exact ⟨rest', _, by rw [hm'], fun kind hk => Function.update_of_ne hk ..⟩
        · rw [hm'] at hr
          exact absurd hr h0
    · have hp : NewRecord k.toCore (mmMalloc (mmMalloc k.toCore .stack).2 .record).1 := ⟨hs, hr, rfl⟩
      rw [createProcess_record hp] at hrun
      obtain ⟨hfresh, answers, live, hmem, hrec, hlive⟩ := newRecord_memory hp
      obtain ⟨c, henter, hret⟩ := Option.bind_eq_some_iff.mp hrun
      obtain ⟨rfl, rfl⟩ : _ = r ∧ _ = k' := by simpa using hret
      rw [hmem] at henter
      refine Or.inr ⟨_, answers, live, c, hr, hfresh, ?_, hrec, hlive, henter, rfl, rfl⟩
      exact funext fun q => propext ⟨fun hq => hq.2.2, fun hq => ⟨hs, hq ▸ hr, hq⟩⟩

theorem createProcess_call {args : CreateArgs} (h : KernelInv k)
    (hslot : ∃ i < maxProcesses, k.processesList i = 0) (hrun : k.createProcess args = some (r, k')) :
    KernelInv k' ∧ Effect k.toCore k'.toCore nobody nobody nobody (NewRecord k.toCore) ∧
      k'.sems = k.sems ∧ k'.toSleepQueue = k.toSleepQueue := by
  obtain ⟨L, hL⟩ := h.ready
  rcases createProcess_cases hrun with ⟨-, hnew, answers, live, rfl, hlive⟩ |
    ⟨p, answers, live, c, h0, hfresh, hnew, hrecord, hlive, henter, rfl, -⟩
  · rw [hnew]
    refine ⟨h.setCore (hL.congr rfl rfl rfl rfl (hlive .node (by simp)) fun p hp => ?_)
      (h.pids.congr rfl rfl rfl) (hlive .sleepEntry (by simp)), .same rfl rfl rfl rfl rfl, rfl, rfl⟩
    show p ∈ live .record
    rw [hlive .record (by simp)]
    exact hL.records p hp
  · have hin : ¬InTable k.toCore p := fun hin => hfresh (hL.records p hin)
    set c₂ : Core := { k.toCore with answers := answers, live := live } with hc₂
    have hL₂ : ReadyInv c₂ L := by
      refine hL.congr rfl rfl rfl rfl (hlive .node (by simp) (by simp)) fun q hq => ?_
      show q ∈ live .record
      rw [hrecord]
      exact List.mem_cons_of_mem _ (hL.records q hq)
    have hp₂ : p ∈ c₂.live .record := by
      show p ∈ live .record
      rw [hrecord]
      exact List.mem_cons_self
    obtain ⟨hcreate, hpids, L', hL'⟩ :=
      enterProcess_effect hL₂ (h.pids.congr rfl rfl rfl) h0 hin hp₂ hslot henter
    obtain ⟨waiting, honly⟩ := openProcess_only { k with toCore := c } k.currentProcess p
    have hinv : KernelInv { k with toCore := { c with waitingOnChild := waiting } } := by
      refine h.setCore (hL'.congr rfl rfl rfl rfl rfl hL'.records) (hpids.congr rfl rfl rfl) ?_
      exact (hcreate.live .sleepEntry rfl (by simp)).trans (hlive .sleepEntry (by simp) (by simp))
    have heff : Effect k.toCore { c with waitingOnChild := waiting } nobody nobody nobody (· = p) := by
      have hborn : Effect c₂ c nobody nobody nobody (· = p) := hcreate.effect hin
      have hfirst : Effect k.toCore c nobody nobody nobody (· = p) :=
        ⟨hborn.currentProcess, hborn.inTable, hborn.pid, hborn.stackPointer, hborn.ends, hborn.births,
          hborn.wakes, hborn.halts, hborn.state⟩
      exact hfirst.quiet (.same rfl rfl rfl rfl rfl)
    rw [hnew]
    exact ⟨honly.inv hinv, heff.quiet honly.effect, honly.sems, honly.sleep⟩

theorem quitCPU_call (h : KernelInv k) (hrun : Process.quitCPU k.toCore = some (r, c)) :
    (k.state k.currentProcess ≠ .running ∧ c = k.toCore) ∨
      k.state k.currentProcess = .running ∧ KernelInv { k with toCore := c } ∧ Dispatch k.toCore c ∧
        c.stackPointer = k.stackPointer ∧ InTable c c.currentProcess ∧
        (k.state c.currentProcess = .ready ∨ k.state c.currentProcess = .running) ∧
        c.state = update (update k.state k.currentProcess .ready) c.currentProcess .running := by
  obtain ⟨L, hL⟩ := h.ready
  rcases quitCPU_effect hL hrun with hsame | ⟨hcur, hL', hdisp, hsp, hmem, hstate⟩
  · exact Or.inl hsame
  · have hin := hL.inTable _ hmem
    refine Or.inr ⟨hcur, h.setCore hL' (h.pids.congr hdisp.pid hdisp.processesList hdisp.pids) ?_, hdisp, hsp,
      (inTable_congr hdisp.processesList).mpr hin, (hL.ready _ hin).mp hmem, hstate⟩
    rw [hdisp.live]

/-- A process with children blocks itself, another one does not wait. -/
theorem wait_cases (h : k.wait = some (r, k', again)) :
    (again = false ∧ k' = k ∧ k.childrenLength k.currentProcess = 0) ∨
      again = true ∧ 0 < k.childrenLength k.currentProcess ∧ ∃ v c,
        Process.blockProcess { k.toCore with waitingOnChild := update k.waitingOnChild k.currentProcess 1 }
          (k.pid k.currentProcess) = some (v, c) ∧ k' = { k with toCore := c } := by
  unfold Kernel.wait at h
  by_cases hlen : 0 < k.childrenLength k.currentProcess
  · simp only [hlen, if_true] at h
    obtain ⟨⟨v, c⟩, hblock, hret⟩ := Option.bind_eq_some_iff.mp h
    obtain ⟨-, rfl, rfl⟩ : 0 = r ∧ _ = k' ∧ true = again := by simpa using hret
    exact Or.inr ⟨rfl, hlen, v, c, hblock, rfl⟩
  · rw [if_neg hlen] at h
    obtain ⟨-, rfl, rfl⟩ : _ = r ∧ k = k' ∧ false = again := by simpa using h
    exact Or.inl ⟨rfl, rfl, by omega⟩

theorem wait_call (h : KernelInv k) (hrun : k.wait = some (r, k', again)) :
    (again = false ∧ k' = k ∧ k.childrenLength k.currentProcess = 0) ∨
      again = true ∧ 0 < k.childrenLength k.currentProcess ∧ KernelInv k' ∧
        Effect k.toCore k'.toCore nobody (Blocks k.toCore (k.pid k.currentProcess)) nobody nobody ∧
        k'.sems = k.sems ∧ k'.toSleepQueue = k.toSleepQueue := by
  rcases wait_cases hrun with hidle | ⟨rfl, hlen, v, c, hblock, rfl⟩
  · exact Or.inl hidle
  · obtain ⟨L, hL⟩ := h.ready
    set waiting := update k.waitingOnChild k.currentProcess 1
    have hinv : KernelInv { k with waitingOnChild := waiting } :=
      h.setCore (hL.congr rfl rfl rfl rfl rfl hL.records) (h.pids.congr rfl rfl rfl) rfl
    obtain ⟨hinv', heff⟩ := blockProcess_call hinv hblock
    exact Or.inr ⟨rfl, hlen, hinv', ⟨heff.currentProcess, heff.inTable, heff.pid, heff.stackPointer, heff.ends,
      heff.births, heff.wakes, heff.halts, heff.state⟩, rfl, rfl⟩

/-! ### Semaphores -/

/-- A semaphore that `sem_open` has opened. -/
def Kernel.IsOpen (k : Kernel) (id : ℤ) : Prop := 0 ≤ id ∧ id < semMax ∧ (k.sems id).value ≠ -1

instance (k : Kernel) (id : ℤ) : Decidable (k.IsOpen id) := inferInstanceAs (Decidable (_ ∧ _ ∧ _))

/-- The checks that `sem_wait`, `sem_post` and `sem_close` begin with. -/
theorem ite_isOpen {α : Type} (k : Kernel) (id : ℤ) (fail body : α) :
    (if id < 0 ∨ semMax ≤ id then fail else if (k.sems id).value = -1 then fail else body) =
      if k.IsOpen id then body else fail := by
  by_cases hid : id < 0 ∨ semMax ≤ id
  · have hno : ¬k.IsOpen id := fun ho => hid.elim (not_lt.mpr ho.1) (not_le.mpr ho.2.1)
    rw [if_pos hid, if_neg hno]
  · have hin := not_or.mp hid
    rw [if_neg hid]
    by_cases hclosed : (k.sems id).value = -1
    · rw [if_pos hclosed, if_neg fun ho => ho.2.2 hclosed]
    · rw [if_neg hclosed, if_pos ⟨not_lt.mp hin.1, not_le.mp hin.2, hclosed⟩]

/-- `sem_wait` blocks its caller. -/
def Kernel.WaitsAt (k : Kernel) (id : ℤ) : Prop :=
  k.IsOpen id ∧ (k.sems id).value = 0 ∧ (k.sems id).count < maxProcesses

/-- The queue with one more pid. -/
def Semaphore.push (s : Semaphore) (pid : ℤ) : Semaphore :=
  { s with
    waiting := update s.waiting s.tail pid
    tail := (s.tail + 1) % maxProcesses
    count := s.count + 1 }

theorem semOpen_cases (k : Kernel) (id v : ℤ) :
    (k.semOpen id v).2 = k ∨ ¬k.IsOpen id ∧ (k.semOpen id v).2 = k.setSem id { k.sems id with
      value := v.bmod (2 ^ 16)
      head := 0
      tail := 0
      count := 0 } := by
  unfold Kernel.semOpen
  split
  · exact Or.inl rfl
  · split
    · exact Or.inl rfl
    · rename_i hclosed
      exact Or.inr ⟨fun ho => hclosed ho.2.2, rfl⟩

theorem semWait_cases (hrun : k.semWait id = some (r, k', again)) :
    (again = false ∧ r = -1 ∧ k' = k ∧ (k.IsOpen id → (k.sems id).value = 0 ∧ maxProcesses ≤ (k.sems id).count)) ∨
      (again = false ∧ r = 0 ∧ k.IsOpen id ∧ (k.sems id).value ≠ 0 ∧ k' = k.setSem id { k.sems id with
        value := ((k.sems id).value - 1).bmod (2 ^ 16) }) ∨
      again = true ∧ r = 0 ∧ k.WaitsAt id ∧ ∃ v c,
        Process.blockProcess k.toCore (k.pid k.currentProcess) = some (v, c) ∧
        k' = { k.setSem id ((k.sems id).push (k.pid k.currentProcess)) with toCore := c } := by
  unfold Kernel.semWait at hrun
  dsimp only at hrun
  rw [ite_isOpen] at hrun
  by_cases ho : k.IsOpen id
  · rw [if_pos ho] at hrun
    by_cases hzero : (k.sems id).value = 0
    · rw [if_pos hzero] at hrun
      by_cases hfull : maxProcesses ≤ (k.sems id).count
      · rw [if_pos hfull] at hrun
        obtain ⟨rfl, rfl, rfl⟩ : -1 = r ∧ k = k' ∧ false = again := by simpa using hrun
        exact Or.inl ⟨rfl, rfl, rfl, fun _ => ⟨hzero, hfull⟩⟩
      · rw [if_neg hfull] at hrun
        obtain ⟨⟨v, c⟩, hblock, hret⟩ := Option.bind_eq_some_iff.mp hrun
        obtain ⟨rfl, rfl, rfl⟩ : 0 = r ∧ _ = k' ∧ true = again := by simpa using hret
        exact Or.inr (Or.inr ⟨rfl, rfl, ⟨ho, hzero, not_le.mp hfull⟩, v, c, hblock, rfl⟩)
    · rw [if_neg hzero] at hrun
      obtain ⟨rfl, rfl, rfl⟩ : 0 = r ∧ _ = k' ∧ false = again := by simpa using hrun
      exact Or.inr (Or.inl ⟨rfl, rfl, ho, hzero, rfl⟩)
  · rw [if_neg ho] at hrun
    obtain ⟨rfl, rfl, rfl⟩ : -1 = r ∧ k = k' ∧ false = again := by simpa using hrun
    exact Or.inl ⟨rfl, rfl, rfl, fun ho' => absurd ho' ho⟩

theorem semPost_cases (hrun : k.semPost id = some (r, k')) :
    (¬k.IsOpen id ∧ r = -1 ∧ k' = k) ∨
      k.IsOpen id ∧ r = 0 ∧
        ((∃ pid s v c, (k.sems id).popLive k.toCore (k.sems id).count = (some pid, s) ∧
            Process.unblockProcess k.toCore pid = some (v, c) ∧ k' = { k.setSem id s with toCore := c }) ∨
          ∃ s, (k.sems id).popLive k.toCore (k.sems id).count = (none, s) ∧
            k' = k.setSem id { s with value := (s.value + 1).bmod (2 ^ 16) }) := by
  unfold Kernel.semPost at hrun
  dsimp only at hrun
  rw [ite_isOpen] at hrun
  by_cases ho : k.IsOpen id
  · rw [if_pos ho] at hrun
    refine Or.inr ⟨ho, ?_⟩
    rcases hpop : (k.sems id).popLive k.toCore (k.sems id).count with ⟨_ | pid, s⟩
    · simp only [hpop] at hrun
      obtain ⟨rfl, rfl⟩ : 0 = r ∧ _ = k' := by simpa using hrun
      exact ⟨rfl, Or.inr ⟨s, rfl, rfl⟩⟩
    · simp only [hpop] at hrun
      obtain ⟨⟨v, c⟩, hun, hret⟩ := Option.bind_eq_some_iff.mp hrun
      obtain ⟨rfl, rfl⟩ : 0 = r ∧ _ = k' := by simpa using hret
      exact ⟨rfl, Or.inl ⟨pid, s, v, c, rfl, hun, rfl⟩⟩
  · rw [if_neg ho] at hrun
    obtain ⟨rfl, rfl⟩ : -1 = r ∧ k = k' := by simpa using hrun
    exact Or.inl ⟨ho, rfl, rfl⟩

theorem semClose_cases (hrun : k.semClose id = some (r, k')) :
    (¬k.IsOpen id ∧ r = -1 ∧ k' = k) ∨
      k.IsOpen id ∧ r = 0 ∧ ∃ c,
        Kernel.wakeAll 0 ((k.sems id).drain (k.sems id).count (k.sems id).head).1 k.toCore = some c ∧
        k' = { k.setSem id { k.sems id with
          value := -1
          head := ((k.sems id).drain (k.sems id).count (k.sems id).head).2
          count := 0 } with toCore := c } := by
  unfold Kernel.semClose at hrun
  dsimp only at hrun
  rw [ite_isOpen] at hrun
  by_cases ho : k.IsOpen id
  · rw [if_pos ho] at hrun
    obtain ⟨c, hwake, hret⟩ := Option.bind_eq_some_iff.mp hrun
    obtain ⟨rfl, rfl⟩ : 0 = r ∧ _ = k' := by simpa using hret
    exact Or.inr ⟨ho, rfl, c, hwake, rfl⟩
  · rw [if_neg ho] at hrun
    obtain ⟨rfl, rfl⟩ : -1 = r ∧ k = k' := by simpa using hrun
    exact Or.inl ⟨ho, rfl, rfl⟩

end BareKernel

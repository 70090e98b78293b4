import BareKernel.Process.Table

/-! What the operations leave in the process table, in the pid bitmap and in the
fields of the records that tell of families and of the foreground. Only the
creation and the end of a process change any of these; each of the two is
described by the steps that do. -/

namespace BareKernel.Process

open Function (update)

variable {c c' c₁ c₂ : Core} {p q n i prev curr : ℕ} {pid r : ℤ} {again : Bool}

/-! ### The ready ring -/

theorem insertNode_edit (h : insertNode c p n = some c') : RingEdit c c' := by
  unfold insertNode at h
  dsimp only at h
  split at h
  · obtain rfl := Option.some.inj h
    exact ⟨rfl, rfl, rfl, rfl, rfl, fun _ _ => rfl⟩
  · obtain ⟨tail, -, hret⟩ := Option.bind_eq_some_iff.mp h
    obtain rfl := Option.some.inj hret
    exact ⟨rfl, rfl, rfl, rfl, rfl, fun _ _ => rfl⟩

theorem addToReadyList_edit (h : addToReadyList c p = some c') : RingEdit c c' := by
  obtain ⟨found, -, h⟩ := Option.bind_eq_some_iff.mp h
  cases found with
  | true =>
    obtain rfl := Option.some.inj h
    exact .refl c
  | false =>
    obtain ⟨⟨node, c₁⟩, hm, h⟩ := Option.bind_eq_some_iff.mp h
    obtain ⟨-, -, rest, rfl⟩ := mmMallocUsed_some hm
    have hmem : RingEdit c { c with
        answers := rest
        live := update c.live .node (node :: c.live .node) } :=
      ⟨rfl, rfl, rfl, rfl, rfl, fun kind hk => Function.update_of_ne hk ..⟩
    exact hmem.trans (insertNode_edit h)

theorem unlinkNode_edit (h : unlinkNode c prev curr = some c') : RingEdit c c' := by
  unfold unlinkNode at h
  split at h
  · obtain rfl := Option.some.inj h
    exact ⟨rfl, rfl, rfl, rfl, rfl, fun kind hk => Function.update_of_ne hk ..⟩
  · dsimp only at h
    split at h
    · obtain rfl := Option.some.inj h
      exact ⟨rfl, rfl, rfl, rfl, rfl, fun kind hk => Function.update_of_ne hk ..⟩
    · obtain ⟨last, -, hret⟩ := Option.bind_eq_some_iff.mp h
      obtain rfl := Option.some.inj hret
      exact ⟨rfl, rfl, rfl, rfl, rfl, fun kind hk => Function.update_of_ne hk ..⟩

theorem removeFromReadyList_edit (h : removeFromReadyList c p = some c') : RingEdit c c' := by
  unfold removeFromReadyList at h
  split at h
  · obtain rfl := Option.some.inj h
    exact .refl c
  · obtain ⟨found, -, h⟩ := Option.bind_eq_some_iff.mp h
    cases found with
    | none =>
      obtain rfl := Option.some.inj h
      exact .refl c
    | some place => exact unlinkNode_edit h

/-! ### The table -/

/-- The table, the bitmap and what the records tell of pids, families and the
foreground are the same. -/
structure SameTable (c c' : Core) : Prop where
  processesList : c'.processesList = c.processesList
  pids : c'.pids = c.pids
  pid : c'.pid = c.pid
  parentPid : c'.parentPid = c.parentPid
  isForeground : c'.isForeground = c.isForeground
  children : c'.children = c.children
  childrenLength : c'.childrenLength = c.childrenLength
  records : c'.live .record = c.live .record

theorem SameTable.refl (c : Core) : SameTable c c := ⟨rfl, rfl, rfl, rfl, rfl, rfl, rfl, rfl⟩

theorem SameTable.trans (h : SameTable c c₁) (h' : SameTable c₁ c') : SameTable c c' :=
  ⟨h'.processesList.trans h.processesList, h'.pids.trans h.pids, h'.pid.trans h.pid,
    h'.parentPid.trans h.parentPid, h'.isForeground.trans h.isForeground, h'.children.trans h.children,
    h'.childrenLength.trans h.childrenLength, h'.records.trans h.records⟩

/-- Besides, the same blocks are in use as pipes. -/
structure Quiet (c c' : Core) : Prop extends SameTable c c' where
  pipes : c'.live .pipe = c.live .pipe

theorem Quiet.refl (c : Core) : Quiet c c := ⟨.refl c, rfl⟩

theorem Quiet.trans (h : Quiet c c₁) (h' : Quiet c₁ c') : Quiet c c' :=
  ⟨h.toSameTable.trans h'.toSameTable, h'.pipes.trans h.pipes⟩

theorem SameTable.foundprocess (h : SameTable c c') (pid : ℤ) : foundprocess c' pid = foundprocess c pid :=
  foundprocess_congr h.processesList h.pid

theorem SameTable.getProcessByPid (h : SameTable c c') (pid : ℤ) :
    getProcessByPid c' pid = getProcessByPid c pid := getProcessByPid_congr h.processesList h.pid

theorem SameTable.inTable (h : SameTable c c') : InTable c' q ↔ InTable c q := inTable_congr h.processesList

theorem RingEdit.quiet (h : RingEdit c c') : Quiet c c' :=
  ⟨⟨h.processesList, h.pids, congrArg Records.pid h.records, congrArg Records.parentPid h.records,
    congrArg Records.isForeground h.records, congrArg Records.children h.records,
    congrArg Records.childrenLength h.records, h.live .record (by simp)⟩, h.live .pipe (by simp)⟩

/-- Only states, the ring and the waits of parents change. -/
theorem blockProcess_quiet (h : blockProcess c pid = some (r, c')) : Quiet c c' := by
  rcases blockProcess_cases h with ⟨rfl, -⟩ | ⟨i, -, hrem⟩
  · exact .refl _
  · obtain ⟨⟨h1, h2, h3, h4, h5, h6, h7, h8⟩, h9⟩ := (removeFromReadyList_edit hrem).quiet
    exact ⟨⟨h1, h2, h3, h4, h5, h6, h7, h8⟩, h9⟩

/-- A blocked process with another pid than `1` is made ready. -/
theorem unblockProcess_ready (h : unblockProcess c pid = some (r, c')) (h1 : pid ≠ 1)
    (hf : foundprocess c pid = some i) (hb : c.state (c.processesList i) = .blocked) :
    RingEdit { c with state := update c.state (c.processesList i) .ready } c' := by
  unfold unblockProcess at h
  simp only [h1, if_false, hf] at h
  rw [if_neg (not_not.mpr hb)] at h
  obtain ⟨found, -, h⟩ := Option.bind_eq_some_iff.mp h
  cases found with
  | true =>
    obtain ⟨-, rfl⟩ : 1 = r ∧ _ = c' := by simpa using h
    exact .refl _
  | false =>
    obtain ⟨c₁, hadd, hret⟩ := Option.bind_eq_some_iff.mp h
    obtain ⟨-, rfl⟩ : 1 = r ∧ c₁ = c' := by simpa using hret
    exact addToReadyList_edit hadd

/-- Nothing happens, or a blocked process of the table is made ready. -/
theorem unblockProcess_cases (h : unblockProcess c pid = some (r, c')) :
    c' = c ∨ ∃ i, foundprocess c pid = some i ∧ c.state (c.processesList i) = .blocked ∧
      RingEdit { c with state := update c.state (c.processesList i) .ready } c' := by
  by_cases h1 : pid = 1
  · obtain ⟨-, rfl⟩ : -1 = r ∧ c = c' := by simpa [unblockProcess, h1] using h
    exact Or.inl rfl
  · cases hf : foundprocess c pid with
    | none =>
      obtain ⟨-, rfl⟩ : -1 = r ∧ c = c' := by simpa [unblockProcess, h1, hf] using h
      exact Or.inl rfl
    | some i =>
      by_cases hb : c.state (c.processesList i) = .blocked
      · exact Or.inr ⟨i, rfl, hb, unblockProcess_ready h h1 hf hb⟩
      · obtain ⟨-, rfl⟩ : -1 = r ∧ c = c' := by simpa [unblockProcess, h1, hf, hb] using h
        exact Or.inl rfl

theorem unblockProcess_quiet (h : unblockProcess c pid = some (r, c')) : Quiet c c' := by
  rcases unblockProcess_cases h with rfl | ⟨i, -, -, hedit⟩
  · exact .refl _
  · obtain ⟨⟨h1, h2, h3, h4, h5, h6, h7, h8⟩, h9⟩ := hedit.quiet
    exact ⟨⟨h1, h2, h3, h4, h5, h6, h7, h8⟩, h9⟩

/-- What the scheduler may change. -/
theorem scheduler_eq {sp sp' : StackPtr} (hrun : scheduler c sp = some (sp', c')) :
    ∃ sps states counters node current, c' = { c with
      stackPointer := sps
      state := states
      counter := counters
      currentNode := node
      currentProcess := current } := by
  have hsched (c₁ : Core) (sp₁ : StackPtr) (h₁ : schedule c₁ sp₁ = some (sp', c')) :
      ∃ states counters node current, c' = { c₁ with
        state := states
        counter := counters
        currentNode := node
        currentProcess := current } := by
    obtain ⟨⟨node, found⟩, -, hret⟩ := Option.bind_eq_some_iff.mp h₁
    simp only at hret
    split at hret
    · obtain ⟨-, rfl⟩ : _ ∧ _ = c' := by simpa [dispatch] using hret
      exact ⟨_, _, _, _, rfl⟩
    · split at hret
      · obtain ⟨-, rfl⟩ : _ ∧ _ = c' := by simpa [dispatch] using hret
        exact ⟨_, _, _, _, rfl⟩
      · obtain ⟨-, rfl⟩ : _ ∧ _ = c' := by simpa using hret
        exact ⟨_, _, _, _, rfl⟩
  unfold scheduler at hrun
  split at hrun
  · obtain ⟨-, rfl⟩ : sp = sp' ∧ c = c' := by simpa using hrun
    exact ⟨_, _, _, _, _, rfl⟩
  · dsimp only at hrun
    split at hrun
    · split at hrun
      · obtain ⟨-, rfl⟩ : sp = sp' ∧ _ = c' := by simpa using hrun
        exact ⟨_, _, _, _, _, rfl⟩
      · obtain ⟨states, counters, node, current, rfl⟩ := hsched _ _ hrun
        exact ⟨_, _, _, _, _, rfl⟩
    · obtain ⟨states, counters, node, current, rfl⟩ := hsched _ _ hrun
      exact ⟨_, _, _, _, _, rfl⟩

theorem scheduler_quiet {sp sp' : StackPtr} (h : scheduler c sp = some (sp', c')) : Quiet c c' := by
  obtain ⟨sps, states, counters, node, current, rfl⟩ := scheduler_eq h
  exact ⟨⟨rfl, rfl, rfl, rfl, rfl, rfl, rfl, rfl⟩, rfl⟩

theorem quitCPU_quiet (h : quitCPU c = some (r, c')) : Quiet c c' := by
  rcases quitCPU_cases h with ⟨rfl, -⟩ | ⟨-, c₁, sp, hadd, hsched⟩
  · exact .refl _
  · obtain ⟨⟨h1, h2, h3, h4, h5, h6, h7, h8⟩, h9⟩ := (addToReadyList_edit hadd).quiet.trans (scheduler_quiet hsched)
    exact ⟨⟨h1, h2, h3, h4, h5, h6, h7, h8⟩, h9⟩

/-! ### The end of a process -/

/-- The parent of a process if it is in the table, `0` otherwise. -/
def heir (c : Core) (p : ℕ) : ℕ := if 0 < c.parentPid p then getProcessByPid c (c.parentPid p) else 0

/-- The parent loses the child and takes over the foreground. -/
def leaveFamily (c : Core) (p : ℕ) : Core :=
  if heir c p = 0 then c
  else
    let raised := update c.isForeground (heir c p) 1
    { removeChild c (heir c p) (c.pid p) with isForeground := if c.isForeground p ≠ 0 then raised else c.isForeground }

theorem leaveFamily_eq (c : Core) (p : ℕ) : ∃ children lengths flags, leaveFamily c p =
    { c with children := children, childrenLength := lengths, isForeground := flags } := by
  unfold leaveFamily
  split
  · exact ⟨_, _, _, rfl⟩
  · obtain ⟨children, lengths, hrem⟩ := removeChild_eq c (heir c p) (c.pid p)
    rw [hrem]
    exact ⟨_, _, _, rfl⟩

theorem leaveFamily_processesList (c : Core) (p : ℕ) : (leaveFamily c p).processesList = c.processesList := by
  obtain ⟨children, lengths, flags, hfam⟩ := leaveFamily_eq c p
  rw [hfam]

/-- A slot of the table is cleared and a record freed. -/
def clearSlot (c : Core) (i p : ℕ) : Core :=
  { mmFree c .record p with processesList := update c.processesList i 0 }

@[simp] theorem clearSlot_records (c : Core) (i p : ℕ) :
    (clearSlot c i p).live .record = (c.live .record).erase p := by
  simp [clearSlot, mmFree]

@[simp] theorem clearSlot_pipes (c : Core) (i p : ℕ) : (clearSlot c i p).live .pipe = c.live .pipe := by
  simp [clearSlot, mmFree]

theorem getProcessByPid_some (hf : foundprocess c pid = some i) : getProcessByPid c pid = c.processesList i := by
  rw [getProcessByPid, hf]

theorem getProcessByPid_none (hf : foundprocess c pid = none) : getProcessByPid c pid = 0 := by
  rw [getProcessByPid, hf]

theorem SameTable.heir (h : SameTable c c') : heir c' p = heir c p := by
  unfold Process.heir
  rw [h.parentPid, h.getProcessByPid]

theorem Quiet.removeChild (h : Quiet c c') (parent : ℕ) (pid : ℤ) :
    Quiet (removeChild c parent pid) (removeChild c' parent pid) := by
  unfold Process.removeChild
  rw [h.children, h.childrenLength]
  split
  · exact h
  · exact ⟨⟨h.processesList, h.pids, h.pid, h.parentPid, h.isForeground, rfl, rfl, h.records⟩, h.pipes⟩

theorem Quiet.leaveFamily (h : Quiet c c') (p : ℕ) : Quiet (leaveFamily c p) (leaveFamily c' p) := by
  unfold Process.leaveFamily
  rw [h.heir]
  split
  · exact h
  · have hrem := h.removeChild (Process.heir c p) (c.pid p)
    rw [h.pid]
    refine ⟨⟨hrem.processesList, hrem.pids, hrem.pid, hrem.parentPid, ?_, hrem.children, hrem.childrenLength,
      hrem.records⟩, hrem.pipes⟩
    rw [h.isForeground]

theorem Quiet.clearSlot (h : Quiet c c') (i p : ℕ) : Quiet (clearSlot c i p) (clearSlot c' i p) := by
  refine ⟨⟨?_, h.pids, h.pid, h.parentPid, h.isForeground, h.children, h.childrenLength, ?_⟩, ?_⟩
  · show update c'.processesList i 0 = update c.processesList i 0
    rw [h.processesList]
  · rw [clearSlot_records, clearSlot_records, h.records]
  · rw [clearSlot_pipes, clearSlot_pipes, h.pipes]

theorem wakeParent_quiet (h : wakeParent c p = some c') : Quiet c c' := by
  rcases wakeParent_cases h with ⟨rfl, -⟩ | ⟨-, -, v, hun⟩
  · exact .refl _
  · exact unblockProcess_quiet hun

theorem leaveParent_quiet (h : leaveParent c p = some c') : Quiet (leaveFamily c p) c' := by
  rcases leaveParent_cases h with ⟨rfl, hnone⟩ | ⟨hpos, i, c₂, hf, hwake, rfl⟩
  · have hheir : heir c' p = 0 := by
      unfold heir
      split
      · rename_i hpos
        exact getProcessByPid_none (hnone.resolve_left (not_le.mpr hpos))
      · rfl
    rw [leaveFamily, if_pos hheir]
    exact .refl _
  · have hheir : heir c p = getProcessByPid c (c.parentPid p) := if_pos hpos
    have hi := hheir.trans (getProcessByPid_some hf)
    have h0 : c.processesList i ≠ 0 := (foundprocess_some hf).2.1.1
    obtain ⟨⟨h1, h2, h3, h4, h5, h6, h7, h8⟩, h9⟩ := wakeParent_quiet hwake
    obtain ⟨children, lengths, hrem⟩ := removeChild_eq c (c.processesList i) (c.pid p)
    have hflags : c₂.isForeground = c.isForeground := by rw [h5, hrem]
    rw [leaveFamily, hi, if_neg h0]
    exact ⟨⟨h1, h2, h3, h4, by rw [hflags], h6, h7, h8⟩, h9⟩

theorem freeHoldings_quiet (c : Core) (p : ℕ) : Quiet c (freeHoldings c p) := by
  obtain ⟨live, hfree, hlive⟩ := freeHoldings_holdings c p
  rw [hfree]
  exact ⟨⟨rfl, rfl, rfl, rfl, rfl, rfl, rfl, hlive .record rfl⟩, hlive .pipe rfl⟩

/-- The process found under the pid of `p` loses its slot, and `p` its record. -/
theorem removeFromProcessesList_table (h : removeFromProcessesList c p = some (r, c')) :
    (foundprocess c (c.pid p) = none ∧ c' = c) ∨
      ∃ i, foundprocess c (c.pid p) = some i ∧ Quiet (clearSlot (leaveFamily c p) i p) c' := by
  rcases removeFromProcessesList_cases h with hnone | ⟨i, c₁, c₂, hf, hleave, hrem, rfl⟩
  · exact Or.inl hnone
  · have hstate : Quiet c₁ { c₁ with state := update c₁.state p .terminated } :=
      ⟨⟨rfl, rfl, rfl, rfl, rfl, rfl, rfl, rfl⟩, rfl⟩
    have hsame := (((leaveParent_quiet hleave).trans hstate).trans
      (removeFromReadyList_edit hrem).quiet).trans (freeHoldings_quiet c₂ p)
    obtain ⟨⟨h1, h2, h3, h4, h5, h6, h7, h8⟩, h9⟩ := hsame.clearSlot i p
    exact Or.inr ⟨i, hf, ⟨h1, h2, h3, h4, h5, h6, h7, h8⟩, h9⟩

/-- A kill that finds its process gives the pid back and removes the process. -/
theorem killProcess_table (h : killProcess c pid = some (r, c', again)) :
    (c' = c ∧ (pid < 3 ∨ foundprocess c pid = none)) ∨
      3 ≤ pid ∧ ∃ i, foundprocess c pid = some i ∧
        Quiet (clearSlot (leaveFamily (freePid c pid) (c.processesList i)) i (c.processesList i)) c' := by
  rcases killProcess_cases h with ⟨rfl, -, hno⟩ | ⟨-, hlow, i, c₁, v, hf, hrem, hremove⟩
  · exact Or.inl ⟨rfl, hno⟩
  · set p := c.processesList i with hp
    have hstate : Quiet c₁ { c₁ with state := update c₁.state p .terminated } :=
      ⟨⟨rfl, rfl, rfl, rfl, rfl, rfl, rfl, rfl⟩, rfl⟩
    have hsame : Quiet (freePid c pid) { c₁ with state := update c₁.state p .terminated } :=
      (removeFromReadyList_edit hrem).quiet.trans hstate
    -- the process is found again under its own pid
    have hagain : foundprocess { c₁ with state := update c₁.state p .terminated } (c₁.pid p) = some i := by
      have hpid : c₁.pid p = pid := by
        rw [show c₁.pid = c.pid from hsame.pid, hp]
        exact (foundprocess_some hf).2.2
      rw [hsame.foundprocess, hpid]
      exact hf
    rcases removeFromProcessesList_table hremove with ⟨hnone, -⟩ | ⟨j, hj, htable⟩
    · have hno : foundprocess { c₁ with state := update c₁.state p .terminated } (c₁.pid p) = none := hnone
      rw [hagain] at hno
      cases hno
    · obtain rfl : i = j := Option.some.inj (hagain.symm.trans hj)
      exact Or.inr ⟨hlow, i, hf, ((hsame.leaveFamily p).clearSlot i p).trans htable⟩

/-! ### A new process -/

/-- The record of a new process is in use. -/
def addRecord (c : Core) (p : ℕ) : Core := { c with live := update c.live .record (p :: c.live .record) }

@[simp] theorem addRecord_records (c : Core) (p : ℕ) :
    (addRecord c p).live .record = p :: c.live .record := by simp [addRecord]

@[simp] theorem addRecord_pipes (c : Core) (p : ℕ) : (addRecord c p).live .pipe = c.live .pipe := by simp [addRecord]

/-- What `copyContext` writes of the table. -/
def newContext (c : Core) (p : ℕ) (isForeground : ℤ) : Core :=
  let c := assignPid c p
  let c := { c with children := update c.children p fun _ => 0 }
  let c := { c with childrenLength := update c.childrenLength p 0 }
  assignForeground c p isForeground

/-- A new process gets a pid, the foreground if it asks for it, a parent and a slot. -/
def enroll (c : Core) (p : ℕ) (isForeground : ℤ) : Core :=
  addToProcessList (linkParent (newContext c p isForeground) p) p

theorem loadArgs_quiet {argc : ℕ} (h : loadArgs c p argc = some c') : Quiet c c' := by
  obtain ⟨argv, answers, live, entries, rfl, hlive⟩ := loadArgs_some h
  exact ⟨⟨rfl, rfl, rfl, rfl, rfl, rfl, rfl, hlive .record (by simp) (by simp)⟩, hlive .pipe (by simp) (by simp)⟩

theorem Quiet.addToProcessList (h : Quiet c c') (p : ℕ) :
    Quiet (addToProcessList c p) (addToProcessList c' p) := by
  unfold Process.addToProcessList
  rw [h.processesList]
  split
  · exact ⟨⟨h.processesList, h.pids, h.pid, h.parentPid, h.isForeground, h.children, h.childrenLength, h.records⟩,
      h.pipes⟩
  · exact ⟨⟨rfl, h.pids, h.pid, h.parentPid, h.isForeground, h.children, h.childrenLength, h.records⟩, h.pipes⟩

theorem Quiet.linkParent (h : Quiet c c') (hcur : c'.currentProcess = c.currentProcess) (p : ℕ) :
    Quiet (linkParent c p) (linkParent c' p) := by
  unfold Process.linkParent adoptChild
  rw [hcur, h.pid, h.parentPid, h.children, h.childrenLength]
  split
  · dsimp only
    split
    · exact ⟨⟨h.processesList, h.pids, rfl, rfl, h.isForeground, rfl, rfl, h.records⟩, h.pipes⟩
    · exact ⟨⟨h.processesList, h.pids, rfl, rfl, h.isForeground, rfl, rfl, h.records⟩, h.pipes⟩
  · exact ⟨⟨h.processesList, h.pids, rfl, rfl, h.isForeground, rfl, rfl, h.records⟩, h.pipes⟩

theorem Quiet.assignPid (h : Quiet c c') (p : ℕ) : Quiet (assignPid c p) (assignPid c' p) := by
  obtain ⟨hpid, hpids⟩ := assignPid_congr (p := p) h.pid h.pids
  rw [assignPid_eq c, assignPid_eq c']
  exact ⟨⟨h.processesList, hpids, hpid, h.parentPid, h.isForeground, h.children, h.childrenLength, h.records⟩, h.pipes⟩

theorem getForegroundProcess_congr (ht : c'.processesList = c.processesList)
    (hf : c'.isForeground = c.isForeground) : getForegroundProcess c' = getForegroundProcess c := by
  unfold getForegroundProcess
  rw [ht, hf]

theorem Quiet.assignForeground (h : Quiet c c') (p : ℕ) (v : ℤ) :
    Quiet (assignForeground c p v) (assignForeground c' p v) := by
  refine ⟨⟨h.processesList, h.pids, h.pid, h.parentPid, ?_, h.children, h.childrenLength, h.records⟩, h.pipes⟩
  have hset : update c'.isForeground p v = update c.isForeground p v := by rw [h.isForeground]
  have hold : getForegroundProcess { c' with isForeground := update c'.isForeground p v } =
      getForegroundProcess { c with isForeground := update c.isForeground p v } :=
    getForegroundProcess_congr h.processesList hset
  show update (update c'.isForeground p v) _ 0 = update (update c.isForeground p v) _ 0
  rw [hold, hset]

theorem Quiet.newContext (h : Quiet c c') (p : ℕ) (v : ℤ) :
    Quiet (newContext c p v) (newContext c' p v) := by
  obtain ⟨⟨h1, h2, h3, h4, h5, h6, h7, h8⟩, h9⟩ := h.assignPid p
  apply Quiet.assignForeground
  exact ⟨⟨h1, h2, h3, h4, h5, by rw [h6], by rw [h7], h8⟩, h9⟩

theorem newContext_currentProcess (c : Core) (p : ℕ) (v : ℤ) :
    (newContext c p v).currentProcess = c.currentProcess := by
  show (assignPid c p).currentProcess = c.currentProcess
  rw [assignPid_eq]

theorem Quiet.enroll (h : Quiet c c') (hcur : c'.currentProcess = c.currentProcess) (p : ℕ) (v : ℤ) :
    Quiet (enroll c p v) (enroll c' p v) := by
  apply Quiet.addToProcessList
  refine (h.newContext p v).linkParent ?_ p
  rw [newContext_currentProcess, newContext_currentProcess, hcur]

theorem copyContext_table {stackTop : ℕ} {args : CreateArgs} (h : copyContext c p stackTop args = some c') :
    Quiet (newContext c p args.isForeground) c' ∧ c'.currentProcess = c.currentProcess := by
  unfold newContext
  obtain ⟨name, priorityName, answers, live, rfl, -, -, hlive⟩ := copyContext_some h
  rw [assignPid_eq]
  refine ⟨Quiet.assignForeground ?_ p args.isForeground, rfl⟩
  exact ⟨⟨rfl, rfl, rfl, rfl, rfl, rfl, rfl, hlive .record (by simp) (by simp)⟩, hlive .pipe (by simp) (by simp)⟩

theorem enterProcess_table {stackTop : ℕ} {args : CreateArgs} (h : enterProcess c p stackTop args = some c') :
    Quiet (enroll c p args.isForeground) c' := by
  obtain ⟨c₁, hcopy, h⟩ := Option.bind_eq_some_iff.mp h
  obtain ⟨c₂, hload, hadd⟩ := Option.bind_eq_some_iff.mp h
  obtain ⟨hcontext, hcur⟩ := copyContext_table hcopy
  have hwait : Quiet c { c with waitingOnChild := update c.waitingOnChild p args.waiting } :=
    ⟨⟨rfl, rfl, rfl, rfl, rfl, rfl, rfl, rfl⟩, rfl⟩
  have hlink := ((hwait.newContext p args.isForeground).trans hcontext).linkParent
    (hcur.trans (newContext_currentProcess c p args.isForeground).symm) p
  exact ((hlink.trans (loadArgs_quiet hload)).addToProcessList p).trans (addToReadyList_edit hadd).quiet

end BareKernel.Process

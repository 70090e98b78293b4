import BareKernel.Process.RingInv
import BareKernel.Process.Scheduler

/-! What holds of the process table and the ready ring between calls. The ring
holds the processes of the table that are ready or running, each once; only
`current_process` can be running, and then the cursor is at its node. Every
operation of the scheduler is described by what it does to the records, up to
edits of the ring. -/

namespace BareKernel.Process

open Function (update)
open Links

/-- The process has a slot of the table. -/
def InTable (c : Core) (p : ℕ) : Prop := p ≠ 0 ∧ ∃ i < maxProcesses, c.processesList i = p

instance (c : Core) (p : ℕ) : Decidable (InTable c p) := inferInstanceAs (Decidable (_ ∧ _))

/-- No process. -/
def nobody (_ : ℕ) : Prop := False

/-- The table and the ring agree with the states; `L` are the nodes of the ring. -/
structure ReadyInv (c : Core) (L : List ℕ) : Prop where
  nodes : Nodes c L
  inTable : ∀ p ∈ ringProcs c L, InTable c p
  ready : ∀ p, InTable c p → (p ∈ ringProcs c L ↔ c.state p = .ready ∨ c.state p = .running)
  running : ∀ p, InTable c p → c.state p = .running → p = c.currentProcess
  cursor : c.state c.currentProcess = .running →
    c.currentProcess ∈ ringProcs c L ∧ c.processInfo c.currentNode = c.currentProcess
  null : c.state 0 = .terminated
  slots : ∀ i < maxProcesses, ∀ j < maxProcesses,
    c.processesList i = c.processesList j → c.processesList i ≠ 0 → i = j
  records : ∀ p, InTable c p → p ∈ c.live .record

variable {c c' c₁ : Core} {L L' : List ℕ} {p q i : ℕ} {pid : ℤ}

/-! ### Looking up a pid -/

theorem foundprocess_some (h : foundprocess c pid = some i) :
    i < maxProcesses ∧ InTable c (c.processesList i) ∧ c.pid (c.processesList i) = pid := by
  have hmem := List.mem_of_find?_eq_some h
  have hp := List.find?_some h
  simp only [decide_eq_true_eq] at hp
  rw [List.mem_range] at hmem
  exact ⟨hmem, ⟨hp.1, i, hmem, rfl⟩, hp.2⟩

theorem foundprocess_none (h : foundprocess c pid = none) (hp : InTable c p) : c.pid p ≠ pid := by
  obtain ⟨h0, i, hi, rfl⟩ := hp
  have hnot := List.find?_eq_none.mp h i (List.mem_range.mpr hi)
  simp only [decide_eq_true_eq, not_and] at hnot
  exact hnot h0

/-- The lookup reads the table and the pids. -/
theorem foundprocess_congr (ht : c'.processesList = c.processesList) (hp : c'.pid = c.pid) :
    foundprocess c' pid = foundprocess c pid := by
  rw [foundprocess, foundprocess, ht, hp]

theorem inTable_congr (ht : c'.processesList = c.processesList) : InTable c' p ↔ InTable c p := by
  rw [InTable, InTable, ht]

/-- The invariant reads the ring, the table, the states and which nodes and records
are in use. -/
theorem ReadyInv.congr (h : ReadyInv c L) (hring : c'.toReadyRing = c.toReadyRing)
    (hs : c'.state = c.state) (hcur : c'.currentProcess = c.currentProcess)
    (ht : c'.processesList = c.processesList) (hnode : c'.live .node = c.live .node)
    (hrecord : ∀ p, InTable c p → p ∈ c'.live .record) : ReadyInv c' L := by
  have hinfo : c'.processInfo = c.processInfo := congrArg ReadyRing.processInfo hring
  have hcn : c'.currentNode = c.currentNode := congrArg ReadyRing.currentNode hring
  have hprocs : ringProcs c' L = ringProcs c L := ringProcs_congr hring
  refine ⟨h.nodes.congr hring hnode, ?_, ?_, ?_, ?_, ?_, ?_, ?_⟩
  · intro p hp
    rw [hprocs] at hp
    exact (inTable_congr ht).mpr (h.inTable p hp)
  · intro p hp
    rw [hprocs, hs]
    exact h.ready p ((inTable_congr ht).mp hp)
  · intro p hp
    rw [hs, hcur]
    exact h.running p ((inTable_congr ht).mp hp)
  · rw [hcur, hs, hprocs, hinfo, hcn]
    exact h.cursor
  · rw [hs]
    exact h.null
  · rw [ht]
    exact h.slots
  · intro p hp
    exact hrecord p ((inTable_congr ht).mp hp)

theorem ReadyInv.ringInv (h : ReadyInv c L) : RingInv c L := by
  refine ⟨h.nodes, fun q hq => ?_, h.null⟩
  have hin := h.inTable q hq
  exact ⟨hin.1, ((h.ready q hin).mp hq).imp_right fun hr => ⟨h.running q hin hr, hr⟩⟩

/-! ### Leaving and entering the ring -/

/-- A process that runs after another one has got a state runs before. -/
theorem running_of_update {state : ℕ → Status} {s : Status} {q : ℕ} (hs : s ≠ .running)
    (h : update state p s q = .running) : q ≠ p ∧ state q = .running := by
  have hqp : q ≠ p := by
    rintro rfl
    rw [Function.update_self] at h
    exact hs h
  exact ⟨hqp, by rwa [Function.update_of_ne hqp] at h⟩

/-- A process has left the ring and is no longer ready. -/
theorem ReadyInv.leave (h : ReadyInv c L) {s : Status} (hr : s ≠ .ready) (hu : s ≠ .running)
    (h0 : p ≠ 0) (hedit : RingEdit { c with state := update c.state p s } c') (hN : Nodes c' L')
    (hmem : ∀ q, q ∈ ringProcs c' L' ↔ q ∈ ringProcs c L ∧ q ≠ p)
    (hcur : c.processInfo c.currentNode ≠ p →
      c'.processInfo c'.currentNode = c.processInfo c.currentNode) : ReadyInv c' L' := by
  have hstate : c'.state = update c.state p s := by rw [hedit.records]
  have htable : ∀ q, InTable c' q ↔ InTable c q := fun q => inTable_congr hedit.processesList
  have hcp : c'.currentProcess = c.currentProcess := hedit.currentProcess
  have hne : ∀ q, c'.state q = .running → q ≠ p ∧ c.state q = .running :=
    fun q hq => running_of_update hu (hstate ▸ hq)
  refine ⟨hN, fun q hq => ?_, fun q hq => ?_, fun q hq hrun => ?_, fun hrun => ?_, ?_, ?_, fun q hq => ?_⟩
  · exact (htable q).mpr (h.inTable q ((hmem q).mp hq).1)
  · rw [hmem, hstate]
    rcases eq_or_ne q p with rfl | hqp
    · simp [hr, hu]
    · rw [Function.update_of_ne hqp, h.ready q ((htable q).mp hq)]
      simp [hqp]
  · rw [hcp]
    exact h.running q ((htable q).mp hq) (hne q hrun).2
  · obtain ⟨hqp, hrun'⟩ := hne _ hrun
    rw [hcp] at hqp hrun' ⊢
    obtain ⟨hin, hnode⟩ := h.cursor hrun'
    refine ⟨(hmem _).mpr ⟨hin, hqp⟩, ?_⟩
    rw [hcur (by rwa [hnode]), hnode]
  · rw [hstate, Function.update_of_ne (Ne.symm h0)]
    exact h.null
  · rw [hedit.processesList]
    exact h.slots
  · rw [hedit.live .record (by simp)]
    exact h.records q ((htable q).mp hq)

/-- A process has become ready and entered the ring. -/
theorem ReadyInv.enter (h : ReadyInv c L) (hp : InTable c p) (hnot : c.state p ≠ .running)
    (hedit : RingEdit { c with state := update c.state p .ready } c') (hN : Nodes c' L')
    (hmem : ∀ q, q ∈ ringProcs c' L' ↔ q ∈ ringProcs c L ∨ q = p)
    (hcur : L ≠ [] → c'.processInfo c'.currentNode = c.processInfo c.currentNode) :
    ReadyInv c' L' := by
  have hstate : c'.state = update c.state p .ready := by rw [hedit.records]
  have htable : ∀ q, InTable c' q ↔ InTable c q := fun q => inTable_congr hedit.processesList
  have hcp : c'.currentProcess = c.currentProcess := hedit.currentProcess
  have hne : ∀ q, c'.state q = .running → q ≠ p ∧ c.state q = .running :=
    fun q hq => running_of_update (by simp) (hstate ▸ hq)
  refine ⟨hN, fun q hq => ?_, fun q hq => ?_, fun q hq hrun => ?_, fun hrun => ?_, ?_, ?_, fun q hq => ?_⟩
  · rcases (hmem q).mp hq with hq | rfl
    · exact (htable q).mpr (h.inTable q hq)
    · exact (htable q).mpr hp
  · rw [hmem, hstate]
    rcases eq_or_ne q p with rfl | hqp
    · simp
    · rw [Function.update_of_ne hqp, h.ready q ((htable q).mp hq)]
      simp [hqp]
  · rw [hcp]
    exact h.running q ((htable q).mp hq) (hne q hrun).2
  · obtain ⟨hqp, hrun'⟩ := hne _ hrun
    rw [hcp] at hqp hrun' ⊢
    obtain ⟨hin, hnode⟩ := h.cursor hrun'
    have hL : L ≠ [] := by
      rintro rfl
      simp [ringProcs] at hin
    exact ⟨(hmem _).mpr (Or.inl hin), by rw [hcur hL, hnode]⟩
  · rw [hstate, Function.update_of_ne (Ne.symm hp.1)]
    exact h.null
  · rw [hedit.processesList]
    exact h.slots
  · rw [hedit.live .record (by simp)]
    exact h.records q ((htable q).mp hq)

/-! ### Blocking and unblocking -/

theorem getProcessByPid_congr (ht : c'.processesList = c.processesList) (hp : c'.pid = c.pid) :
    getProcessByPid c' pid = getProcessByPid c pid := by
  rw [getProcessByPid, getProcessByPid, foundprocess_congr ht hp, ht]

/-- The lookup finds a process of the table with the pid, if there is one. -/
theorem getProcessByPid_spec (c : Core) (pid : ℤ) :
    (getProcessByPid c pid = 0 ∧ ∀ p, InTable c p → c.pid p ≠ pid) ∨
      InTable c (getProcessByPid c pid) ∧ c.pid (getProcessByPid c pid) = pid := by
  unfold getProcessByPid
  rcases hf : foundprocess c pid with _ | i
  · exact Or.inl ⟨rfl, fun p hp => foundprocess_none hf hp⟩
  · exact Or.inr (foundprocess_some hf).2

theorem blockProcess_self (hr : c.state (getProcessByPid c pid) ≠ .ready)
    (hu : c.state (getProcessByPid c pid) ≠ .running) : blockProcess c pid = some (-1, c) := by
  unfold getProcessByPid at hr hu
  unfold blockProcess
  rcases hf : foundprocess c pid with _ | i
  · rfl
  · simp only [hf] at hr hu
    simp [hr, hu]

theorem blockProcess_spec (h : ReadyInv c L) (hp : p = getProcessByPid c pid)
    (hs : c.state p = .ready ∨ c.state p = .running) :
    ∃ c' L', blockProcess c pid = some (1, c') ∧ ReadyInv c' L' ∧ InTable c p ∧ c.pid p = pid ∧
      RingEdit { c with state := update c.state p .blocked } c' ∧
      ∀ q, q ∈ ringProcs c' L' ↔ q ∈ ringProcs c L ∧ q ≠ p := by
  have hp0 : p ≠ 0 := by
    rintro rfl
    simp [h.null] at hs
  unfold getProcessByPid at hp
  rcases hf : foundprocess c pid with _ | i
  · rw [hf] at hp
    exact absurd hp hp0
  · simp only [hf] at hp
    obtain ⟨-, hin, hpid⟩ := foundprocess_some hf
    rw [← hp] at hin hpid
    obtain ⟨c', L', hrem, hedit, hN, hmem, hcur⟩ :=
      removeFromReadyList_spec (h.nodes.setState (update c.state p .blocked)) p
    refine ⟨c', L', ?_, h.leave (by simp) (by simp) hp0 hedit hN hmem hcur, hin, hpid, hedit, hmem⟩
    have hcond : ¬(c.state p ≠ .running ∧ c.state p ≠ .ready) := by tauto
    simp only [blockProcess, hf, ← hp, hcond, if_false]
    exact Option.bind_eq_some_iff.mpr ⟨c', hrem, rfl⟩

theorem unblockProcess_self (hs : pid = 1 ∨ c.state (getProcessByPid c pid) ≠ .blocked) :
    unblockProcess c pid = some (-1, c) := by
  unfold unblockProcess
  by_cases h1 : pid = 1
  · simp [h1]
  · have hs' := hs.resolve_left h1
    unfold getProcessByPid at hs'
    rcases hf : foundprocess c pid with _ | i
    · simp [h1]
    · simp only [hf] at hs'
      simp [h1, hs']

theorem unblockProcess_spec (h : ReadyInv c L) (hp : p = getProcessByPid c pid)
    (h1 : pid ≠ 1) (hs : c.state p = .blocked) {r : ℤ} (hrun : unblockProcess c pid = some (r, c')) :
    r = 1 ∧ InTable c p ∧ c.pid p = pid ∧ RingEdit { c with state := update c.state p .ready } c' ∧
      ∃ L', ReadyInv c' L' ∧ ∀ q, q ∈ ringProcs c' L' ↔ q ∈ ringProcs c L ∨ q = p := by
  have hp0 : p ≠ 0 := by
    rintro rfl
    simp [h.null] at hs
  unfold getProcessByPid at hp
  rcases hf : foundprocess c pid with _ | i
  · rw [hf] at hp
    exact absurd hp hp0
  · simp only [hf] at hp
    obtain ⟨-, hin, hpid⟩ := foundprocess_some hf
    rw [← hp] at hin hpid
    have hN := h.nodes.setState (update c.state p .ready)
    have hfound : p ∉ ringProcs c L := by
      intro hm
      have hst := (h.ready p hin).mp hm
      simp [hs] at hst
    have hsearch := isInReadyList_eq hN p
    rw [decide_eq_false (show p ∉ L.map _ from hfound)] at hsearch
    have hcond : ¬c.state p ≠ .blocked := not_not.mpr hs
    simp only [unblockProcess, h1, if_false, hf, ← hp, hcond, hsearch, Option.bind_eq_bind,
      Option.bind_some, Bool.false_eq_true] at hrun
    obtain ⟨c₁, hadd, hret⟩ := Option.bind_eq_some_iff.mp hrun
    obtain ⟨rfl, rfl⟩ : 1 = r ∧ c₁ = c' := by simpa using hret
    obtain ⟨hedit, L', hN', hmem, hcur⟩ := addToReadyList_procs hN hadd
    exact ⟨rfl, hin, hpid, hedit, L', h.enter hin (by simp [hs]) hedit hN' hmem hcur, hmem⟩

/-- What blocking and unblocking leave alone. -/
structure Frame (c c' : Core) : Prop where
  pid : c'.pid = c.pid
  stackPointer : c'.stackPointer = c.stackPointer
  processesList : c'.processesList = c.processesList
  currentProcess : c'.currentProcess = c.currentProcess
  pids : c'.pids = c.pids
  live : ∀ kind, kind ≠ .node → c'.live kind = c.live kind

theorem Frame.refl (c : Core) : Frame c c := ⟨rfl, rfl, rfl, rfl, rfl, fun _ _ => rfl⟩

theorem RingEdit.frame {s : ℕ → Status} (h : RingEdit { c with state := s } c') : Frame c c' :=
  ⟨by rw [h.records], by rw [h.records], h.processesList, h.currentProcess, h.pids, h.live⟩

/-- Unblocking the pid makes this process ready. -/
def Wakes (c : Core) (pid : ℤ) (q : ℕ) : Prop :=
  pid ≠ 1 ∧ q = getProcessByPid c pid ∧ c.state q = .blocked

instance : Decidable (Wakes c pid q) := inferInstanceAs (Decidable (_ ∧ _ ∧ _))

/-- Blocking the pid blocks this process. -/
def Blocks (c : Core) (pid : ℤ) (q : ℕ) : Prop :=
  q = getProcessByPid c pid ∧ (c.state q = .ready ∨ c.state q = .running)

instance : Decidable (Blocks c pid q) := inferInstanceAs (Decidable (_ ∧ _))

theorem unblockProcess_effect (h : ReadyInv c L) {r : ℤ} (hrun : unblockProcess c pid = some (r, c')) :
    Frame c c' ∧ (∃ L', ReadyInv c' L') ∧
      c'.state = fun q => if Wakes c pid q then .ready else c.state q := by
  by_cases hw : pid ≠ 1 ∧ c.state (getProcessByPid c pid) = .blocked
  · obtain ⟨-, -, -, hedit, L', hinv, -⟩ := unblockProcess_spec h rfl hw.1 hw.2 hrun
    refine ⟨hedit.frame, ⟨L', hinv⟩, ?_⟩
    funext q
    rw [show c'.state = _ from congrArg Records.state hedit.records]
    by_cases hq : q = getProcessByPid c pid
    · have hwq : Wakes c pid q := ⟨hw.1, hq, hq ▸ hw.2⟩
      rw [if_pos hwq, hq]
      exact Function.update_self ..
    · have hwq : ¬Wakes c pid q := fun hwq => hq hwq.2.1
      rw [if_neg hwq]
      exact Function.update_of_ne hq ..
  · have hself : unblockProcess c pid = some (-1, c) := unblockProcess_self (by tauto)
    obtain ⟨rfl, rfl⟩ : -1 = r ∧ c = c' := by simpa using hself.symm.trans hrun
    refine ⟨.refl c, ⟨L, h⟩, ?_⟩
    funext q
    have hwq : ¬Wakes c pid q := fun hwq => hw ⟨hwq.1, hwq.2.1 ▸ hwq.2.2⟩
    rw [if_neg hwq]

theorem blockProcess_effect (h : ReadyInv c L) :
    ∃ r c', blockProcess c pid = some (r, c') ∧ Frame c c' ∧ (∃ L', ReadyInv c' L') ∧
      c'.state = fun q => if Blocks c pid q then .blocked else c.state q := by
  by_cases hb : c.state (getProcessByPid c pid) = .ready ∨ c.state (getProcessByPid c pid) = .running
  · obtain ⟨c', L', hrun, hinv, -, -, hedit, -⟩ := blockProcess_spec h rfl hb
    refine ⟨1, c', hrun, hedit.frame, ⟨L', hinv⟩, ?_⟩
    funext q
    rw [show c'.state = _ from congrArg Records.state hedit.records]
    by_cases hq : q = getProcessByPid c pid
    · have hbq : Blocks c pid q := ⟨hq, hq ▸ hb⟩
      rw [if_pos hbq, hq]
      exact Function.update_self ..
    · have hbq : ¬Blocks c pid q := fun hbq => hq hbq.1
      rw [if_neg hbq]
      exact Function.update_of_ne hq ..
  · rw [not_or] at hb
    refine ⟨-1, c, blockProcess_self hb.1 hb.2, .refl c, ⟨L, h⟩, ?_⟩
    funext q
    have hbq : ¬Blocks c pid q := by
      rintro ⟨rfl, hs⟩
      tauto
    rw [if_neg hbq]

/-! ### The scheduler -/

/-- The stack pointers and the counters are free to change, and so is the running
process to ready. -/
theorem ReadyInv.settle (h : ReadyInv c L) (sps : ℕ → StackPtr) (counters : ℕ → ℤ)
    {states : ℕ → Status} (hs : states = c.state ∨
      c.state c.currentProcess = .running ∧ states = update c.state c.currentProcess .ready) :
    ReadyInv { c with stackPointer := sps, counter := counters, state := states } L := by
  have hiff : ∀ p, states p = .ready ∨ states p = .running ↔ c.state p = .ready ∨ c.state p = .running := by
    intro p
    rcases hs with rfl | ⟨hrun, rfl⟩
    · rfl
    · rcases eq_or_ne p c.currentProcess with rfl | hp
      · simp [hrun]
      · simp [hp]
  have hrun : ∀ p, states p = .running → c.state p = .running := by
    intro p hp
    rcases hs with rfl | ⟨-, rfl⟩
    · exact hp
    · rcases eq_or_ne p c.currentProcess with rfl | hne
      · simp at hp
      · rwa [Function.update_of_ne hne] at hp
  have hnull : states 0 = .terminated := by
    rcases hs with rfl | ⟨hr, rfl⟩
    · exact h.null
    · have h0 : (0 : ℕ) ≠ c.currentProcess := fun he => by simp [← he, h.null] at hr
      rw [Function.update_of_ne h0]
      exact h.null
  have hn := h.nodes
  exact ⟨⟨hn.ring, hn.nodup, hn.head, hn.null, hn.cursor, hn.noCursor, hn.procs, hn.live⟩, h.inTable,
    fun p hp => (h.ready p hp).trans (hiff p).symm, fun p hp hs => h.running p hp (hrun p hs),
    fun hp => h.cursor (hrun _ hp), hnull, h.slots, h.records⟩

/-- The scheduler goes on with a process of the table. -/
theorem scheduler_spec (h : ReadyInv c L) (hne : c.readyList ≠ 0) (sp : StackPtr) :
    ∃ c', scheduler c sp = some (c'.stackPointer c'.currentProcess, c') ∧ ReadyInv c' L ∧
      c'.currentProcess ∈ ringProcs c L ∧ c'.state c'.currentProcess = .running ∧ Dispatch c c' ∧
      c'.stackPointer = (if c.state c.currentProcess = .blocked ∨ c.state c.currentProcess = .running
        then update c.stackPointer c.currentProcess sp else c.stackPointer) ∧
      c'.state = update (if c.state c.currentProcess = .running
        then update c.state c.currentProcess .ready else c.state) c'.currentProcess .running := by
  obtain ⟨c', hsched, hinv, hinfo, hrun, hdisp, hcur, hsp, hstate, -⟩ := h.ringInv.scheduler hne sp
  have hprocs : ringProcs c' L = ringProcs c L := by rw [ringProcs, ringProcs, hinfo]
  have hmem : c'.currentProcess ∈ ringProcs c L ∧ c'.processInfo c'.currentNode = c'.currentProcess := by
    rcases hcur with hnew | ⟨hsame, hnode, hold⟩
    · exact hnew
    · obtain ⟨hmem, hcursor⟩ := h.cursor hold
      rw [hsame, hinfo, hnode]
      exact ⟨hmem, hcursor⟩
  have hbefore (p : ℕ) (hp : p ≠ c'.currentProcess) :
      (c'.state p = .ready ∨ c'.state p = .running ↔ c.state p = .ready ∨ c.state p = .running) ∧
        (c'.state p = .running → p ≠ c.currentProcess ∧ c.state p = .running) := by
    rw [hstate, Function.update_of_ne hp]
    split
    · rename_i hold
      rcases eq_or_ne p c.currentProcess with rfl | hne'
      · simp [hold]
      · simp [hne']
    · rename_i hold
      refine ⟨Iff.rfl, fun hs => ⟨?_, hs⟩⟩
      rintro rfl
      exact hold hs
  refine ⟨c', hsched, ⟨hinv.nodes, fun q hq => ?_, fun p hp => ?_, fun p hp hs => ?_, fun _ => ?_, hinv.null,
    ?_, fun p hp => ?_⟩, hmem.1, hrun, hdisp, hsp, hstate⟩
  · rw [hprocs] at hq
    exact (inTable_congr hdisp.processesList).mpr (h.inTable q hq)
  · have hin := (inTable_congr hdisp.processesList).mp hp
    rw [hprocs]
    rcases eq_or_ne p c'.currentProcess with rfl | hne'
    · simp [hmem.1, hrun]
    · rw [(hbefore p hne').1]
      exact h.ready p hin
  · by_contra hne'
    obtain ⟨hcp, hs'⟩ := (hbefore p hne').2 hs
    exact hcp (h.running p ((inTable_congr hdisp.processesList).mp hp) hs')
  · rw [hprocs]
    exact hmem
  · rw [hdisp.processesList]
    exact h.slots
  · rw [hdisp.live]
    exact h.records p ((inTable_congr hdisp.processesList).mp hp)

end BareKernel.Process

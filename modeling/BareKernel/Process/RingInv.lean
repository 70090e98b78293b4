import BareKernel.Process.ReadyRing

/-! The ready ring in any run, whatever the process table holds: the processes of the
ring are ready, or one of them is the running `current_process`. The scheduler then
never falls through its scan. -/

namespace BareKernel.Process

open Function (update)
open Links

/-- The ring goes through the nodes `L`, and its processes may run. -/
structure RingInv (c : Core) (L : List ℕ) : Prop where
  nodes : Nodes c L
  procs : ∀ q ∈ ringProcs c L, q ≠ 0 ∧ (c.state q = .ready ∨ q = c.currentProcess ∧ c.state q = .running)
  null : c.state 0 = .terminated

variable {c c' : Core} {L L' : List ℕ} {p q : ℕ} {s : Status}

/-- The nodes are read from the ring and the blocks in use. -/
theorem Nodes.congr (h : Nodes c L) (hring : c'.toReadyRing = c.toReadyRing)
    (hnode : c'.live .node = c.live .node) : Nodes c' L := by
  refine ⟨?_, h.nodup, ?_, h.null, ?_, ?_, ?_, ?_⟩
  · rw [show c'.next = c.next from congrArg ReadyRing.next hring]
    exact h.ring
  · rw [show c'.readyList = c.readyList from congrArg ReadyRing.readyList hring]
    exact h.head
  · rw [show c'.currentNode = c.currentNode from congrArg ReadyRing.currentNode hring]
    exact h.cursor
  · rw [show c'.currentNode = c.currentNode from congrArg ReadyRing.currentNode hring]
    exact h.noCursor
  · rw [show c'.processInfo = c.processInfo from congrArg ReadyRing.processInfo hring]
    exact h.procs
  · rw [hnode]
    exact h.live

theorem ringProcs_congr (hring : c'.toReadyRing = c.toReadyRing) : ringProcs c' L = ringProcs c L := by
  rw [ringProcs, ringProcs, show c'.processInfo = c.processInfo from congrArg ReadyRing.processInfo hring]

/-- The nodes do not depend on the records. -/
theorem Nodes.setState (h : Nodes c L) (s : ℕ → Status) : Nodes { c with state := s } L := h.congr rfl rfl

theorem RingInv.congr (h : RingInv c L) (hring : c'.toReadyRing = c.toReadyRing)
    (hnode : c'.live .node = c.live .node) (hs : c'.state = c.state)
    (hcur : c'.currentProcess = c.currentProcess) : RingInv c' L := by
  refine ⟨h.nodes.congr hring hnode, fun q hq => ?_, ?_⟩
  · rw [ringProcs_congr hring] at hq
    rw [hs, hcur]
    exact h.procs q hq
  · rw [hs]
    exact h.null

/-- A process has left the ring, whatever its state has become. -/
theorem RingInv.leave (h : RingInv c L) (h0 : p = 0 → s = .terminated)
    (hedit : RingEdit { c with state := update c.state p s } c') (hN : Nodes c' L')
    (hmem : ∀ q, q ∈ ringProcs c' L' ↔ q ∈ ringProcs c L ∧ q ≠ p) : RingInv c' L' := by
  have hstate : c'.state = update c.state p s := by rw [hedit.records]
  have hcur : c'.currentProcess = c.currentProcess := hedit.currentProcess
  refine ⟨hN, fun q hq => ?_, ?_⟩
  · obtain ⟨hq, hqp⟩ := (hmem q).mp hq
    rw [hstate, hcur, Function.update_of_ne hqp]
    exact h.procs q hq
  · rw [hstate]
    rcases eq_or_ne p 0 with rfl | hp
    · rw [Function.update_self, h0 rfl]
    · rw [Function.update_of_ne hp.symm]
      exact h.null

/-- A process has become ready and entered the ring. -/
theorem RingInv.enter (h : RingInv c L) (h0 : p ≠ 0)
    (hedit : RingEdit { c with state := update c.state p .ready } c') (hN : Nodes c' L')
    (hmem : ∀ q, q ∈ ringProcs c' L' ↔ q ∈ ringProcs c L ∨ q = p) : RingInv c' L' := by
  have hstate : c'.state = update c.state p .ready := by rw [hedit.records]
  have hcur : c'.currentProcess = c.currentProcess := hedit.currentProcess
  refine ⟨hN, fun q hq => ?_, ?_⟩
  · rw [hstate, hcur]
    rcases eq_or_ne q p with rfl | hqp
    · simp [h0]
    · rw [Function.update_of_ne hqp]
      exact h.procs q (((hmem q).mp hq).resolve_right hqp)
  · rw [hstate, Function.update_of_ne h0.symm]
    exact h.null

/-! ### The scheduler -/

/-- The scheduler looks for another process, unless the running one has time left. -/
def Dispatches (c : Core) : Prop :=
  c.readyList ≠ 0 ∧
    ¬(c.currentProcess ≠ 0 ∧ c.state c.currentProcess = .running ∧ 0 < c.counter c.currentNode - 1)

instance (c : Core) : Decidable (Dispatches c) := by
  unfold Dispatches
  infer_instance

/-- What a call of the scheduler leaves alone. -/
structure Dispatch (c c' : Core) : Prop where
  pid : c'.pid = c.pid
  processesList : c'.processesList = c.processesList
  pids : c'.pids = c.pids
  live : c'.live = c.live
  readyList : c'.readyList = c.readyList
  priority : c'.priority = c.priority

theorem Nodes.next_mem (h : Nodes c L) (hne : L ≠ []) : c.next c.currentNode ∈ L := by
  obtain ⟨y, hy, hfwd⟩ := h.ring.exists_next (h.cursor hne)
  rwa [show c.next c.currentNode = y from hfwd]

/-- When all processes of the ring are ready, the one behind the cursor runs. -/
theorem Nodes.schedule (h : Nodes c L) (hne : L ≠ []) (hall : ∀ q ∈ ringProcs c L, c.state q = .ready)
    (sp : StackPtr) :
    ∃ c', schedule c sp = some (c.stackPointer c'.currentProcess, c') ∧ Nodes c' L ∧
      c'.processInfo = c.processInfo ∧ c'.currentProcess ∈ ringProcs c L ∧
      c'.processInfo c'.currentNode = c'.currentProcess ∧ c'.stackPointer = c.stackPointer ∧
      Dispatch c c' ∧ c'.state = update c.state c'.currentProcess .running ∧
      c'.currentNode = c.next c.currentNode ∧ c'.counter c'.currentNode = c.priority c'.currentProcess := by
  have hmem := h.next_mem hne
  set node := c.next c.currentNode with hnode
  have hring : c.processInfo node ∈ ringProcs c L := List.mem_map_of_mem hmem
  have hready : c.state (c.processInfo (c.next c.currentNode)) = .ready := hall _ hring
  let c' : Core := { c with
    currentNode := node
    currentProcess := c.processInfo node
    state := update c.state (c.processInfo node) .running
    counter := update c.counter node (c.priority (c.processInfo node)) }
  refine ⟨c', Option.bind_eq_some_iff.mpr ⟨_, findReady_eq hready, rfl⟩, ?_, rfl, hring, rfl, rfl,
    ⟨rfl, rfl, rfl, rfl, rfl, rfl⟩, rfl, rfl, Function.update_self ..⟩
  exact ⟨h.ring, h.nodup, h.head, h.null, fun _ => hmem, fun he => absurd he hne, h.procs, h.live⟩

/-- With a process in the ring, the scheduler goes on with the running process or
runs the process behind the cursor. -/
theorem RingInv.scheduler (h : RingInv c L) (hne : c.readyList ≠ 0) (sp : StackPtr) :
    ∃ c', scheduler c sp = some (c'.stackPointer c'.currentProcess, c') ∧ RingInv c' L ∧
      c'.processInfo = c.processInfo ∧ c'.state c'.currentProcess = .running ∧ Dispatch c c' ∧
      (c'.currentProcess ∈ ringProcs c L ∧ c'.processInfo c'.currentNode = c'.currentProcess ∨
        c'.currentProcess = c.currentProcess ∧ c'.currentNode = c.currentNode ∧
          c.state c.currentProcess = .running) ∧
      c'.stackPointer = (if c.state c.currentProcess = .blocked ∨ c.state c.currentProcess = .running
        then update c.stackPointer c.currentProcess sp else c.stackPointer) ∧
      c'.state = update (if c.state c.currentProcess = .running
        then update c.state c.currentProcess .ready else c.state) c'.currentProcess .running ∧
      (Dispatches c ∧ c'.currentNode = c.next c.currentNode ∧ c'.processInfo c'.currentNode = c'.currentProcess ∧
          c'.counter c'.currentNode = c.priority c'.currentProcess ∨
        ¬Dispatches c ∧ c'.currentNode = c.currentNode ∧ c'.currentProcess = c.currentProcess ∧
          c'.counter c'.currentNode = c.counter c.currentNode - 1) := by
  have hL : L ≠ [] := fun he => hne (h.nodes.readyList_eq_zero.mpr he)
  -- after the scan everybody else in the ring is ready
  have hsettled (c₁ : Core) (hall : ∀ q ∈ ringProcs c L, c₁.state q = .ready) (hring : ringProcs c₁ L = ringProcs c L)
      (h0 : c₁.state 0 = .terminated) {c' : Core} (hN : Nodes c' L) (hinfo : c'.processInfo = c₁.processInfo)
      (hcur : c'.currentProcess ∈ ringProcs c₁ L) (hstate : c'.state = update c₁.state c'.currentProcess .running) :
      RingInv c' L := by
    have hprocs : ringProcs c' L = ringProcs c L := by rw [← hring, ringProcs, ringProcs, hinfo]
    have hcur0 : c'.currentProcess ≠ 0 := (h.procs _ (hring ▸ hcur)).1
    refine ⟨hN, fun q hq => ?_, ?_⟩
    · rw [hprocs] at hq
      refine ⟨(h.procs q hq).1, ?_⟩
      rw [hstate]
      rcases eq_or_ne q c'.currentProcess with rfl | hqc
      · exact Or.inr ⟨rfl, Function.update_self ..⟩
      · rw [Function.update_of_ne hqc]
        exact Or.inl (hall q hq)
    · rw [hstate, Function.update_of_ne hcur0.symm]
      exact h0
  by_cases hrun : c.state c.currentProcess = .running
  · have h0 : c.currentProcess ≠ 0 := fun he => by simp [he, h.null] at hrun
    set counters := update c.counter c.currentNode (c.counter c.currentNode - 1) with hcounters
    set sps := update c.stackPointer c.currentProcess sp with hsps
    have hstep : Process.scheduler c sp = if 0 < counters c.currentNode
        then some (sp, { c with stackPointer := sps, counter := counters })
        else schedule { c with
          stackPointer := sps
          counter := counters
          state := update c.state c.currentProcess .ready } sp := by
      simp only [Process.scheduler, hne, if_false, ← hsps, ← hcounters, hrun, h0, ne_eq,
        not_false_eq_true, and_self, if_true, reduceCtorEq]
    by_cases hcount : 0 < counters c.currentNode
    · rw [if_pos hcount] at hstep
      have hn := h.nodes
      have hN : Nodes { c with stackPointer := sps, counter := counters } L :=
        ⟨hn.ring, hn.nodup, hn.head, hn.null, hn.cursor, hn.noCursor, hn.procs, hn.live⟩
      refine ⟨{ c with stackPointer := sps, counter := counters }, ?_, ⟨hN, h.procs, h.null⟩, rfl, hrun,
        ⟨rfl, rfl, rfl, rfl, rfl, rfl⟩, Or.inr ⟨rfl, rfl, hrun⟩, ?_, ?_,
        Or.inr ⟨?_, rfl, rfl, by rw [hcounters]; exact Function.update_self ..⟩⟩
      · rw [hstep]
        simp [hsps]
      · simp [hrun, hsps]
      · simp [hrun]
      · exact fun hd => hd.2 ⟨h0, hrun, by simpa [hcounters] using hcount⟩
    · rw [if_neg hcount] at hstep
      set c₁ : Core := { c with
        stackPointer := sps
        counter := counters
        state := update c.state c.currentProcess .ready } with hc₁
      have hn := h.nodes
      have hN : Nodes c₁ L := ⟨hn.ring, hn.nodup, hn.head, hn.null, hn.cursor, hn.noCursor, hn.procs, hn.live⟩
      have hall : ∀ q ∈ ringProcs c₁ L, c₁.state q = .ready := by
        intro q hq
        show update c.state c.currentProcess Status.ready q = .ready
        rcases eq_or_ne q c.currentProcess with rfl | hq'
        · exact Function.update_self ..
        · rw [Function.update_of_ne hq']
          exact (h.procs q hq).2.resolve_right fun hr => hq' hr.1
      obtain ⟨c', hsched, hN', hinfo, hcur, hnode, hsp, hdisp, hstate, hnext, hcount'⟩ := hN.schedule hL hall sp
      have hnull : c₁.state 0 = .terminated := (Function.update_of_ne h0.symm ..).trans h.null
      refine ⟨c', ?_, hsettled c₁ hall rfl hnull hN' hinfo hcur hstate, hinfo, by rw [hstate]; simp,
        ⟨hdisp.pid, hdisp.processesList, hdisp.pids, hdisp.live, hdisp.readyList, hdisp.priority⟩,
        Or.inl ⟨hcur, hnode⟩, ?_, ?_, Or.inl ⟨⟨hne, ?_⟩, hnext, hnode, hcount'⟩⟩
      · rw [hsp, hstep, hsched]
      · simp [hsp, hrun, hc₁]
      · simp [hstate, hrun, hc₁]
      · rintro ⟨-, -, hleft⟩
        exact hcount (by simpa [hcounters] using hleft)
  · set sps := if c.state c.currentProcess = .blocked then update c.stackPointer c.currentProcess sp
      else c.stackPointer with hsps
    have hstep : Process.scheduler c sp = schedule { c with stackPointer := sps } sp := by
      simp only [Process.scheduler, hne, if_false, ← hsps, hrun, and_false]
    have hall : ∀ q ∈ ringProcs { c with stackPointer := sps } L, c.state q = .ready := fun q hq =>
      (h.procs q hq).2.resolve_right fun hr => hrun (hr.1 ▸ hr.2)
    have hN : Nodes { c with stackPointer := sps } L := h.nodes.congr rfl rfl
    obtain ⟨c', hsched, hN', hinfo, hcur, hnode, hsp, hdisp, hstate, hnext, hcount'⟩ := hN.schedule hL hall sp
    refine ⟨c', ?_, hsettled _ hall rfl h.null hN' hinfo hcur hstate, hinfo, by rw [hstate]; simp,
      ⟨hdisp.pid, hdisp.processesList, hdisp.pids, hdisp.live, hdisp.readyList, hdisp.priority⟩,
      Or.inl ⟨hcur, hnode⟩, ?_, ?_, Or.inl ⟨⟨hne, fun hkeep => hrun hkeep.2.1⟩, hnext, hnode, hcount'⟩⟩
    · rw [hsp, hstep]
      exact hsched
    · simp [hsp, hrun, hsps]
    · simp [hstate, hrun]

end BareKernel.Process

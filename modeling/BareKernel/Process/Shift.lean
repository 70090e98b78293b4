import BareKernel.Process.Table

/-! What the operations do to the ring in any run, orderly or not: the ring stays a
ring, only processes of the table and new ones enter it, and no stack pointer changes
but that of a new process. -/

namespace BareKernel.Process

open Function (update)
open Links

/-- From `c`, whose ring has the nodes `L`, to `c'`; the processes `born` are new. -/
structure Shift (c : Core) (L : List ℕ) (c' : Core) (L' : List ℕ) (born : ℕ → Prop) : Prop where
  ring : RingInv c' L'
  currentProcess : c'.currentProcess = c.currentProcess
  stackPointer : ∀ q, ¬born q → c'.stackPointer q = c.stackPointer q
  births : ∀ q, born q → (c'.stackPointer q).process = q
  inTable : ∀ q, InTable c' q → InTable c q ∨ born q
  procs : ∀ q ∈ ringProcs c' L', q ∈ ringProcs c L ∨ InTable c q ∨ born q

variable {c c' c₁ c₂ : Core} {L L' L₁ : List ℕ} {p q i : ℕ} {pid r : ℤ} {born : ℕ → Prop} {s : Status}

theorem Shift.trans (h : Shift c L c₁ L₁ nobody) (h' : Shift c₁ L₁ c' L' born) : Shift c L c' L' born where
  ring := h'.ring
  currentProcess := h'.currentProcess.trans h.currentProcess
  stackPointer q hq := (h'.stackPointer q hq).trans (h.stackPointer q id)
  births := h'.births
  inTable q hq := (h'.inTable q hq).imp_left fun hin => (h.inTable q hin).resolve_right id
  procs q hq := by
    rcases h'.procs q hq with hring | hin | hb
    · exact (h.procs q hring).imp_right fun hr => Or.inl (hr.resolve_right id)
    · exact Or.inr (Or.inl ((h.inTable q hin).resolve_right id))
    · exact Or.inr (Or.inr hb)

/-- Nobody is born after it. -/
theorem Shift.quiet (h : Shift c L c₁ L₁ born) (h' : Shift c₁ L₁ c' L' nobody) : Shift c L c' L' born where
  ring := h'.ring
  currentProcess := h'.currentProcess.trans h.currentProcess
  stackPointer q hq := (h'.stackPointer q id).trans (h.stackPointer q hq)
  births q hq := by
    rw [h'.stackPointer q id]
    exact h.births q hq
  inTable q hq := h.inTable q ((h'.inTable q hq).resolve_right id)
  procs q hq := by
    rcases h'.procs q hq with hring | hin | hb
    · exact h.procs q hring
    · exact Or.inr (h.inTable q hin)
    · exact hb.elim

/-- What leaves the ring, the states and the stack pointers alone. -/
theorem RingInv.same (h : RingInv c L) (hring : c'.toReadyRing = c.toReadyRing)
    (hnode : c'.live .node = c.live .node) (hs : c'.state = c.state)
    (hcur : c'.currentProcess = c.currentProcess) (hsp : c'.stackPointer = c.stackPointer)
    (ht : ∀ q, InTable c' q → InTable c q) : Shift c L c' L nobody where
  ring := h.congr hring hnode hs hcur
  currentProcess := hcur
  stackPointer q _ := by rw [hsp]
  births q hq := hq.elim
  inTable q hq := Or.inl (ht q hq)
  procs q hq := by
    rw [ringProcs_congr hring] at hq
    exact Or.inl hq

theorem RingInv.refl (h : RingInv c L) : Shift c L c L nobody := h.same rfl rfl rfl rfl rfl fun _ => id

/-- An edit of the ring after a change of one state. -/
theorem RingEdit.shift {states : ℕ → Status} (h : RingEdit { c with state := states } c') (hring : RingInv c' L')
    (hprocs : ∀ q ∈ ringProcs c' L', q ∈ ringProcs c L ∨ InTable c q) : Shift c L c' L' nobody where
  ring := hring
  currentProcess := h.currentProcess
  stackPointer q _ := by rw [h.records]
  births q hq := hq.elim
  inTable q hq := Or.inl ((inTable_congr h.processesList).mp hq)
  procs q hq := (hprocs q hq).imp_right Or.inl

/-- A process leaves the ring with another state. -/
theorem RingInv.removeState (h : RingInv c L) (h0 : p = 0 → s = .terminated)
    (hrem : removeFromReadyList { c with state := update c.state p s } p = some c') :
    ∃ L', Shift c L c' L' nobody ∧ p ∉ ringProcs c' L' := by
  obtain ⟨c₁, L', hrem', hedit, hN, hmem, -⟩ := removeFromReadyList_spec (h.nodes.setState (update c.state p s)) p
  obtain rfl := Option.some.inj (hrem'.symm.trans hrem)
  exact ⟨L', hedit.shift (h.leave h0 hedit hN hmem) fun q hq => Or.inl ((hmem q).mp hq).1,
    fun hp => ((hmem p).mp hp).2 rfl⟩

/-- A process outside the ring changes its state. -/
theorem RingInv.mark (h : RingInv c L) (h0 : p ≠ 0) (hp : p ∉ ringProcs c L) (s : Status) :
    Shift c L { c with state := update c.state p s } L nobody := by
  refine (RingEdit.refl { c with state := update c.state p s }).shift ⟨h.nodes.setState _, fun q hq => ?_, ?_⟩
    fun q hq => Or.inl hq
  · have hqp : q ≠ p := by
      rintro rfl
      exact hp hq
    show q ≠ 0 ∧ (update c.state p s q = .ready ∨ q = c.currentProcess ∧ update c.state p s q = .running)
    rw [Function.update_of_ne hqp]
    exact h.procs q hq
  · show update c.state p s 0 = .terminated
    rw [Function.update_of_ne h0.symm]
    exact h.null

/-! ### Blocking and waking -/

theorem blockProcess_shift (h : RingInv c L) (hrun : blockProcess c pid = some (r, c')) :
    ∃ L', Shift c L c' L' nobody := by
  rcases blockProcess_cases hrun with ⟨rfl, -⟩ | ⟨i, hf, hrem⟩
  · exact ⟨L, h.refl⟩
  · obtain ⟨L', hshift, -⟩ := h.removeState (fun he => absurd he (foundprocess_some hf).2.1.1) hrem
    exact ⟨L', hshift⟩

/-- The process that is woken enters the ring. -/
theorem RingInv.unblock (h : RingInv c L) (hrun : unblockProcess c pid = some (r, c')) :
    ∃ L', RingInv c' L' ∧ (∀ q, q ∈ ringProcs c' L' ↔ q ∈ ringProcs c L ∨ Wakes c pid q) ∧
      RingEdit { c with state := fun q => if Wakes c pid q then .ready else c.state q } c' := by
  have hnobody (hno : ∀ q, ¬Wakes c pid q) : (∀ q, q ∈ ringProcs c L ↔ q ∈ ringProcs c L ∨ Wakes c pid q) ∧
      RingEdit { c with state := fun q => if Wakes c pid q then .ready else c.state q } c := by
    simp only [hno, or_false, implies_true, if_false, true_and]
    exact .refl c
  by_cases hw : pid ≠ 1 ∧ c.state (getProcessByPid c pid) = .blocked
  · unfold unblockProcess at hrun
    rw [if_neg hw.1] at hrun
    cases hf : foundprocess c pid with
    | none =>
      obtain ⟨-, rfl⟩ : -1 = r ∧ c = c' := by simpa [hf] using hrun
      refine ⟨L, h, hnobody fun q hq => ?_⟩
      have hs := hw.2
      rw [getProcessByPid, hf, h.null] at hs
      cases hs
    | some i =>
      obtain ⟨-, hin, -⟩ := foundprocess_some hf
      have hfound : getProcessByPid c pid = c.processesList i := by rw [getProcessByPid, hf]
      have hblocked : c.state (c.processesList i) = .blocked := hfound ▸ hw.2
      have hwakes (q : ℕ) : Wakes c pid q ↔ q = c.processesList i := by
        rw [Wakes, hfound]
        refine ⟨fun hq => hq.2.1, fun hq => ⟨hw.1, hq, ?_⟩⟩
        rw [hq, hblocked]
      have hstate : (fun q => if Wakes c pid q then .ready else c.state q) =
          update c.state (c.processesList i) .ready := by
        funext q
        simp only [hwakes, Function.update_apply]
      have hN := h.nodes.setState (update c.state (c.processesList i) .ready)
      have hout : c.processesList i ∉ L.map c.processInfo := by
        intro hm
        have hs := (h.procs _ hm).2
        simp [hblocked] at hs
      have hsearch := isInReadyList_eq hN (c.processesList i)
      rw [decide_eq_false (show c.processesList i ∉ L.map _ from hout)] at hsearch
      have hcond : ¬c.state (c.processesList i) ≠ .blocked := not_not.mpr hblocked
      simp only [hf, hcond, if_false, hsearch, Option.bind_eq_bind, Option.bind_some,
        Bool.false_eq_true] at hrun
      obtain ⟨c₁, hadd, hret⟩ := Option.bind_eq_some_iff.mp hrun
      obtain ⟨-, rfl⟩ : 1 = r ∧ c₁ = c' := by simpa using hret
      obtain ⟨hedit, L', hN', hmem, -⟩ := addToReadyList_procs hN hadd
      refine ⟨L', h.enter hin.1 hedit hN' hmem, fun q => ?_, ?_⟩
      · rw [hwakes]
        exact hmem q
      · rw [hstate]
        exact hedit
  · have hself : unblockProcess c pid = some (-1, c) := unblockProcess_self (by tauto)
    obtain ⟨-, rfl⟩ : -1 = r ∧ c = c' := by simpa using hself.symm.trans hrun
    refine ⟨L, h, hnobody fun q hq => hw ⟨hq.1, ?_⟩⟩
    rw [← hq.2.1]
    exact hq.2.2

theorem unblockProcess_shift (h : RingInv c L) (hrun : unblockProcess c pid = some (r, c')) :
    ∃ L', Shift c L c' L' nobody := by
  obtain ⟨L', hring, hmem, hedit⟩ := h.unblock hrun
  refine ⟨L', hedit.shift hring fun q hq => ?_⟩
  rcases (hmem q).mp hq with hq | hw
  · exact Or.inl hq
  · have hq0 : q ≠ 0 := by
      rintro rfl
      have hs := hw.2.2
      rw [h.null] at hs
      cases hs
    rcases getProcessByPid_spec c pid with ⟨hnone, -⟩ | ⟨hin, -⟩
    · exact absurd (hw.2.1.trans hnone) hq0
    · rw [hw.2.1]
      exact Or.inr hin

/-! ### The end of a process -/

theorem leaveParent_shift (h : RingInv c L) (hrun : leaveParent c p = some c') :
    ∃ L', Shift c L c' L' nobody := by
  rcases leaveParent_cases hrun with ⟨rfl, -⟩ | ⟨-, i, c₂, -, hwake, rfl⟩
  · exact ⟨L, h.refl⟩
  · obtain ⟨children, lengths, hrem⟩ := removeChild_eq c (c.processesList i) (c.pid p)
    rw [hrem] at hwake
    have h₁ : Shift c L { c with children := children, childrenLength := lengths } L nobody :=
      h.same rfl rfl rfl rfl rfl fun _ => id
    obtain ⟨L₂, h₂⟩ : ∃ L₂, Shift { c with children := children, childrenLength := lengths } L c₂ L₂ nobody := by
      rcases wakeParent_cases hwake with ⟨rfl, -⟩ | ⟨-, -, v, hun⟩
      · exact ⟨L, h₁.ring.refl⟩
      · exact unblockProcess_shift h₁.ring hun
    exact ⟨L₂, (h₁.trans h₂).trans (h₂.ring.same rfl rfl rfl rfl rfl fun _ => id)⟩

/-- Clearing a slot puts nobody in the table. -/
theorem inTable_of_clear (ht : c'.processesList = update c.processesList i 0) (hq : InTable c' q) :
    InTable c q := by
  obtain ⟨h0, j, hj, hjq⟩ := hq
  rw [ht] at hjq
  rcases eq_or_ne j i with rfl | hji
  · rw [Function.update_self] at hjq
    exact absurd hjq.symm h0
  · rw [Function.update_of_ne hji] at hjq
    exact ⟨h0, j, hj, hjq⟩

theorem removeFromProcessesList_shift (h : RingInv c L) (hrun : removeFromProcessesList c p = some (r, c')) :
    ∃ L', Shift c L c' L' nobody := by
  rcases removeFromProcessesList_cases hrun with ⟨-, rfl⟩ | ⟨i, c₁, c₂, -, hleave, hrem, rfl⟩
  · exact ⟨L, h.refl⟩
  · obtain ⟨L₁, h₁⟩ := leaveParent_shift h hleave
    obtain ⟨L₂, h₂, -⟩ := h₁.ring.removeState (fun _ => rfl) hrem
    obtain ⟨live, hfree, hlive⟩ := freeHoldings_holdings c₂ p
    rw [hfree]
    have hnode : update live .record ((live .record).erase p) .node = c₂.live .node :=
      (Function.update_of_ne (by simp) ..).trans (hlive .node rfl)
    exact ⟨L₂, (h₁.trans h₂).trans (h₂.ring.same rfl hnode rfl rfl rfl fun q hq => inTable_of_clear rfl hq)⟩

theorem killProcess_shift (h : RingInv c L) {again : Bool} (hrun : killProcess c pid = some (r, c', again)) :
    ∃ L', Shift c L c' L' nobody := by
  rcases killProcess_cases hrun with ⟨rfl, -, -⟩ | ⟨-, -, i, c₁', v, hf, hrem', hremove⟩
  · exact ⟨L, h.refl⟩
  · have h₀ : Shift c L (freePid c pid) L nobody := h.same rfl rfl rfl rfl rfl fun _ => id
    obtain ⟨c₁, L₁, hrem, hedit, hN, hmem, -⟩ := removeFromReadyList_spec h₀.ring.nodes (c.processesList i)
    obtain rfl : c₁ = c₁' := Option.some.inj (hrem.symm.trans hrem')
    have hp : c.processesList i ≠ 0 := (foundprocess_some hf).2.1.1
    have hedit' := hedit.setState (p := c.processesList i) .terminated
    have h₁ : Shift c L { c₁ with state := update c₁.state (c.processesList i) .terminated } L₁ nobody :=
      h₀.trans (hedit'.shift (h₀.ring.leave (fun he => absurd he hp) hedit' (hN.setState _) hmem)
        fun q hq => Or.inl ((hmem q).mp hq).1)
    obtain ⟨L₂, h₂⟩ := removeFromProcessesList_shift h₁.ring hremove
    exact ⟨L₂, h₁.trans h₂⟩

/-! ### A new process -/

/-- At most the new process gets a slot. -/
theorem addToProcessList_inTable (hq : InTable (addToProcessList c p) q) : InTable c q ∨ q = p := by
  unfold addToProcessList at hq
  split at hq
  · exact Or.inl hq
  · rename_i i _
    obtain ⟨h0, j, hj, hjq⟩ := hq
    rcases eq_or_ne j i with rfl | hji
    · exact Or.inr (by simpa using hjq.symm)
    · exact Or.inl ⟨h0, j, hj, by simpa [hji] using hjq⟩

theorem enterProcess_shift (h : RingInv c L) (h0 : p ≠ 0) {stackTop : ℕ} {args : CreateArgs}
    (hrun : enterProcess c p stackTop args = some c') : ∃ L', Shift c L c' L' (· = p) := by
  obtain ⟨c₁, hfill, hadd⟩ := enterProcess_split hrun
  obtain ⟨list, hlist⟩ := addToProcessList_eq c₁ p
  have htable (q : ℕ) (hq : InTable { c₁ with processesList := list, nProcesses := c₁.nProcesses + 1 } q) :
      InTable c q ∨ q = p := by
    rw [← hlist] at hq
    exact (addToProcessList_inTable hq).imp_left (inTable_congr hfill.processesList).mp
  rw [hlist] at hadd
  have hN : Nodes { c₁ with processesList := list, nProcesses := c₁.nProcesses + 1 } L :=
    h.nodes.congr hfill.ring (hfill.live .node rfl)
  obtain ⟨hedit, L', hN', hmem, -⟩ := addToReadyList_procs hN hadd
  have hstate : c'.state = update c.state p .ready := by
    rw [← hfill.state]
    exact congrArg Records.state hedit.records
  have hsp : c'.stackPointer = update c.stackPointer p ⟨p, stackSize - contextSize⟩ := by
    rw [← hfill.stackPointer]
    exact congrArg Records.stackPointer hedit.records
  have hcur : c'.currentProcess = c.currentProcess := hedit.currentProcess.trans hfill.currentProcess
  have hprocs (q : ℕ) : q ∈ ringProcs c' L' ↔ q ∈ ringProcs c L ∨ q = p := by
    rw [← ringProcs_congr hfill.ring]
    exact hmem q
  refine ⟨L', ⟨hN', fun q hq => ?_, ?_⟩, hcur, fun q hq => ?_, ?_, fun q hq => ?_, fun q hq => ?_⟩
  · rw [hstate, hcur]
    rcases eq_or_ne q p with rfl | hqp
    · simp [h0]
    · rw [Function.update_of_ne hqp]
      exact h.procs q (((hprocs q).mp hq).resolve_right hqp)
  · rw [hstate, Function.update_of_ne h0.symm]
    exact h.null
  · rw [hsp, Function.update_of_ne hq]
  · rintro q rfl
    rw [hsp, Function.update_self]
  · exact htable q ((inTable_congr hedit.processesList).mp hq)
  · exact ((hprocs q).mp hq).imp_right Or.inr

/-! ### The processor changes hands -/

/-- Giving up the processor goes on with the running process or with one of the ring. -/
structure HandOver (c : Core) (L : List ℕ) (c' : Core) (L' : List ℕ) : Prop where
  ring : RingInv c' L'
  stackPointer : c'.stackPointer = c.stackPointer
  processesList : c'.processesList = c.processesList
  procs : ∀ q, q ∈ ringProcs c' L' ↔ q ∈ ringProcs c L ∨ q = c.currentProcess
  current : c'.currentProcess ∈ ringProcs c' L'

theorem quitCPU_handOver (h : RingInv c L) (hrun : quitCPU c = some (r, c')) :
    (c.state c.currentProcess ≠ .running ∧ c' = c) ∨
      c.state c.currentProcess = .running ∧ ∃ L', HandOver c L c' L' ∧
        ((∀ q ∈ ringProcs c L, q = c.currentProcess) → c'.currentProcess = c.currentProcess) := by
  rcases quitCPU_cases hrun with ⟨rfl, hidle⟩ | ⟨hcur, c₁, sp, hadd, hsched⟩
  · exact Or.inl ⟨hidle, rfl⟩
  · refine Or.inr ⟨hcur, ?_⟩
    have h0 : c.currentProcess ≠ 0 := fun he => by simp [he, h.null] at hcur
    obtain ⟨hedit, L₁, hN, hmem, -⟩ := addToReadyList_procs (h.nodes.setState _) hadd
    have h₁ : RingInv c₁ L₁ := h.enter h0 hedit hN hmem
    have hcur₁ : c₁.currentProcess = c.currentProcess := hedit.currentProcess
    have hready : c₁.state c₁.currentProcess = .ready := by
      rw [hcur₁, show c₁.state = update c.state c.currentProcess .ready from congrArg Records.state hedit.records,
        Function.update_self]
    have hself : c.currentProcess ∈ ringProcs c₁ L₁ := (hmem _).mpr (Or.inr rfl)
    have hne : c₁.readyList ≠ 0 := by
      intro he
      rw [h₁.nodes.readyList_eq_zero.mp he] at hself
      simp [ringProcs] at hself
    obtain ⟨c₂', hsched', h₂, hinfo, -, hdisp, hnext, hsp, -⟩ :=
      h₁.scheduler hne (c₁.stackPointer c.currentProcess)
    obtain ⟨-, rfl⟩ : _ = sp ∧ c₂' = c' := by simpa using Option.some.inj (hsched'.symm.trans hsched)
    have hprocs : ringProcs c₂' L₁ = ringProcs c₁ L₁ := by rw [ringProcs, ringProcs, hinfo]
    have hin : c₂'.currentProcess ∈ ringProcs c₁ L₁ := by
      rcases hnext with ⟨hin, -⟩ | ⟨-, -, hrunning⟩
      · exact hin
      · rw [hready] at hrunning
        cases hrunning
    refine ⟨L₁, ⟨h₂, ?_, hdisp.processesList.trans hedit.processesList, fun q => ?_, ?_⟩, fun halone => ?_⟩
    · rw [hsp, if_neg (by simp [hready])]
      exact hedit.frame.stackPointer
    · rw [hprocs]
      exact hmem q
    · rw [hprocs]
      exact hin
    · rcases (hmem _).mp hin with hold | hself
      · exact halone _ hold
      · exact hself

end BareKernel.Process

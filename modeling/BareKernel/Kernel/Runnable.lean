import BareKernel.Kernel.Step

/-! Which process the scheduler goes on with. As long as it finds somebody in the
ring, the process on the processor is `current_process`, which is in the table, and
every stack pointer of the table is on its own process's stack. On an empty ring the
scheduler goes back to its caller, which may be blocked or gone. -/

namespace BareKernel

open Function (update)
open Process Links Machine

variable {k k' : Kernel} {c c' : Core} {m m' : Machine} {a : Action} {call : Call} {L : List ℕ}
  {p q : ℕ} {r : ℤ} {again : Bool} {sp sp' : StackPtr}

/-- The stack pointers of the table. -/
def OwnStacks (c : Core) : Prop := ∀ q, InTable c q → (c.stackPointer q).process = q

/-- The process on the processor is `current_process`. -/
structure OnCpu (m : Machine) : Prop where
  inv : KernelInv m.toKernel
  ownStacks : OwnStacks m.toCore
  inTable : InTable m.toCore m.currentProcess
  cpu : m.cpu.process = m.currentProcess

/-- The stack pointer belongs to a process of the table and of the ring that is running. -/
def Runs (c : Core) (sp : StackPtr) : Prop :=
  InTable c sp.process ∧ isInReadyList c sp.process = some true ∧ c.state sp.process = .running

instance : Decidable (Runs c sp) := inferInstanceAs (Decidable (_ ∧ _ ∧ _))

namespace Action

/-- The call goes on to the scheduler. -/
def Reschedules (m : Machine) (a : Action) : Prop :=
  match { m.toKernel with answers := a.answers }.call a.call with
  | some (_, _, again) => again = true
  | none => False

/-- The scheduler finds somebody in the ring if the call goes on to it. -/
def RingFilled (m : Machine) (a : Action) : Prop :=
  match { m.toKernel with answers := a.answers }.call a.call with
  | some (_, k, again) => again = true → k.readyList ≠ 0
  | none => True

instance (m : Machine) (a : Action) : Decidable (a.Reschedules m) := by
  dsimp only [Reschedules]
  split <;> infer_instance

instance (m : Machine) (a : Action) : Decidable (a.RingFilled m) := by
  dsimp only [RingFilled]
  split <;> infer_instance

end Action

/-- A new process finds a free slot, and the call is not `quitCPU`. -/
def Call.Regular (k : Kernel) : Call → Prop
  | .createProcess _ => ∃ i < maxProcesses, k.processesList i = 0
  | .quitCPU => False
  | _ => True

instance (k : Kernel) (call : Call) : Decidable (call.Regular k) := by
  apply Call.casesOn (motive := fun call => Decidable (call.Regular k)) call <;>
    intros <;> dsimp only [Call.Regular] <;> infer_instance

theorem Call.Regular.orderly (h : call.Regular k) (hcur : InTable k.toCore k.currentProcess) :
    call.Orderly k := by
  cases call with
  | createProcess args => exact h
  | exitProcess => exact Or.inl hcur
  | _ => trivial

theorem Call.Regular.ne_quitCPU (h : call.Regular k) : call ≠ .quitCPU := by
  rintro rfl
  exact h

/-! ### The stack pointers -/

theorem Effect.ownStacks {w s g b : ℕ → Prop} (h : Effect c c' w s g b) (ho : OwnStacks c) :
    OwnStacks c' := by
  intro q hq
  by_cases hb : b q
  · exact (h.births q hb).2.1
  · rw [h.stackPointer q hb]
    exact ho q (((h.inTable q).mp hq).resolve_right hb).1

/-- The scheduler goes on with a process of the ring. -/
theorem Scheduled.runs (h : Scheduled c c' sp sp') (hL : ReadyInv c' L) (ho : OwnStacks c)
    (hsp : c.state c.currentProcess = .blocked ∨ c.state c.currentProcess = .running →
      sp.process = c.currentProcess) :
    OwnStacks c' ∧ sp'.process = c'.currentProcess ∧ Runs c' sp' := by
  have hown : OwnStacks c' := by
    intro q hq
    rw [h.stackPointer]
    split
    · rename_i hsave
      rcases eq_or_ne q c.currentProcess with rfl | hne
      · rw [Function.update_self]
        exact hsp hsave
      · rw [Function.update_of_ne hne]
        exact ho q ((inTable_congr h.processesList).mp hq)
    · exact ho q ((inTable_congr h.processesList).mp hq)
  have hcur : sp'.process = c'.currentProcess := by
    rw [h.returned]
    exact hown _ h.inTable
  refine ⟨hown, hcur, ?_⟩
  rw [Runs, hcur, isInReadyList_eq hL.nodes]
  refine ⟨h.inTable, ?_, h.running⟩
  have hmem := (hL.ready _ h.inTable).mpr (Or.inr h.running)
  exact congrArg some (decide_eq_true hmem)

/-! ### Steps -/

/-- A process ends in a call that goes on to the scheduler. -/
theorem ends_again (h : KernelInv k) (hrun : k.call call = some (r, k', again)) (hq : call.ends k q) :
    again = true := by
  cases call with
  | killProcess pid =>
    obtain ⟨⟨v, c, b⟩, hcall, hret⟩ := Option.map_eq_some_iff.mp hrun
    obtain ⟨-, rfl, rfl⟩ : v = r ∧ _ = k' ∧ b = again := by simpa using hret
    rcases killProcess_call h hcall with ⟨-, -, hno⟩ | ⟨hagain, -⟩
    · exact absurd hq.1 hno
    · exact hagain
  | exitProcess =>
    obtain ⟨k₁, hcall, hret⟩ := Option.map_eq_some_iff.mp hrun
    obtain ⟨-, -, hagain⟩ : 0 = r ∧ k₁ = k' ∧ true = again := by simpa using hret
    exact hagain.symm
  | _ => exact hq.elim

/-- The first part of a step: the call. -/
theorem OnCpu.of_call (h : OnCpu m) (hok : a.call.Regular m.toKernel)
    (hcall : { m.toKernel with answers := a.answers }.call a.call = some (r, k, again)) :
    KernelInv k ∧ OwnStacks k.toCore ∧ k.currentProcess = m.currentProcess ∧
      (again = false → InTable k.toCore k.currentProcess) := by
  have hinv := h.inv.supply a.answers
  have hok' : a.call.Regular { m.toKernel with answers := a.answers } := by
    cases hc : a.call <;> rw [hc] at hok <;> exact hok
  obtain ⟨hk, heff⟩ := call_effect hinv (hok'.orderly h.inTable) hok'.ne_quitCPU hcall
  refine ⟨hk, heff.ownStacks h.ownStacks, heff.currentProcess, fun hno => ?_⟩
  have hstay : ¬a.call.ends { m.toKernel with answers := a.answers } m.currentProcess := by
    intro hends
    have hagain := ends_again hinv hcall hends
    rw [hno] at hagain
    cases hagain
  rw [heff.currentProcess]
  exact (heff.inTable _).mpr (Or.inl ⟨h.inTable, hstay⟩)

/-- The scheduler is called in a step: what it goes on with may run exactly when it finds
somebody in the ring. -/
theorem OnCpu.reschedule (h : OnCpu m) (hok : a.call.Regular m.toKernel)
    (hcall : { m.toKernel with answers := a.answers }.call a.call = some (r, k, true))
    (hsched : scheduler k.toCore ⟨m.cpu.process, a.offset⟩ = some (sp, c)) :
    (k.readyList = 0 ∧ ¬Runs c sp) ∨
      k.readyList ≠ 0 ∧ KernelInv { k with toCore := c } ∧ OwnStacks c ∧ sp.process = c.currentProcess ∧
        InTable c c.currentProcess ∧ Runs c sp := by
  obtain ⟨hk, hown, hcur, -⟩ := h.of_call hok hcall
  obtain ⟨hinv, ⟨hempty, rfl, rfl⟩ | ⟨hne, hs⟩⟩ := scheduler_call hk hsched
  · refine Or.inl ⟨hempty, fun hruns => ?_⟩
    have hnot : isInReadyList k.toCore m.cpu.process = some false := by rw [isInReadyList, if_pos hempty]
    have htrue : isInReadyList k.toCore m.cpu.process = some true := hruns.2.1
    rw [hnot] at htrue
    cases htrue
  · obtain ⟨L, hL⟩ := hinv.ready
    obtain ⟨hown', hproc, hruns⟩ := hs.runs hL hown fun _ => by rw [hcur]; exact h.cpu
    exact Or.inr ⟨hne, hinv, hown', hproc, hs.inTable, hruns⟩

theorem OnCpu.step (h : OnCpu m) (hok : a.call.Regular m.toKernel ∧ a.RingFilled m)
    (hrun : m.step a = some m') : OnCpu m' := by
  obtain ⟨r, k, again, hcall, ⟨rfl, rfl⟩ | ⟨rfl, sp, c, hsched, rfl⟩⟩ := step_cases hrun
  · obtain ⟨hk, hown, hcur, hin⟩ := h.of_call hok.1 hcall
    exact ⟨hk, hown, hin rfl, h.cpu.trans hcur.symm⟩
  · have hfilled := hok.2
    rw [Action.RingFilled, hcall] at hfilled
    rcases h.reschedule hok.1 hcall hsched with ⟨hempty, -⟩ | ⟨-, hinv, hown, hproc, hin, -⟩
    · exact absurd hempty (hfilled rfl)
    · exact ⟨hinv, hown, hin, hproc⟩

/-! ### The first process -/

theorem KernelInv.ring_iff (h : KernelInv k) :
    k.readyList ≠ 0 ↔ ∃ p, InTable k.toCore p ∧ (k.state p = .ready ∨ k.state p = .running) := by
  obtain ⟨L, hL⟩ := h.ready
  have hzero := hL.nodes.readyList_eq_zero
  constructor
  · intro hne
    cases L with
    | nil => exact absurd (hzero.mpr rfl) hne
    | cons node L =>
      have hmem : k.processInfo node ∈ ringProcs k.toCore (node :: L) := List.mem_map_of_mem List.mem_cons_self
      have hin := hL.inTable _ hmem
      exact ⟨_, hin, (hL.ready _ hin).mp hmem⟩
  · rintro ⟨p, hp, hs⟩ hempty
    have hmem := (hL.ready p hp).mpr hs
    rw [hzero.mp hempty] at hmem
    simp [ringProcs] at hmem

theorem Machine.Started.onCpu (h : Started m) : OnCpu m := by
  obtain ⟨m₀, m₁, a, b, hboot, ⟨args, ha⟩, hcreate, hring, hb, htick⟩ := h.booted
  have htable (q : ℕ) : ¬InTable m₀.toCore q := by
    rintro ⟨h0, i, -, rfl⟩
    exact h0 (hboot.processesList i)
  -- the creation
  obtain ⟨r, k, again, hcall, hcases⟩ := step_cases hcreate
  have hok : a.call.Orderly { m₀.toKernel with answers := a.answers } := by
    rw [ha]
    exact ⟨0, by decide, hboot.processesList 0⟩
  obtain ⟨hk, heff⟩ := call_effect ((boot_inv hboot).supply a.answers) hok (by rw [ha]; simp) hcall
  have hown : OwnStacks k.toCore := heff.ownStacks fun q hq => absurd hq (htable q)
  obtain rfl : again = false := by
    rw [ha] at hcall
    obtain ⟨_, -, hret⟩ := Option.map_eq_some_iff.mp hcall
    simpa using (Prod.ext_iff.mp (Prod.ext_iff.mp hret).2).2.symm
  obtain rfl : m₁ = m₀.after a k false := by simpa using hcases
  -- the tick
  obtain ⟨r', k', again', hcall', hcases'⟩ := step_cases htick
  have hok' : b.call.Orderly { k with answers := b.answers } := by
    rw [hb]
    trivial
  obtain ⟨hk', heff'⟩ := call_effect (hk.supply b.answers) hok' (by rw [hb]; simp) hcall'
  obtain rfl : again' = true := by
    rw [hb] at hcall'
    obtain ⟨_, -, hret⟩ := Option.map_eq_some_iff.mp hcall'
    simpa using (Prod.ext_iff.mp (Prod.ext_iff.mp hret).2).2.symm
  have hne : k'.readyList ≠ 0 := by
    obtain ⟨p, hp, hs⟩ := hk.ring_iff.mp hring
    have hstay : ¬b.call.ends { k with answers := b.answers } p := by rw [hb]; exact id
    have hhalt : ¬b.call.halts { k with answers := b.answers } p := by rw [hb]; exact id
    have hborn : ¬b.call.births { k with answers := b.answers } p := by rw [hb]; exact id
    refine hk'.ring_iff.mpr ⟨p, (heff'.inTable p).mpr (Or.inl ⟨hp, hstay⟩), ?_⟩
    by_cases hw : b.call.wakes { k with answers := b.answers } p
    · exact Or.inl (heff'.wakes p hstay hw).2
    · rw [heff'.state p hstay hborn hw hhalt]
      exact hs
  rcases hcases' with ⟨hno, -⟩ | ⟨-, sp, c, hsched, rfl⟩
  · cases hno
  · obtain ⟨hinv, ⟨hempty, -⟩ | ⟨-, hs⟩⟩ := scheduler_call hk' hsched
    · exact absurd hempty hne
    · have hcur : k'.currentProcess = 0 :=
        heff'.currentProcess.trans (heff.currentProcess.trans hboot.currentProcess)
      obtain ⟨L', hL'⟩ := hk'.ready
      obtain ⟨L, hL⟩ := hinv.ready
      obtain ⟨hown', hproc, -⟩ := hs.runs hL (heff'.ownStacks hown) fun hsave => by
        rw [hcur, hL'.null] at hsave
        simp at hsave
      exact ⟨hinv, hown', hs.inTable, hproc⟩

theorem running_onCpu
    (h : running.Reach (fun m a => a.call.Regular m.toKernel ∧ a.RingFilled m) m) : OnCpu m :=
  h.invariant (fun _ hm => hm.onCpu) fun _ _ _ => OnCpu.step

/-- As long as the scheduler has found somebody in the ring and new processes have found
a free slot, the scheduler goes on with a process that may run exactly when it finds
somebody in the ring again. -/
theorem scheduler_runs_iff
    (h : running.Reach (fun m a => a.call.Regular m.toKernel ∧ a.RingFilled m) m)
    (hok : a.call.Regular m.toKernel) (hrun : m.step a = some m') (hre : a.Reschedules m) :
    Runs m'.toCore m'.cpu ↔ a.RingFilled m := by
  obtain ⟨r, k, again, hcall, hcases⟩ := step_cases hrun
  rw [Action.Reschedules, hcall] at hre
  obtain rfl : again = true := hre
  rw [Action.RingFilled, hcall]
  rcases hcases with ⟨hno, -⟩ | ⟨-, sp, c, hsched, rfl⟩
  · cases hno
  · rcases (running_onCpu h).reschedule hok hcall hsched with ⟨hempty, hnot⟩ | ⟨hne, -, -, -, -, hruns⟩
    · exact ⟨fun hr => absurd hr hnot, fun hf => absurd hempty (hf rfl)⟩
    · exact ⟨fun _ _ => hne, fun _ => hruns⟩

/-- A second process is created and the next tick keeps the first one running. -/
theorem scheduler_runs_iff_second :
    let m := ran (fun m a => a.call.Regular m.toKernel ∧ a.RingFilled m) started [create 200]
    let m' := (m.step (plain .tick)).getD m
    Runs m'.toCore m'.cpu ↔ (plain .tick).RingFilled m :=
  scheduler_runs_iff (running_ran (by decide +kernel)) (by trivial) (step_getD (by decide +kernel))
    (by decide +kernel)

/-- The calls of the processes from the first one on, and the ticks. -/
def Call.OfProcess : Call → Prop
  | .createProcess _ | .blockProcess _ | .unblockProcess _ | .killProcess _ | .exitProcess
  | .semWait _ | .semPost _ | .sysSleep _ | .wait | .tick => True
  | _ => False

instance (call : Call) : Decidable call.OfProcess := by
  apply Call.casesOn (motive := fun call => Decidable call.OfProcess) call <;>
    intros <;> dsimp only [Call.OfProcess] <;> infer_instance

/-- The only process blocks itself, and the next tick goes on with it. -/
theorem scheduler_runs_blocked :
    ¬∀ m a m', running.Reach (fun _ a => a.call.OfProcess) m → a.call.OfProcess → m.step a = some m' →
      a.Reschedules m → Runs m'.toCore m'.cpu := by
  intro hall
  set m := ran (fun _ a => a.call.OfProcess) started [plain (.blockProcess 1)] with hm
  have hreach : running.Reach (fun _ a => a.call.OfProcess) m := running_ran (by decide +kernel)
  have hruns := hall m (plain .tick) ((m.step (plain .tick)).getD m) hreach (by trivial)
    (step_getD (by rw [hm]; decide +kernel)) (by rw [hm]; decide +kernel)
  revert hruns
  rw [hm]
  decide +kernel

end BareKernel

import BareKernel.Kernel.AnyRun

/-! Where the scheduler stores the stack pointer of the process that it interrupts. It
stores it in the record of `current_process`, if that is blocked or running. This is
the record of the process on the processor, and every process goes on where it was
interrupted, provided that `quitCPU` finds nobody else in the ring, that the process
on the processor is not made ready before it is interrupted, and that no new process
gets its record. -/

namespace BareKernel

open Function (update)
open Process Links Machine

variable {k k' : Kernel} {c c' : Core} {m m' : Machine} {a : Action} {L L' : List ℕ}
  {p q : ℕ} {r : ℤ} {again : Bool} {sp sp' : StackPtr}

/-- Somebody other than `current_process` stands in the ring. -/
def RingShared (c : Core) : Prop :=
  ∃ n ∈ c.live .node, isInReadyList c (c.processInfo n) = some true ∧ c.processInfo n ≠ c.currentProcess

instance (c : Core) : Decidable (RingShared c) := inferInstanceAs (Decidable (∃ n ∈ c.live .node, _))

/-- The scheduler stores the stack pointer in the record of `current_process` if that
is in the table. -/
def SavesCurrent (c : Core) : Prop :=
  c.state c.currentProcess ≠ .ready ∧ (InTable c c.currentProcess → c.state c.currentProcess ≠ .terminated)

instance (c : Core) : Decidable (SavesCurrent c) := inferInstanceAs (Decidable (_ ∧ _))

/-- The call is not a `quitCPU` with somebody else in the ring, it does not create a
process in the record of `current_process`, and the scheduler that it goes on to can
store the stack pointer. -/
def Action.KeepsContexts (m : Machine) (a : Action) : Prop :=
  (match a.call with
    | .quitCPU => m.state m.currentProcess = .running → ¬RingShared m.toCore
    | call => ¬call.births { m.toKernel with answers := a.answers } m.currentProcess) ∧
  match { m.toKernel with answers := a.answers }.call a.call with
  | some (_, k, again) => again = true → k.readyList ≠ 0 → SavesCurrent k.toCore
  | none => True

instance (m : Machine) (a : Action) : Decidable (a.KeepsContexts m) := by
  have (o : Option (ℤ × Kernel × Bool)) : Decidable (match o with
    | some (_, k, again) => again = true → k.readyList ≠ 0 → SavesCurrent k.toCore
    | none => True) :=
    match o with
    | some (_, k, again) => inferInstanceAs (Decidable (again = true → k.readyList ≠ 0 → SavesCurrent k.toCore))
    | none => inferInstanceAs (Decidable True)
  apply Call.casesOn (motive := fun call => Decidable (Action.KeepsContexts m { a with call })) a.call <;>
    intros <;> dsimp only [Action.KeepsContexts] <;> infer_instance

/-- The scheduler, called in `c` with the stack pointer of the process `p`, has returned
`sp'`: if it goes on with another process, it has stored the stack pointer in the
record of `p` and nowhere else. -/
structure ContextKept (c c' : Core) (p : ℕ) (sp sp' : StackPtr) : Prop where
  stored : sp'.process ≠ p → InTable c' p → c'.stackPointer p = sp
  others : sp'.process ≠ p → ∀ q, q ≠ p → c'.stackPointer q = c.stackPointer q

/-! ### The invariant -/

/-- The processor executes `current_process`, and every other process of the table or
of the ring has the stack pointer at which it was last interrupted. -/
structure Contexts (m : Machine) (L : List ℕ) : Prop where
  ring : RingInv m.toCore L
  cpu : m.cpu.process = m.currentProcess
  kept : ∀ q, q ∈ ringProcs m.toCore L ∨ InTable m.toCore q → q ≠ m.currentProcess →
    m.stackPointer q = m.saved q ∧ (m.saved q).process = q

theorem Process.RingInv.alone (h : RingInv c L) (hno : ¬RingShared c) : ∀ q ∈ ringProcs c L, q = c.currentProcess := by
  intro q hq
  by_contra hne
  obtain ⟨n, hn, rfl⟩ := List.mem_map.mp hq
  refine hno ⟨n, h.nodes.live n hn, ?_, hne⟩
  rw [isInReadyList_eq h.nodes]
  exact congrArg some (decide_eq_true hq)

/-- The call itself. -/
theorem Contexts.call (h : Contexts m L) (hok : a.KeepsContexts m)
    (hcall : { m.toKernel with answers := a.answers }.call a.call = some (r, k, again)) :
    ∃ L', Contexts (m.after a k again) L' := by
  have hL : RingInv { m.toCore with answers := a.answers } L := h.ring.congr rfl rfl rfl rfl
  by_cases hq : a.call = .quitCPU
  · have hborn (q : ℕ) : ¬a.call.births { m.toKernel with answers := a.answers } q := by
      rw [hq]
      exact id
    have hsaved : (m.after a k again).saved = m.saved := funext fun q => if_neg (hborn q)
    obtain ⟨hkeep, -⟩ := hok
    rw [hq] at hcall hkeep
    obtain ⟨⟨v, c⟩, hquit, hret⟩ := Option.map_eq_some_iff.mp hcall
    obtain ⟨-, rfl, -⟩ : v = r ∧ _ = k ∧ false = again := by simpa using hret
    rcases quitCPU_handOver hL hquit with ⟨-, rfl⟩ | ⟨hrun, L', hover, halone⟩
    · exact ⟨L, hL, h.cpu, fun q hq hne => by rw [hsaved]; exact h.kept q hq hne⟩
    · have hcur : c.currentProcess = m.currentProcess := halone (h.ring.alone (hkeep hrun))
      refine ⟨L', hover.ring, h.cpu.trans hcur.symm, fun q hq hne => ?_⟩
      have hne' : q ≠ m.currentProcess := fun he => hne (he.trans hcur.symm)
      have hold : q ∈ ringProcs m.toCore L ∨ InTable m.toCore q :=
        hq.imp (fun hin => ((hover.procs q).mp hin).resolve_right hne') (inTable_congr hover.processesList).mp
      rw [hsaved]
      show c.stackPointer q = m.saved q ∧ _
      rw [hover.stackPointer]
      exact h.kept q hold hne'
  · obtain ⟨L', hs⟩ := call_shift hL hq hcall
    have hcur : k.currentProcess = m.currentProcess := hs.currentProcess
    refine ⟨L', hs.ring, h.cpu.trans hcur.symm, fun q hq hne => ?_⟩
    have hne' : q ≠ m.currentProcess := fun he => hne (he.trans hcur.symm)
    show k.stackPointer q = ite _ _ _ ∧ (ite _ _ _ : StackPtr).process = q
    by_cases hb : a.call.births { m.toKernel with answers := a.answers } q
    · rw [if_pos hb]
      exact ⟨rfl, hs.births q hb⟩
    · rw [if_neg hb, hs.stackPointer q hb]
      refine h.kept q ?_ hne'
      rcases hq with hring | hin
      · exact (hs.procs q hring).imp_right fun hr => hr.resolve_right hb
      · exact Or.inr ((hs.inTable q hin).resolve_right hb)

/-- The scheduler behind the call. -/
theorem Contexts.reschedule (h : Contexts m L) (hsave : m.readyList ≠ 0 → SavesCurrent m.toCore)
    (hsched : scheduler m.toCore sp = some (sp', c)) (hsp : sp.process = m.cpu.process) :
    ContextKept m.toCore c m.cpu.process sp sp' ∧ sp' = update m.saved sp.process sp sp'.process ∧
      ∃ L', Contexts { m with toCore := c, cpu := sp', saved := update m.saved sp.process sp } L' := by
  have hself : sp.process = m.currentProcess := hsp.trans h.cpu
  by_cases hne : m.readyList = 0
  · have hsame : scheduler m.toCore sp = some (sp, m.toCore) := by rw [scheduler, if_pos hne]
    obtain ⟨rfl, rfl⟩ : sp = sp' ∧ m.toCore = c := by simpa using hsame.symm.trans hsched
    refine ⟨⟨fun hp => absurd hsp hp, fun hp => absurd hsp hp⟩, by rw [Function.update_self], L, h.ring, hself,
      fun q hq hne => ?_⟩
    show m.stackPointer q = update m.saved _ _ q ∧ (update m.saved _ _ q).process = q
    rw [Function.update_of_ne (hself ▸ hne)]
    exact h.kept q hq hne
  · obtain ⟨hready, hend⟩ := hsave hne
    obtain ⟨c', hsched', hring, hinfo, hrun, hdisp, hnext, hstack, -⟩ := h.ring.scheduler hne sp
    obtain ⟨rfl, rfl⟩ : _ = sp' ∧ c' = c := by simpa using hsched'.symm.trans hsched
    have hprocs : ringProcs c' L = ringProcs m.toCore L := by rw [ringProcs, ringProcs, hinfo]
    -- whoever is in the table or in the ring has its own stack pointer now
    have hkept (q : ℕ) (hq : (q ∈ ringProcs m.toCore L ∨ InTable m.toCore q) ∨
          q = m.currentProcess ∧ m.state m.currentProcess = .running) :
        c'.stackPointer q = update m.saved sp.process sp q ∧ (update m.saved sp.process sp q).process = q := by
      rw [hstack, hself]
      rcases eq_or_ne q m.currentProcess with rfl | hqc
      · have hstate : m.state m.currentProcess = .blocked ∨ m.state m.currentProcess = .running := by
          rcases hq with (hin | hin) | hin
          · have hs := (h.ring.procs _ hin).2
            exact Or.inr (hs.resolve_left hready).2
          · have hs := hend hin
            cases hstate : m.state m.currentProcess <;> simp [hstate] at hready hs ⊢
          · exact Or.inr hin.2
        rw [if_pos hstate, Function.update_self, Function.update_self]
        exact ⟨rfl, hself⟩
      · rw [Function.update_of_ne hqc]
        have hold := h.kept q (hq.resolve_right fun hin => hqc hin.1) hqc
        refine ⟨?_, hold.2⟩
        split
        · rw [Function.update_of_ne hqc]
          exact hold.1
        · exact hold.1
    have hcur : c'.stackPointer c'.currentProcess = update m.saved sp.process sp c'.currentProcess ∧
        (update m.saved sp.process sp c'.currentProcess).process = c'.currentProcess := by
      rcases hnext with ⟨hin, -⟩ | ⟨hsame, -, hold⟩
      · exact hkept _ (Or.inl (Or.inl hin))
      · exact hkept _ (Or.inr ⟨hsame, hold⟩)
    have hcpu : (c'.stackPointer c'.currentProcess).process = c'.currentProcess := by
      rw [hcur.1]
      exact hcur.2
    refine ⟨⟨fun _ hin => ?_, fun _ q hq => ?_⟩, ?_, L, hring, hcpu, fun q hq hqc => ?_⟩
    · have hin' : InTable m.toCore m.currentProcess := h.cpu ▸ (inTable_congr hdisp.processesList).mp hin
      rw [h.cpu, (hkept _ (Or.inl (Or.inr hin'))).1, hself, Function.update_self]
    · rw [hstack]
      split
      · exact Function.update_of_ne (h.cpu ▸ hq) ..
      · rfl
    · rw [hcpu]
      exact hcur.1
    · have hold : q ∈ ringProcs m.toCore L ∨ InTable m.toCore q :=
        hq.imp (fun hin => hprocs ▸ hin) (inTable_congr hdisp.processesList).mp
      exact hkept q (Or.inl hold)

/-! ### Runs -/

theorem Contexts.step (h : ∃ L, Contexts m L) (hok : a.KeepsContexts m) (hrun : m.step a = some m') :
    ∃ L, Contexts m' L := by
  obtain ⟨L, hL⟩ := h
  obtain ⟨r, k, again, hcall, hcases⟩ := step_cases hrun
  obtain ⟨L', h'⟩ := hL.call hok hcall
  rcases hcases with ⟨-, rfl⟩ | ⟨rfl, sp, c, hsched, rfl⟩
  · exact ⟨L', h'⟩
  · have hsave := hok.2
    rw [hcall] at hsave
    obtain ⟨-, -, hnext⟩ := h'.reschedule (hsave rfl) hsched rfl
    exact hnext

theorem boot_contexts (h : Boot m) : Contexts m [] := by
  refine ⟨boot_ring h, h.cpu.trans h.currentProcess.symm, ?_⟩
  rintro q (hq | ⟨h0, i, -, rfl⟩)
  · simp [ringProcs] at hq
  · exact absurd (h.processesList i) h0

/-- Whenever the scheduler is called for the process on the processor and goes on with
another one, it has stored the stack pointer in the record of the former and nowhere
else, and whoever goes on does so where it was last interrupted. -/
theorem context_kept (h : boot.Reach (fun m a => a.KeepsContexts m) m) (hok : a.KeepsContexts m)
    (hcall : { m.toKernel with answers := a.answers }.call a.call = some (r, k, true))
    (hrun : m.step a = some m') :
    ContextKept k.toCore m'.toCore m.cpu.process ⟨m.cpu.process, a.offset⟩ m'.cpu ∧
      m'.cpu = m'.saved m'.cpu.process := by
  obtain ⟨L, hL⟩ := h.invariant (I := fun m => ∃ L, Contexts m L) (fun _ hm => ⟨[], boot_contexts hm⟩)
    fun _ _ _ hL hok hrun => Contexts.step hL hok hrun
  obtain ⟨r', k', again, hcall', hcases⟩ := step_cases hrun
  obtain ⟨rfl, rfl, rfl⟩ : r = r' ∧ k = k' ∧ true = again := by simpa using hcall.symm.trans hcall'
  rcases hcases with ⟨hno, -⟩ | ⟨-, sp, c, hsched, rfl⟩
  · cases hno
  · obtain ⟨L', h'⟩ := hL.call hok hcall
    have hsave := hok.2
    rw [hcall] at hsave
    obtain ⟨hkept, hcpu, -⟩ := h'.reschedule (hsave rfl) hsched rfl
    exact ⟨hkept, hcpu⟩

/-- The timer switches from one of two processes to the other. -/
theorem context_kept_switch :
    let m := ran (fun m a => a.KeepsContexts m) initial [create 100, create 200, plain .tick]
    let m' := (m.step (plain .tick)).getD m
    ContextKept (m.timerHandler.getD m.toKernel).toCore m'.toCore m.cpu.process ⟨m.cpu.process, 0⟩ m'.cpu ∧
      m'.cpu = m'.saved m'.cpu.process :=
  context_kept (boot_ran (by decide +kernel)) (by decide +kernel) (r := 0) rfl (step_getD (by decide +kernel))

/-- The timer, the interrupt of `callScheduler` and the system calls on processes. -/
def Call.OnProcesses : Call → Prop
  | .semOpen _ _ | .semClose _ | .createPipe | .pipeClose _ => False
  | _ => True

instance (call : Call) : Decidable call.OnProcesses := by
  apply Call.casesOn (motive := fun call => Decidable call.OnProcesses) call <;>
    intros <;> dsimp only [Call.OnProcesses] <;> infer_instance

/-- One of three processes gives up the processor; the next tick stores its stack
pointer in the record of the one behind it. -/
theorem context_kept_quitCPU :
    ¬∀ m a r k m', boot.Reach (fun _ a => a.call.OnProcesses) m → a.call.OnProcesses →
      { m.toKernel with answers := a.answers }.call a.call = some (r, k, true) → m.step a = some m' →
      ContextKept k.toCore m'.toCore m.cpu.process ⟨m.cpu.process, a.offset⟩ m'.cpu := by
  intro hall
  set m := ran (fun _ a => a.call.OnProcesses) initial
    [create 100, create 200, create 300, plain .tick, plain .quitCPU] with hm
  set a : Action := ⟨.tick, 7, []⟩ with ha
  have hkept := hall m a 0 (m.timerHandler.getD m.toKernel) ((m.step a).getD m) (boot_ran (by decide +kernel))
    (by trivial) (by rw [hm]; rfl) (step_getD (by rw [hm, ha]; decide +kernel))
  have hstored := hkept.stored (by rw [hm, ha]; decide +kernel) (by rw [hm, ha]; decide +kernel)
  revert hstored
  rw [hm, ha]
  decide +kernel

end BareKernel

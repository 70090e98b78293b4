import BareKernel.Kernel.Context
import BareKernel.Kernel.Frame

/-! The processor with its registers, and the stacks. Whenever the scheduler takes over,
the handler has pushed the registers of the process on the processor onto the stack of
that process, and it pops those of the process that goes on. Each process goes on with
the registers that it had when it was interrupted, and finds its stack as it was. -/

namespace BareKernel

open Function (update)
open Process Links Machine Interrupts

/-- `base` is where the block of each stack lies, and `stack` what the block holds, by
address. `view` records what a process had when it last left the processor: its registers
and its stack. -/
structure Processor extends Machine where
  base : ℕ → ℕ
  stack : ℕ → Bytes
  regs : Context
  view : ℕ → Context × Bytes

/-- A call, with what the process on the processor has come to meanwhile: the registers
and the stack of the process when the handler is entered. Of the code that runs between the
pushes and the pops `below` is what it leaves below the frame and `left` what it leaves in
the registers. `fresh` is what a block for a new stack held before, and `fn` the function
that a new process is created for. -/
structure Event where
  call : Call
  answers : List ℕ
  regs : Context
  mem : Bytes
  below : Bytes
  left : Context
  fresh : Bytes
  fn : UInt64

namespace Processor

variable {s s' : Processor} {e : Event} {m m' : Machine} {a : Action} {k k' : Kernel} {c c' : Core} {L L' : List ℕ}
  {p q i : ℕ} {r : ℤ} {again : Bool} {sp sp' : StackPtr} {entry : UInt64}

/-- The call as the machine takes it. -/
def action (s : Processor) (e : Event) : Action :=
  ⟨e.call, (interrupted e.regs e.mem).sp - s.base s.cpu.process, e.answers⟩

/-- The frame fits on the stack. -/
def Fits (s : Processor) (e : Event) : Prop := s.base s.cpu.process + contextSize ≤ aligned e.regs

instance (s : Processor) (e : Event) : Decidable (s.Fits e) := inferInstanceAs (Decidable (_ ≤ _))

/-- The new process `q` has its stack. -/
def created (entry : UInt64) (e : Event) (k : Kernel) (q : ℕ) : Context × Bytes :=
  let argc := .ofNat (k.argc q)
  let argv := .ofNat (k.argv q)
  (newContext e.fresh (k.stackTop q) entry e.fn argc argv, newStack e.fresh (k.stackTop q) entry e.fn argc argv)

/-- The stacks when the handler has pushed the registers and the code behind it has run. -/
def pushed (s : Processor) (e : Event) : ℕ → Bytes :=
  let frame := interrupted e.regs e.mem
  update s.stack s.cpu.process fun i => if i < frame.sp then e.below i else frame.mem i

/-- The call has returned to the process that made it. -/
def returned (entry : UInt64) (s : Processor) (e : Event) (m : Machine) (k : Kernel) : Processor :=
  let born := e.call.births { s.toKernel with answers := e.answers }
  { toMachine := m
    base := fun q => if born q then k.stackTop q else s.base q
    stack := fun q => if born q then (created entry e k q).2 else s.stack q
    regs := e.regs
    view := fun q => if born q then created entry e k q else s.view q }

/-- The handler has popped the registers of whom the scheduler goes on with. -/
def switched (s : Processor) (e : Event) (m : Machine) : Processor where
  toMachine := m
  base := s.base
  stack := s.pushed e
  regs := resumed e.left ⟨s.pushed e m.cpu.process, s.base m.cpu.process + m.cpu.offset⟩
  view := update s.view s.cpu.process (e.regs, e.mem)

def step (entry : UInt64) (s : Processor) (e : Event) : Option Processor := do
  let (_, k, again) ← { s.toKernel with answers := e.answers }.call e.call
  let m ← s.toMachine.step (s.action e)
  some (if again then s.switched e m else returned entry s e m k)

/-- The processor from boot on; `entry` is the address of `entry_point_wrapper`. -/
def fromBoot (entry : UInt64) : System Processor Event where
  init s := Boot s.toMachine
  step s e s' := s.step entry e = some s'

/-- The calls keep the contexts, and every frame fits on its stack. -/
def Orderly (s : Processor) (e : Event) : Prop := (s.action e).KeepsContexts s.toMachine ∧ s.Fits e

instance (s : Processor) (e : Event) : Decidable (s.Orderly e) := inferInstanceAs (Decidable (_ ∧ _))

/-- What a step does: the call returns to the process, or the scheduler takes over. -/
theorem step_cases (h : s.step entry e = some s') :
    ∃ r k again, { s.toKernel with answers := e.answers }.call e.call = some (r, k, again) ∧
      ((again = false ∧ s' = returned entry s e (s.toMachine.after (s.action e) k again) k) ∨
        again = true ∧ ∃ sp c, scheduler k.toCore ⟨s.cpu.process, (s.action e).offset⟩ = some (sp, c) ∧
          s' = s.switched e { s.toMachine.after (s.action e) k again with
            toCore := c
            cpu := sp
            saved := update (s.toMachine.after (s.action e) k again).saved s.cpu.process
              ⟨s.cpu.process, (s.action e).offset⟩ }) := by
  obtain ⟨⟨r, k, again⟩, hcall, h⟩ := Option.bind_eq_some_iff.mp h
  obtain ⟨m, hm, h⟩ := Option.bind_eq_some_iff.mp h
  obtain ⟨r', k', again', hcall', hcases⟩ := Machine.step_cases hm
  obtain ⟨rfl, rfl, rfl⟩ : r = r' ∧ k = k' ∧ again = again' := by simpa using hcall.symm.trans hcall'
  refine ⟨r, k, again, hcall, ?_⟩
  rcases hcases with ⟨rfl, rfl⟩ | ⟨rfl, sp, c, hsched, rfl⟩
  · exact Or.inl ⟨rfl, (Option.some.inj h).symm⟩
  · exact Or.inr ⟨rfl, sp, c, hsched, (Option.some.inj h).symm⟩

/-! ### Who stands on a stack -/

/-- The ring is the same whichever list of nodes it is read from. -/
theorem mem_ringProcs_iff (h : RingInv c L) (h' : RingInv c L') : q ∈ ringProcs c L ↔ q ∈ ringProcs c L' := by
  have hread := (isInReadyList_eq h.nodes q).symm.trans (isInReadyList_eq h'.nodes q)
  simpa [ringProcs] using hread

theorem births_returns (hb : e.call.births k q) (hcall : k.call e.call = some (r, k', again)) : again = false := by
  generalize e.call = call at hb hcall
  cases call with
  | createProcess args =>
    obtain ⟨_, -, hret⟩ := Option.map_eq_some_iff.mp hcall
    exact (congrArg (fun x => x.2.2) hret).symm
  | _ => exact hb.elim

/-- A new process starts at the frame that `createProcess` has written. -/
theorem births_stackPointer (h : RingInv k.toCore L) (hb : e.call.births k q)
    (hcall : k.call e.call = some (r, k', again)) : k'.stackPointer q = ⟨q, stackSize - contextSize⟩ := by
  generalize e.call = call at hb hcall
  cases call with
  | createProcess args =>
    obtain ⟨⟨v, k₁⟩, hrun, hret⟩ := Option.map_eq_some_iff.mp hcall
    obtain ⟨-, rfl, -⟩ : v = r ∧ k₁ = k' ∧ false = again := by simpa using hret
    rcases createProcess_cases hrun with ⟨-, hnew, -⟩ | ⟨p, answers, live, c, -, -, hnew, -, hlive, henter, rfl, -⟩
    · exact absurd hb (by show ¬NewRecord k.toCore q; rw [hnew]; exact id)
    · have hqp : NewRecord k.toCore q := hb
      rw [hnew] at hqp
      obtain rfl : q = p := hqp
      obtain ⟨c₁, hfill, hadd⟩ := enterProcess_split henter
      obtain ⟨list, hlist⟩ := addToProcessList_eq c₁ q
      rw [hlist] at hadd
      have hN : Nodes { c₁ with processesList := list, nProcesses := c₁.nProcesses + 1 } L :=
        h.nodes.congr hfill.ring ((hfill.live .node rfl).trans (hlive .node (by simp) (by simp)))
      obtain ⟨hedit, -⟩ := addToReadyList_procs hN hadd
      obtain ⟨waiting, honly⟩ := openProcess_only { k with toCore := c } k.currentProcess q
      obtain ⟨answers', live', hcore, -⟩ := honly.core
      have hsp : c.stackPointer = c₁.stackPointer := congrArg Records.stackPointer hedit.records
      rw [hcore]
      show c.stackPointer q = _
      rw [hsp, hfill.stackPointer, Function.update_self]
  | _ => exact hb.elim

/-- Whoever is in the ring or in the table after the call was so before it or is new. -/
theorem call_members (h : Contexts m L)
    (hcall : { m.toKernel with answers := a.answers }.call a.call = some (r, k, again)) (h' : RingInv k.toCore L')
    (hq : q ∈ ringProcs k.toCore L' ∨ InTable k.toCore q) (hne : q ≠ m.currentProcess) :
    (q ∈ ringProcs m.toCore L ∨ InTable m.toCore q) ∨ a.call.births { m.toKernel with answers := a.answers } q := by
  have hL : RingInv { m.toCore with answers := a.answers } L := h.ring.congr rfl rfl rfl rfl
  by_cases hquit : a.call = .quitCPU
  · rw [hquit] at hcall
    obtain ⟨⟨v, c⟩, hrun, hret⟩ := Option.map_eq_some_iff.mp hcall
    obtain ⟨-, rfl, -⟩ : v = r ∧ _ = k ∧ false = again := by simpa using hret
    left
    rcases quitCPU_handOver hL hrun with ⟨-, rfl⟩ | ⟨-, L₁, hover, -⟩
    · exact hq.imp_left (mem_ringProcs_iff h' hL).mp
    · refine hq.imp (fun hin => ?_) (inTable_congr hover.processesList).mp
      exact ((hover.procs q).mp ((mem_ringProcs_iff h' hover.ring).mp hin)).resolve_right hne
  · obtain ⟨L₁, hs⟩ := call_shift hL hquit hcall
    rcases hq with hin | hin
    · rcases hs.procs q ((mem_ringProcs_iff h' hs.ring).mp hin) with hr | hr | hr
      · exact Or.inl (Or.inl hr)
      · exact Or.inl (Or.inr hr)
      · exact Or.inr hr
    · exact (hs.inTable q hin).imp_left Or.inr

/-- The scheduler lets nobody in, and goes on with the process on the processor or with
one of the ring. -/
theorem scheduler_members (h : RingInv c L) (hsched : scheduler c sp = some (sp', c')) :
    (∀ q L', RingInv c' L' → q ∈ ringProcs c' L' ∨ InTable c' q → q ∈ ringProcs c L ∨ InTable c q) ∧
      (c'.currentProcess = c.currentProcess ∨ c'.currentProcess ∈ ringProcs c L) := by
  by_cases hne : c.readyList = 0
  · have hself : scheduler c sp = some (sp, c) := by rw [scheduler, if_pos hne]
    obtain ⟨-, rfl⟩ : sp = sp' ∧ c = c' := by simpa using hself.symm.trans hsched
    exact ⟨fun q L' h' hq => hq.imp_left (mem_ringProcs_iff h' h).mp, Or.inl rfl⟩
  · obtain ⟨c₁, hrun, hring, hinfo, -, hdisp, hnext, -⟩ := h.scheduler hne sp
    obtain ⟨-, rfl⟩ : _ = sp' ∧ c₁ = c' := by simpa using hrun.symm.trans hsched
    refine ⟨fun q L' h' hq => hq.imp (fun hin => ?_) (inTable_congr hdisp.processesList).mp, ?_⟩
    · have hin' := (mem_ringProcs_iff h' hring).mp hin
      rwa [ringProcs, hinfo] at hin'
    · exact hnext.elim (fun hin => Or.inr hin.1) fun hsame => Or.inl hsame.1

/-- Popping the frame that `q` stands at gives the registers that it left with, and
its stack is as it left it. -/
structure Standing (s : Processor) (q : ℕ) : Prop where
  regs : ∀ g, resumed g ⟨s.stack q, s.base q + (s.saved q).offset⟩ = (s.view q).1
  mem : ∀ i, ((s.view q).1 .rsp).toNat ≤ i → s.stack q i = (s.view q).2 i

/-- Whoever is in the ring or in the table stands on its stack, but for the process on
the processor. -/
structure Preserved (s : Processor) (L : List ℕ) : Prop where
  contexts : Contexts s.toMachine L
  standing : ∀ q, q ∈ ringProcs s.toCore L ∨ InTable s.toCore q → q ≠ s.currentProcess → s.Standing q

theorem Standing.congr (h : s.Standing q) (hbase : s'.base q = s.base q) (hsaved : s'.saved q = s.saved q)
    (hstack : s'.stack q = s.stack q) (hview : s'.view q = s.view q) : s'.Standing q where
  regs g := by
    rw [hbase, hsaved, hstack, hview]
    exact h.regs g
  mem i hi := by
    rw [hview] at hi ⊢
    rw [hstack]
    exact h.mem i hi

/-- The process that is interrupted. -/
theorem pushed_standing (hfits : s.Fits e) (hq : s.cpu.process = q) (hbase : s'.base q = s.base q)
    (hsaved : (s'.saved q).offset = (s.action e).offset) (hstack : s'.stack q = s.pushed e q)
    (hview : s'.view q = (e.regs, e.mem)) : s'.Standing q := by
  subst hq
  have hroom : contextSize ≤ aligned e.regs := le_trans (Nat.le_add_left ..) hfits
  have hplace : s.base s.cpu.process + (s.action e).offset = (interrupted e.regs e.mem).sp := by
    have hsp := interrupted_sp e.regs e.mem
    have hfits : s.base s.cpu.process + contextSize ≤ aligned e.regs := hfits
    show s.base s.cpu.process + ((interrupted e.regs e.mem).sp - s.base s.cpu.process) = _
    omega
  -- the code of the kernel runs below the frame
  have hframe (i : ℕ) (hi : (interrupted e.regs e.mem).sp ≤ i) :
      s.pushed e s.cpu.process i = (interrupted e.regs e.mem).mem i := by
    rw [pushed, Function.update_self]
    exact if_neg (Nat.not_lt.mpr hi)
  refine ⟨fun g => ?_, fun i hi => ?_⟩
  · rw [hbase, hsaved, hstack, hview, hplace]
    exact resumed_interrupted hroom hframe g
  · rw [hview] at hi ⊢
    have habove : aligned e.regs ≤ i := (aligned_le e.regs).trans hi
    have hsp := interrupted_sp e.regs e.mem
    rw [hstack, hframe i (by omega)]
    exact interrupted_above hroom habove

/-- A process that has just been created. -/
theorem created_standing (h : RingInv s.toCore L) (hb : e.call.births { s.toKernel with answers := e.answers } q)
    (hcall : { s.toKernel with answers := e.answers }.call e.call = some (r, k, again)) :
    (returned entry s e (s.toMachine.after (s.action e) k again) k).Standing q := by
  have hL : RingInv { s.toCore with answers := e.answers } L := h.congr rfl rfl rfl rfl
  have hsp : k.stackPointer q = ⟨q, stackSize - contextSize⟩ := births_stackPointer hL hb hcall
  have hbase : (returned entry s e (s.toMachine.after (s.action e) k again) k).base q = k.stackTop q := if_pos hb
  have hstack : (returned entry s e (s.toMachine.after (s.action e) k again) k).stack q = (created entry e k q).2 :=
    if_pos hb
  have hview : (returned entry s e (s.toMachine.after (s.action e) k again) k).view q = created entry e k q := if_pos hb
  have hsaved : (returned entry s e (s.toMachine.after (s.action e) k again) k).saved q = k.stackPointer q := if_pos hb
  refine ⟨fun g => ?_, fun i _ => ?_⟩
  · rw [hbase, hstack, hview, hsaved, hsp]
    exact resumed_newStack ..
  · rw [hstack, hview]

/-! ### Runs -/

/-- The call itself. -/
theorem Preserved.call (h : s.Preserved L) (hok : s.Orderly e)
    (hcall : { s.toKernel with answers := e.answers }.call e.call = some (r, k, again)) :
    ∃ L', (returned entry s e (s.toMachine.after (s.action e) k again) k).Preserved L' := by
  obtain ⟨L', h'⟩ := h.contexts.call hok.1 hcall
  refine ⟨L', h', fun q hq hne => ?_⟩
  have hcur : k.currentProcess = s.currentProcess := h'.cpu.symm.trans h.contexts.cpu
  have hne' : q ≠ s.currentProcess := fun he => hne (he.trans hcur.symm)
  by_cases hb : e.call.births { s.toKernel with answers := e.answers } q
  · exact created_standing h.contexts.ring hb hcall
  · have hold := (call_members (a := s.action e) h.contexts hcall h'.ring hq hne').resolve_right hb
    exact (h.standing q hold hne').congr (if_neg hb) (if_neg hb) (if_neg hb) (if_neg hb)

/-- The scheduler behind the call: everybody stands, also who is resumed. -/
theorem Preserved.switch (h : s.Preserved L) (hok : s.Orderly e)
    (hcall : { s.toKernel with answers := e.answers }.call e.call = some (r, k, true))
    (hstep : s.step entry e = some s') :
    s'.Standing s'.cpu.process ∧ s'.cpu = s'.saved s'.cpu.process ∧ ∃ L', s'.Preserved L' := by
  obtain ⟨r', k', again, hcall', hcases⟩ := step_cases hstep
  obtain ⟨rfl, rfl, rfl⟩ : r = r' ∧ k = k' ∧ true = again := by simpa using hcall.symm.trans hcall'
  rcases hcases with ⟨hno, -⟩ | ⟨-, sp, c, hsched, rfl⟩
  · cases hno
  · obtain ⟨L₁, h₁⟩ : ∃ L₁, (returned entry s e (s.toMachine.after (s.action e) k true) k).Preserved L₁ :=
      h.call hok hcall
    have hsave : k.readyList ≠ 0 → SavesCurrent k.toCore := by
      have hkeeps := hok.1.2
      have hcall' : { s.toKernel with answers := (s.action e).answers }.call (s.action e).call = some (r, k, true) :=
        hcall
      rw [hcall'] at hkeeps
      exact hkeeps rfl
    obtain ⟨-, hcpu, L', h'⟩ := h₁.contexts.reschedule hsave hsched rfl
    obtain ⟨hmem, hnext⟩ := scheduler_members h₁.contexts.ring hsched
    have hcur : s.cpu.process = k.currentProcess := h₁.contexts.cpu
    have hborn (q : ℕ) : ¬e.call.births { s.toKernel with answers := e.answers } q := fun hb => by
      have hno := births_returns hb hcall
      cases hno
    have hstands (q : ℕ) (hq : q = s.cpu.process ∨ q ∈ ringProcs k.toCore L₁ ∨ InTable k.toCore q) :
        (s.switched e { s.toMachine.after (s.action e) k true with
          toCore := c
          cpu := sp
          saved := update (s.toMachine.after (s.action e) k true).saved s.cpu.process
            ⟨s.cpu.process, (s.action e).offset⟩ }).Standing q := by
      by_cases hself : q = s.cpu.process
      · subst hself
        have hself (saved : ℕ → StackPtr) (p o : ℕ) : (update saved p ⟨p, o⟩ p).offset = o := by
          rw [Function.update_self]
        exact pushed_standing hok.2 rfl rfl (hself ..) rfl (Function.update_self ..)
      · have hold := h₁.standing q (hq.resolve_left hself) fun he => hself (he.trans hcur.symm)
        refine hold.congr ?_ ?_ ?_ ?_
        · exact (if_neg (hborn q)).symm
        · exact Function.update_of_ne hself ..
        · exact (Function.update_of_ne hself ..).trans (if_neg (hborn q)).symm
        · exact (Function.update_of_ne hself ..).trans (if_neg (hborn q)).symm
    refine ⟨hstands _ ?_, hcpu, L', h', fun q hq _ => hstands q (Or.inr (hmem q L' h'.ring hq))⟩
    have hrun : sp.process = c.currentProcess := h'.cpu
    rcases hnext with he | hin
    · exact Or.inl (hrun.trans (he.trans hcur.symm))
    · exact Or.inr (Or.inl (hrun ▸ hin))

theorem Preserved.step (h : ∃ L, s.Preserved L) (hok : s.Orderly e) (hstep : s.step entry e = some s') :
    ∃ L, s'.Preserved L := by
  obtain ⟨L, hL⟩ := h
  obtain ⟨r, k, again, hcall, hcases⟩ := step_cases hstep
  rcases hcases with ⟨-, rfl⟩ | ⟨rfl, -⟩
  · exact hL.call hok hcall
  · exact (hL.switch hok hcall hstep).2.2

theorem boot_preserved (h : Boot s.toMachine) : s.Preserved [] := by
  refine ⟨boot_contexts h, ?_⟩
  rintro q (hq | ⟨h0, i, -, rfl⟩)
  · simp [ringProcs] at hq
  · exact absurd (h.processesList i) h0

/-- Whenever the scheduler has been called, the process on the processor has the registers
that it had when it was last interrupted, or that it was created with, and all that was on
its stack is still there. -/
theorem resumed_as_left (h : (fromBoot entry).Reach Orderly s) (hok : s.Orderly e)
    (hcall : { s.toKernel with answers := e.answers }.call e.call = some (r, k, true))
    (hstep : s.step entry e = some s') :
    s'.cpu.process = s'.currentProcess ∧ s'.regs = (s'.view s'.cpu.process).1 ∧
      ∀ i, (s'.regs .rsp).toNat ≤ i → s'.stack s'.cpu.process i = (s'.view s'.cpu.process).2 i := by
  obtain ⟨L, hL⟩ := h.invariant (I := fun s => ∃ L, s.Preserved L) (fun _ hs => ⟨[], boot_preserved hs⟩)
    fun _ _ _ hL hok hstep => Preserved.step hL hok hstep
  obtain ⟨hstands, hcpu, L', h'⟩ := hL.switch hok hcall hstep
  have hregs : s'.regs = (s'.view s'.cpu.process).1 := by
    obtain ⟨r', k', again, hcall', hcases⟩ := step_cases hstep
    obtain ⟨rfl, rfl, rfl⟩ : r = r' ∧ k = k' ∧ true = again := by simpa using hcall.symm.trans hcall'
    rcases hcases with ⟨hno, -⟩ | ⟨-, sp, c, -, rfl⟩
    · cases hno
    · rw [← hstands.regs e.left, ← hcpu]
      rfl
  refine ⟨h'.contexts.cpu, hregs, fun i hi => hstands.mem i ?_⟩
  rwa [← hregs]

/-- A processor at boot, and calls of processes whose registers all hold `4000`. -/
def start : Processor where
  toMachine := initial
  base _ := 0
  stack _ _ := 0
  regs _ := 0
  view _ := (fun _ => 0, fun _ => 0)

def event (a : Action) : Event := ⟨a.call, a.answers, fun _ => 4000, fun _ => 7, fun _ => 1, fun _ => 2, fun _ => 3, 5⟩

/-- The timer has switched from one process to the other and switches back. -/
theorem resumed_as_left_back :
    let s := (System.runList (step 64) Orderly start
      [event (create 100), event (create 200), event (plain .tick), event (plain .tick)]).getD start
    let s' := (s.step 64 (event (plain .tick))).getD s
    s'.cpu.process = s'.currentProcess ∧ s'.regs = (s'.view s'.cpu.process).1 ∧
      ∀ i, (s'.regs .rsp).toNat ≤ i → s'.stack s'.cpu.process i = (s'.view s'.cpu.process).2 i := by
  intro s s'
  have hreach : (fromBoot 64).Reach Orderly s :=
    (System.Reach.init initial_boot).runList_getD (fun _ _ _ => id) (by decide +kernel)
  have hstep : (s.step 64 (event (plain .tick))).isSome = true := by decide +kernel
  exact resumed_as_left (e := event (plain .tick)) hreach (by decide +kernel) (r := 0)
    (k := s.timerHandler.getD s.toKernel) rfl
    (by
      obtain ⟨t, ht⟩ := Option.isSome_iff_exists.mp hstep
      rw [show s' = t from congrArg (Option.getD · s) ht]
      exact ht)

end Processor

end BareKernel

import BareKernel.Kernel.TableStep

/-! Relations that the edits of a call respect. Most calls are made of a few kinds of
edits of the core; a relation that respects each of them holds between the states
before and after such a call. -/

namespace BareKernel

open Function (update)
open Process

/-- A transitive relation that respects edits of the ring, new states other than
running, edits of families, and the memory of sleepers and pipes. -/
structure Firm (R : Core → Core → Prop) : Prop where
  trans : ∀ {c c₁ c'}, R c c₁ → R c₁ c' → R c c'
  ring : ∀ {c c'}, RingEdit c c' → R c c'
  mark : ∀ c p s, s ≠ Status.running → R c { c with state := update c.state p s }
  family : ∀ c children lengths flags,
    R c { c with children := children, childrenLength := lengths, isForeground := flags }
  memory : ∀ c answers live, (∀ kind, kind ≠ .sleepEntry → kind ≠ .pipe → live kind = c.live kind) →
    R c { c with answers := answers, live := live }

/-- It also respects edits of the table, the bitmap and all memory. -/
structure Steady (R : Core → Core → Prop) : Prop extends Firm R where
  store : ∀ c list n bits answers live,
    R c { c with processesList := list, nProcesses := n, pids := bits, answers := answers, live := live }

/-- The calls that are made of such edits. -/
def Call.Edits : Call → Prop
  | .createProcess _ | .quitCPU | .wait => False
  | _ => True

/-- Those of them that end no process. -/
def Call.EndsNobody : Call → Prop
  | .killProcess _ | .exitProcess => False
  | call => call.Edits

namespace Firm

variable {R : Core → Core → Prop} {k k' : Kernel} {c c' : Core} {p n fuel prev cur : ℕ}
  {pid r : ℤ} {s : Status} {again : Bool}

theorem refl (h : Firm R) (c : Core) : R c c := h.ring (.refl c)

/-- A process gets a new state and the ring is edited. -/
theorem marked (h : Firm R) (hs : s ≠ .running) (hedit : RingEdit { c with state := update c.state p s } c') :
    R c c' := h.trans (h.mark c p s hs) (h.ring hedit)

theorem entry (h : Firm R) (c : Core) (answers entries : List ℕ) :
    R c { c with answers := answers, live := update c.live .sleepEntry entries } :=
  h.memory c answers _ fun _ hk _ => Function.update_of_ne hk ..

theorem pipes (h : Firm R) (honly : PipesOnly k k') : R k.toCore k'.toCore := by
  obtain ⟨answers, live, hcore, hlive⟩ := honly.core
  rw [hcore]
  exact h.memory k.toCore answers live fun kind _ hk => hlive kind hk

theorem unblockProcess (h : Firm R) (hrun : Process.unblockProcess c pid = some (r, c')) : R c c' := by
  rcases unblockProcess_cases hrun with rfl | ⟨i, -, -, hedit⟩
  · exact h.refl _
  · exact h.marked (by simp) hedit

theorem blockProcess (h : Firm R) (hrun : Process.blockProcess c pid = some (r, c')) : R c c' := by
  rcases blockProcess_cases hrun with ⟨rfl, -⟩ | ⟨i, -, hrem⟩
  · exact h.refl _
  · exact h.marked (by simp) (removeFromReadyList_edit hrem)

/-- A process leaves its parent, which may become ready. -/
theorem leaveParent (h : Firm R) (hrun : Process.leaveParent c p = some c') : R c c' := by
  rcases leaveParent_cases hrun with ⟨rfl, -⟩ | ⟨-, i, c₂, -, hwake, rfl⟩
  · exact h.refl _
  · obtain ⟨children, lengths, hrem⟩ := removeChild_eq c (c.processesList i) (c.pid p)
    rw [hrem] at hwake
    have hfirst : R { c with children := children, childrenLength := lengths } c₂ := by
      rcases wakeParent_cases hwake with ⟨rfl, -⟩ | ⟨-, -, v, hun⟩
      · exact h.refl _
      · exact h.unblockProcess hun
    have hrows := h.family c children lengths c.isForeground
    exact h.trans (h.trans hrows hfirst) (h.family c₂ c₂.children c₂.childrenLength _)

/-! ### Sleepers and semaphores -/

theorem sleepQueueAdd (h : Firm R) (hrun : k.sleepQueueAdd p n = some k') : R k.toCore k'.toCore := by
  rcases sleepQueueAdd_cases hrun with ⟨rest, rfl⟩ | ⟨rest, e, s, rfl⟩
  · exact h.memory k.toCore rest k.live fun _ _ _ => rfl
  · exact h.entry k.toCore rest _

theorem sleepTick (h : Firm R) (hrun : Kernel.sleepTick n fuel prev cur k = some k') : R k.toCore k'.toCore := by
  have hfree (k : Kernel) (e : ℕ) : R k.toCore (k.freeEntry e).toCore := h.entry k.toCore k.answers _
  refine sleepTick_induction (R := fun k k' => R k.toCore k'.toCore) (fun k => h.refl k.toCore)
    (fun _ _ _ => h.trans) (fun k prev next e => ?_) (fun k prev next e v c hun => ?_) hrun
  · exact hfree (k.unlinkEntry prev next) e
  · have hfirst : R k.toCore c := h.unblockProcess hun
    exact h.trans hfirst (hfree { k.unlinkEntry prev next with toCore := c } e)

theorem wakeAll (h : Firm R) {i : ℕ} {pids : List ℤ} (hrun : Kernel.wakeAll i pids c = some c') : R c c' :=
  wakeAll_induction h.refl (fun _ _ _ => h.trans) (fun _ _ _ _ => h.unblockProcess) hrun

/-- A firm relation holds between the states before and after a call that ends no process. -/
theorem call (h : Firm R) {call : Call} (hrun : k.call call = some (r, k', again)) (hc : call.EndsNobody) :
    R k.toCore k'.toCore := by
  cases call with
  | createProcess | quitCPU | wait | killProcess | exitProcess => exact hc.elim
  | blockProcess pid =>
    obtain ⟨⟨v, c⟩, hcall, hret⟩ := Option.map_eq_some_iff.mp hrun
    obtain ⟨-, rfl, -⟩ : v = r ∧ _ = k' ∧ false = again := by simpa using hret
    exact h.blockProcess hcall
  | unblockProcess pid =>
    obtain ⟨⟨v, c⟩, hcall, hret⟩ := Option.map_eq_some_iff.mp hrun
    obtain ⟨-, rfl, -⟩ : v = r ∧ _ = k' ∧ false = again := by simpa using hret
    exact h.unblockProcess hcall
  | semOpen id v =>
    obtain ⟨-, rfl, -⟩ : _ = r ∧ (k.semOpen id v).2 = k' ∧ false = again := by simpa [Kernel.call] using hrun
    obtain ⟨sems, hopen⟩ := semOpen_eq k id v
    rw [hopen]
    exact h.refl _
  | semClose id =>
    obtain ⟨⟨v, k₁⟩, hcall, hret⟩ := Option.map_eq_some_iff.mp hrun
    obtain ⟨-, rfl, -⟩ : v = r ∧ k₁ = k' ∧ false = again := by simpa using hret
    rcases semClose_cases hcall with ⟨-, -, rfl⟩ | ⟨-, -, c, hwake, rfl⟩
    · exact h.refl _
    · exact h.wakeAll hwake
  | semPost id =>
    obtain ⟨⟨v, k₁⟩, hcall, hret⟩ := Option.map_eq_some_iff.mp hrun
    obtain ⟨-, rfl, -⟩ : v = r ∧ k₁ = k' ∧ false = again := by simpa using hret
    rcases semPost_cases hcall with ⟨-, -, rfl⟩ | ⟨-, -, ⟨pid, s, v, c, -, hun, rfl⟩ | ⟨s, -, rfl⟩⟩
    · exact h.refl _
    · exact h.unblockProcess hun
    · exact h.refl _
  | semWait id =>
    rcases semWait_cases hrun with ⟨-, -, rfl, -⟩ | ⟨-, -, -, -, rfl⟩ | ⟨-, -, -, v, c, hblock, rfl⟩
    · exact h.refl _
    · exact h.refl _
    · exact h.blockProcess hblock
  | sysSleep n =>
    rcases sysSleep_cases hrun with ⟨-, rfl, -⟩ | ⟨-, -, k₁, v, c, hadd, hblock, rfl⟩
    · exact h.refl _
    · exact h.trans (h.sleepQueueAdd hadd) (h.blockProcess hblock)
  | createPipe =>
    obtain ⟨-, rfl, -⟩ : _ = r ∧ k.createPipe.2 = k' ∧ false = again := by simpa [Kernel.call] using hrun
    obtain ⟨sems, honly⟩ := createPipe_only k
    have hpipes := h.pipes honly
    exact hpipes
  | pipeClose fd =>
    obtain ⟨-, rfl, -⟩ : _ = r ∧ (k.pipeClose fd).2 = k' ∧ false = again := by simpa [Kernel.call] using hrun
    exact h.pipes (pipeClose_only k fd)
  | tick =>
    obtain ⟨k₁, hcall, hret⟩ := Option.map_eq_some_iff.mp hrun
    obtain ⟨-, rfl, -⟩ : 0 = r ∧ k₁ = k' ∧ true = again := by simpa using hret
    have hsleep := h.sleepTick hcall
    exact hsleep
  | callScheduler =>
    obtain ⟨-, rfl, -⟩ : 0 = r ∧ k = k' ∧ true = again := by simpa [Kernel.call] using hrun
    exact h.refl _

end Firm

namespace Steady

variable {R : Core → Core → Prop} {k k' : Kernel} {c c' : Core} {p : ℕ} {pid r : ℤ} {again : Bool}

/-! ### The end of a process -/

theorem removeFromProcessesList (h : Steady R) (hrun : Process.removeFromProcessesList c p = some (r, c')) :
    R c c' := by
  rcases removeFromProcessesList_cases hrun with ⟨-, rfl⟩ | ⟨i, c₁, c₂, -, hleave, hrem, rfl⟩
  · exact h.refl _
  · obtain ⟨live, hfree, -⟩ := freeHoldings_holdings c₂ p
    have hend : R c₁ c₂ := h.marked (by simp) (removeFromReadyList_edit hrem)
    rw [hfree]
    exact h.trans (h.trans (h.leaveParent hleave) hend) (h.store c₂ _ _ c₂.pids c₂.answers _)

theorem killProcess (h : Steady R) (hrun : Process.killProcess c pid = some (r, c', again)) : R c c' := by
  rcases killProcess_cases hrun with ⟨rfl, -, -⟩ | ⟨-, -, i, c₁, v, -, hrem, hremove⟩
  · exact h.refl _
  · have hbits : R c (freePid c pid) := h.store c c.processesList c.nProcesses _ c.answers c.live
    have hout : R (freePid c pid) c₁ := h.ring (removeFromReadyList_edit hrem)
    have hend := h.mark c₁ (c.processesList i) .terminated (by simp)
    exact h.trans (h.trans (h.trans hbits hout) hend) (h.removeFromProcessesList hremove)

theorem exitProcess (h : Steady R) (hrun : k.exitProcess = some k') : R k.toCore k'.toCore := by
  obtain ⟨v, c, k₂, hremove, honly, rfl⟩ := exitProcess_cases hrun
  have hclose : R c k₂.toCore := h.pipes honly
  have hbits := h.store k₂.toCore k₂.processesList k₂.nProcesses
    (update k₂.pids (k₂.pid k.currentProcess - 1) false) k₂.answers k₂.live
  exact h.trans (h.trans (h.removeFromProcessesList hremove) hclose) hbits

/-! ### Every call -/

/-- A relation that respects the edits holds between the states before and after a call. -/
theorem call (h : Steady R) {call : Call} (hrun : k.call call = some (r, k', again)) (hc : call.Edits) :
    R k.toCore k'.toCore := by
  cases call with
  | createProcess | quitCPU | wait => exact hc.elim
  | killProcess pid =>
    obtain ⟨⟨v, c, b⟩, hcall, hret⟩ := Option.map_eq_some_iff.mp hrun
    obtain ⟨-, rfl, -⟩ : v = r ∧ _ = k' ∧ b = again := by simpa using hret
    exact h.killProcess hcall
  | exitProcess =>
    obtain ⟨k₁, hcall, hret⟩ := Option.map_eq_some_iff.mp hrun
    obtain ⟨-, rfl, -⟩ : 0 = r ∧ k₁ = k' ∧ true = again := by simpa using hret
    exact h.exitProcess hcall
  | _ => exact h.toFirm.call hrun trivial

end Steady

end BareKernel

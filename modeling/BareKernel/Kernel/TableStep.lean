import BareKernel.Kernel.Step
import BareKernel.Process.TableEffect

/-! What one step of the machine leaves in the process table. The calls that create
a process or end one change it as their name says; every other call, and the
scheduler behind it, leaves it alone. -/

namespace BareKernel

open Function (update)
open Process

variable {k k' k₁ : Kernel} {c c' : Core} {m m' : Machine} {a : Action} {call : Call} {p n fuel prev cur : ℕ}
  {pid r id : ℤ} {again : Bool}

theorem PipesOnly.sameTable (h : PipesOnly k k') : SameTable k.toCore k'.toCore := by
  obtain ⟨answers, live, hcore, hlive⟩ := h.core
  rw [hcore]
  exact ⟨rfl, rfl, rfl, rfl, rfl, rfl, rfl, hlive .record (by simp)⟩

/-! ### The calls that leave the table and the pipes alone -/

/-- The table is the same, and the pipes and their descriptors are too. -/
structure Still (k k' : Kernel) : Prop where
  quiet : Quiet k.toCore k'.toCore
  toPipes : k'.toPipes = k.toPipes

theorem Still.refl (k : Kernel) : Still k k := ⟨.refl _, rfl⟩

theorem Still.trans (h : Still k k₁) (h' : Still k₁ k') : Still k k' :=
  ⟨h.quiet.trans h'.quiet, h'.toPipes.trans h.toPipes⟩

/-- Another core takes the place of the old one. -/
theorem Process.Quiet.still {k : Kernel} (h : Quiet k.toCore c) : Still k { k with toCore := c } := ⟨h, rfl⟩

theorem allocEntry_quiet (c : Core) (answers : List ℕ) (entries : List ℕ) :
    Quiet c { c with answers := answers, live := update c.live .sleepEntry entries } := by
  have hlive (kind : Kind) (hk : kind ≠ .sleepEntry) : update c.live .sleepEntry entries kind = c.live kind :=
    Function.update_of_ne hk ..
  exact ⟨⟨rfl, rfl, rfl, rfl, rfl, rfl, rfl, hlive .record (by simp)⟩, hlive .pipe (by simp)⟩

theorem sleepQueueAdd_still (h : k.sleepQueueAdd p n = some k') : Still k k' := by
  rcases sleepQueueAdd_cases h with ⟨rest, rfl⟩ | ⟨rest, e, s, rfl⟩
  · exact ⟨⟨⟨rfl, rfl, rfl, rfl, rfl, rfl, rfl, rfl⟩, rfl⟩, rfl⟩
  · exact ⟨allocEntry_quiet k.toCore rest _, rfl⟩

theorem freeEntry_still (k : Kernel) (e : ℕ) : Still k (k.freeEntry e) := ⟨allocEntry_quiet k.toCore _ _, rfl⟩

theorem sleepTick_still (h : Kernel.sleepTick n fuel prev cur k = some k') : Still k k' := by
  have hlink (k : Kernel) (prev next : ℕ) : Still k (k.unlinkEntry prev next) := ⟨.refl _, rfl⟩
  refine sleepTick_induction .refl (fun _ _ _ => Still.trans) (fun k prev next e => ?_)
    (fun k prev next e v c hun => ?_) h
  · exact (hlink k prev next).trans (freeEntry_still _ e)
  · have hwoken : Still (k.unlinkEntry prev next) { k.unlinkEntry prev next with toCore := c } :=
      Process.Quiet.still (unblockProcess_quiet hun)
    exact ((hlink k prev next).trans hwoken).trans (freeEntry_still _ e)

theorem wakeAll_quiet {i : ℕ} {pids : List ℤ} (h : Kernel.wakeAll i pids c = some c') : Quiet c c' :=
  wakeAll_induction .refl (fun _ _ _ => Quiet.trans) (fun _ _ _ _ => unblockProcess_quiet) h

theorem wait_still (h : k.wait = some (r, k', again)) : Still k k' := by
  rcases wait_cases h with ⟨-, rfl, -⟩ | ⟨-, -, v, c, hblock, rfl⟩
  · exact .refl _
  · obtain ⟨⟨h1, h2, h3, h4, h5, h6, h7, h8⟩, h9⟩ := blockProcess_quiet hblock
    exact ⟨⟨⟨h1, h2, h3, h4, h5, h6, h7, h8⟩, h9⟩, rfl⟩

/-- The call creates no process, ends none, and opens and closes no pipe. -/
def Call.Ordinary : Call → Prop
  | .createProcess _ | .killProcess _ | .exitProcess | .createPipe | .pipeClose _ => False
  | _ => True

theorem call_still (h : k.call call = some (r, k', again)) (hc : call.Ordinary) : Still k k' := by
  cases call with
  | createProcess | killProcess | exitProcess | createPipe | pipeClose => cases hc
  | blockProcess pid =>
    obtain ⟨⟨v, c⟩, hcall, hret⟩ := Option.map_eq_some_iff.mp h
    obtain ⟨-, rfl, -⟩ : v = r ∧ _ = k' ∧ false = again := by simpa using hret
    exact (blockProcess_quiet hcall).still
  | unblockProcess pid =>
    obtain ⟨⟨v, c⟩, hcall, hret⟩ := Option.map_eq_some_iff.mp h
    obtain ⟨-, rfl, -⟩ : v = r ∧ _ = k' ∧ false = again := by simpa using hret
    exact (unblockProcess_quiet hcall).still
  | quitCPU =>
    obtain ⟨⟨v, c⟩, hcall, hret⟩ := Option.map_eq_some_iff.mp h
    obtain ⟨-, rfl, -⟩ : v = r ∧ _ = k' ∧ false = again := by simpa using hret
    exact (quitCPU_quiet hcall).still
  | wait => exact wait_still h
  | semOpen id v =>
    obtain ⟨-, rfl, -⟩ : _ = r ∧ (k.semOpen id v).2 = k' ∧ false = again := by simpa [Kernel.call] using h
    obtain ⟨sems, hopen⟩ := semOpen_eq k id v
    rw [hopen]
    exact ⟨.refl _, rfl⟩
  | semClose id =>
    obtain ⟨⟨v, k₁⟩, hcall, hret⟩ := Option.map_eq_some_iff.mp h
    obtain ⟨-, rfl, -⟩ : v = r ∧ k₁ = k' ∧ false = again := by simpa using hret
    rcases semClose_cases hcall with ⟨-, -, rfl⟩ | ⟨-, -, c, hwake, rfl⟩
    · exact .refl _
    · exact ⟨wakeAll_quiet hwake, rfl⟩
  | semPost id =>
    obtain ⟨⟨v, k₁⟩, hcall, hret⟩ := Option.map_eq_some_iff.mp h
    obtain ⟨-, rfl, -⟩ : v = r ∧ k₁ = k' ∧ false = again := by simpa using hret
    rcases semPost_cases hcall with ⟨-, -, rfl⟩ | ⟨-, -, ⟨pid, s, w, c, -, hun, rfl⟩ | ⟨s, -, rfl⟩⟩
    · exact .refl _
    · exact ⟨unblockProcess_quiet hun, rfl⟩
    · exact ⟨.refl _, rfl⟩
  | semWait id =>
    rcases semWait_cases h with ⟨-, -, rfl, -⟩ | ⟨-, -, -, -, rfl⟩ | ⟨-, -, -, v, c, hblock, rfl⟩
    · exact .refl _
    · exact ⟨.refl _, rfl⟩
    · exact ⟨blockProcess_quiet hblock, rfl⟩
  | sysSleep n =>
    rcases sysSleep_cases h with ⟨-, rfl, -⟩ | ⟨-, -, k₁, v, c, hadd, hblock, rfl⟩
    · exact .refl _
    · exact (sleepQueueAdd_still hadd).trans (blockProcess_quiet hblock).still
  | tick =>
    obtain ⟨k₁, hcall, hret⟩ := Option.map_eq_some_iff.mp h
    obtain ⟨-, rfl, -⟩ : 0 = r ∧ k₁ = k' ∧ true = again := by simpa using hret
    have hstill := sleepTick_still hcall
    exact ⟨hstill.quiet, hstill.toPipes⟩
  | callScheduler =>
    obtain ⟨-, rfl, -⟩ : 0 = r ∧ k = k' ∧ true = again := by simpa [Kernel.call] using h
    exact .refl _

/-! ### Every call -/

/-- What a call leaves in the table. -/
def TableStep (c : Core) : Call → Core → Prop
  | .createProcess args, c' => (SameTable c c' ∧ ∀ p, ¬NewRecord c p) ∨ ∃ p, NewRecord c p ∧ p ∉ c.live .record ∧
      SameTable (enroll (addRecord c p) p args.isForeground) c'
  | .killProcess pid, c' => (SameTable c c' ∧ (pid < 3 ∨ foundprocess c pid = none)) ∨
      3 ≤ pid ∧ ∃ i, foundprocess c pid = some i ∧
        SameTable (clearSlot (leaveFamily (freePid c pid) (c.processesList i)) i (c.processesList i)) c'
  | .exitProcess, c' => ∃ c₁, SameTable { c₁ with pids := update c.pids (c.pid c.currentProcess - 1) false } c' ∧
      ((foundprocess c (c.pid c.currentProcess) = none ∧ c₁ = c) ∨
        ∃ i, foundprocess c (c.pid c.currentProcess) = some i ∧
          c₁ = clearSlot (leaveFamily c c.currentProcess) i c.currentProcess)
  | _, c' => SameTable c c'

theorem TableStep.quiet {c₁ : Core} (h : TableStep c call c₁) (hs : SameTable c₁ c') : TableStep c call c' := by
  cases call with
  | createProcess args =>
    rcases h with ⟨h, hno⟩ | ⟨p, hp, hfresh, h⟩
    · exact Or.inl ⟨h.trans hs, hno⟩
    · exact Or.inr ⟨p, hp, hfresh, h.trans hs⟩
  | killProcess pid =>
    rcases h with ⟨h, hno⟩ | ⟨hlow, i, hi, h⟩
    · exact Or.inl ⟨h.trans hs, hno⟩
    · exact Or.inr ⟨hlow, i, hi, h.trans hs⟩
  | exitProcess =>
    obtain ⟨c₂, h, hcases⟩ := h
    exact ⟨c₂, h.trans hs, hcases⟩
  | _ => exact SameTable.trans h hs

/-- A new process, up to the descriptors that it inherits. -/
theorem enterProcess_record {answers : List ℕ} {live : Kind → List ℕ} {stackTop : ℕ} {args : CreateArgs}
    (hrecord : live .record = p :: c.live .record) (hpipe : live .pipe = c.live .pipe)
    (h : enterProcess { c with answers := answers, live := live } p stackTop args = some c') :
    Quiet (enroll (addRecord c p) p args.isForeground) c' := by
  have hrec : Quiet (addRecord c p) { c with answers := answers, live := live } :=
    ⟨⟨rfl, rfl, rfl, rfl, rfl, rfl, rfl, hrecord.trans (addRecord_records ..).symm⟩,
      hpipe.trans (addRecord_pipes ..).symm⟩
  exact (hrec.enroll rfl p args.isForeground).trans (enterProcess_table h)

theorem createProcess_table {args : CreateArgs} (h : k.createProcess args = some (r, k')) :
    TableStep k.toCore (.createProcess args) k'.toCore := by
  rcases createProcess_cases h with ⟨-, hnone, answers, live, rfl, hlive⟩ |
    ⟨p, answers, live, c, h0, hfresh, hnew, hrecord, hlive, henter, rfl, -⟩
  · refine Or.inl ⟨⟨rfl, rfl, rfl, rfl, rfl, rfl, rfl, hlive .record (by simp)⟩, fun p hp => ?_⟩
    rw [hnone] at hp
    exact hp
  · obtain ⟨waiting, honly⟩ := openProcess_only { k with toCore := c } k.currentProcess p
    have hwait : SameTable c { c with waitingOnChild := waiting } := ⟨rfl, rfl, rfl, rfl, rfl, rfl, rfl, rfl⟩
    have hfirst := enterProcess_record hrecord (hlive .pipe (by simp) (by simp)) henter
    exact Or.inr ⟨p, by rw [hnew], hfresh, (hfirst.toSameTable.trans hwait).trans honly.sameTable⟩

theorem exitProcess_table (h : k.exitProcess = some k') : TableStep k.toCore .exitProcess k'.toCore := by
  obtain ⟨r, c, k₂, hremove, honly, rfl⟩ := exitProcess_cases h
  obtain ⟨h1, h2, h3, h4, h5, h6, h7, h8⟩ : SameTable c k₂.toCore := honly.sameTable
  have hbits (c₁ : Core) (hs : SameTable c₁ c) (hp : c₁.pids = k.pids) (hpid : c₁.pid = k.pid) :
      SameTable { c₁ with pids := update k.pids (k.pid k.currentProcess - 1) false }
        { k₂ with pids := update k₂.pids (k₂.pid k.currentProcess - 1) false }.toCore := by
    refine ⟨h1.trans hs.processesList, ?_, h3.trans hs.pid, h4.trans hs.parentPid, h5.trans hs.isForeground,
      h6.trans hs.children, h7.trans hs.childrenLength, h8.trans hs.records⟩
    show update k₂.pids (k₂.pid k.currentProcess - 1) false = update k.pids (k.pid k.currentProcess - 1) false
    rw [show k₂.pids = k.pids from (h2.trans hs.pids).trans hp, show k₂.pid = k.pid from (h3.trans hs.pid).trans hpid]
  rcases removeFromProcessesList_table hremove with ⟨hnone, rfl⟩ | ⟨i, hi, hs⟩
  · exact ⟨k.toCore, hbits _ (.refl _) rfl rfl, Or.inl ⟨hnone, rfl⟩⟩
  · obtain ⟨children, lengths, flags, hfam⟩ := leaveFamily_eq k.toCore k.currentProcess
    refine ⟨_, hbits _ hs.toSameTable ?_ ?_, Or.inr ⟨i, hi, rfl⟩⟩
    · rw [hfam]
      rfl
    · rw [hfam]
      rfl

theorem call_table (h : k.call call = some (r, k', again)) : TableStep k.toCore call k'.toCore := by
  cases call with
  | createProcess args =>
    obtain ⟨⟨v, k₁⟩, hcall, hret⟩ := Option.map_eq_some_iff.mp h
    obtain ⟨-, rfl, -⟩ : v = r ∧ k₁ = k' ∧ false = again := by simpa using hret
    exact createProcess_table hcall
  | killProcess pid =>
    obtain ⟨⟨v, c, b⟩, hcall, hret⟩ := Option.map_eq_some_iff.mp h
    obtain ⟨-, rfl, -⟩ : v = r ∧ _ = k' ∧ b = again := by simpa using hret
    rcases killProcess_table hcall with ⟨rfl, hno⟩ | ⟨hlow, i, hi, hs⟩
    · exact Or.inl ⟨.refl _, hno⟩
    · exact Or.inr ⟨hlow, i, hi, hs.toSameTable⟩
  | exitProcess =>
    obtain ⟨k₁, hcall, hret⟩ := Option.map_eq_some_iff.mp h
    obtain ⟨-, rfl, -⟩ : 0 = r ∧ k₁ = k' ∧ true = again := by simpa using hret
    exact exitProcess_table hcall
  | createPipe =>
    obtain ⟨-, rfl, -⟩ : _ = r ∧ k.createPipe.2 = k' ∧ false = again := by simpa [Kernel.call] using h
    obtain ⟨sems, honly⟩ := createPipe_only k
    exact honly.sameTable
  | pipeClose fd =>
    obtain ⟨-, rfl, -⟩ : _ = r ∧ (k.pipeClose fd).2 = k' ∧ false = again := by simpa [Kernel.call] using h
    exact (pipeClose_only k fd).sameTable
  | _ => exact (call_still h trivial).quiet.toSameTable

/-- The state in which the call is made, with the answers that it gets. -/
def Machine.supplied (m : Machine) (a : Action) : Core := { m.toCore with answers := a.answers }

theorem Machine.step_table (h : m.step a = some m') : TableStep (m.supplied a) a.call m'.toCore := by
  obtain ⟨r, k, again, hcall, hcases⟩ := step_cases h
  have htable := call_table hcall
  rcases hcases with ⟨-, rfl⟩ | ⟨-, cpu, c, hsched, rfl⟩
  · exact htable
  · exact htable.quiet (scheduler_quiet hsched).toSameTable

end BareKernel

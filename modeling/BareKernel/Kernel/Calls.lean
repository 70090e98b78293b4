import BareKernel.Kernel.Process
import BareKernel.Links.Runs
import BareKernel.Process.Invariant

/-! The kernel as a machine that takes one call after another. A call is made by
the process whose code the processor executes; it is atomic up to the point where
it goes on to the scheduler, and what the scheduler returns is executed next. The
machine also records, for each process, what it is blocked inside and at which
stack pointer it was last interrupted. -/

namespace BareKernel

open Function (update)
open Process Links

inductive Call where
  | createProcess (args : CreateArgs)
  | blockProcess (pid : ℤ)
  | unblockProcess (pid : ℤ)
  | killProcess (pid : ℤ)
  | exitProcess
  | quitCPU
  | wait
  | semOpen (id initialValue : ℤ)
  | semClose (id : ℤ)
  | semPost (id : ℤ)
  | semWait (id : ℤ)
  | sysSleep (n : ℕ)
  | createPipe
  | pipeClose (fd : ℤ)
  | tick
  | callScheduler

/-- A call that goes on to the scheduler may leave its caller blocked. -/
inductive Reason where
  | sem (id : ℤ)
  | sleep
  | child
deriving DecidableEq

def Call.reason : Call → Option Reason
  | .semWait id => some (.sem id)
  | .sysSleep _ => some .sleep
  | .wait => some .child
  | _ => none

/-- A call, where on its stack the calling process stands when the scheduler takes
over, and the answers of the allocator. -/
structure Action where
  call : Call
  offset : ℕ
  answers : List ℕ

namespace Kernel

/-- The return value, the new state and whether the call goes on to the scheduler. -/
def call (k : Kernel) : Call → Option (ℤ × Kernel × Bool)
  | .createProcess args => (k.createProcess args).map fun (r, k) => (r, k, false)
  | .blockProcess pid => (Process.blockProcess k.toCore pid).map fun (r, c) => (r, { k with toCore := c }, false)
  | .unblockProcess pid =>
    (Process.unblockProcess k.toCore pid).map fun (r, c) => (r, { k with toCore := c }, false)
  | .killProcess pid =>
    (Process.killProcess k.toCore pid).map fun (r, c, again) => (r, { k with toCore := c }, again)
  | .exitProcess => k.exitProcess.map fun k => (0, k, true)
  | .quitCPU => (Process.quitCPU k.toCore).map fun (r, c) => (r, { k with toCore := c }, false)
  | .wait => k.wait
  | .semOpen id v => some ((k.semOpen id v).1, (k.semOpen id v).2, false)
  | .semClose id => (k.semClose id).map fun (r, k) => (r, k, false)
  | .semPost id => (k.semPost id).map fun (r, k) => (r, k, false)
  | .semWait id => k.semWait id
  | .sysSleep n => k.sysSleep n
  | .createPipe => some (if k.createPipe.1.isSome then 0 else -1, k.createPipe.2, false)
  | .pipeClose fd => some ((k.pipeClose fd).1, (k.pipeClose fd).2, false)
  | .tick => k.timerHandler.map fun k => (0, k, true)
  | .callScheduler => some (0, k, true)

end Kernel

/-- The record that a call of `createProcess` gets. -/
def NewRecord (c : Core) (q : ℕ) : Prop :=
  (mmMalloc c .stack).1 ≠ 0 ∧ q ≠ 0 ∧ q = (mmMalloc (mmMalloc c .stack).2 .record).1

instance (c : Core) (q : ℕ) : Decidable (NewRecord c q) := inferInstanceAs (Decidable (_ ∧ _ ∧ _))

/-- The processes that the call creates. -/
def Call.births (k : Kernel) : Call → ℕ → Prop
  | .createProcess _, q => NewRecord k.toCore q
  | _, _ => False

instance (k : Kernel) (call : Call) (q : ℕ) : Decidable (call.births k q) := by
  apply Call.casesOn (motive := fun call => Decidable (call.births k q)) call <;>
    intros <;> dsimp only [Call.births] <;> infer_instance

/-- `cpu` is the stack pointer that the processor went on with. -/
structure Machine extends Kernel where
  cpu : StackPtr
  saved : ℕ → StackPtr
  why : ℕ → Option Reason

namespace Machine

/-- After the call itself. A process that is not blocked waits for nothing; a new
process starts where its record says. -/
def after (m : Machine) (a : Action) (k : Kernel) (again : Bool) : Machine where
  toKernel := k
  cpu := m.cpu
  saved q := if a.call.births { m.toKernel with answers := a.answers } q then k.stackPointer q else m.saved q
  why p :=
    if k.state p ≠ .blocked then none
    else if again = true ∧ p = m.currentProcess ∧ a.call.reason ≠ none then a.call.reason
    else m.why p

/-- The scheduler takes over. -/
def reschedule (m : Machine) (offset : ℕ) : Option Machine := do
  let sp : StackPtr := ⟨m.cpu.process, offset⟩
  let (cpu, c) ← scheduler m.toCore sp
  some { m with toCore := c, cpu := cpu, saved := update m.saved sp.process sp }

def step (m : Machine) (a : Action) : Option Machine := do
  let (_, k, again) ← { m.toKernel with answers := a.answers }.call a.call
  if again then (m.after a k again).reschedule a.offset else some (m.after a k again)

/-- The machine when the boot code has set up the kernel: semaphore `0` of the
keyboard is open. -/
structure Boot (m : Machine) : Prop where
  processesList : ∀ i, m.processesList i = 0
  nProcesses : m.nProcesses = 0
  pids : ∀ i, m.pids i = false
  readyList : m.readyList = 0
  currentNode : m.currentNode = 0
  currentProcess : m.currentProcess = 0
  null : m.state 0 = .terminated
  live : ∀ kind, m.live kind = []
  sems : ∀ id, m.sems id = ⟨if id = 0 then 0 else -1, fun _ => 0, 0, 0, 0⟩
  sleepList : m.sleepList = 0
  ticks : m.ticks = 0
  pipes : ∀ i, m.pipes i = 0
  inUse : ∀ fd, m.inUse fd = false
  fdPipe : ∀ fd, m.fdPipe fd = 0
  fdType : ∀ fd, m.fdType fd = .unused
  cpu : m.cpu.process = 0
  why : ∀ p, m.why p = none

/-- A machine at boot whose memory is all zero. -/
def initial : Machine where
  live _ := []
  answers := []
  pid _ := 0
  name _ := 0
  stackTop _ := 0
  stackPointer _ := ⟨0, 0⟩
  argv _ := 0
  argvEntry _ _ := 0
  argc _ := 0
  priority _ := 0
  priorityName _ := 0
  isForeground _ := 0
  state _ := .terminated
  parentPid _ := 0
  waitingOnChild _ := 0
  children _ _ := 0
  childrenLength _ := 0
  processInfo _ := 0
  counter _ := 0
  next _ := 0
  readyList := 0
  currentNode := 0
  currentProcess := 0
  processesList _ := 0
  nProcesses := 0
  pids _ := false
  entryProc _ := 0
  wakeTick _ := 0
  entryNext _ := 0
  sleepList := 0
  pipes _ := 0
  buffer _ _ := 0
  readPos _ := 0
  writePos _ := 0
  readOpen _ := 0
  writeOpen _ := 0
  semFreeSpace _ := 0
  semDataAvailable _ := 0
  pipeId _ := 0
  fdPipe _ := 0
  fdType _ := .unused
  inUse _ := false
  fdTable _ _ := 0
  sems id := ⟨if id = 0 then 0 else -1, fun _ => 0, 0, 0, 0⟩
  ticks := 0
  cpu := ⟨0, 0⟩
  saved _ := ⟨0, 0⟩
  why _ := none

theorem initial_boot : Boot initial :=
  ⟨fun _ => rfl, rfl, fun _ => rfl, rfl, rfl, rfl, rfl, fun _ => rfl, fun _ => rfl, rfl, rfl, fun _ => rfl,
    fun _ => rfl, fun _ => rfl, fun _ => rfl, rfl, fun _ => rfl⟩

/-- The first process has been created and a tick has put it on the processor. -/
structure Started (m : Machine) : Prop where
  booted : ∃ m₀ m₁ a b, Boot m₀ ∧ (∃ args, a.call = .createProcess args) ∧ m₀.step a = some m₁ ∧
    m₁.readyList ≠ 0 ∧ b.call = .tick ∧ m₁.step b = some m

/-- The machine from boot on. -/
def boot : System Machine Action where
  init := Boot
  step m a m' := m.step a = some m'

/-- The machine from its first process on. -/
def running : System Machine Action where
  init := Started
  step m a m' := m.step a = some m'

/-! ### Runs that compute -/

/-- The machine at the end of a list of permitted actions. -/
def ran (ok : Machine → Action → Prop) [∀ m a, Decidable (ok m a)] (m : Machine) (as : List Action) : Machine :=
  (System.runList step ok m as).getD m

/-- A call that allocates nothing, from the first place on the stack. -/
def plain (call : Call) : Action := ⟨call, 0, []⟩

/-- A process without arguments is created; its blocks are at `base` and behind. -/
def create (base : ℕ) : Action :=
  ⟨.createProcess ⟨0, 3, 0, 0⟩, 0, [base, base + 1, base + 2, base + 3, base + 4, base + 5]⟩

variable {ok : Machine → Action → Prop} [∀ m a, Decidable (ok m a)] {m : Machine} {as : List Action}

theorem boot_ran (h : (System.runList step ok initial as).isSome = true) : boot.Reach ok (ran ok initial as) :=
  (System.Reach.init initial_boot).runList_getD (fun _ _ _ => id) h

theorem emits_ran {ω : Type*} {obs : Machine → Action → List ω} (h : (System.runList step ok m as).isSome = true) :
    boot.Emits ok obs m (System.emitted step obs m as) (ran ok m as) := by
  obtain ⟨m', hm⟩ := Option.isSome_iff_exists.mp h
  have hran : ran ok m as = m' := by rw [ran, hm]; rfl
  rw [hran]
  exact System.runList_emits (fun _ _ _ => id) hm

/-- The machine with one process, before and after the first tick. -/
def created : Machine := (initial.step (create 100)).getD initial

def started : Machine := (created.step (plain .tick)).getD created

theorem step_getD {a : Action} (h : (m.step a).isSome = true) : m.step a = some ((m.step a).getD m) := by
  obtain ⟨m', hm⟩ := Option.isSome_iff_exists.mp h
  rw [hm]
  rfl

theorem started_started : Started started :=
  ⟨initial, created, create 100, plain .tick, initial_boot, ⟨_, rfl⟩, step_getD (by decide +kernel),
    by decide +kernel, rfl, step_getD (by decide +kernel)⟩

theorem running_ran (h : (System.runList step ok started as).isSome = true) :
    running.Reach ok (ran ok started as) :=
  (System.Reach.init started_started).runList_getD (fun _ _ _ => id) h

end Machine

end BareKernel

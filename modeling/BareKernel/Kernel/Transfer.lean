import BareKernel.Kernel.Descriptors
import BareKernel.Kernel.Inside

/-! The transfer loops of `pipe/pipe.c`. `pipe_write` and `pipe_read` wait and post for
each byte, and a wait may leave the call to the scheduler; so a process has a call
under way, which goes on when the process is on the processor again. Interrupts are
off within a call: nothing else runs between two waits. -/

namespace BareKernel

open Function (update)
open Process Links Machine

inductive Side where
  | read | write
deriving DecidableEq

namespace Side

def fdType : Side → FDType
  | read => .read
  | write => .write

/-- What a call returns that may not use the descriptor. -/
def refusal : Side → ℤ
  | read => 0
  | write => -1

/-- The semaphore that is waited for before a byte. -/
def waitsFor (k : Kernel) (pipe : ℕ) : Side → ℤ
  | read => k.semDataAvailable pipe
  | write => k.semFreeSpace pipe

/-- The semaphore that is posted after a byte. -/
def posts (k : Kernel) (pipe : ℕ) : Side → ℤ
  | read => k.semFreeSpace pipe
  | write => k.semDataAvailable pipe

end Side

/-- A call under way: the caller's buffer and count, the bytes that it has transferred,
and whether it has waited for the next one. -/
structure Transfer where
  side : Side
  pipe : ℕ
  buffer : ℕ → ℤ
  count : ℤ
  moved : List ℤ
  waited : Bool

namespace Kernel

def canAccsess (k : Kernel) (fd : ℤ) : ℤ :=
  if (List.range maxBuff).any fun i => k.fdTable k.currentProcess i = fd then 0 else -1

/-- The checks before the loop, `none` for a call that is refused. -/
def beginTransfer (k : Kernel) (side : Side) (fd : ℤ) (buffer : ℕ → ℤ) (count : ℤ) : Option Transfer :=
  if fd < 0 ∨ (maxFds : ℤ) ≤ fd ∨ k.inUse fd = false ∨ k.fdType fd ≠ side.fdType then none
  else
    let pipe := k.fdPipe fd
    if k.openCount pipe side.fdType = 0 ∧ k.canAccsess fd ≠ 0 then none
    else some ⟨side, pipe, buffer, count, [], false⟩

def pipeWrite (k : Kernel) (fd : ℤ) (buffer : ℕ → ℤ) (count : ℤ) : Option Transfer :=
  k.beginTransfer .write fd buffer count

/-- The buffer of a reader is what it has read. -/
def pipeRead (k : Kernel) (fd : ℤ) (count : ℤ) : Option Transfer :=
  k.beginTransfer .read fd (fun _ => 0) count

/-- A byte goes into the buffer of the pipe. -/
def storeByte (k : Kernel) (pipe : ℕ) (byte : ℤ) : Kernel :=
  let k := { k with buffer := update k.buffer pipe (update (k.buffer pipe) (k.writePos pipe) byte) }
  { k with writePos := update k.writePos pipe ((k.writePos pipe + 1) % bufferSize) }

/-- The reader goes past a byte. -/
def dropByte (k : Kernel) (pipe : ℕ) : Kernel :=
  { k with readPos := update k.readPos pipe ((k.readPos pipe + 1) % bufferSize) }

end Kernel

namespace Transfer

/-- The byte that is transferred next. -/
def byte (t : Transfer) (k : Kernel) : ℤ :=
  match t.side with
  | .read => k.buffer t.pipe (k.readPos t.pipe)
  | .write => t.buffer t.moved.length

def moveByte (t : Transfer) (k : Kernel) : Kernel :=
  match t.side with
  | .read => k.dropByte t.pipe
  | .write => k.storeByte t.pipe (t.byte k)

/-- Not all bytes have been transferred. -/
def Unfinished (t : Transfer) : Prop := (t.moved.length : ℤ) < t.count

instance (t : Transfer) : Decidable t.Unfinished := inferInstanceAs (Decidable ((t.moved.length : ℤ) < t.count))

def wait (t : Transfer) : Transfer := { t with waited := true }

def next (t : Transfer) (k : Kernel) : Transfer := { t with moved := t.moved ++ [t.byte k], waited := false }

end Transfer

/-- The machine and the transfers under way. -/
structure PipeMachine extends Machine where
  transfer : ℕ → Option Transfer

/-- Another system call, the begin of a transfer, or a transfer going on: to its next
wait, from the wait to the byte and the post, or to its end. -/
inductive PipeAction where
  | call (a : Action)
  | pipeWrite (fd : ℤ) (buffer : ℕ → ℤ) (count : ℤ)
  | pipeRead (fd : ℤ) (count : ℤ)
  | goOn (offset : ℕ) (answers : List ℕ)

/-- What is seen of the pipes. -/
inductive PipeEvent where
  | created (pipe : ℕ)
  | stored (pipe : ℕ) (byte : ℤ)
  | taken (pipe : ℕ) (byte : ℤ)
  | returned (count : ℤ) (value : ℤ) (moved : List ℤ)
deriving DecidableEq

namespace PipeMachine

/-- The transfer that the process on the processor is in. -/
def current (x : PipeMachine) : Option Transfer := x.transfer x.currentProcess

def setCurrent (x : PipeMachine) (t : Option Transfer) (m : Machine) : PipeMachine where
  toMachine := m
  transfer := update x.transfer x.currentProcess t

/-- A process that a call ends is in no transfer any more. -/
def afterCall (x : PipeMachine) (a : Action) (m : Machine) : PipeMachine where
  toMachine := m
  transfer p := if a.call.ends (x.before a) p then none else x.transfer p

/-- The machine after the byte, before the post. -/
def moved (x : PipeMachine) (t : Transfer) : Machine := { x.toMachine with toKernel := t.moveByte x.toKernel }

def waitAction (x : PipeMachine) (t : Transfer) (offset : ℕ) (answers : List ℕ) : Action :=
  ⟨.semWait (t.side.waitsFor x.toKernel t.pipe), offset, answers⟩

def postAction (x : PipeMachine) (t : Transfer) (offset : ℕ) (answers : List ℕ) : Action :=
  ⟨.semPost (t.side.posts x.toKernel t.pipe), offset, answers⟩

def step (x : PipeMachine) : PipeAction → Option PipeMachine
  | .call a =>
    match x.current with
    | none => (x.toMachine.step a).map (x.afterCall a)
    | some _ => none
  | .pipeWrite fd buffer count =>
    match x.current with
    | none => some (x.setCurrent (x.pipeWrite fd buffer count) x.toMachine)
    | some _ => none
  | .pipeRead fd count =>
    match x.current with
    | none => some (x.setCurrent (x.pipeRead fd count) x.toMachine)
    | some _ => none
  | .goOn offset answers =>
    match x.current with
    | none => none
    | some t =>
      if t.waited then
        ((x.moved t).step (x.postAction t offset answers)).map (x.setCurrent (some (t.next x.toKernel)))
      else if t.Unfinished then
        (x.toMachine.step (x.waitAction t offset answers)).map (x.setCurrent (some t.wait))
      else some (x.setCurrent none x.toMachine)

/-- The pipe that a call creates. -/
def creation (x : PipeMachine) (a : Action) : List PipeEvent :=
  match a.call with
  | .createPipe => ((x.before a).createPipe.1.map fun fds => .created ((x.before a).createPipe.2.fdPipe fds.1)).toList
  | _ => []

/-- A refused call returns at once. -/
def refused (side : Side) (count : ℤ) : Option Transfer → List PipeEvent
  | none => [.returned count side.refusal []]
  | some _ => []

def events (x : PipeMachine) : PipeAction → List PipeEvent
  | .call a => x.creation a
  | .pipeWrite fd buffer count => refused .write count (x.pipeWrite fd buffer count)
  | .pipeRead fd count => refused .read count (x.pipeRead fd count)
  | .goOn _ _ =>
    match x.current with
    | none => []
    | some t =>
      if t.waited then
        match t.side with
        | .read => [.taken t.pipe (t.byte x.toKernel)]
        | .write => [.stored t.pipe (t.byte x.toKernel)]
      else if t.Unfinished then []
      else [.returned t.count t.moved.length t.moved]

end PipeMachine

namespace PipeMachine

variable {x y : PipeMachine} {offset : ℕ} {answers : List ℕ} {a : Action} {fd count : ℤ} {buffer : ℕ → ℤ}

/-- Another system call is made outside of transfers. -/
theorem call_cases (h : x.step (.call a) = some y) :
    x.current = none ∧ ∃ m, x.toMachine.step a = some m ∧ y = x.afterCall a m := by
  unfold step at h
  cases hcur : x.current with
  | none =>
    rw [hcur] at h
    obtain ⟨m, hstep, rfl⟩ := Option.map_eq_some_iff.mp h
    exact ⟨rfl, m, hstep, rfl⟩
  | some t =>
    rw [hcur] at h
    cases h

theorem pipeWrite_cases (h : x.step (.pipeWrite fd buffer count) = some y) :
    x.current = none ∧ y = x.setCurrent (x.pipeWrite fd buffer count) x.toMachine := by
  unfold step at h
  cases hcur : x.current with
  | none =>
    rw [hcur] at h
    exact ⟨rfl, (Option.some.inj h).symm⟩
  | some t =>
    rw [hcur] at h
    cases h

theorem pipeRead_cases (h : x.step (.pipeRead fd count) = some y) :
    x.current = none ∧ y = x.setCurrent (x.pipeRead fd count) x.toMachine := by
  unfold step at h
  cases hcur : x.current with
  | none =>
    rw [hcur] at h
    exact ⟨rfl, (Option.some.inj h).symm⟩
  | some t =>
    rw [hcur] at h
    cases h

/-- A transfer goes on with its byte, with its next wait, or it ends. -/
theorem goOn_cases (h : x.step (.goOn offset answers) = some y) : ∃ t, x.current = some t ∧
    ((t.waited = true ∧ ∃ m, (x.moved t).step (x.postAction t offset answers) = some m ∧
        y = x.setCurrent (some (t.next x.toKernel)) m) ∨
      (t.waited = false ∧ t.Unfinished ∧ ∃ m, x.toMachine.step (x.waitAction t offset answers) = some m ∧
        y = x.setCurrent (some t.wait) m) ∨
      (t.waited = false ∧ ¬t.Unfinished ∧ y = x.setCurrent none x.toMachine)) := by
  unfold step at h
  cases hcur : x.current with
  | none =>
    rw [hcur] at h
    cases h
  | some t =>
    rw [hcur] at h
    refine ⟨t, rfl, ?_⟩
    dsimp only at h
    by_cases hw : t.waited = true
    · rw [if_pos hw] at h
      obtain ⟨m, hstep, rfl⟩ := Option.map_eq_some_iff.mp h
      exact Or.inl ⟨hw, m, hstep, rfl⟩
    · have hw' : t.waited = false := by simpa using hw
      rw [if_neg hw] at h
      by_cases hun : t.Unfinished
      · rw [if_pos hun] at h
        obtain ⟨m, hstep, rfl⟩ := Option.map_eq_some_iff.mp h
        exact Or.inr (Or.inl ⟨hw', hun, m, hstep, rfl⟩)
      · rw [if_neg hun] at h
        exact Or.inr (Or.inr ⟨hw', hun, (Option.some.inj h).symm⟩)

end PipeMachine

/-- The bytes stored into a pipe since it was created, and those taken out of it. -/
structure History where
  stored : List ℤ
  taken : List ℤ

def History.step (pipe : ℕ) (h : History) : PipeEvent → History
  | .created q => if q = pipe then ⟨[], []⟩ else h
  | .stored q byte => if q = pipe then { h with stored := h.stored ++ [byte] } else h
  | .taken q byte => if q = pipe then { h with taken := h.taken ++ [byte] } else h
  | .returned .. => h

def history (pipe : ℕ) (es : List PipeEvent) : History := es.foldl (History.step pipe) ⟨[], []⟩

theorem history_append (pipe : ℕ) (es fs : List PipeEvent) :
    history pipe (es ++ fs) = fs.foldl (History.step pipe) (history pipe es) := List.foldl_append

/-- The machine with transfers from boot on. -/
def piping : System PipeMachine PipeAction where
  init x := Boot x.toMachine ∧ ∀ p, x.transfer p = none
  step x a y := x.step a = some y

namespace PipeMachine

/-- The machine with transfers at the end of a list of permitted actions. -/
def ran (ok : PipeMachine → PipeAction → Prop) [∀ x b, Decidable (ok x b)] (x : PipeMachine) (bs : List PipeAction) :
    PipeMachine := (System.runList step ok x bs).getD x

/-- The machine at boot is in no transfer. -/
def initial : PipeMachine := ⟨Machine.initial, fun _ => none⟩

variable {ok : PipeMachine → PipeAction → Prop} [∀ x b, Decidable (ok x b)] {x : PipeMachine} {b : PipeAction}
  {bs : List PipeAction}

theorem piping_ran (h : (System.runList step ok initial bs).isSome = true) : piping.Reach ok (ran ok initial bs) := by
  have hinit : piping.Reach ok initial := .init ⟨initial_boot, fun _ => rfl⟩
  exact hinit.runList_getD (fun _ _ _ => id) h

theorem afterCall_none {a : Action} {m : Machine} {p : ℕ} (hp : x.transfer p = none) :
    (x.afterCall a m).transfer p = none := by
  show (if a.call.ends (x.before a) p then none else x.transfer p) = none
  rw [hp, ite_self]

/-- System calls begin no transfer. -/
theorem ran_calls {as : List Action} (hx : ∀ p, x.transfer p = none) (p : ℕ) :
    (ran ok x (as.map .call)).transfer p = none := by
  have hrun (y : PipeMachine) (hy : System.runList step ok x (as.map .call) = some y) : y.transfer p = none := by
    induction as generalizing x with
    | nil =>
      obtain rfl := Option.some.inj hy
      exact hx p
    | cons a as ih =>
      rw [List.map_cons, System.runList] at hy
      split at hy
      · obtain ⟨z, hz, hrest⟩ := Option.bind_eq_some_iff.mp hy
        obtain ⟨-, m, -, rfl⟩ := call_cases hz
        exact ih (fun q => afterCall_none (hx q)) hrest
      · cases hy
  unfold ran
  cases h : System.runList step ok x (as.map .call) with
  | none => exact hx p
  | some y => exact hrun y h

theorem emits_ran (h : (System.runList step ok x bs).isSome = true) :
    piping.Emits ok events x (System.emitted step events x bs) (ran ok x bs) := by
  obtain ⟨y, hy⟩ := Option.isSome_iff_exists.mp h
  have hran : ran ok x bs = y := by rw [ran, hy]; rfl
  rw [hran]
  exact System.runList_emits (fun _ _ _ => id) hy

theorem step_getD (h : (x.step b).isSome = true) : x.step b = some ((x.step b).getD x) := by
  obtain ⟨y, hy⟩ := Option.isSome_iff_exists.mp h
  rw [hy]
  rfl

end PipeMachine

end BareKernel

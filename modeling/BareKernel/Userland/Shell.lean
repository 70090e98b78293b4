import BareKernel.Kernel.Syscalls

/-! A command line with a pipe, as `chekCommand` in `shell.c` executes it: eight system
calls in a row, among whatever the other processes do. The two commands may run as soon as
they have been created. -/

namespace BareKernel

open Function (update)
open Process Links Machine

/-- The next call of the shell. -/
inductive Stage where
  | openPipe | createLeft | createRight | changeLeft | changeRight | closeRead | closeWrite | waitChildren | done
deriving DecidableEq

namespace Stage

def next : Stage → Stage
  | openPipe => createLeft
  | createLeft => createRight
  | createRight => changeLeft
  | changeLeft => changeRight
  | changeRight => closeRead
  | closeRead => closeWrite
  | closeWrite => waitChildren
  | waitChildren | done => done

/-- The output of the left command has been redirected. -/
def LeftChanged : Stage → Prop
  | openPipe | createLeft | createRight | changeLeft => False
  | changeRight | closeRead | closeWrite | waitChildren | done => True

/-- The input of the right command has been redirected. -/
def RightChanged : Stage → Prop
  | openPipe | createLeft | createRight | changeLeft | changeRight => False
  | closeRead | closeWrite | waitChildren | done => True

instance (s : Stage) : Decidable s.LeftChanged := by
  cases s <;> dsimp only [LeftChanged] <;> infer_instance

instance (s : Stage) : Decidable s.RightChanged := by
  cases s <;> dsimp only [RightChanged] <;> infer_instance

end Stage

namespace UserAction

/-- Of all programs only the shell opens pipes, closes them and redirects streams. -/
def OfShell : UserAction → Prop
  | .call ⟨.createPipe, _, _⟩ | .call ⟨.pipeClose _, _, _⟩ | .sysChangeStd _ _ _ => True
  | _ => False

/-- What may come between two instructions of a process. -/
def Interrupt : UserAction → Prop
  | .call ⟨.tick, _, _⟩ | .key _ _ _ _ _ => True
  | _ => False

instance (b : UserAction) : Decidable b.OfShell := by
  unfold OfShell
  split <;> infer_instance

instance (b : UserAction) : Decidable b.Interrupt := by
  unfold Interrupt
  split <;> infer_instance

end UserAction

/-- The machine while a shell executes a line with a pipe. `shell`, `left` and `right` are
the processes of the shell and of the two commands until they end. A process `streams`
while the last of its calls on a descriptor was on its standard input or output. -/
structure CommandLine extends UserMachine where
  shell : Option ℕ
  stage : Stage
  newPipe : ℤ × ℤ
  pid1 : ℤ
  pid2 : ℤ
  left : Option ℕ
  right : Option ℕ
  pipe : ℕ
  streams : ℕ → Bool

/-- The next call of the shell, with the command, or an action of the process on the
processor. -/
inductive LineAction where
  | shell (args : CreateArgs) (offset : ℕ) (answers : List ℕ)
  | other (b : UserAction)

namespace CommandLine

def nextCall (x : CommandLine) (args : CreateArgs) (offset : ℕ) (answers : List ℕ) : Option UserAction :=
  match x.stage with
  | .openPipe => some (.call ⟨.createPipe, offset, answers⟩)
  | .createLeft | .createRight => some (.call ⟨.createProcess args, offset, answers⟩)
  | .changeLeft => some (.sysChangeStd x.pid1 stdOut x.newPipe.2)
  | .changeRight => some (.sysChangeStd x.pid2 stdIn x.newPipe.1)
  | .closeRead => some (.call ⟨.pipeClose x.newPipe.1, offset, answers⟩)
  | .closeWrite => some (.call ⟨.pipeClose x.newPipe.2, offset, answers⟩)
  | .waitChildren => some (.call ⟨.wait, offset, answers⟩)
  | .done => none

/-- What the call of the kernel returns to the shell. -/
def returned (x : CommandLine) (a : Action) : ℤ := ((x.before a).call a.call).elim 0 fun r => r.1

/-- The process that a call creates. -/
def created (x : CommandLine) (a : Action) : Option ℕ :=
  let q := (mmMalloc (mmMalloc (x.before a).toCore .stack).2 .record).1
  if a.call.births (x.before a) q then some q else none

/-- The process unless the action ends it. -/
def survivor (x : CommandLine) (b : UserAction) (p : Option ℕ) : Option ℕ :=
  p.filter fun p => ¬b.ends x.toUserMachine p

/-- A new process has made no call on a descriptor. -/
def nextStreams (x : CommandLine) : UserAction → ℕ → Bool
  | .call a => fun p => if a.call.births (x.before a) p then false else x.streams p
  | .sysRead fd _ => update x.streams x.currentProcess ((fd : ℤ) = stdIn)
  | .sysWrite fd _ _ => update x.streams x.currentProcess ((fd : ℤ) = stdOut)
  | _ => x.streams

def after (x : CommandLine) (b : UserAction) (y : UserMachine) : CommandLine where
  toUserMachine := y
  shell := x.survivor b x.shell
  stage := x.stage
  newPipe := x.newPipe
  pid1 := x.pid1
  pid2 := x.pid2
  left := x.survivor b x.left
  right := x.survivor b x.right
  pipe := x.pipe
  streams := x.nextStreams b

/-- What the shell does with the result of its call. A pipe that could not be opened leaves
`new_pipe` as it was. -/
def advance (x : CommandLine) (b : UserAction) (y : CommandLine) : CommandLine :=
  let y := { y with stage := x.stage.next }
  match x.stage, b with
  | .openPipe, .call a =>
    match (x.before a).createPipe.1 with
    | some fds => { y with newPipe := fds, pipe := y.fdPipe fds.1 }
    | none => y
  | .createLeft, .call a => { y with pid1 := x.returned a, left := x.created a }
  | .createRight, .call a => { y with pid2 := x.returned a, right := x.created a }
  | _, _ => y

/-- While the line is executed the shell makes no other calls. -/
def Allows (x : CommandLine) (b : UserAction) : Prop :=
  ¬b.OfShell ∧ (x.shell = some x.currentProcess → x.stage ≠ .done → b.Interrupt)

instance (x : CommandLine) (b : UserAction) : Decidable (x.Allows b) := inferInstanceAs (Decidable (_ ∧ (_ → _)))

def step (x : CommandLine) : LineAction → Option CommandLine
  | .shell args offset answers =>
    if x.shell = some x.currentProcess then do
      let b ← x.nextCall args offset answers
      let y ← x.toUserMachine.step b
      some (x.advance b (x.after b y))
    else none
  | .other b => if x.Allows b then (x.toUserMachine.step b).map (x.after b) else none

end CommandLine

end BareKernel

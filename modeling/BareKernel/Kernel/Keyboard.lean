import BareKernel.Kernel.SemRefine

/-! The keyboard buffer of `drivers/keyboard-driver.c`. A key event comes between two
system calls and queues its characters, each with a post; a process that reads waits for
each character, and a wait may leave it to the scheduler. -/

namespace BareKernel

open Function (update)
open Process Links Machine

/-- The length of the buffer; both positions wrap at `BUFFER_SIZE` of the pipes. -/
def buffSize : ℕ := 1024

/-- The semaphore that `init_keyboard` opens. -/
def isKey : ℤ := 0

/-- The buffer, its two positions and the keys that are held. An entry behind the end of
the array is in other memory. -/
structure Keys where
  keyBuffer : ℕ → ℤ
  write : ℕ
  read : ℕ
  shiftPressed : Bool
  ctrlPressed : Bool
  capsPressed : Bool

/-! ### Keys -/

def specialKey (key : ℕ) : Bool :=
  key ∈ [0, 0x01, 14, 75, 77, 28, 0x1D, 0x3A, 0x2A, 0x36, 0xAA, 0xB6, 0x0F]

/-- The characters that `toLetter` knows. -/
def keyLetter : ℕ → Option Char
  | 0x02 => some '1' | 0x03 => some '2' | 0x04 => some '3' | 0x05 => some '4' | 0x06 => some '5'
  | 0x07 => some '6' | 0x08 => some '7' | 0x09 => some '8' | 0x0A => some '9' | 0x0B => some '0'
  | 0x0C => some '-' | 0x0D => some '='
  | 0x1E => some 'a' | 0x30 => some 'b' | 0x2E => some 'c' | 0x20 => some 'd' | 0x12 => some 'e'
  | 0x21 => some 'f' | 0x22 => some 'g' | 0x23 => some 'h' | 0x17 => some 'i' | 0x24 => some 'j'
  | 0x25 => some 'k' | 0x26 => some 'l' | 0x32 => some 'm' | 0x31 => some 'n' | 0x18 => some 'o'
  | 0x19 => some 'p' | 0x10 => some 'q' | 0x13 => some 'r' | 0x1F => some 's' | 0x14 => some 't'
  | 0x16 => some 'u' | 0x2F => some 'v' | 0x11 => some 'w' | 0x2D => some 'x' | 0x15 => some 'y'
  | 0x2C => some 'z'
  | 0x39 => some ' ' | 0x2B => some '|'
  | _ => none

def shiftNum (num : Char) : Char :=
  match num with
  | '1' => '!' | '2' => '@' | '3' => '#' | '4' => '$' | '5' => '%'
  | '6' => '^' | '7' => '&' | '8' => '*' | '9' => '(' | '0' => ')'
  | _ => '0'

namespace Keys

/-- `none` for the modifier keys, for which the code leaves the letter unset. -/
def toLetter (k : Keys) (i : ℕ) : Option Char :=
  if i ∈ [0x2A, 0x36, 0x1D, 0x3A] then none
  else
    match keyLetter i with
    | none => some '?'
    | some aux =>
      if 'a' ≤ aux ∧ aux ≤ 'z' ∧ (k.capsPressed = true ∨ k.shiftPressed = true) then
        some (Char.ofNat (aux.toNat - 32))
      else if '0' ≤ aux ∧ aux ≤ '9' ∧ k.shiftPressed = true then some (shiftNum aux)
      else some aux

def updateKeyboardStatus (k : Keys) (scancode : ℕ) (isPressed : Bool) : Keys :=
  if scancode = 0x2A ∨ scancode = 0x36 then { k with shiftPressed := isPressed }
  else if scancode = 0x1D ∨ scancode = 0xE01D then { k with ctrlPressed := isPressed }
  else if scancode = 0x3A ∧ isPressed = true then { k with capsPressed := !k.capsPressed }
  else k

/-- The characters that `loadBuffer` queues. Five of the tabulator key are the byte at
the address `' '`, which is `low`. -/
def loaded (k : Keys) (key : ℕ) (low : ℤ) : List ℤ :=
  if k.ctrlPressed = true ∧ key = 0x20 then [0]
  else if specialKey key = false then [((k.toLetter key).elim 0 fun c => c.toNat)]
  else if key = 14 then [1]
  else if key = 28 then ['\n'.toNat]
  else if key = 0x0F then List.replicate 5 (low.bmod (2 ^ 8))
  else []

/-- An entry as the reader gets it, a character. -/
def letter (k : Keys) (i : ℕ) : ℤ := (k.keyBuffer i).bmod (2 ^ 8)

/-- `buffer[write] = c` and the step of `write` -/
def store (k : Keys) (c : ℤ) : Keys :=
  { k with keyBuffer := update k.keyBuffer k.write (c % 2 ^ 16), write := (k.write + 1) % bufferSize }

end Keys

/-! ### The machine -/

/-- A call of `read_keyboard` under way. -/
structure Reading where
  count : ℤ
  letters : List ℤ
  waited : Bool

def Reading.Unfinished (t : Reading) : Prop := (t.letters.length : ℤ) < t.count

instance (t : Reading) : Decidable t.Unfinished := inferInstanceAs (Decidable ((t.letters.length : ℤ) < t.count))

/-- The machine, the keyboard and who reads it. -/
structure KeyMachine extends Machine, Keys where
  reading : ℕ → Option Reading

/-- Another system call, a key event with the nodes that its posts get, or a call of
`read_keyboard`, which goes on to its next wait, from the wait to its character, or to its
end. -/
inductive KeyAction where
  | call (a : Action)
  | key (scancode : ℕ) (isPressed : Bool) (low : ℤ) (offset : ℕ) (answers : List (List ℕ))
  | readKeyboard (count : ℤ)
  | goOn (offset : ℕ) (answers : List ℕ)

/-- The accesses to the buffer, with their indices, and what calls return. -/
inductive KeyEvent where
  | queued (index : ℕ) (c : ℤ)
  | taken (index : ℕ) (letter : ℤ)
  | returned (count : ℤ) (letters : List ℤ)
deriving DecidableEq

namespace KeyMachine

def current (x : KeyMachine) : Option Reading := x.reading x.currentProcess

def setCurrent (x : KeyMachine) (t : Option Reading) (m : Machine) : KeyMachine where
  toMachine := m
  toKeys := x.toKeys
  reading := update x.reading x.currentProcess t

/-- A process that a call ends reads no more. -/
def afterCall (x : KeyMachine) (a : Action) (m : Machine) : KeyMachine where
  toMachine := m
  toKeys := x.toKeys
  reading p := if a.call.ends (x.before a) p then none else x.reading p

def callStep (x : KeyMachine) (a : Action) : Option KeyMachine := (x.toMachine.step a).map (x.afterCall a)

def postAction (answers : List ℕ) : Action := ⟨.semPost isKey, 0, answers⟩

def waitAction (offset : ℕ) (answers : List ℕ) : Action := ⟨.semWait isKey, offset, answers⟩

/-- One character into the buffer, and the post. -/
def queueKey (x : KeyMachine) (c : ℤ) (answers : List ℕ) : Option KeyMachine :=
  (x.toMachine.step (postAction answers)).map fun m => { x with toMachine := m, toKeys := x.toKeys.store c }

def queueKeys : List ℤ → List (List ℕ) → KeyMachine → Option KeyMachine
  | [], _, x => some x
  | c :: cs, answers, x => (x.queueKey c (answers.headD [])).bind (queueKeys cs answers.tail)

/-- Ctrl and `C`: the foreground process is killed. -/
def killAction (x : KeyMachine) (offset : ℕ) (answers : List ℕ) : Action :=
  ⟨.killProcess (x.pid (getForegroundProcess x.toCore)), offset, answers⟩

def loadBuffer (x : KeyMachine) (key : ℕ) (low : ℤ) (offset : ℕ) (answers : List (List ℕ)) : Option KeyMachine :=
  if x.ctrlPressed = true ∧ key = 0x2E then x.callStep (x.killAction offset (answers.headD []))
  else queueKeys (x.loaded key low) answers x

/-- The state of the modifier keys is updated first. -/
def pressed (x : KeyMachine) (scancode : ℕ) (isPressed : Bool) : KeyMachine :=
  { x with toKeys := x.updateKeyboardStatus scancode isPressed }

/-- The keyboard interrupt. -/
def int21 (x : KeyMachine) (scancode : ℕ) (isPressed : Bool) (low : ℤ) (offset : ℕ) (answers : List (List ℕ)) :
    Option KeyMachine :=
  let x := x.pressed scancode isPressed
  if isPressed = true then x.loadBuffer scancode low offset answers else some x

/-- The reader takes a character. -/
def take (x : KeyMachine) (t : Reading) : KeyMachine where
  toMachine := x.toMachine
  toKeys := { x.toKeys with read := (x.read + 1) % bufferSize }
  reading := update x.reading x.currentProcess
    (some { t with letters := t.letters ++ [x.letter x.read], waited := false })

/-- Interrupts are off within a call. -/
def step (x : KeyMachine) : KeyAction → Option KeyMachine
  | .call a =>
    match x.current with
    | none => x.callStep a
    | some _ => none
  | .key scancode isPressed low offset answers =>
    match x.current with
    | none => x.int21 scancode isPressed low offset answers
    | some _ => none
  | .readKeyboard count =>
    match x.current with
    | none => some (x.setCurrent (some ⟨count, [], false⟩) x.toMachine)
    | some _ => none
  | .goOn offset answers =>
    match x.current with
    | none => none
    | some t =>
      if t.waited then some (x.take t)
      else if t.Unfinished then
        (x.toMachine.step (waitAction offset answers)).map (x.setCurrent (some { t with waited := true }))
      else some (x.setCurrent none x.toMachine)

/-- The characters that a key event queues from a position on. -/
def queuedFrom : ℕ → List ℤ → List KeyEvent
  | _, [] => []
  | i, c :: cs => .queued i c :: queuedFrom ((i + 1) % bufferSize) cs

def events (x : KeyMachine) : KeyAction → List KeyEvent
  | .call _ | .readKeyboard _ => []
  | .key scancode isPressed low _ _ =>
    let x := x.pressed scancode isPressed
    if isPressed = true ∧ ¬(x.ctrlPressed = true ∧ scancode = 0x2E) then
      queuedFrom x.write (x.loaded scancode low)
    else []
  | .goOn _ _ =>
    match x.current with
    | none => []
    | some t =>
      if t.waited then [.taken x.read (x.letter x.read)]
      else if t.Unfinished then []
      else [.returned t.count t.letters]

end KeyMachine

/-- The machine with the keyboard from boot on. -/
def typing : System KeyMachine KeyAction where
  init x := Boot x.toMachine ∧ x.write = 0 ∧ x.read = 0 ∧ x.shiftPressed = false ∧ x.ctrlPressed = false ∧
    x.capsPressed = false ∧ ∀ p, x.reading p = none
  step x a y := x.step a = some y

namespace KeyMachine

/-- The machine at boot, with an empty keyboard buffer. -/
def initial : KeyMachine := ⟨Machine.initial, ⟨fun _ => 0, 0, 0, false, false, false⟩, fun _ => none⟩

theorem initial_init : typing.init initial :=
  ⟨initial_boot, rfl, rfl, rfl, rfl, rfl, fun _ => rfl⟩

end KeyMachine

/-- What has been queued, and what has been delivered. -/
def queued (es : List KeyEvent) : List ℤ :=
  es.filterMap fun
    | .queued _ c => some c
    | _ => none

def delivered (es : List KeyEvent) : List ℤ :=
  es.filterMap fun
    | .taken _ c => some c
    | _ => none

end BareKernel

import BareKernel.Kernel.KeyboardLaw
import BareKernel.Userland.LineEditor

/-! From the keys to the shell. The line editor gets its characters one by one from
`read_keyboard`, while key events and the calls of other processes come in between. What
it submits are the lines that an editor makes of what has been typed. -/

namespace BareKernel.Userland

open Links Machine

/-- The machine with the line editor of the shell. -/
structure ShellMachine extends KeyMachine where
  editor : Editor

/-- The byte of a character that is read. -/
def charOf (c : ℤ) : Char := Char.ofNat (c % 2 ^ 8).toNat

namespace ShellMachine

/-- What `getKey` of the shell has got when its call returns. -/
def got (p : ℕ) (x : KeyMachine) (b : KeyAction) : List ℤ :=
  if x.currentProcess = p then
    (x.events b).flatMap fun
      | .returned _ letters => letters
      | _ => []
  else []

/-- A pass of the loop for each character. -/
def feed (s : Editor) (letters : List ℤ) : Editor := letters.foldl (fun s c => (s.type (charOf c)).checkFull) s

def step (p : ℕ) (x : ShellMachine) (b : KeyAction) : Option ShellMachine :=
  (x.toKeyMachine.step b).map fun y => ⟨y, feed x.editor (got p x.toKeyMachine b)⟩

def events (x : ShellMachine) (b : KeyAction) : List KeyEvent := x.toKeyMachine.events b

/-- The shell is not ended, and only the shell reads, one character at a time. -/
def Leaves (p : ℕ) (x : KeyMachine) : KeyAction → Prop
  | .call a => ¬a.call.ends (x.before a) p
  | .key scancode isPressed _ offset answers =>
    let x := x.pressed scancode isPressed
    let a := x.killAction offset (answers.headD [])
    x.ctrlPressed = true ∧ scancode = 0x2E → ¬a.call.ends (x.before a) p
  | .readKeyboard count => x.currentProcess = p ∧ count = 1
  | .goOn _ _ => True

instance (p : ℕ) (x : KeyMachine) (b : KeyAction) : Decidable (Leaves p x b) := by
  cases b <;> dsimp only [Leaves] <;> infer_instance

def KeepsShell (p : ℕ) (x : ShellMachine) (b : KeyAction) : Prop :=
  b.KeepsKeys x.toKeyMachine ∧ Leaves p x.toKeyMachine b

instance (p : ℕ) (x : ShellMachine) (b : KeyAction) : Decidable (KeepsShell p x b) :=
  inferInstanceAs (Decidable (_ ∧ _))

end ShellMachine

/-- The machine from boot on; the shell, which is to be the process `p`, waits for its first
character. -/
def session (p : ℕ) : System ShellMachine KeyAction where
  init x := typing.init x.toKeyMachine ∧ x.editor = Editor.initial.clearBuffer.checkFull
  step x b y := x.step p b = some y

open ShellMachine

variable {x y : KeyMachine} {p : ℕ} {b : KeyAction} {d : List ℤ} {es : List KeyEvent}

/-! ### What the shell has got -/

/-- Nobody else reads; what has been taken out of the buffer the shell has got or is about
to get. -/
structure Gets (x : KeyMachine) (p : ℕ) (taken received : List ℤ) : Prop where
  alone : ∀ q ≠ p, x.reading q = none
  taken : taken = received ++ (x.reading p).elim [] BareKernel.Reading.letters

theorem queueKeys_reading {cs : List ℤ} {answers : List (List ℕ)} (h : KeyMachine.queueKeys cs answers x = some y) :
    y.reading = x.reading := by
  induction cs generalizing x answers with
  | nil =>
    obtain rfl := Option.some.inj h
    rfl
  | cons c cs ih =>
    obtain ⟨z, hz, hrest⟩ := Option.bind_eq_some_iff.mp h
    obtain ⟨m, -, rfl⟩ := Option.map_eq_some_iff.mp hz
    rw [ih hrest]

theorem callStep_reading {a : Action} (hp : ¬a.call.ends (x.before a) p) (hothers : ∀ q ≠ p, x.reading q = none)
    (h : x.callStep a = some y) : y.reading = x.reading := by
  obtain ⟨m, -, rfl⟩ := Option.map_eq_some_iff.mp h
  funext q
  show (if a.call.ends (x.before a) q then none else x.reading q) = x.reading q
  split
  case isTrue hends =>
    by_cases hq : q = p
    · exact absurd (hq ▸ hends) hp
    · exact (hothers q hq).symm
  case isFalse => rfl

theorem int21_reading {scancode offset : ℕ} {isPressed : Bool} {low : ℤ} {answers : List (List ℕ)}
    (hp : Leaves p x (.key scancode isPressed low offset answers)) (hothers : ∀ q ≠ p, x.reading q = none)
    (h : x.int21 scancode isPressed low offset answers = some y) : y.reading = x.reading := by
  have hkeep : (x.pressed scancode isPressed).reading = x.reading := rfl
  unfold KeyMachine.int21 at h
  split at h
  · unfold KeyMachine.loadBuffer at h
    dsimp only at h
    split at h
    case isTrue hkill =>
      rw [← hkeep]
      exact callStep_reading (hp hkill) (fun q hq => hothers q hq) h
    case isFalse =>
      rw [← hkeep]
      exact queueKeys_reading h
  · obtain rfl := Option.some.inj h
    rfl

theorem mem_queuedFrom {cs : List ℤ} {i : ℕ} {e : KeyEvent} (he : e ∈ KeyMachine.queuedFrom i cs) :
    ∃ j c, e = .queued j c := by
  induction cs generalizing i with
  | nil => cases he
  | cons c cs ih =>
    rcases List.mem_cons.mp he with rfl | he
    · exact ⟨i, c, rfl⟩
    · exact ih he

/-- Key events only queue. -/
theorem events_key {scancode offset : ℕ} {isPressed : Bool} {low : ℤ} {answers : List (List ℕ)} {e : KeyEvent}
    (he : e ∈ x.events (.key scancode isPressed low offset answers)) : ∃ j c, e = .queued j c := by
  dsimp only [KeyMachine.events] at he
  split at he
  · exact mem_queuedFrom he
  · cases he

theorem delivered_nil (h : ∀ e ∈ es, ∃ j c, e = .queued j c) : delivered es = [] := by
  rw [delivered, List.filterMap_eq_nil_iff]
  intro e he
  obtain ⟨j, c, rfl⟩ := h e he
  rfl

theorem got_nil (h : ∀ e ∈ x.events b, ∃ j c, e = .queued j c) : got p x b = [] := by
  unfold got
  split
  · rw [List.flatMap_eq_nil_iff]
    intro e he
    obtain ⟨j, c, rfl⟩ := h e he
    rfl
  · rfl

/-- In each step the shell gets what has been taken for it. -/
theorem Gets.step {received : List ℤ} (h : Gets x p d received) (hok : Leaves p x b) (hrun : x.step b = some y) :
    Gets y p (d ++ delivered (x.events b)) (received ++ got p x b) := by
  cases b with
  | call a =>
    have hnone : ∀ e ∈ x.events (.call a), ∃ j c, e = .queued j c := fun e he => by cases he
    simp only [KeyMachine.step] at hrun
    split at hrun
    · have hread := callStep_reading hok h.alone hrun
      rw [delivered_nil hnone, got_nil hnone, List.append_nil, List.append_nil]
      exact ⟨fun q hq => by rw [hread]; exact h.alone q hq, by rw [hread]; exact h.taken⟩
    · cases hrun
  | key scancode isPressed low offset answers =>
    simp only [KeyMachine.step] at hrun
    split at hrun
    · have hread := int21_reading hok h.alone hrun
      rw [delivered_nil fun e => events_key, got_nil fun e => events_key, List.append_nil, List.append_nil]
      exact ⟨fun q hq => by rw [hread]; exact h.alone q hq, by rw [hread]; exact h.taken⟩
    · cases hrun
  | readKeyboard count =>
    have hnone : ∀ e ∈ x.events (.readKeyboard count), ∃ j c, e = .queued j c := fun e he => by cases he
    have hcur : x.currentProcess = p := hok.1
    simp only [KeyMachine.step] at hrun
    split at hrun
    case h_1 hidle =>
      obtain rfl := Option.some.inj hrun
      rw [delivered_nil hnone, got_nil hnone, List.append_nil, List.append_nil]
      refine ⟨fun q hq => (Function.update_of_ne (hcur ▸ hq) ..).trans (h.alone q hq), ?_⟩
      have hbefore : x.reading p = none := hcur ▸ hidle
      have hafter : (x.setCurrent (some ⟨count, [], false⟩) x.toMachine).reading p = some ⟨count, [], false⟩ := by
        rw [← hcur]
        exact Function.update_self ..
      rw [hafter, h.taken, hbefore]
      rfl
    case h_2 => cases hrun
  | goOn offset answers =>
    simp only [KeyMachine.step] at hrun
    cases hcur : x.current with
    | none =>
      rw [hcur] at hrun
      cases hrun
    | some t =>
      -- only the shell is inside `read_keyboard`
      have hp : x.currentProcess = p := by
        by_contra hne
        have hnone : x.current = none := h.alone _ hne
        rw [hnone] at hcur
        cases hcur
      have hreading : x.reading p = some t := hp ▸ hcur
      have hletters := h.taken
      rw [hreading] at hletters
      have hset (o : Option BareKernel.Reading) (m : Machine) : (∀ q ≠ p, (x.setCurrent o m).reading q = none) ∧
          (x.setCurrent o m).reading p = o := by
        refine ⟨fun q hq => (Function.update_of_ne (hp ▸ hq) ..).trans (h.alone q hq), ?_⟩
        rw [← hp]
        exact Function.update_self ..
      rw [hcur] at hrun
      dsimp only at hrun
      unfold got
      rw [if_pos hp]
      dsimp only [KeyMachine.events]
      rw [hcur]
      dsimp only
      by_cases hw : t.waited = true
      · rw [if_pos hw] at hrun ⊢
        obtain rfl := Option.some.inj hrun
        set t' : BareKernel.Reading := { t with letters := t.letters ++ [x.letter x.read], waited := false } with ht'
        obtain ⟨halone, hself⟩ := hset (some t') x.toMachine
        refine ⟨halone, ?_⟩
        have hself' : (x.take t).reading p = some t' := hself
        rw [hself', hletters]
        show received ++ t.letters ++ [x.letter x.read] = received ++ [] ++ (t.letters ++ [x.letter x.read])
        simp
      · rw [if_neg hw] at hrun ⊢
        by_cases hun : t.Unfinished
        · rw [if_pos hun] at hrun ⊢
          obtain ⟨m, -, rfl⟩ := Option.map_eq_some_iff.mp hrun
          obtain ⟨halone, hself⟩ := hset (some { t with waited := true }) m
          refine ⟨halone, ?_⟩
          rw [hself, hletters]
          show received ++ t.letters ++ [] = received ++ [] ++ t.letters
          simp
        · rw [if_neg hun] at hrun ⊢
          obtain rfl := Option.some.inj hrun
          obtain ⟨halone, hself⟩ := hset none x.toMachine
          refine ⟨halone, ?_⟩
          rw [hself, hletters]
          show received ++ t.letters ++ [] = received ++ (t.letters ++ []) ++ []
          simp

/-! ### Runs -/

theorem feed_append (s : Editor) (cs ds : List ℤ) : feed s (cs ++ ds) = feed (feed s cs) ds := List.foldl_append

/-- The keyboard is a queue, the shell has got a prefix of it, and the editor has read that. -/
structure Follows (x : ShellMachine) (p v n : ℕ) (es : List KeyEvent) (received : List ℤ) : Prop where
  typed : BareKernel.Typed x.toKeyMachine v n (queued es) (delivered es)
  gets : Gets x.toKeyMachine p (delivered es) received
  editor : x.editor = feed Editor.initial.clearBuffer.checkFull received

theorem session_follows {x₀ x : ShellMachine} (hinit : (session p).init x₀)
    (hrun : (session p).Emits (KeepsShell p) events x₀ es x) : ∃ v n received, Follows x p v n es received := by
  induction hrun with
  | refl =>
    obtain ⟨htyping, heditor⟩ := hinit
    have hnobody := htyping.2.2.2.2.2.2
    refine ⟨0, 0, [], typing_typed htyping, ⟨fun q _ => hnobody q, ?_⟩, heditor⟩
    rw [hnobody p]
    rfl
  | @step x y b es _ hok hst ih =>
    obtain ⟨v, n, received, htyped, hgets, heditor⟩ := ih
    obtain ⟨hkeys, hleaves⟩ := hok
    obtain ⟨z, hz, rfl⟩ := Option.map_eq_some_iff.mp hst
    obtain ⟨⟨v', n', htyped'⟩, -⟩ := htyped.step hkeys hz
    have hgets' := hgets.step hleaves hz
    refine ⟨v', n', received ++ got p x.toKeyMachine b, ?_, ?_, ?_⟩
    · rw [queued_append, delivered_append]
      exact htyped'
    · rw [delivered_append]
      exact hgets'
    · show feed x.editor _ = _
      rw [heditor, feed_append]

/-- The commands that the shell executes are the lines that an editor submits of the characters
typed, as far as the shell has got them: in their order, none twice and none left out. When
nothing is unread and the shell is not in a call, it has got everything. -/
theorem typed_lines_executed {x₀ x : ShellMachine} (hinit : (session p).init x₀)
    (hrun : (session p).Emits (KeepsShell p) events x₀ es x) (hnul : nul ∉ (queued es).map charOf) :
    ∃ received, received <+: queued es ∧
      (x.reading p = none → x.read = x.write → received = queued es) ∧
      List.Forall₂ HoldsLine x.editor.commands (Typed.typeAll (received.map charOf)).commands ∧
      ∀ a ∈ x.editor.accesses, InBuffer a := by
  obtain ⟨v, n, received, htyped, hgets, heditor⟩ := session_follows hinit hrun
  have hgot : received <+: queued es := by
    refine List.IsPrefix.trans ?_ htyped.window.isPrefix
    rw [hgets.taken]
    exact List.prefix_append ..
  have hshell : x.editor = Editor.shell (received.map charOf) := by
    rw [heditor, Editor.shell, List.foldl_map]
    rfl
  have hmatches : (Editor.shell (received.map charOf)).Matches (Typed.typeAll (received.map charOf)) :=
    Editor.shell_matches fun hmem => hnul ((hgot.map charOf).subset hmem)
  rw [← hshell] at hmatches
  refine ⟨received, hgot, fun hidle hread => ?_, hmatches.commands, hmatches.accesses⟩
  -- without a gap between the two positions nothing is unread
  have htail := htyped.window.tail
  have hlength := htyped.window.length
  have hlow := htyped.window.low
  have hroom := htyped.room
  have hwritten := htyped.written
  have hsize : bufferSize = 2048 := rfl
  have hsize' : buffSize = 1024 := rfl
  have hn : n = 0 := by
    rw [hsize] at htail hlow
    omega
  have hall := hgets.taken
  rw [hidle] at hall
  have hsame : delivered es = queued es := htyped.window.isPrefix.eq_of_length (by omega)
  rw [← hsame, hall]
  exact (List.append_nil received).symm

/-! ### Two characters and a correction -/

/-- The machine at boot, and a shell that has nothing yet. -/
def atBoot : ShellMachine := ⟨KeyMachine.initial, Editor.initial.clearBuffer.checkFull⟩

/-- The shell is the second process. It waits for its first character; then `P`, `A`, backspace,
`S` and the enter key are pressed. -/
def typePs : List KeyAction :=
  [.call (create 100), .call (create 200), .call (plain .tick), .readKeyboard 1, .goOn 0 [], press 0x19, press 0x1E,
    press 14, press 0x1F, press 28, .call (plain .tick), .goOn 0 [], .goOn 0 []] ++
  (List.replicate 4 [.readKeyboard 1, .goOn 0 [], .goOn 0 [], .goOn 0 []]).flatten

theorem typed_lines_executed_typePs :
    ∃ x es, (session 201).Emits (KeepsShell 201) events atBoot es x ∧
      queued es = ['p', 'a', backspace, 's', newline].map (fun c => (c.toNat : ℤ)) ∧
      List.Forall₂ HoldsLine x.editor.commands [['p', 's']] := by
  obtain ⟨x, hx⟩ := Option.isSome_iff_exists.mp
    (show (System.runList (ShellMachine.step 201) (KeepsShell 201) atBoot typePs).isSome = true by decide +kernel)
  have hrun : (session 201).Emits (KeepsShell 201) events atBoot
      (System.emitted (ShellMachine.step 201) events atBoot typePs) x := System.runList_emits (fun _ _ _ => id) hx
  have hqueued : queued (System.emitted (ShellMachine.step 201) events atBoot typePs) =
      ['p', 'a', backspace, 's', newline].map fun c => (c.toNat : ℤ) := by decide +kernel
  have hend : ((System.runList (ShellMachine.step 201) (KeepsShell 201) atBoot typePs).map fun x =>
      ((x.reading 201).isNone, x.read, x.write)) = some (true, 5, 5) := by decide +kernel
  rw [hx, Option.map_some, Option.some.injEq, Prod.mk.injEq, Prod.mk.injEq, Option.isNone_iff_eq_none] at hend
  obtain ⟨received, -, hall, hlines, -⟩ := typed_lines_executed ⟨KeyMachine.initial_init, rfl⟩ hrun (by
    rw [hqueued]
    decide)
  rw [hall hend.1 (hend.2.1.trans hend.2.2.symm), hqueued] at hlines
  exact ⟨x, _, hrun, hqueued, hlines⟩

end BareKernel.Userland
